import Dataflow.Proofs.Transform.Contract

/-! Once idle processes were spliced out, no transformation brings new ones. -/

open List

namespace Dataflow.Network

variable {net next : Network} {id src dst : ProcessId} {proc : Process} {reg : Section}
  {chains : List (List ProcessId)}

namespace Immovable

section

variable (immovable : net.Immovable proc) (inv : net.Consistent) (got : net.process? id = some proc)

include immovable inv got

theorem not_fed :
    ¬ net.Feeds src id := fun feeds => by
  obtain ⟨key, other, connects, -, peer, has, rfl⟩ := feeds_iff_connects.mp feeds
  obtain ⟨enters, -⟩ := of_found has (connects.exists_target inv.linked)
  have mem := inv.mem_ports got has rfl
  rw [enters] at mem
  exact immovable.unfed other mem key connects

theorem not_feeds :
    ¬ net.Feeds id dst := fun feeds => by
  obtain ⟨key, other, connects, ⟨port, has, rfl⟩, -⟩ := feeds_iff_connects.mp feeds
  have mem := inv.mem_ports got has rfl
  have ⟨too, hasToo, leaves, _⟩ := connects
  rw [Option.mem_unique has hasToo, leaves] at mem
  exact immovable.ended key mem other connects

end

end Immovable

theorem Consistent.immovable (inv : net.Consistent) (got : net.process? id = some proc)
    (unfed : ∀ src, ¬ net.Feeds src id) (ended : ∀ dst, ¬ net.Feeds id dst)
    (bdry : ∃ key ∈ proc.allPorts, net.isBoundary key) : net.Immovable proc where
  unfed entry mem src connects := by
    obtain ⟨peer, has, owner, -⟩ := inv.listed_in got mem
    have ⟨port, hasPort, _⟩ := connects
    exact unfed port.owner
      (feeds_iff_connects.mpr ⟨src, entry, connects, ⟨port, hasPort, rfl⟩, peer, has, owner⟩)
  ended exit mem dst connects := by
    obtain ⟨port, has, owner, -⟩ := inv.listed_out got mem
    obtain ⟨peer, hasPeer, -⟩ := connects.exists_target inv.linked
    exact ended peer.owner
      (feeds_iff_connects.mpr ⟨exit, dst, connects, ⟨port, has, owner⟩, peer, hasPeer, rfl⟩)
  boundary := bdry

theorem not_isRedundant_of_isMapShaped (shaped : proc.kind.isMapShaped) : ¬ isRedundant proc := by
  rw [isRedundant_iff]
  rintro ⟨kind | kind, -⟩ <;> rw [kind] at shaped <;> cases shaped

theorem Retold.process_of_isRedundant (retold : net.Retold next)
    (got : next.process? id = some proc) (redundant : isRedundant proc) :
    net.process? id = some proc := by
  rcases retold.processes id with same | ⟨old, fn, -, -, named⟩
  · exact same.symm.trans got
  · obtain rfl := Option.mem_unique named got
    exact absurd redundant (not_isRedundant_of_isMapShaped rfl)

theorem Retold.owner_eq (retold : net.Retold next) (key : PortKey) :
    (next.port? key).map Port.owner = (net.port? key).map Port.owner := by
  have same := congrArg (Option.map Port.owner) (retold.declared key)
  rwa [Option.map_map, Option.map_map] at same

theorem Retold.feeds_iff (retold : net.Retold next) : next.Feeds src dst ↔ net.Feeds src dst := by
  simp only [feeds_iff_connects, retold.connects, ← Option.map_eq_some_iff, retold.owner_eq]

theorem Bundle.exists_feeds (bundle : net.Bundle reg chains) (ready : net.Ready) :
    (∃ first, net.Feeds reg.start first) ∧ ∃ last, net.Feeds last reg.stop := by
  obtain ⟨chain, mem⟩ := bundle.exists_chain ready.legal
  obtain ⟨proc, key, got, -, isKey, branch⟩ := bundle.exists_branch mem
  obtain ⟨first, starts⟩ := branch.exists_first
  obtain ⟨last, -, feeds⟩ := branch.leaves
  exact ⟨⟨first, ready.inv.feeds_of_remote got isKey (branch.enters.trans starts)⟩,
    last, feeds⟩

theorem Tidy.several (tidy : net.Tidy) (ready : net.Ready) (bundle : net.Bundle reg chains) :
    chains.length ≠ 1 := fun single => by
  obtain ⟨proc, got, unzips, branches⟩ := bundle.opens
  have fits := ready.legal.admits got
  have kind : proc.kind = .unzip := by cases isKind : proc.kind <;> simp_all [Kind.isUnzip]
  rw [kind] at fits
  have redundant : isRedundant proc := by
    simp only [isRedundant, unzips, Bool.or_true, Bool.true_and, Bool.and_eq_true,
      decide_eq_true_eq]
    simp only [Kind.arity, Arity.admits, Bool.and_eq_true, decide_eq_true_eq] at fits
    exact ⟨fits.1, branches.length_eq.trans single⟩
  obtain ⟨⟨first, feeds⟩, -⟩ := bundle.exists_feeds ready
  exact (tidy got redundant).not_feeds ready.inv got feeds

theorem lasting_tidy : Lasting Tidy where
  replaced {net next start stop fresh gone entry exit kind hier} ready exc shaped repl tidy := by
    -- The new process is a map, and an idle process from before is still cut off from all others.
    intro id proc got redundant
    rcases repl.process_cases got with ⟨-, rfl⟩ | ⟨stays, pre⟩
    · exact absurd redundant (not_isRedundant_of_isMapShaped shaped)
    have immovable := tidy pre redundant
    have other := repl.ne_fresh pre
    refine repl.inv.immovable got (fun src feeds => ?_) (fun dst feeds => ?_) ?_
    · rcases (repl.feeds ready.inv exc).mp feeds with ⟨-, -, fed⟩ | ⟨isFresh, -⟩ | ⟨-, fed⟩
      · exact immovable.not_fed ready.inv pre fed
      · exact other isFresh
      · exact immovable.not_fed ready.inv pre fed
    · rcases (repl.feeds ready.inv exc).mp feeds
        with ⟨-, -, leads⟩ | ⟨-, leads⟩ | ⟨isFresh, -⟩
      · exact immovable.not_feeds ready.inv pre leads
      · exact immovable.not_feeds ready.inv pre leads
      · exact other isFresh
    · obtain ⟨key, mem, onBdry⟩ := immovable.boundary
      obtain ⟨port, has, rfl⟩ := (ready.inv.mem_allPorts pre).mp mem
      have same := exc.substitute_of ready.inv has stays
      refine ⟨key, mem, ?_⟩
      simp only [isBoundary, Bool.or_eq_true, contains_iff_mem, repl.inputs, repl.outputs]
        at onBdry ⊢
      exact onBdry.imp (fun isInput => mem_map.mpr ⟨key, isInput, same⟩) fun isOut =>
        mem_map.mpr ⟨key, isOut, same⟩
  spliced _ got redundant movable _ tidy := absurd (tidy got redundant) movable
  retold {net next} retold tidy := by
    intro id proc got redundant
    have immovable := tidy (retold.process_of_isRedundant got redundant) redundant
    refine ⟨fun entry mem src connects =>
      immovable.unfed entry mem src (retold.connects.mp connects),
      fun exit mem dst connects => immovable.ended exit mem dst (retold.connects.mp connects), ?_⟩
    obtain ⟨key, mem, onBdry⟩ := immovable.boundary
    exact ⟨key, mem, by rwa [isBoundary, retold.inputs, retold.outputs]⟩
  severed {net next reg chains cut} severs tidy := by
    have several := tidy.several severs.ready severs.bundle
    rw [severs.stage.length_eq] at several
    intro id proc got redundant
    obtain ⟨-, entry, exit, entered, left⟩ := isRedundant_iff.mp redundant
    rcases severs.cuts.process_cases got with ⟨-, rfl⟩ | ⟨-, rfl⟩ | pre
    · exact absurd (by simpa [Cut.zipper] using congrArg List.length entered) several
    · exact absurd (by simpa [Cut.unzipper] using congrArg List.length left) several
    have immovable := tidy pre redundant
    have inv := severs.ready.inv
    have outer : ¬ Severs.Inside chains cut id := fun inside => by
      obtain ⟨chain, mem, onChain⟩ := mem_flatten.mp (severs.mem_of_inside pre inside)
      have shaped :=
        of_found pre ((Option.any_eq_true _ _).mp (severs.bundle.isMapShaped mem onChain))
      exact not_isRedundant_of_isMapShaped shaped redundant
    obtain ⟨⟨first, feedsFirst⟩, last, feedsStop⟩ := severs.bundle.exists_feeds severs.ready
    refine severs.readyNext.inv.immovable got (fun src feeds => ?_) (fun dst feeds => ?_) ?_
    · rcases severs.feeds_cases feeds with ⟨-, -, fed⟩ | ⟨-, inside⟩ | ⟨-, inside | rfl⟩
      · exact immovable.not_fed inv pre fed
      · exact outer inside
      · exact outer inside
      · exact immovable.not_fed inv pre feedsStop
    · rcases severs.feeds_cases feeds with ⟨-, -, leads⟩ | ⟨rfl, -⟩ | ⟨inside, -⟩
      · exact immovable.not_feeds inv pre leads
      · exact immovable.not_feeds inv pre feedsFirst
      · exact outer inside
    · obtain ⟨key, isPort, onBdry⟩ := immovable.boundary
      exact ⟨key, isPort, by rwa [isBoundary, severs.cuts.inputs, severs.cuts.outputs]⟩

end Dataflow.Network
