import Dataflow.Proofs.Region.Rework

/-! Bundles that nothing else leads into: the search for sections comes upon them. -/

open List

namespace Dataflow.Network

variable {net : Network} {id src : ProcessId} {reg : Section} {chains : List (List ProcessId)}

/-- A sealed bundle whose stop is fed by its branches only. -/
structure Enclosed (net : Network) (region : Section) (chains : List (List ProcessId)) : Prop
    extends net.Sealed region chains where
  sources : ∀ {source}, net.Feeds source region.stop → source ∈ chains.flatten

namespace Enclosed

theorem leadsInto_stop (enclosed : net.Enclosed reg chains) (ready : net.Ready) :
    net.LeadsInto .input (· ∈ chains.flatten) reg.stop := by
  have inv := ready.inv
  obtain ⟨proc, got, -⟩ := (Option.any_eq_true _ _).mp enclosed.closes
  have back (key : PortKey) (mem : key ∈ proc.ports .input) :
      ∃ src, net.remote key = some src ∧ src ∈ chains.flatten := by
    obtain ⟨port, has, owned, enters⟩ := inv.listed got mem
    obtain ⟨other, conn⟩ := Option.ne_none_iff_exists'.mp (enclosed.fed has owned enters)
    obtain ⟨peer, hasPeer, -⟩ := inv.linked has conn
    have leads : net.remote key = some peer.owner :=
      remote_eq_some.mpr ⟨port, other, peer, has, conn, hasPeer, rfl⟩
    exact ⟨peer.owner, leads, enclosed.sources ((inv.feeds_iff_in got).mpr ⟨key, mem, leads⟩)⟩
  refine ⟨proc, got, fun empty => ?_, back⟩
  obtain ⟨chain, mem⟩ := enclosed.exists_chain ready.legal
  obtain ⟨start, key, -, -, -, branch⟩ := enclosed.toBundle.exists_branch mem
  obtain ⟨last, -, feeds⟩ := branch.leaves
  have across := inv.mem_across_input.mpr feeds
  simp [Network.across, got, empty] at across

/-- The bundle is a section that the search for sections comes upon at its stop. -/
theorem reports (enclosed : net.Enclosed reg chains) (ready : net.Ready) : net.Reports reg := by
  have inv := ready.inv
  have bundle := enclosed.toBundle
  have passes : ¬ net.isUnzip reg.stop := fun unzips => not_isZip_of_isUnzip unzips bundle.closes
  refine ⟨bundle.closes, ?_, ⟨(· ∈ reg.members chains), ?_, ?_⟩, (· ∈ reg.members chains), ?_, ?_⟩
  · -- The search goes back from the stop along some branch.
    refine .expand not_mem_nil passes ?_
    obtain ⟨dst, across, isMem, -⟩ :=
      (enclosed.leadsInto_stop ready).exists_both (enclosed.leadsInto_stop ready)
    cases behind : net.across reg.stop .input with
    | nil => simp [behind] at across
    | cons first rest =>
      have onBranch := (enclosed.leadsInto_stop ready).of_mem_across (behind ▸ mem_cons_self)
      exact bundle.finds inv onBranch
        (fun known mem => mem_singleton.mp mem ▸ ⟨bundle.stop_outer, passes⟩) _
  · rintro id isMem elsewhere
    rcases Section.mem_members.mp isMem with rfl | rfl | ⟨chain, mem, onChain⟩
    · exact (bundle.leadsInto_start ready.legal).mono fun other inside => by
        simp [Section.members, inside]
    · exact absurd rfl elsewhere
    · refine (bundle.leadsInto inv (mem_flatten.mpr ⟨chain, mem, onChain⟩) .output).mono ?_
      rintro other (inside | rfl)
      · simp [Section.members, inside]
      · simp [Section.members, Section.gate]
  · simp [Section.members]
  · rintro id isMem elsewhere
    rcases Section.mem_members.mp isMem with rfl | rfl | ⟨chain, mem, onChain⟩
    · exact absurd rfl elsewhere
    · exact (enclosed.leadsInto_stop ready).mono fun other inside => by
        simp [Section.members, inside]
    · refine (bundle.leadsInto inv (mem_flatten.mpr ⟨chain, mem, onChain⟩) .input).mono ?_
      rintro other (inside | rfl)
      · simp [Section.members, inside]
      · simp [Section.members, Section.gate]
  · simp [Section.members]

end Enclosed

end Dataflow.Network
