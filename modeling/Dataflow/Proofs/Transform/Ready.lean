import Dataflow.Proofs.Region.Sealed

/-! Networks that are ready for the transformations of data-parallel sections. -/

open List

namespace Dataflow

/-- A report without errors. -/
def Report.Harmless (report : Report) : Prop :=
  ∀ note ∈ report.notes, note.isError = false

namespace Network

variable {net next : Network} {id : ProcessId} {chain : List ProcessId} {reg : Section}
  {chains : List (List ProcessId)}

/-- A legal network in which the numbers of out-ports can be written down. -/
structure Ready (net : Network) : Prop where
  inv : net.Consistent
  legal : net.Legal
  narrow : ∀ {id process}, net.process? id = some process → process.outPorts.length ≤ UInt32.size

theorem WellFormed.narrow (wf : net.WellFormed) {proc : Process}
    (got : net.process? id = some proc) : proc.outPorts.length ≤ UInt32.size := by
  have keys : proc.outPorts ⊆ List.range net.ports.nextKey := fun key mem => by
    obtain ⟨port, has, -⟩ := wf.listed got (show key ∈ proc.ports .output from mem)
    exact mem_range.mpr (lt_nextKey has)
  have short := (subperm_of_subset (wf.nodup_outPorts got) keys).length_le
  rw [length_range] at short
  exact Nat.le_trans short wf.keysFit

theorem WellFormed.ready (wf : net.WellFormed) (legal : net.Legal) : net.Ready :=
  ⟨wf.toConsistent, legal, wf.narrow⟩

theorem ensureFlat_eq_ok :
    net.ensureFlat = .ok () ↔ ∀ {id proc}, net.process? id = some proc → proc.kind.isLeaf := by
  unfold ensureFlat
  constructor
  · intro flat id proc got
    split at flat
    · cases flat
    · rename_i none
      simpa using find?_eq_none.mp none (id, proc) (mem_toList.mpr got)
  · intro leaves
    split
    · rename_i id proc has
      have mem := mem_of_find?_eq_some has
      have comp := find?_some has
      simp [leaves (mem_toList.mp mem)] at comp
    · rfl

theorem Legal.ensureFlat_eq (legal : net.Legal) : net.ensureFlat = .ok () :=
  ensureFlat_eq_ok.mpr legal.leaves

theorem Ready.toNat_ofNat_length (ready : net.Ready) (bundle : net.Bundle reg chains) :
    (UInt64.ofNat chains.length).toNat = chains.length := by
  obtain ⟨proc, got, -, branches⟩ := bundle.opens
  have bounded := ready.narrow got
  rw [branches.length_eq] at bounded
  rw [UInt64.toNat_ofNat', Nat.mod_eq_of_lt (Nat.lt_of_le_of_lt bounded (by decide))]

theorem Ready.ofNat_length_ne_zero (ready : net.Ready) (bundle : net.Bundle reg chains) :
    UInt64.ofNat chains.length ≠ 0 := by
  obtain ⟨chain, mem⟩ := bundle.exists_chain ready.legal
  have positive := length_pos_of_mem mem
  intro zero
  have count := ready.toNat_ofNat_length bundle
  rw [zero, UInt64.toNat_zero] at count
  omega

/-- The functions that a chain of processes applies, in order. -/
def functionsOf (net : Network) (chain : List ProcessId) : List Func :=
  chain.flatMap fun id => (net.kindOf id).functions

theorem functionsOf_eq_flatMap (net : Network) (chain : List ProcessId) :
    net.functionsOf chain = (chain.map net.kindOf).flatMap Kind.functions := by
  rw [functionsOf, flatMap_map]

theorem chainFunctions_eq (exist : chain ⊆ net.ids) :
    net.chainFunctions chain = .ok (net.functionsOf chain) := by
  rw [chainFunctions, chainKinds_eq exist]
  simp [functionsOf, flatMap_map, bind, Except.bind, pure, Except.pure]

theorem Legal.functions_ne_nil (legal : net.Legal) (shaped : net.isMapShaped id) :
    (net.kindOf id).functions ≠ [] := by
  obtain ⟨proc, got, isMap⟩ := (Option.any_eq_true _ _).mp shaped
  have fits := legal.fits got
  rw [Process.defect?, Option.or_eq_none_iff] at fits
  obtain ⟨payload, -⟩ := fits
  intro none
  simp only [kindOf, got, Option.elim_some] at none
  cases kind : proc.kind with
  | parallelMap branches fns =>
    rw [kind, Kind.functions] at none
    by_cases zero : branches = 0 <;> simp [kind, none, zero, Kind.payloadDefect?] at payload
  | _ => simp_all [Kind.isMapShaped, Kind.functions, Kind.payloadDefect?]

theorem Legal.functionsOf_ne_nil (legal : net.Legal) (some : chain ≠ [])
    (shaped : ∀ id ∈ chain, net.isMapShaped id) : net.functionsOf chain ≠ [] := by
  cases chain with
  | nil => exact absurd rfl some
  | cons id rest =>
    have first := legal.functions_ne_nil (shaped id mem_cons_self)
    simp [functionsOf, first]

section Replacement

variable {start stop fresh : ProcessId} {gone : List ProcessId} {entry exit : PortKey}
  {kind : Kind Composite}
  {hier : Hierarchy}

theorem Replaced.ready (repl : net.Replaced gone entry exit fresh kind hier next)
    (ready : net.Ready) (legal : next.Legal) : next.Ready := by
  refine ⟨repl.inv, legal, fun {id proc} got => ?_⟩
  rcases repl.process_cases got with ⟨-, rfl⟩ | ⟨-, pre⟩
  · exact (by decide : 1 ≤ UInt32.size)
  · exact ready.narrow pre

theorem Line.ready_replaced (line : net.Line chain) (ready : net.Ready)
    (shaped : ∀ id ∈ chain, net.isMapShaped id) (starts : chain.head? = some start)
    (stops : chain.getLast? = some stop) (exc : net.Excisable start stop chain entry exit)
    (repl : net.Replaced chain entry exit fresh kind hier next) (isMap : kind.isMapShaped)
    (inv : kind.payloadDefect? = none) : next.Ready := by
  refine repl.ready ready
    (repl.legal ready.inv ready.legal exc line.chained starts stops line.once
      (List.Subset.refl _) (fun id onChain => not_isDelay_of_isMapShaped (shaped id onChain))
      ?_ ?_ ?_) <;>
    cases kind <;>
    simp_all [Kind.isMapShaped, Kind.isDelay, Kind.isLeaf, Kind.inside?, Process.defect?,
    Process.arityDefect?, Kind.arity, Arity.admits]

theorem Flat.run_adopt (flat : net.Flat) (parent child : ProcessId) :
    ∃ fault, (Edit.adopt parent child).run net = .error fault net := by
  cases got : net.process? parent with
  | none => exact ⟨.unknownProcess parent, by simp [Edit.adopt, process_eq_error got]⟩
  | some proc =>
    have leaf := flat got
    refine ⟨.malformedComposite parent (.insideLeaf child), ?_⟩
    simp only [Edit.adopt, EStateM.run_bind, EStateM.run_get, process_eq_ok.mpr got,
      Edit.run_answer]
    split
    · simp_all [Kind.isLeaf, Kind.inside?]
    · rfl

/-- A network in which only the supply of names has changed. -/
def Renamed (net next : Network) : Prop :=
  next = { net with names := next.names }

theorem Flat.run_addFresh (flat : net.Flat) (stem : String) (kind : Kind Composite)
    {hier : Hierarchy} {parent : ProcessId} (placed : hier.parent? = some parent) :
    ∃ fault next, (Edit.addFresh stem kind hier).run net = .error fault next ∧
      net.Renamed next := by
  let named : Network := { net with names := (net.names.fresh stem).2 }
  simp only [Edit.addFresh, EStateM.run_bind, Edit.freshId, EStateM.run_modifyGet, Edit.addProcess,
    EStateM.run_get, placed]
  split
  · exact ⟨_, named, rfl, rfl⟩
  · obtain ⟨fault, refuses⟩ := @Flat.run_adopt named flat parent (net.names.fresh stem).1
    refine ⟨fault, named, ?_, rfl⟩
    rw [EStateM.run_bind, refuses]

theorem Ready.ends_replaceRegion (ready : net.Ready)
    (exc : net.Excisable start stop gone entry exit) {proc : Process}
    (got : net.process? start = some proc) (stem : String) (leaf : kind.isLeaf) :
    (Edit.replaceRegion start stop stem kind).Ends net
      (fun _ next => proc.hierarchy.parent? = none ∧
        ∃ fresh, net.Replaced gone entry exit fresh kind proc.hierarchy next)
      (fun next => proc.hierarchy.parent? ≠ none ∧ net.Renamed next) := by
  unfold Edit.Ends
  cases placed : proc.hierarchy.parent? with
  | none =>
    obtain ⟨fresh, next, runs, repl⟩ :=
      exc.run_replaceRegion ready.inv ready.legal got placed stem leaf
    rw [runs]
    exact ⟨rfl, fresh, repl⟩
  | some parent =>
    have flat : net.Flat := fun got => ready.legal.leaves got
    obtain ⟨fault, next, refuses, renamed⟩ := flat.run_addFresh stem kind placed
    simp only [Edit.replaceRegion, EStateM.run_bind, EStateM.run_get, process_eq_ok.mpr got,
      Edit.run_answer, refuses]
    exact ⟨by simp, renamed⟩

end Replacement

end Network

end Dataflow
