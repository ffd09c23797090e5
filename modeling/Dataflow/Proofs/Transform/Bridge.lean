import Dataflow.Proofs.Network.Dissolved
import Dataflow.Proofs.Transform.Referable

/-! Bridging a gate: what leads to one side of it is connected with what leads on from the other,
and the helper goes. -/

open Option

namespace Dataflow

namespace Network

variable {net next mid : Network} {dir : Direction} {helper id : ProcessId} {gone proc : Process}
  {key other outer inner entry exit : PortKey}

/-- The other end of the connection of a port. -/
def peer? (net : Network) (key : PortKey) : Option PortKey :=
  (net.port? key).bind (·.connection)

/-- What takes the place of the port of a composite on the boundary when the gate behind it is
bridged. -/
def landing (net : Network) (outer inner : PortKey) : PortKey :=
  match net.peer? outer, net.peer? inner with
  | none, some far => far
  | _, _ => outer

theorem Consistent.peer?_eq_some (inv : net.Consistent) {port : Port}
    (has : net.port? key = some port) :
    net.peer? key = some other ↔ net.Follows port.direction other key := by
  rw [peer?, has]
  cases side : port.direction with
  | input => exact inv.linked.connection_eq_some has side
  | output =>
    constructor
    · exact fun conn => ⟨port, has, side, conn⟩
    · rintro ⟨too, hasToo, -, conn⟩
      obtain rfl := mem_unique has hasToo
      exact conn

/-- What is left when a gate is bridged. -/
structure Bridged (net : Network) (direction : Direction) (helper : ProcessId) (gone : Process)
    (outer inner : PortKey) (next : Network) : Prop where
  dissolved : net.Dissolved [helper] next
  follows : ∀ {first second}, next.Follows direction first second ↔
    first ∉ gone.allPorts ∧ second ∉ gone.allPorts ∧ first ≠ inner ∧ second ≠ outer ∧
    (net.Follows direction first second ∨
      net.Follows direction first outer ∧ net.Follows direction inner second)
  boundary : ∀ side, next.boundary side =
    (net.boundary side).map (PortKey.exchange outer (net.landing outer inner))

/-- What keeps a gate from being bridged: the boundary would be left at a port that leads nowhere,
or at the helper. -/
def Stuck (net : Network) (direction : Direction) (gone : Process) (outer inner : PortKey) : Prop :=
  net.isBoundary outer ∧ (∀ far, net.Follows direction inner far → far = outer) ∨
    ∃ key ∈ gone.allPorts, (net.exchangeBoundary outer (net.landing outer inner)).isBoundary key

/-- The ports of a gate that is about to be bridged. -/
structure Bridging (net : Network) (direction : Direction) (helper : ProcessId) (gone : Process)
    (outer inner : PortKey) : Prop where
  inv : net.Consistent
  placed : net.Placed
  stored : net.process? helper = some gone
  kind : gone.kind = direction.helperKind
  first : (gone.ports direction.opposite)[0]? = some inner
  outerFound : ∃ port, net.port? outer = some port ∧ port.direction = direction

namespace Bridging

variable (bridging : net.Bridging dir helper gone outer inner)

include bridging

theorem innerFound : ∃ port, net.port? inner = some port ∧ port.direction = dir.opposite := by
  obtain ⟨port, has, -, facing⟩ :=
    bridging.inv.listed bridging.stored (List.mem_of_getElem? bridging.first)
  exact ⟨port, has, facing⟩

theorem peer?_outer : net.peer? outer = some other ↔ net.Follows dir other outer := by
  obtain ⟨port, has, rfl⟩ := bridging.outerFound
  exact bridging.inv.peer?_eq_some has

theorem peer?_inner : net.peer? inner = some other ↔ net.Follows dir inner other := by
  obtain ⟨port, has, facing⟩ := bridging.innerFound
  rw [bridging.inv.peer?_eq_some has, facing]
  exact follows_opposite

theorem landing_of_fed (fed : net.Follows dir other outer) : net.landing outer inner = outer := by
  rw [landing, bridging.peer?_outer.mpr fed]

theorem landing_of_free (free : ∀ src, ¬ net.Follows dir src outer)
    (leads : net.Follows dir inner other) : net.landing outer inner = other := by
  have unfed : net.peer? outer = none :=
    eq_none_iff_forall_ne_some.mpr fun src isPeer => free src (bridging.peer?_outer.mp isPeer)
  rw [landing, unfed, bridging.peer?_inner.mpr leads]

theorem landing_of_ended (ended : ∀ far, net.Follows dir inner far → far = outer) :
    net.landing outer inner = outer := by
  rw [landing]
  split
  · rename_i far _ isPeer
    exact ended far (bridging.peer?_inner.mp isPeer)
  · rfl

end Bridging

theorem Spliced.placed (spliced : net.Spliced entry exit next) (placed : net.Placed) :
    next.Placed where
  toNested := placed.toNested.congr (fun id => by rw [parentOf?, parentOf?, spliced.processes])
    fun id => by rw [childrenOf?, childrenOf?, spliced.processes]
  rooted got isParent := by
    rw [spliced.processes] at got
    obtain ⟨outer, gotOuter, place⟩ := placed.rooted got isParent
    exact ⟨outer, by rw [spliced.processes, gotOuter], place⟩

section

variable (bridging : net.Bridging dir helper gone outer inner)

include bridging

theorem Bridging.isSome_landing : (net.port? (net.landing outer inner)).isSome := by
  rw [landing]
  split
  · rename_i far _ isPeer
    obtain ⟨port, has, -⟩ := (bridging.inv.exists_follows (bridging.peer?_inner.mp isPeer)).2
    rw [has, isSome_some]
  · obtain ⟨port, has, -⟩ := bridging.outerFound
    rw [has, isSome_some]

/-- Splicing and moving the boundary take no process away. -/
theorem Bridging.dissolved (spliced : net.Spliced entry exit mid) :
    net.Dissolved [] (mid.exchangeBoundary outer (net.landing outer inner)) := by
  have still (id : ProcessId) : (mid.exchangeBoundary outer (net.landing outer inner)).process? id =
      net.process? id :=
    spliced.processes id
  have moved : mid.Evolves (mid.exchangeBoundary outer (net.landing outer inner)) := by
    refine spliced.evolves.inv.exchangeBoundary fun _ => ?_
    obtain ⟨port, has⟩ := isSome_iff_exists.mp bridging.isSome_landing
    obtain ⟨new, hasNew, -⟩ := exists_of_declared (spliced.declared _) has
    rw [hasNew, isSome_some]
  have placed := spliced.placed bridging.placed
  have unchanged := Dissolved.refl bridging.inv bridging.placed
  exact ⟨spliced.evolves.trans moved,
    ⟨placed.toNested.congr (fun _ => rfl) fun _ => rfl, placed.rooted⟩,
    fun id => by rw [still]; exact unchanged.cores id,
    fun id => by rw [still]; exact unchanged.places id,
    fun key => (spliced.declared key).trans (unchanged.declared key)⟩

theorem Bridging.ends_removeProcess (spliced : net.Spliced entry exit mid)
    (follows : ∀ {first second}, mid.Follows dir first second ↔
      first ≠ inner ∧ second ≠ outer ∧
      (net.Follows dir first second ∨ net.Follows dir first outer ∧ net.Follows dir inner second)) :
    (Edit.removeProcess helper).Ends (mid.exchangeBoundary outer (net.landing outer inner))
      (fun _ next => net.Bridged dir helper gone outer inner next)
      fun next => net.Stuck dir gone outer inner ∧ net.Dissolved [] next := by
  have moved := bridging.dissolved spliced
  have got : (mid.exchangeBoundary outer (net.landing outer inner)).process? helper = some gone :=
    (spliced.processes helper).trans bridging.stored
  have leaf : gone.kind.isLeaf := by rw [bridging.kind]; exact dir.isLeaf_helperKind
  refine (Network.ends_removeProcess moved.evolves.inv got).mono ?_ ?_
  · rintro _ next ⟨apart, removed⟩
    refine ⟨moved.trans (removed.dissolved moved.evolves.inv got apart leaf moved.placed),
      ?_, fun side => ?_⟩
    · intro first second
      have left : next.Follows dir first second ↔
          first ∉ gone.allPorts ∧ second ∉ gone.allPorts ∧ mid.Follows dir first second := by
        cases dir with
        | input => exact removed.connects
        | output =>
          refine removed.connects.trans ?_
          rw [← and_assoc, ← and_assoc, and_comm (a := second ∉ gone.allPorts)]
          exact Iff.rfl
      rw [left, follows]
    · cases side with
      | input => exact removed.inputs.trans (congrArg _ spliced.inputs)
      | output => exact removed.outputs.trans (congrArg _ spliced.outputs)
  · rintro _ ⟨rfl, key, mem, onBdry⟩
    refine ⟨.inr ⟨key, mem, ?_⟩, moved⟩
    rw [exchangeBoundary, spliced.inputs, spliced.outputs] at onBdry
    exact onBdry

end

end Network

namespace Edit

variable {α : Type} {net : Network} {dir : Direction} {helper : ProcessId} {outer : PortKey}

/-- An edit that bridges the gate between a port of a composite and a helper, if the helper is
one. -/
def Bridges (edit : Edit α) (direction : Direction) (outer : PortKey) (helper : ProcessId) : Prop :=
  ∀ net, net.Consistent → net.Placed →
    (∃ port, net.port? outer = some port ∧ port.direction = direction) → edit.Ends net
      (fun _ next => ∃ gone inner, net.Bridging direction helper gone outer inner ∧
        net.Bridged direction helper gone outer inner next)
      fun next =>
        (∀ gone inner, net.Bridging direction helper gone outer inner →
          net.Stuck direction gone outer inner) ∧ net.Dissolved [] next

theorem bridges_of_choice {choose : Process → Edit α} (body : PortKey → Edit α) (fault : Fault)
    (accepts : ∀ proc, proc.kind = dir.helperKind →
      choose proc = get >>= fun net => liftM (net.portAt helper dir.opposite 0) >>= body)
    (refuses : ∀ proc, proc.kind ≠ dir.helperKind → choose proc = throw fault)
    (known : ∀ {net gone inner}, net.Bridging dir helper gone outer inner →
      (body inner).Ends net (fun _ next => net.Bridged dir helper gone outer inner next) fun next =>
        net.Stuck dir gone outer inner ∧ net.Dissolved [] next) :
    (get >>= fun net => liftM (net.process helper) >>= choose : Edit α).Bridges dir outer
      helper := by
  intro net inv placed outerHas
  have still := Network.Dissolved.refl inv placed
  simp only [ends_bind, ends_get]
  cases got : net.process? helper with
  | none =>
    rw [Network.process_eq_error got]
    exact ⟨fun gone inner bridging => by simp [bridging.stored] at got, still⟩
  | some gone =>
    rw [Network.process_eq_ok.mpr got, ends_answer]
    by_cases kind : gone.kind = dir.helperKind
    · rw [accepts gone kind]
      simp only [ends_bind, ends_get]
      cases first : (gone.ports dir.opposite)[0]? with
      | none =>
        have refused : net.portAt helper dir.opposite 0 =
            .error (.missingPort helper dir.opposite 0) := by
          simp [Network.portAt, Network.process_eq_ok.mpr got, first, bind, Except.bind, throw,
            throwThe, MonadExceptOf.throw]
        rw [refused]
        refine ⟨fun proc inner bridging => ?_, still⟩
        obtain rfl := mem_unique bridging.stored got
        cases first.symm.trans bridging.first
      | some inner =>
        rw [Network.portAt_eq got first]
        have bridging : net.Bridging dir helper gone outer inner :=
          ⟨inv, placed, got, kind, first, outerHas⟩
        refine (known bridging).mono (fun _ next bridged => ⟨gone, inner, bridging, bridged⟩)
          fun _ ⟨stuck, left⟩ => ⟨fun proc other bridgingToo => ?_, left⟩
        obtain rfl := mem_unique bridgingToo.stored got
        obtain rfl := mem_unique bridgingToo.first first
        exact stuck
    · rw [refuses gone kind]
      refine ⟨fun proc inner bridging => ?_, still⟩
      obtain rfl := mem_unique bridging.stored got
      exact absurd bridging.kind kind

theorem bridges_inlineInput (id : ProcessId) (idx : Nat) (outer : PortKey) (helper : ProcessId) :
    (inlineInput id idx outer helper).Bridges .input outer helper := by
  refine bridges_of_choice ?body (.malformedComposite id (.notInport idx helper))
    (fun proc kind => ?accepts)
    (fun proc otherKind => ?refuses) fun {net gone inner} bridging => ?known
  case accepts =>
    simp only [kind, Direction.helperKind]
    rfl
  case refuses =>
    cases kind : proc.kind <;> first | rfl | exact absurd kind otherKind
  have inv := bridging.inv
  obtain ⟨first, hasOuter, enters⟩ := bridging.outerFound
  obtain ⟨last, hasInner, leaves⟩ := bridging.innerFound
  obtain ⟨pre, behind, mid, cut, next, disconnects, disconnectsToo, isPre, isBehind, joins,
      still, spliced⟩ :=
    inv.run_splice hasOuter enters hasInner leaves
  have finish := bridging.ends_removeProcess spliced fun {first second} => spliced.connects
  simp only [ends_bind]
  rw [ends_of_run disconnects, ends_of_run disconnectsToo]
  cases behind with
  | some dst =>
    obtain ⟨leads, apart⟩ := (isBehind dst).mp rfl
    cases pre with
    | some src =>
      have fed := (isPre src).mp rfl
      rw [bridging.landing_of_fed fed, Network.exchangeBoundary_self] at finish
      simp only [ends_bind, ends_pure]
      rw [ends_of_run (joins src dst rfl rfl), ends_discard]
      exact finish
    | none =>
      obtain rfl := still (.inl rfl)
      have free (src : PortKey) : ¬ net.Follows .input src outer :=
        fun fed => by cases (isPre src).mpr fed
      rw [bridging.landing_of_free free leads] at finish
      simp only [ends_bind, ends_pure, ends_discard]
      exact finish
  | none =>
    obtain rfl := still (.inr rfl)
    have ended (far : PortKey) (leads : net.Follows .input inner far) : far = outer := by
      by_contra apart
      cases (isBehind far).mpr ⟨leads, apart⟩
    have moved := bridging.dissolved spliced
    rw [bridging.landing_of_ended ended, Network.exchangeBoundary_self] at finish moved
    simp only [ends_bind, ends_get]
    split
    · rename_i onBdry
      rw [Network.isBoundary, spliced.inputs, spliced.outputs] at onBdry
      exact ⟨.inl ⟨onBdry, ended⟩, moved⟩
    · simp only [ends_bind, ends_get, ends_pure, ends_discard]
      exact finish

theorem bridges_inlineOutput (id : ProcessId) (idx : Nat) (outer : PortKey) (helper : ProcessId) :
    (inlineOutput id idx outer helper).Bridges .output outer helper := by
  -- Here the inner port comes first, so that a helper that feeds the composite itself needs a look
  -- of its own.
  refine bridges_of_choice ?body (.malformedComposite id (.notOutport idx helper))
    (fun proc kind => ?accepts)
    (fun proc otherKind => ?refuses) fun {net gone inner} bridging => ?known
  case accepts =>
    simp only [kind, Direction.helperKind]
    rfl
  case refuses =>
    cases kind : proc.kind <;> first | rfl | exact absurd kind otherKind
  have inv := bridging.inv
  obtain ⟨first, hasOuter, leaves⟩ := bridging.outerFound
  obtain ⟨last, hasInner, enters⟩ := bridging.innerFound
  obtain ⟨pre, behind, mid, cut, next, disconnects, disconnectsToo, isPre, isBehind, joins,
      still, spliced⟩ :=
    inv.run_splice hasInner enters hasOuter leaves
  have finish := bridging.ends_removeProcess spliced fun {first second} => by
    refine spliced.connects.trans ⟨?_, ?_⟩
    · rintro ⟨notOuter, notInner, kept | ⟨feeds, leads⟩⟩
      · exact ⟨notInner, notOuter, .inl kept⟩
      · exact ⟨notInner, notOuter, .inr ⟨leads, feeds⟩⟩
    · rintro ⟨notInner, notOuter, kept | ⟨leads, feeds⟩⟩
      · exact ⟨notOuter, notInner, .inl kept⟩
      · exact ⟨notOuter, notInner, .inr ⟨feeds, leads⟩⟩
  simp only [ends_bind]
  rw [ends_of_run disconnects, ends_of_run disconnectsToo]
  cases pre with
  | some src =>
    have feeds := (isPre src).mp rfl
    cases behind with
    | some dst =>
      obtain ⟨leads, -⟩ := (isBehind dst).mp rfl
      rw [bridging.landing_of_fed leads, Network.exchangeBoundary_self] at finish
      simp only [ends_bind]
      rw [ends_of_run (joins src dst rfl rfl), ends_discard]
      exact finish
    | none =>
      obtain rfl := still (.inr rfl)
      have lands : net.landing outer inner = src := by
        by_cases loops : net.Connects outer inner
        · rw [bridging.landing_of_fed loops]
          exact Network.Connects.source_unique inv.linked loops feeds
        · refine bridging.landing_of_free (fun dst leads => ?_) feeds
          have apart : dst ≠ inner := fun same => loops (same ▸ leads)
          cases (isBehind dst).mpr ⟨leads, apart⟩
      rw [lands] at finish
      simp only [ends_bind, ends_discard]
      exact finish
  | none =>
    obtain rfl := still (.inl rfl)
    have ended (far : PortKey) (leads : net.Follows .output inner far) : far = outer := by
      cases (isPre far).mpr leads
    have moved := bridging.dissolved spliced
    rw [bridging.landing_of_ended ended, Network.exchangeBoundary_self] at finish moved
    simp only [ends_bind, ends_get]
    split
    · rename_i onBdry
      rw [Network.isBoundary, spliced.inputs, spliced.outputs] at onBdry
      exact ⟨.inl ⟨onBdry, ended⟩, moved⟩
    · simp only [ends_discard]
      exact finish

end Edit

end Dataflow
