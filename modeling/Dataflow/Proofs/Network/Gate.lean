import Dataflow.Proofs.Edit.Splice
import Dataflow.Proofs.Graph.Route
import Dataflow.Proofs.Network.Nested

/-! Gates: the ports of composites with the helpers that stand for them inside, and the routes that
lead through them. -/

open List Option

namespace Dataflow

/-- The direction of the ports on the other side. -/
def Direction.opposite : Direction → Direction
  | .input => .output
  | .output => .input

@[simp] theorem Direction.opposite_opposite (dir : Direction) : dir.opposite.opposite = dir := by
  cases dir <;> rfl

@[simp] theorem Direction.opposite_ne (dir : Direction) : dir.opposite ≠ dir := by
  cases dir <;> decide

/-- What stands inside a composite for its ports in a direction. -/
def Direction.helperKind : Direction → Kind Composite
  | .input => .inport
  | .output => .outport

@[simp] theorem Direction.isLeaf_helperKind (dir : Direction) : dir.helperKind.isLeaf := by
  cases dir <;> rfl

/-- The helpers for the ports in a direction. -/
def Helpers.listed (helpers : Helpers) : Direction → List ProcessId
  | .input => helpers.inputs
  | .output => helpers.outputs

namespace Network

variable {net : Network} {id comp other helper : ProcessId} {dir side : Direction} {idx place : Nat}
  {key near far outer inner : PortKey}

/-- The port of a process at a position, if there is one. -/
def portAt? (net : Network) (id : ProcessId) (direction : Direction) (index : Nat) :
    Option PortKey :=
  (net.process? id).bind fun process => (process.ports direction)[index]?

/-- The helper that a composite lists at a position, if there is one. -/
def helperAt? (net : Network) (id : ProcessId) (direction : Direction) (index : Nat) :
    Option ProcessId :=
  ((net.process? id).bind (·.kind.inside?)).bind fun inside => (inside.listed direction)[index]?

/-- A helper stands for a port of a composite, and has a port of its own that leads inside. -/
def Gate (net : Network) (composite : ProcessId) (direction : Direction) (helper : ProcessId)
    (outer inner : PortKey) : Prop :=
  ∃ index, net.helperAt? composite direction index = some helper ∧
    net.portAt? composite direction index = some outer ∧
    net.portAt? helper direction.opposite 0 = some inner

/-- The boundary of the graph on one side. -/
def boundary (net : Network) : Direction → List PortKey
  | .input => net.inputs
  | .output => net.outputs

/-- The boundary on each side consists of ports of that direction. -/
def Sided (net : Network) : Prop :=
  ∀ {side key}, key ∈ net.boundary side → ∃ port, net.port? key = some port ∧ port.direction = side

/-- A connection, taken as values go that enter the graph, or against that. -/
def Follows (net : Network) : Direction → PortKey → PortKey → Prop
  | .input, first, second => net.Connects first second
  | .output, first, second => net.Connects second first

/-- A step into a composite or out of one, past the helper in between. -/
def Passes (net : Network) (direction : Direction) (helper : ProcessId) (near far : PortKey) :
    Prop :=
  (∃ composite, net.Gate composite direction helper near far) ∨
  ∃ composite, net.Gate composite direction.opposite helper far near

/-- A way along connections, into composites and out of them, that notes the helpers it comes
past. -/
abbrev Travels (net : Network) (direction : Direction) :
    PortKey → List ProcessId → PortKey → Prop :=
  Graph.Route (net.Follows direction) (net.Passes direction)

/-- Where a way leads that starts at a port of the boundary. -/
abbrev Arrives (net : Network) (direction : Direction) :
    PortKey → List ProcessId → PortKey → Prop :=
  Graph.Lands (net.Follows direction) (net.Passes direction)

/-- Composites have as many helpers as ports, each of them for one port alone, of its kind and with
a port. -/
structure Fitted (net : Network) : Prop where
  counts : ∀ {id process inside}, net.process? id = some process →
    process.kind = .composite inside →
    ∀ direction, (process.ports direction).length = (inside.listed direction).length
  helpers : ∀ {id direction index helper}, net.helperAt? id direction index = some helper →
    ∃ process, net.process? helper = some process ∧ process.kind = direction.helperKind ∧
      process.ports direction.opposite ≠ []
  once : ∀ {id direction index helper other side place},
    net.helperAt? id direction index = some helper → net.helperAt? other side place = some helper →
    id = other ∧ direction = side ∧ index = place

/-- Helpers have no port but the one that leads inside. -/
def SinglePortHelpers (net : Network) : Prop :=
  ∀ {id direction index helper process}, net.helperAt? id direction index = some helper →
    net.process? helper = some process →
    ∀ key ∈ process.allPorts, net.portAt? helper direction.opposite 0 = some key

theorem isBoundary_iff : net.isBoundary key ↔ ∃ side, key ∈ net.boundary side := by
  rw [isBoundary, Bool.or_eq_true, contains_iff_mem, contains_iff_mem, Direction.exists_iff]
  rfl

theorem portAt?_eq_some : net.portAt? id dir idx = some key ↔
    ∃ proc, net.process? id = some proc ∧ (proc.ports dir)[idx]? = some key :=
  bind_eq_some_iff

theorem helperAt?_eq_some : net.helperAt? id dir idx = some helper ↔
    ∃ proc inside, net.process? id = some proc ∧ proc.kind = .composite inside ∧
      (inside.listed dir)[idx]? = some helper :=
  bind_inside?_eq_some

theorem helperAt?_of_composite {proc : Process} {inside : Composite}
    (got : net.process? id = some proc) (kind : proc.kind = .composite inside) :
    net.helperAt? id dir idx = (inside.listed dir)[idx]? := by
  rw [helperAt?, got, bind_some, kind]
  rfl

theorem passes_opposite :
    net.Passes dir.opposite helper near far ↔ net.Passes dir helper far near := by
  rw [Passes, Passes, Direction.opposite_opposite, or_comm]

theorem follows_opposite : net.Follows dir.opposite near far ↔ net.Follows dir far near := by
  cases dir <;> exact Iff.rfl

namespace Consistent

theorem exists_port (inv : net.Consistent) (mem : net.portAt? id dir idx = some key) :
    ∃ port, net.port? key = some port ∧ port.owner = id ∧ port.direction = dir := by
  obtain ⟨proc, got, atIdx⟩ := portAt?_eq_some.mp mem
  exact inv.listed got (mem_of_getElem? atIdx)

theorem portAt?_inj (inv : net.Consistent) (first : net.portAt? id dir idx = some key)
    (second : net.portAt? other side place = some key) : id = other ∧ dir = side ∧ idx = place := by
  obtain ⟨port, has, rfl, rfl⟩ := inv.exists_port first
  obtain ⟨owner, facing⟩ := of_found has (inv.exists_port second)
  refine ⟨owner, facing, ?_⟩
  obtain ⟨proc, got, atIdx⟩ := portAt?_eq_some.mp first
  obtain ⟨same, gotToo, atPlace⟩ := portAt?_eq_some.mp second
  rw [← owner] at gotToo
  obtain rfl := mem_unique got gotToo
  rw [← facing] at atPlace
  exact (getElem?_inj (List.getElem?_eq_some_iff.mp atIdx).1 (inv.once got)).mp
    (atIdx.trans atPlace.symm)

/-- The port that a connection leads to is found. -/
theorem exists_follows (inv : net.Consistent) (follows : net.Follows dir near far) :
    (∃ port, net.port? near = some port ∧ port.direction = dir.opposite) ∧
      ∃ port, net.port? far = some port ∧ port.direction = dir := by
  cases dir with
  | input =>
    obtain ⟨peer, hasPeer, enters, -⟩ := Connects.exists_target inv.linked follows
    obtain ⟨port, has, leaves, -⟩ := follows
    exact ⟨⟨port, has, leaves⟩, peer, hasPeer, enters⟩
  | output =>
    obtain ⟨peer, hasPeer, enters, -⟩ := Connects.exists_target inv.linked follows
    obtain ⟨port, has, leaves, -⟩ := follows
    exact ⟨⟨peer, hasPeer, enters⟩, port, has, leaves⟩

end Consistent

theorem Follows.unique (linked : net.Linked) {last : PortKey} (first : net.Follows dir near far)
    (second : net.Follows dir near last) : far = last := by
  cases dir with
  | input => exact Connects.target_unique first second
  | output => exact Connects.source_unique linked first second

namespace Gate

variable {another stranger : ProcessId} {outerToo innerToo : PortKey}

variable (gate : net.Gate comp dir helper outer inner)

include gate

theorem exists_outer (inv : net.Consistent) :
    ∃ port, net.port? outer = some port ∧ port.owner = comp ∧ port.direction = dir := by
  obtain ⟨idx, -, atOuter, -⟩ := gate
  exact inv.exists_port atOuter

theorem exists_inner (inv : net.Consistent) :
    ∃ port, net.port? inner = some port ∧ port.owner = helper ∧ port.direction = dir.opposite := by
  obtain ⟨idx, -, -, atInner⟩ := gate
  exact inv.exists_port atInner

theorem exists_composite : ∃ proc, net.process? comp = some proc ∧ proc.kind.isLeaf = false := by
  obtain ⟨idx, mem, -, -⟩ := gate
  obtain ⟨proc, inside, got, kind, -⟩ := helperAt?_eq_some.mp mem
  exact ⟨proc, got, by rw [kind]; rfl⟩

theorem helper_unique (fitted : net.Fitted) (too : net.Gate another side helper outerToo innerToo) :
    comp = another ∧ dir = side ∧ outer = outerToo ∧ inner = innerToo := by
  obtain ⟨idx, mem, atOuter, atInner⟩ := gate
  obtain ⟨place, memToo, atOuterToo, atInnerToo⟩ := too
  obtain ⟨rfl, rfl, rfl⟩ := fitted.once mem memToo
  exact ⟨rfl, rfl, mem_unique atOuter atOuterToo, mem_unique atInner atInnerToo⟩

theorem outer_unique (inv : net.Consistent) (too : net.Gate another side stranger outer innerToo) :
    helper = stranger ∧ dir = side ∧ inner = innerToo := by
  obtain ⟨idx, mem, atOuter, atInner⟩ := gate
  obtain ⟨place, memToo, atOuterToo, atInnerToo⟩ := too
  obtain ⟨rfl, rfl, rfl⟩ := inv.portAt?_inj atOuter atOuterToo
  obtain rfl := mem_unique mem memToo
  exact ⟨rfl, rfl, mem_unique atInner atInnerToo⟩

theorem inner_unique (inv : net.Consistent) (fitted : net.Fitted)
    (too : net.Gate another side stranger outerToo inner) :
    helper = stranger ∧ dir = side ∧ outer = outerToo := by
  have ⟨_, _, _, atInner⟩ := gate
  have ⟨_, _, _, atInnerToo⟩ := too
  obtain ⟨rfl, -, -⟩ := inv.portAt?_inj atInner atInnerToo
  obtain ⟨-, rfl, rfl, -⟩ := gate.helper_unique fitted too
  exact ⟨rfl, rfl, rfl⟩

theorem apart (fitted : net.Fitted) (other : net.Gate another side stranger outerToo innerToo) :
    comp ≠ stranger := by
  rintro rfl
  obtain ⟨idx, mem, -, -⟩ := other
  obtain ⟨proc, got, kind, -⟩ := fitted.helpers mem
  have comp := of_found got gate.exists_composite
  simp [kind] at comp

theorem outer_ne_inner (inv : net.Consistent) (fitted : net.Fitted)
    (other : net.Gate another side stranger outerToo innerToo) : outer ≠ innerToo := by
  rintro rfl
  obtain ⟨port, has, owner, -⟩ := gate.exists_outer inv
  obtain ⟨ownerToo, -⟩ := of_found has (other.exists_inner inv)
  exact gate.apart fitted other (owner.symm.trans ownerToo)

end Gate

namespace Passes

variable {stranger : ProcessId} {nearToo farToo : PortKey}

variable (passes : net.Passes dir helper near far)

include passes

theorem near_unique (inv : net.Consistent) (fitted : net.Fitted)
    (too : net.Passes dir stranger near farToo) : helper = stranger ∧ far = farToo := by
  rcases passes with ⟨comp, gate⟩ | ⟨comp, gate⟩
  · rcases too with ⟨another, gateToo⟩ | ⟨another, gateToo⟩
    · obtain ⟨rfl, -, rfl⟩ := gate.outer_unique inv gateToo
      exact ⟨rfl, rfl⟩
    · exact absurd rfl (gate.outer_ne_inner inv fitted gateToo)
  · rcases too with ⟨another, gateToo⟩ | ⟨another, gateToo⟩
    · exact absurd rfl (gateToo.outer_ne_inner inv fitted gate)
    · obtain ⟨rfl, -, rfl⟩ := gate.inner_unique inv fitted gateToo
      exact ⟨rfl, rfl⟩

theorem far_unique (inv : net.Consistent) (fitted : net.Fitted)
    (too : net.Passes dir stranger nearToo far) : helper = stranger ∧ near = nearToo :=
  near_unique (passes_opposite.mpr passes) inv fitted (passes_opposite.mpr too)

theorem helper_unique (fitted : net.Fitted) (too : net.Passes dir helper nearToo farToo) :
    near = nearToo ∧ far = farToo := by
  rcases passes with ⟨comp, gate⟩ | ⟨comp, gate⟩
  · rcases too with ⟨another, gateToo⟩ | ⟨another, gateToo⟩
    · obtain ⟨-, -, rfl, rfl⟩ := gate.helper_unique fitted gateToo
      exact ⟨rfl, rfl⟩
    · obtain ⟨-, turned, -⟩ := gate.helper_unique fitted gateToo
      exact absurd turned.symm dir.opposite_ne
  · rcases too with ⟨another, gateToo⟩ | ⟨another, gateToo⟩
    · obtain ⟨-, turned, -⟩ := gate.helper_unique fitted gateToo
      exact absurd turned dir.opposite_ne
    · obtain ⟨-, -, rfl, rfl⟩ := gate.helper_unique fitted gateToo
      exact ⟨rfl, rfl⟩

end Passes

end Network

end Dataflow
