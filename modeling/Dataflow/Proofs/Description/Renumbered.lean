import Dataflow.Proofs.Description.Wired
import Mathlib.Data.Set.Function

/-! Networks that differ in the keys of their ports only, and why a description leaves nothing else
open. -/

open List Option

namespace Dataflow

/-- Two processes are the same, except for the keys of their ports and the order in which children
are listed. -/
structure Process.Alike (rename : PortKey → PortKey) (process other : Process) : Prop where
  kind : other.kind.mapInside (·.toHelpers) = process.kind.mapInside (·.toHelpers)
  children : ∀ {inside around}, process.kind.inside? = some inside →
    other.kind.inside? = some around → around.children.Perm inside.children
  hierarchy : other.hierarchy = process.hierarchy
  ports : ∀ direction, other.ports direction = (process.ports direction).map rename

namespace Network

variable {net too : Network} {id : ProcessId} {key other first second : PortKey}
  {entries : List (Hierarchy × ProcessDecl)}
  {dir : Direction} {keys others : List PortKey} {proc : Process} {port : Port}

/--
Two networks are the same, except for the keys of their ports and the order in which children are
listed.

The names that either of them has in store are left open.
-/
structure Renumbered (rename : PortKey → PortKey) (net again : Network) : Prop where
  /-- The live ports of one network are those of the other one. -/
  bijective : Set.BijOn rename {key | (net.port? key).isSome} {key | (again.port? key).isSome}
  ports : ∀ {key port}, net.port? key = some port →
    again.port? (rename key) = some { port with connection := port.connection.map rename }
  names : ∀ id, (again.process? id).isSome = (net.process? id).isSome
  processes : ∀ {id process other}, net.process? id = some process →
    again.process? id = some other → process.Alike rename other
  inputs : again.inputs = net.inputs.map rename
  outputs : again.outputs = net.outputs.map rename

/-- Ports of two networks that differ in their connections only. -/
def Twins (net again : Network) (key other : PortKey) : Prop :=
  ∃ port peer, net.port? key = some port ∧ again.port? other = some peer ∧
    peer.unlinked = port.unlinked

namespace Twins

theorem symm (twins : net.Twins too key other) : too.Twins net other key := by
  obtain ⟨port, peer, has, hasPeer, same⟩ := twins
  exact ⟨peer, port, hasPeer, has, same.symm⟩

theorem unique (inv : too.Consistent) (twins : net.Twins too key first)
    (twinsToo : net.Twins too key second) : first = second := by
  obtain ⟨port, peer, has, hasPeer, same⟩ := twins
  obtain ⟨portToo, peerToo, hasToo, hasPeerToo, sameToo⟩ := twinsToo
  obtain rfl := mem_unique has hasToo
  obtain ⟨name, owner, side, -⟩ := Port.unlinked_eq.mp (same.trans sameToo.symm)
  exact inv.named hasPeer hasPeerToo owner side name

theorem labels (twins : net.Twins too key other) {ref : String} (labels : net.Labels dir key ref) :
    too.Labels dir other ref := by
  obtain ⟨port, peer, has, hasPeer, same⟩ := twins
  obtain ⟨side, dotless, rfl⟩ := of_found has labels
  obtain ⟨sameName, sameOwner, sameSide, -⟩ := Port.unlinked_eq.mp same
  exact ⟨peer, hasPeer, sameSide.trans side, sameName ▸ dotless,
    by rw [Port.label, Port.label, sameName, sameOwner]⟩

end Twins

theorem eq_map_of_twins {rename : PortKey → PortKey}
    (renames : ∀ {key other}, net.Twins too key other → rename key = other)
    (twins : List.Forall₂ (net.Twins too) keys others) : others = keys.map rename := by
  rw [← forall₂_eq_eq_eq, forall₂_map_right_iff]
  exact twins.flip.imp fun _ _ twins => (renames twins).symm

namespace Declares

variable (declares : net.Declares entries) (declaresToo : too.Declares entries)

include declares declaresToo

theorem shown_eq (id : ProcessId) : too.shown id = net.shown id :=
  ext fun entry => (declaresToo.shown id entry).trans (declares.shown id entry).symm

theorem exists_alike (got : net.process? id = some proc) :
    ∃ other, too.process? id = some other ∧ other.hierarchy = proc.hierarchy ∧
      too.decl id other = net.decl id proc := by
  have same := declares.shown_eq declaresToo id
  rw [Network.shown, Network.shown, got] at same
  obtain ⟨other, gotToo, alike⟩ := map_eq_some_iff.mp same
  exact ⟨other, gotToo, congrArg Prod.fst alike, congrArg Prod.snd alike⟩

theorem parentOf?_eq (id : ProcessId) : too.parentOf? id = net.parentOf? id := by
  have same := congrArg (bind · (·.1.parent?)) (declares.shown_eq declaresToo id)
  simpa [Network.shown, Network.parentOf?, bind_map] using same

theorem exists_twin (has : net.port? key = some port) : ∃ other, net.Twins too key other := by
  obtain ⟨proc, got, listed⟩ := declares.inv.owned has
  obtain ⟨other, gotToo, -, alike⟩ := declares.exists_alike declaresToo got
  have isDeclared : port.decl ∈ (net.decl port.owner proc).ports port.direction := by
    have mem : port.decl ∈ net.decls (proc.ports port.direction) :=
      mem_map.mpr ⟨port, mem_filterMap.mpr ⟨key, listed, has⟩, rfl⟩
    cases side : port.direction <;> rw [side] at mem <;> exact mem
  have isDeclaredToo : port.decl ∈ too.decls (other.ports port.direction) := by
    rw [← alike] at isDeclared
    cases side : port.direction <;> rw [side] at isDeclared <;> exact isDeclared
  obtain ⟨peer, isPeer, sameDecl⟩ := mem_map.mp isDeclaredToo
  obtain ⟨twin, isPort, hasPeer⟩ := mem_filterMap.mp isPeer
  obtain ⟨owner, side⟩ := of_found hasPeer (declaresToo.inv.listed gotToo isPort)
  simp only [Port.decl, PortDecl.mk.injEq] at sameDecl
  exact ⟨twin, port, peer, has, hasPeer, Port.unlinked_eq.mpr ⟨sameDecl.1, owner, side, sameDecl.2⟩⟩

end Declares

theorem forall₂_twins (inv : net.Consistent) (invToo : too.Consistent) {other : Process}
    (got : net.process? id = some proc) (gotToo : too.process? id = some other)
    (same : too.decls (other.ports dir) = net.decls (proc.ports dir)) :
    List.Forall₂ (net.Twins too) (proc.ports dir) (other.ports dir) := by
  -- The ports of both processes are declared alike, one by one.
  have live {net : Network} {proc : Process} (inv : net.Consistent)
      (got : net.process? id = some proc) :
      ∀ key ∈ proc.ports dir, ∃ port, net.port? key = some port ∧ port.owner = id ∧
      port.direction = dir :=
    fun key mem => inv.listed got mem
  have lives := live inv got
  have livesToo := live invToo gotToo
  generalize proc.ports dir = keys at same lives
  generalize other.ports dir = others at same livesToo
  induction keys generalizing others with
  | nil =>
    cases others with
    | nil => exact .nil
    | cons twin others =>
      obtain ⟨peer, hasPeer, -⟩ := livesToo twin mem_cons_self
      simp [decls, hasPeer] at same
  | cons key keys ih =>
    obtain ⟨port, has, owner, side⟩ := lives key mem_cons_self
    cases others with
    | nil => simp [decls, has] at same
    | cons twin others =>
      obtain ⟨peer, hasPeer, ownerPeer, sidePeer⟩ := livesToo twin mem_cons_self
      simp only [decls, filterMap_cons, hasPeer, has, map_cons, List.cons.injEq, Port.decl,
        PortDecl.mk.injEq] at same
      refine .cons ⟨port, peer, has, hasPeer, ?_⟩
        (ih (fun key mem => lives key (mem_cons_of_mem _ mem)) others same.2 fun key mem =>
          livesToo key (mem_cons_of_mem _ mem))
      exact Port.unlinked_eq.mpr
        ⟨same.1.1, ownerPeer.trans owner.symm, sidePeer.trans side.symm, same.1.2⟩

namespace Built

variable {links : List Connection} {inputs outs : List String}

section

variable (built : net.Built entries links inputs outs)
  (builtToo : too.Built entries links inputs outs)

include built builtToo

theorem connects_twins {src dst : PortKey} (connects : net.Connects src dst)
    (twins : net.Twins too src first) (twinsToo : net.Twins too dst second) :
    too.Connects first second := by
  obtain ⟨link, mem, isSrc, isDst⟩ := built.wires.declared connects
  obtain ⟨start, stop, connectsToo, isStart, isStop⟩ := builtToo.wires.made link mem
  rw [(twins.labels isSrc).unique builtToo.declares.inv isStart,
    (twinsToo.labels isDst).unique builtToo.declares.inv isStop]
  exact connectsToo

theorem connection_twin {peer : Port} {far : PortKey} (has : net.port? key = some port)
    (hasPeer : too.port? other = some peer) (same : peer.unlinked = port.unlinked)
    (conn : port.connection = some far) :
    ∃ twin, net.Twins too far twin ∧ peer.connection = some twin := by
  have inv := built.declares.inv
  obtain ⟨farPort, hasFar, back, crosses⟩ := inv.linked has conn
  obtain ⟨twin, twins⟩ := built.declares.exists_twin builtToo.declares hasFar
  have here : net.Twins too key other := ⟨port, peer, has, hasPeer, same⟩
  refine ⟨twin, twins, ?_⟩
  cases side : port.direction with
  | output =>
    obtain ⟨-, leads⟩ :=
      of_found hasPeer (built.connects_twins builtToo ⟨port, has, side, conn⟩ here twins)
    exact leads
  | input =>
    have leaves := built.declares.inv.linked.crosses_back has conn hasFar side
    obtain ⟨_, hasTwin, -, leads⟩ :=
      built.connects_twins builtToo ⟨farPort, hasFar, leaves, back⟩ twins here
    exact builtToo.declares.inv.linked.back hasTwin leads hasPeer

end

theorem forall₂_labels {references : List String} (declares : net.Declares entries)
    (declaresToo : too.Declares entries) (labels : List.Forall₂ (net.Labels dir) keys references)
    (labelsToo : List.Forall₂ (too.Labels dir) others references) :
    List.Forall₂ (net.Twins too) keys others := by
  induction labels generalizing others with
  | nil => cases labelsToo; exact .nil
  | cons isLabel _ ih =>
    cases labelsToo with
    | cons isLabelToo rest =>
      obtain ⟨port, has, -⟩ := id isLabel
      obtain ⟨other, twins⟩ := declares.exists_twin declaresToo has
      rw [isLabelToo.unique declaresToo.inv (twins.labels isLabel)]
      exact .cons twins (ih rest)

section Renaming

variable (built : net.Built entries links inputs outs)
  (builtToo : too.Built entries links inputs outs)
  {rename : PortKey → PortKey}
  (renames : ∀ {key other}, net.Twins too key other → rename key = other)

include built builtToo renames

theorem port?_rename (has : net.port? key = some port) :
    too.port? (rename key) = some { port with connection := port.connection.map rename } := by
  obtain ⟨other, twins⟩ := built.declares.exists_twin builtToo.declares has
  rw [renames twins]
  obtain ⟨_, peer, hasToo, hasPeer, same⟩ := twins
  obtain rfl := mem_unique has hasToo
  have leads : peer.connection = port.connection.map rename := by
    cases conn : port.connection with
    | some far =>
      obtain ⟨twin, twins, leads⟩ := built.connection_twin builtToo has hasPeer same conn
      rw [leads, map_some, renames twins]
    | none =>
      refine eq_none_iff_forall_ne_some.mpr fun far leads => ?_
      obtain ⟨_, -, back⟩ := builtToo.connection_twin built hasPeer has same.symm leads
      simp [conn] at back
  obtain ⟨name, owner, side, type⟩ := Port.unlinked_eq.mp same
  rw [hasPeer, ← leads, ← name, ← owner, ← side, ← type]

theorem bijOn_rename :
    Set.BijOn rename {key | (net.port? key).isSome} {key | (too.port? key).isSome} := by
  have twin {key} (live : (net.port? key).isSome) : net.Twins too key (rename key) := by
    obtain ⟨port, has⟩ := isSome_iff_exists.mp live
    obtain ⟨other, twins⟩ := built.declares.exists_twin builtToo.declares has
    rwa [renames twins]
  refine ⟨fun key live => ?_, fun key live other liveOther same => ?_, fun other live => ?_⟩
  · obtain ⟨_, peer, -, hasPeer, -⟩ := twin live
    simp [hasPeer]
  · have twins := twin liveOther
    rw [← same] at twins
    exact (twin live).symm.unique built.declares.inv twins.symm
  · obtain ⟨peer, hasPeer⟩ := isSome_iff_exists.mp live
    obtain ⟨key, twins⟩ := builtToo.declares.exists_twin built.declares hasPeer
    obtain ⟨_, port, -, has, -⟩ := id twins
    exact ⟨key, by simp [has], renames twins.symm⟩

theorem alike_rename {other : Process} (got : net.process? id = some proc)
    (gotToo : too.process? id = some other) : proc.Alike rename other := by
  obtain ⟨hier, alike⟩ := of_found gotToo (built.declares.exists_alike builtToo.declares got)
  have decls (dir : Direction) : too.decls (other.ports dir) = net.decls (proc.ports dir) := by
    cases dir
    · exact congrArg ProcessDecl.inPorts alike
    · exact congrArg ProcessDecl.outPorts alike
  have twins (dir : Direction) :=
    forall₂_twins built.declares.inv builtToo.declares.inv got gotToo (decls dir)
  refine ⟨congrArg ProcessDecl.kind alike, fun {inside around} isInside isAround => ?_, hier,
    fun dir => eq_map_of_twins renames (twins dir)⟩
  have children : net.childrenOf? id = some inside.children := by
    simp [Network.childrenOf?, got, isInside]
  have childrenToo : too.childrenOf? id = some around.children := by
    simp [Network.childrenOf?, gotToo, isAround]
  refine (perm_ext_iff_of_nodup (builtToo.declares.nested.once childrenToo)
    (built.declares.nested.once children)).mpr
    fun child => ?_
  rw [builtToo.declares.nested.members childrenToo, built.declares.nested.members children,
    built.declares.parentOf?_eq builtToo.declares]

theorem renumbered : net.Renumbered rename too where
  bijective := built.bijOn_rename builtToo renames
  ports := built.port?_rename builtToo renames
  names id := by
    have same := congrArg isSome (built.declares.shown_eq builtToo.declares id)
    simpa [Network.shown] using same
  processes := built.alike_rename builtToo renames
  inputs :=
    eq_map_of_twins renames
    (forall₂_labels built.declares builtToo.declares built.inputs builtToo.inputs)
  outputs :=
    eq_map_of_twins renames
    (forall₂_labels built.declares builtToo.declares built.outputs builtToo.outputs)

end Renaming

theorem exists_renumbered (built : net.Built entries links inputs outs)
    (builtToo : too.Built entries links inputs outs) : ∃ rename, net.Renumbered rename too := by
  have twin (key : PortKey) : ∃ twin, ∀ other, net.Twins too key other → twin = other := by
    by_cases paired : ∃ other, net.Twins too key other
    · obtain ⟨other, twins⟩ := paired
      exact ⟨other, fun _ twinsToo => twins.unique builtToo.declares.inv twinsToo⟩
    · simp_all
  choose rename renames using twin
  exact ⟨rename, built.renumbered builtToo fun twins => renames _ _ twins⟩

end Built

end Network

end Dataflow
