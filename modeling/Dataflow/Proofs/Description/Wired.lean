import Dataflow.Proofs.Description.Processes
import Dataflow.Proofs.Edit.Splice

/-! When the references of a description name ports, and what is connected and on the boundary
then. -/

open List

namespace Dataflow

theorem Builder.splitReference?_label {port : Port} (dotless : '.' ∉ port.name.toList) :
    splitReference? port.label = some (port.owner, port.name) :=
  splitReference?_eq_some.mpr ⟨dotless, rfl⟩

namespace Network

variable {net next : Network} {dir : Direction} {key other : PortKey} {ref : String}
  {links : List Connection}

/-- A reference, split at its last dot, names a port. -/
def Labels (net : Network) (direction : Direction) (key : PortKey) (reference : String) : Prop :=
  ∃ port, net.port? key = some port ∧ port.direction = direction ∧ '.' ∉ port.name.toList ∧
    port.label = reference

namespace Labels

theorem unique (inv : net.Consistent) (first : net.Labels dir key ref)
    (second : net.Labels dir other ref) : key = other := by
  obtain ⟨port, has, side, dotless, isLabel⟩ := first
  obtain ⟨peer, hasPeer, sidePeer, dotlessPeer, rfl⟩ := second
  have split := Builder.splitReference?_label dotless
  rw [isLabel, Builder.splitReference?_label dotlessPeer, Option.some.injEq, Prod.mk.injEq] at split
  exact inv.named has hasPeer split.1.symm (side.trans sidePeer.symm) split.2.symm

theorem reference_unique {too : String} (first : net.Labels dir key ref)
    (second : net.Labels dir key too) : ref = too := by
  obtain ⟨port, has, -, -, rfl⟩ := first
  obtain ⟨peer, hasPeer, -, -, rfl⟩ := second
  rw [Option.mem_unique has hasPeer]

theorem portLabel_eq (labels : net.Labels dir key ref) : net.portLabel key = ref := by
  obtain ⟨port, has, -, -, rfl⟩ := labels
  rw [portLabel, has]

theorem congr
    (same : ∀ key, (next.port? key).map Port.unlinked = (net.port? key).map Port.unlinked) :
    next.Labels dir key ref ↔ net.Labels dir key ref := by
  have oneWay {net next : Network}
      (same : (next.port? key).map Port.unlinked = (net.port? key).map Port.unlinked)
      (labels : next.Labels dir key ref) : net.Labels dir key ref := by
    obtain ⟨port, has, side, dotless, isLabel⟩ := labels
    rw [has, eq_comm] at same
    obtain ⟨old, hasOld, alike⟩ := Option.map_eq_some_iff.mp same
    obtain ⟨sameName, sameOwner, sameSide, -⟩ := Port.unlinked_eq.mp alike
    refine ⟨old, hasOld, sameSide.trans side, sameName ▸ dotless, ?_⟩
    rw [← isLabel, Port.label, Port.label, sameName, sameOwner]
  exact ⟨oneWay (same key), oneWay (same key).symm⟩

end Labels

theorem Declares.exists_labels_iff {desc : Description} (declares : net.Declares desc.placed)
    (every : ∀ decl ∈ desc.processes, ∃ hier, desc.place decl = .ok hier) :
    (∃ key, net.Labels dir key ref) ↔ desc.Names dir ref := by
  constructor
  · rintro ⟨key, port, has, rfl, dotless, rfl⟩
    obtain ⟨proc, got, mem⟩ := declares.inv.owned has
    have isNamed :=
      (@mem_map_ports net port.owner proc port.name port.direction).mpr ⟨key, mem, port, has, rfl⟩
    obtain ⟨declared, isDeclared, sameName⟩ := mem_map.mp isNamed
    refine ⟨_, (Description.mem_placed.mp (declares.mem_of_process got)).1, declared, isDeclared,
      sameName ▸ dotless, ?_⟩
    rw [sameName]
    rfl
  · rintro ⟨decl, mem, declared, isDeclared, dotless, rfl⟩
    obtain ⟨hier, place⟩ := every decl mem
    obtain ⟨proc, got, -, shows⟩ :=
      declares.exists_process (Description.mem_placed.mpr ⟨mem, place⟩)
    have isNamed : declared.name ∈ ((net.decl decl.id proc).ports dir).map (·.name) := by
      rw [shows]
      exact mem_map_of_mem isDeclared
    obtain ⟨key, isPort, port, has, sameName⟩ := mem_map_ports dir |>.mp isNamed
    obtain ⟨owner, side⟩ := of_found has (declares.inv.listed got isPort)
    exact ⟨key, port, has, side, sameName ▸ dotless, by rw [Port.label, owner, sameName]⟩

/-- The connections of a network are those that were declared. -/
structure Wires (net : Network) (connections : List Connection) : Prop where
  made : ∀ connection ∈ connections, ∃ source target, net.Connects source target ∧
    net.Labels .output source connection.source ∧ net.Labels .input target connection.target
  declared : ∀ {source target}, net.Connects source target →
    ∃ connection ∈ connections, net.Labels .output source connection.source ∧
      net.Labels .input target connection.target

theorem Bare.wires (bare : net.Bare) : net.Wires [] where
  made := by simp
  declared := by
    rintro src dst ⟨port, has, -, conn⟩
    simp [bare.free has] at conn

namespace Wires

variable {link : Connection} {src dst : PortKey} {first second : Port}

section

variable (wires : net.Wires links)

include wires

theorem connected_source (inv : net.Consistent) (has : net.port? src = some first)
    (labels : net.Labels .output src ref) : first.isConnected ↔ ref ∈ links.map (·.source) := by
  have leaves : first.direction = .output := by
    obtain ⟨port, hasPort, side, -⟩ := labels
    exact Option.mem_unique has hasPort ▸ side
  rw [Port.isConnected, Option.isSome_iff_exists, mem_map]
  constructor
  · rintro ⟨dst, conn⟩
    obtain ⟨other, mem, isSrc, -⟩ := wires.declared ⟨first, has, leaves, conn⟩
    exact ⟨other, mem, isSrc.reference_unique labels⟩
  · rintro ⟨other, mem, rfl⟩
    obtain ⟨too, dst, ⟨port, hasPort, -, conn⟩, isSrc, -⟩ := wires.made other mem
    obtain rfl := isSrc.unique inv labels
    exact ⟨dst, Option.mem_unique has hasPort ▸ conn⟩

theorem connected_target (inv : net.Consistent) (has : net.port? dst = some second)
    (labels : net.Labels .input dst ref) : second.isConnected ↔ ref ∈ links.map (·.target) := by
  have enters : second.direction = .input := by
    obtain ⟨port, hasPort, side, -⟩ := labels
    exact Option.mem_unique has hasPort ▸ side
  rw [Port.isConnected, Option.isSome_iff_exists, mem_map]
  constructor
  · rintro ⟨src, conn⟩
    obtain ⟨other, mem, -, isDst⟩ :=
      wires.declared ((inv.linked.connection_eq_some has enters).mp conn)
    exact ⟨other, mem, isDst.reference_unique labels⟩
  · rintro ⟨other, mem, rfl⟩
    obtain ⟨src, too, connects, -, isDst⟩ := wires.made other mem
    obtain rfl := isDst.unique inv labels
    exact ⟨src, (inv.linked.connection_eq_some has enters).mpr connects⟩

/-- Connecting two free ports declares one more connection. -/
theorem join (has : net.port? src = some first) (hasToo : net.port? dst = some second)
    (leaves : first.direction = .output) (enters : second.direction = .input)
    (free : first.connection = none) (isSrc : net.Labels .output src link.source)
    (isDst : net.Labels .input dst link.target)
    (same : ∀ key, ((net.join src dst).port? key).map Port.unlinked =
      (net.port? key).map Port.unlinked) : (net.join src dst).Wires (links ++ [link]) := by
  have connects :=
    fun {start stop} =>
    @connects_join net start stop first src dst second has hasToo leaves enters free
  constructor
  · intro other mem
    rcases mem_append.mp mem with mem | mem
    · obtain ⟨start, stop, conn, isStart, isStop⟩ := wires.made other mem
      exact ⟨start, stop, connects.mpr (.inl conn), (Labels.congr same).mpr isStart,
        (Labels.congr same).mpr isStop⟩
    · obtain rfl := mem_singleton.mp mem
      exact ⟨src, dst, connects.mpr (.inr ⟨rfl, rfl⟩), (Labels.congr same).mpr isSrc,
        (Labels.congr same).mpr isDst⟩
  · intro start stop conn
    rcases connects.mp conn with conn | ⟨rfl, rfl⟩
    · obtain ⟨other, mem, isStart, isStop⟩ := wires.declared conn
      exact ⟨other, mem_append_left _ mem, (Labels.congr same).mpr isStart,
        (Labels.congr same).mpr isStop⟩
    · exact ⟨link, by simp, (Labels.congr same).mpr isSrc, (Labels.congr same).mpr isDst⟩

end

end Wires

/-- A network with the given processes, connections and boundary. -/
structure Built (net : Network) (entries : List (Hierarchy × ProcessDecl))
    (connections : List Connection) (inputs outputs : List String) : Prop where
  declares : net.Declares entries
  wires : net.Wires connections
  inputs : List.Forall₂ (net.Labels .input) net.inputs inputs
  outputs : List.Forall₂ (net.Labels .output) net.outputs outputs

namespace Built

variable {entries : List (Hierarchy × ProcessDecl)} {inputs outs : List String}

/-- A live port can be made an input. -/
theorem addInput (built : net.Built entries links inputs outs)
    (labels : net.Labels .input key ref) :
    ∃ after, (Edit.addInput key).run net = .ok () after ∧
      after.Built entries links (inputs ++ [ref]) outs := by
  have ⟨port, has, _⟩ := labels
  have runs : (Edit.addInput key).run net = .ok () { net with inputs := net.inputs ++ [key] } := by
    simp [Edit.addInput, port_eq_ok.mpr has]
  have new := ((Edit.safe_addInput key).evolves built.declares.inv runs).inv
  exact ⟨_, runs, built.declares.relinked new (fun _ => rfl) fun _ => rfl,
    ⟨built.wires.made, built.wires.declared⟩, rel_append built.inputs (.cons labels .nil),
    built.outputs⟩

/-- A live port can be made an output. -/
theorem addOutput (built : net.Built entries links inputs outs)
    (labels : net.Labels .output key ref) :
    ∃ after, (Edit.addOutput key).run net = .ok () after ∧
      after.Built entries links inputs (outs ++ [ref]) := by
  have ⟨port, has, _⟩ := labels
  have runs : (Edit.addOutput key).run net =
      .ok () { net with outputs := net.outputs ++ [key] } := by
    simp [Edit.addOutput, port_eq_ok.mpr has]
  have new := ((Edit.safe_addOutput key).evolves built.declares.inv runs).inv
  exact ⟨_, runs, built.declares.relinked new (fun _ => rfl) fun _ => rfl,
    ⟨built.wires.made, built.wires.declared⟩, built.inputs,
    rel_append built.outputs (.cons labels .nil)⟩

end Built

end Network

namespace Builder

open Network

variable {net : Network} {entries : List (Hierarchy × ProcessDecl)} {done : List Connection}
  {desc : Description}

theorem finds_resolve (inv : net.Consistent) (dir : Direction) (ref : String) :
    Finds (resolve dir ref) net (∃ key, net.Labels dir key ref) fun ans after =>
      after = net ∧ ∃ key, ans = some key ∧ net.Labels dir key ref := by
  refine Finds.get_bind fun building isNet => ?_
  rw [isNet]
  cases split : splitReference? ref with
  | none =>
    refine .of_error (fun findings => ⟨_, rfl⟩) ?_
    rintro ⟨key, port, -, -, dotless, rfl⟩
    rw [splitReference?_label dotless] at split
    cases split
  | some parts =>
    obtain ⟨owner, name⟩ := parts
    have named {key} (labels : net.Labels dir key ref) :
        ∃ port, net.port? key = some port ∧ port.owner = owner ∧ port.direction = dir ∧
        port.name = name := by
      obtain ⟨port, has, side, dotless, rfl⟩ := labels
      rw [splitReference?_label dotless, Option.some.injEq, Prod.mk.injEq] at split
      exact ⟨port, has, split.1, side, split.2⟩
    simp only
    cases got : net.process? owner with
    | none =>
      refine .of_error (fun findings => ⟨_, rfl⟩) ?_
      rintro ⟨key, labels⟩
      obtain ⟨port, has, rfl, -, -⟩ := named labels
      obtain ⟨proc, gotToo, -⟩ := inv.owned has
      simp [got] at gotToo
    | some proc =>
      simp only
      cases isNamed : namedPort? net proc dir name with
      | none =>
        refine .of_error (fun findings => ⟨_, rfl⟩) ?_
        rintro ⟨key, labels⟩
        obtain ⟨port, has, rfl, rfl, rfl⟩ := named labels
        have absent := find?_eq_none.mp isNamed key (inv.mem_ports got has rfl)
        simp [has] at absent
      | some key =>
        have mem := mem_of_find?_eq_some isNamed
        obtain ⟨port, has, sameOwner, side⟩ := inv.listed got mem
        have sameName : port.name = name := by simpa [has] using find?_some isNamed
        obtain ⟨dotless, isRef⟩ := splitReference?_eq_some.mp split
        have labels : net.Labels dir key ref :=
          ⟨port, has, side, sameName ▸ dotless, by rw [Port.label, sameOwner, sameName, isRef]⟩
        exact (Finds.pure (some key)).congr (iff_of_true trivial ⟨key, labels⟩) fun _ _ _ same =>
          ⟨same.2, key, same.1, labels⟩

theorem finds_resolved (inv : net.Consistent) {dir : Direction} {ref : String}
    {next : Option PortKey → Builder Unit} {reached : Network → Prop}
    (succeeds : ∀ key, net.Labels dir key ref → Finds (next (some key)) net True fun _ => reached)
    (grows : ∀ ans, Grows (next ans)) :
    Finds (resolve dir ref >>= next) net (∃ key, net.Labels dir key ref) fun _ => reached := by
  have both : Finds (resolve dir ref >>= next) net ((∃ key, net.Labels dir key ref) ∧ True) fun _ =>
      reached := by
    refine (finds_resolve inv dir ref).bind (fun ans between _ resolved => ?_)
      (grows_resolve ..) grows
    obtain ⟨rfl, key, rfl, labels⟩ := resolved
    exact succeeds key labels
  exact both.congr (and_iff_left trivial) fun _ _ _ reached => reached

theorem finds_connect (built : net.Built entries done [] []) {link : Connection} {src dst : PortKey}
    (isSrc : net.Labels .output src link.source) (isDst : net.Labels .input dst link.target)
    (context : String) :
    Finds (discard <| attempt none context (Edit.connect src dst)) net
      (link.source ∉ done.map (·.source) ∧ link.target ∉ done.map (·.target))
      fun _ after => after.Built entries (done ++ [link]) [] [] := by
  have inv := built.declares.inv
  have ⟨first, has, leaves, _⟩ := isSrc
  have ⟨second, hasToo, enters, _⟩ := isDst
  have runs := Edit.run_connect has hasToo
  rw [if_neg (by simp [leaves, enters])] at runs
  rw [← built.wires.connected_source inv has isSrc, ← built.wires.connected_target inv hasToo isDst]
  refine Finds.discard_attempt (fun free => ?_) (fun used => ?_) _ _
  · rw [if_neg free.1, if_neg free.2] at runs
    have freeFirst : first.connection = none := by simpa [Port.isConnected] using free.1
    have freeSecond : second.connection = none := by simpa [Port.isConnected] using free.2
    have rewired := inv.link has hasToo leaves enters freeFirst freeSecond
    have same := rewired.declared
    exact ⟨net.join src dst, runs, built.declares.relinked rewired.evolves.inv
      (fun _ => rfl) same, built.wires.join has hasToo leaves enters freeFirst isSrc isDst same,
      built.inputs.imp fun _ _ labels => (Labels.congr same).mpr labels,
      built.outputs.imp fun _ _ labels => (Labels.congr same).mpr labels⟩
  · grind

theorem finds_addConnection (built : net.Built entries done [] []) (link : Connection) :
    Finds (addConnection link) net
      ((∃ key, net.Labels .output key link.source) ∧ (∃ key, net.Labels .input key link.target) ∧
        link.source ∉ done.map (·.source) ∧ link.target ∉ done.map (·.target)) fun _ after =>
        after.Built entries (done ++ [link]) [] [] := by
  have inv := built.declares.inv
  refine (finds_resolve inv .output link.source).bind (fun src between _ resolved => ?_)
      (grows_resolve ..) fun src => (grows_resolve ..).bind fun dst => ?_
  · obtain ⟨rfl, src, rfl, isSrc⟩ := resolved
    refine (finds_resolve inv .input link.target).bind (fun dst between _ resolved => ?_)
      (grows_resolve ..) fun dst => ?_
    · obtain ⟨rfl, dst, rfl, isDst⟩ := resolved
      exact finds_connect built isSrc isDst _
    · cases dst with
      | some => exact (grows_attempt_connect ..).discard
      | none => exact .pure _
  · split
    · exact (grows_attempt_connect ..).discard
    · exact .pure _

theorem finds_forM_addConnection (built : net.Built desc.placed [] [] [])
    (every : ∀ decl ∈ desc.processes, ∃ hier, desc.place decl = .ok hier) :
    Finds (desc.connections.forM addConnection) net
      ((∀ link ∈ desc.connections, desc.Names .output link.source ∧ desc.Names .input link.target) ∧
        (desc.connections.map (·.source)).Nodup ∧ (desc.connections.map (·.target)).Nodup)
      fun _ after => after.Built desc.placed desc.connections [] [] := by
  refine (Finds.forM
      (fun done link => desc.Names .output link.source ∧ desc.Names .input link.target ∧
        link.source ∉ done.map (·.source) ∧ link.target ∉ done.map (·.target))
    (fun done net => net.Built desc.placed done [] [])
    (fun done link net _ built => ?_) grows_addConnection built).congr
    ⟨?_, ?_⟩ fun _ _ _ reached => reached
  · rw [← built.declares.exists_labels_iff every, ← built.declares.exists_labels_iff every]
    exact finds_addConnection built link
  · intro each
    exact ⟨forall_prefix_iff.mp fun done link ahead =>
      ⟨(each done link ahead).1, (each done link ahead).2.1⟩,
      nodup_map_iff.mpr fun done link ahead => (each done link ahead).2.2.1,
      nodup_map_iff.mpr fun done link ahead => (each done link ahead).2.2.2⟩
  · rintro ⟨named, sources, targets⟩ done link ahead
    obtain ⟨src, dst⟩ := forall_prefix_iff.mpr named done link ahead
    exact ⟨src, dst, nodup_map_iff.mp sources done link ahead,
      nodup_map_iff.mp targets done link ahead⟩

theorem finds_forM_boundary (dir : Direction) {add : PortKey → Edit Unit} {references : List String}
    (reached : List String → Network → Prop)
    (every : ∀ decl ∈ desc.processes, ∃ hier, desc.place decl = .ok hier)
    (declares : ∀ {done net}, reached done net → net.Declares desc.placed)
    (grows : ∀ key, Grows (attempt none "" (add key)))
    (adds : ∀ {done net key ref}, reached done net → net.Labels dir key ref →
      ∃ after, (add key).run net = .ok () after ∧ reached (done ++ [ref]) after)
    (start : reached [] net) :
    Finds (references.forM fun ref => do
        if let some key ← resolve dir ref then discard <| attempt none "" (add key)) net
      (∀ ref ∈ references, desc.Names dir ref) fun _ => reached references := by
  have growsAns (ans : Option PortKey) :
      Grows (do if let some key := ans then discard <| attempt none "" (add key)) := by
    cases ans with
    | some key => exact (grows key).discard
    | none => exact .pure _
  refine (Finds.forM (fun _ ref => desc.Names dir ref) reached (fun done ref net _ ready => ?_)
    (fun ref => (grows_resolve ..).bind growsAns) start).congr forall_prefix_iff
    fun _ _ _ reached => reached
  rw [← (declares ready).exists_labels_iff every]
  exact finds_resolved (declares ready).inv (fun key labels =>
    Finds.discard_attempt (fun _ => adds ready labels) (fun wrong => absurd trivial wrong) _ _)
    growsAns

theorem coherent_iff (desc : Description) : desc.Coherent ↔ desc.Arranged ∧
    (∀ decl ∈ desc.processes, ∀ helpers, decl.kind = .composite helpers →
      ∀ helper ∈ helpers.inputs ++ helpers.outputs, ∃ other ∈ desc.processes, other.id = helper) ∧
    ((∀ link ∈ desc.connections,
        desc.Names .output link.source ∧ desc.Names .input link.target) ∧
      (desc.connections.map (·.source)).Nodup ∧ (desc.connections.map (·.target)).Nodup) ∧
    (∀ ref ∈ desc.inputs, desc.Names .input ref) ∧
    ∀ ref ∈ desc.outputs, desc.Names .output ref := by
  constructor
  · rintro ⟨arranged, helpers, named, sources, targets, inputs, outs⟩
    exact ⟨arranged, helpers, ⟨named, sources, targets⟩, inputs, outs⟩
  · rintro ⟨arranged, helpers, ⟨named, sources, targets⟩, inputs, outs⟩
    exact ⟨arranged, helpers, named, sources, targets, inputs, outs⟩

theorem finds_build (desc : Description) :
    Finds (build desc) {} desc.Coherent fun _ net =>
      net.Built desc.placed desc.connections desc.inputs desc.outputs := by
  have declares : ({} : Network).Declares [] := by
    refine ⟨.empty, ⟨?_, ?_, ?_⟩, ?_⟩ <;> simp [parentOf?, childrenOf?, process?, Network.shown]
  have bare : ({} : Network).Bare := ⟨fun has => by simp [port?, Arena.get?] at has, rfl, rfl⟩
  have fills := Grows.forM grows_fillComposite desc.processes
  have connects := Grows.forM grows_addConnection desc.connections
  have enters := Grows.forM grows_addInput desc.inputs
  have leaves := Grows.forM grows_addOutput desc.outputs
  rw [coherent_iff]
  refine (finds_addProcesses declares bare).bind (fun _ net arranged reached => ?_)
      (grows_addProcesses desc) fun _ =>
    fills.bind fun _ => connects.bind fun _ => enters.bind fun _ => leaves
  have every := fun decl (mem : decl ∈ desc.processes) => arranged.exists_place mem
  refine (finds_forM_fillComposite arranged reached.1 reached.2).bind
      (fun _ net _ reached => ?_) fills fun _ => connects.bind fun _ => enters.bind fun _ => leaves
  have built : net.Built desc.placed [] [] [] :=
    ⟨reached.1,
      reached.2.wires, by rw [reached.2.inputs]; exact .nil, by rw [reached.2.outputs]; exact .nil⟩
  refine (finds_forM_addConnection built every).bind (fun _ net _ built => ?_) connects fun _ =>
    enters.bind fun _ => leaves
  refine (finds_forM_boundary .input
    (fun done net => net.Built desc.placed desc.connections done []) every Built.declares
    (grows_attempt_addInput _ _) Built.addInput built).bind (fun _ net _ built => ?_) enters
    fun _ => leaves
  exact finds_forM_boundary .output
    (fun done net => net.Built desc.placed desc.connections desc.inputs done)
    every Built.declares (grows_attempt_addOutput _ _) Built.addOutput built

end Builder

end Dataflow
