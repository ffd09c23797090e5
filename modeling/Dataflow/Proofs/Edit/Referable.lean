import Dataflow.Proofs.Edit.Calls
import Dataflow.Proofs.Network.Gate

/-!
Referable networks: what is connected or on the boundary can be referred to by its name, and the
boundary is on its sides.

All edits are made of calls. Elementary edits keep networks referable as far as they succeed. Which
direction a port has and whether its name can be referred to stays the same for good, so what is
known about a port at one time can be used later.
-/

open List Option

namespace Dataflow

open Edit

/-- A port whose name can be told apart from the name of its process. -/
def Port.Dotless (port : Port) : Prop :=
  '.' ∉ port.name.toList

namespace Network

variable {net next : Network} {key far : PortKey} {strict top : Prop} {form : Port → Prop}
  {side dir : Direction}
  {id : ProcessId} {proc : Process}

/-- What holds of a port for good, as long as it is there: of its name, owner, direction and type,
not of its connection. -/
def HasForm (net : Network) (key : PortKey) (form : Port → Prop) : Prop :=
  key < net.ports.nextKey ∧ ∀ port, net.port? key = some port → form port.unlinked

theorem hasForm_of_port? {port : Port} (has : net.port? key = some port)
    (holds : form port.unlinked) : net.HasForm key form := by
  refine ⟨lt_nextKey has, fun too hasToo => ?_⟩
  rwa [← mem_unique has hasToo]

theorem HasForm.evolve (hasForm : net.HasForm key form) (evo : net.Evolves next) :
    next.HasForm key form := by
  refine ⟨Nat.lt_of_lt_of_le hasForm.1 evo.grows, fun port has => ?_⟩
  obtain ⟨old, hasOld, same⟩ := evo.stable hasForm.1 has
  rw [← same]
  exact hasForm.2 old hasOld

theorem HasForm.imp {looser : Port → Prop} (hasForm : net.HasForm key form)
    (implies : ∀ port, form port → looser port) : net.HasForm key looser :=
  ⟨hasForm.1, fun port has => implies _ (hasForm.2 port has)⟩

theorem Consistent.hasForm_of_mem (inv : net.Consistent) (got : net.process? id = some proc)
    (mem : key ∈ proc.ports dir) : net.HasForm key (·.direction = dir) := by
  obtain ⟨port, has, -, faces⟩ := inv.listed got mem
  exact hasForm_of_port? has faces

theorem Consistent.hasForm_portAt (inv : net.Consistent) {idx : Nat}
    (isPort : net.portAt id dir idx = .ok key) : net.HasForm key (·.direction = dir) := by
  cases got : net.process? id with
  | none => simp [portAt, process_eq_error got, bind, Except.bind] at isPort
  | some proc =>
    cases mem : (proc.ports dir)[idx]? with
    | none =>
      simp [portAt, process_eq_ok.mpr got, mem, bind, Except.bind, throw, throwThe,
        MonadExceptOf.throw] at isPort
    | some other =>
      rw [portAt_eq got mem, Except.ok.injEq] at isPort
      exact inv.hasForm_of_mem got (isPort ▸ mem_of_getElem? mem)

/-- All processes are leaves at top level. -/
def Unnested (net : Network) : Prop :=
  ∀ ⦃id process⦄, net.process? id = some process → process.kind.isLeaf ∧ process.hierarchy = {}

/-- Consistent networks in which everything that is connected or on the boundary can be referred to
if `strict` holds, and that are unnested if `top` holds. -/
structure Referable (strict top : Prop) (net : Network) : Prop extends net.Consistent where
  connected : strict → ∀ {key port}, net.port? key = some port → port.isConnected → port.Dotless
  sides : strict →
    ∀ {side key port}, key ∈ net.boundary side → net.port? key = some port →
      port.direction = side ∧ port.Dotless
  unnested : top → net.Unnested

theorem Consistent.referable (inv : net.Consistent) : net.Referable False False :=
  ⟨inv, False.elim, False.elim, False.elim⟩

theorem Referable.dotless_of_boundary (ref : net.Referable strict top) (isStrict : strict)
    (onBdry : net.isBoundary key) {name : String} (named : net.HasForm key (·.name = name)) :
    '.' ∉ name.toList := by
  obtain ⟨side, mem⟩ := isBoundary_iff.mp onBdry
  obtain ⟨port, has⟩ := isSome_iff_exists.mp (ref.toConsistent.boundary onBdry)
  have isName : port.name = name := (named.2 port has :)
  exact isName ▸ (ref.sides isStrict mem has).2

theorem Referable.evolve (ref : net.Referable strict top) (evo : net.Evolves next)
    (bdry : ∀ side, next.boundary side = net.boundary side)
    (conn : strict → ∀ {key port}, next.port? key = some port → port.isConnected →
      port.Dotless ∨ ∃ old, net.port? key = some old ∧ old.isConnected)
    (unnested : top → next.Unnested) : next.Referable strict top where
  toConsistent := evo.inv
  connected isStrict _ _ has isConn := by
    rcases conn isStrict has isConn with dotless | ⟨old, hasOld, wasConn⟩
    · exact dotless
    · have dotless := ref.connected isStrict hasOld wasConn
      exact ((hasForm_of_port? hasOld dotless : net.HasForm _ Port.Dotless).evolve evo).2 _ has
  sides isStrict side key port mem has := by
    rw [bdry] at mem
    obtain ⟨old, hasOld⟩ :=
      isSome_iff_exists.mp (ref.toConsistent.boundary (isBoundary_iff.mpr ⟨side, mem⟩))
    have faces := ref.sides isStrict mem hasOld
    have hasForm : net.HasForm key fun port => port.direction = side ∧ port.Dotless :=
      hasForm_of_port? hasOld faces
    exact (hasForm.evolve evo).2 port has
  unnested := unnested

theorem Unnested.congr (unnested : net.Unnested)
    (procs : ∀ id, next.process? id = net.process? id) : next.Unnested :=
  fun _ _ got => unnested (procs _ ▸ got)

theorem Unnested.setProcess (unnested : net.Unnested) (leaf : proc.kind.isLeaf)
    (hier : proc.hierarchy = {}) : (net.setProcess id proc).Unnested := by
  intro other has got
  rw [process?_setProcess] at got
  split at got
  · cases got
    exact ⟨leaf, hier⟩
  · exact unnested got

end Network

namespace Edit

variable {α β : Type} {edit : Edit α} {next : α → Edit β} {net after : Network} {strict top : Prop}
  {between : α → Network → Prop}
  {behind : β → Network → Prop}

/-- The edit is made of calls, also if it fails; if it succeeds, the network is referable, and what
`gives` says holds. -/
def Keeps (strict top : Prop) (edit : Edit α) (net : Network) (gives : α → Network → Prop) : Prop :=
  edit.Ends net
    (fun answer after => net.Proceeds after ∧ after.Referable strict top ∧ gives answer after)
    net.Proceeds

theorem Keeps.of_run {ans : α} (keeps : edit.Keeps strict top net between)
    (runs : edit.run net = .ok ans after) :
    net.Proceeds after ∧ after.Referable strict top ∧ between ans after :=
  (ends_of_run runs).mp keeps

theorem Keeps.evolves {ans : α} (keeps : edit.Keeps strict top net between)
    (runs : edit.run net = .ok ans after) : net.Evolves after :=
  (keeps.of_run runs).1.toEvolves

theorem keeps_of_call (call : Call) {change : α → Option PortKey}
    (made : call.edit = change <$> edit) (allowed : call.Allowed net)
    (ref : net.Referable strict top)
    (each : ∀ {ans after}, edit.run net = .ok ans after → net.Evolves after →
      after.Referable strict top ∧ between ans after) : edit.Keeps strict top net between := by
  have proceeds := Network.Proceeds.of_call call ref.toConsistent allowed
  rw [Call.apply, made, after_map, after] at proceeds
  unfold Keeps Ends
  cases runs : edit.run net with
  | ok ans after =>
    rw [runs] at proceeds
    exact ⟨proceeds, each runs proceeds.toEvolves⟩
  | error fault after =>
    rw [runs] at proceeds
    exact proceeds

/-- Steps keep the network referable in sequence. -/
theorem Keeps.bind (first : edit.Keeps strict top net between)
    (second : ∀ {ans mid}, net.Evolves mid → mid.Referable strict top → between ans mid →
      (next ans).Keeps strict top mid behind) : (edit >>= next).Keeps strict top net behind := by
  refine ends_bind.mpr (Ends.mono first ?_ fun _ held => held)
  rintro ans mid ⟨proceeds, ref, held⟩
  refine Ends.mono (second proceeds.toEvolves ref held) ?_ fun _ => proceeds.trans
  rintro result last ⟨onwards, kept, reached⟩
  exact ⟨proceeds.trans onwards, kept, reached⟩

theorem Keeps.mono {looser : α → Network → Prop} (keeps : edit.Keeps strict top net between)
    (implies : ∀ ans after, between ans after → looser ans after) :
    edit.Keeps strict top net looser :=
  Ends.mono keeps (fun _ _ held => ⟨held.1, held.2.1, implies _ _ held.2.2⟩) fun _ held => held

theorem Keeps.discard {gives : Network → Prop} (keeps : edit.Keeps strict top net fun _ => gives) :
    (discard edit).Keeps strict top net fun _ => gives :=
  ends_discard.mpr keeps

theorem keeps_get_bind {next : Network → Edit β} :
    (get >>= next).Keeps strict top net behind ↔ (next net).Keeps strict top net behind :=
  Iff.rfl

end Edit

namespace Network.Referable

variable {α β : Type} {next : α → Edit β} {net : Network} {key : PortKey} {strict top : Prop}
  {behind : β → Network → Prop}
  {kind : Kind Composite} {hier : Hierarchy}

variable (ref : net.Referable strict top)

include ref

theorem keeps_pure {ans : β} (holds : behind ans net) :
    (pure ans : Edit β).Keeps strict top net behind :=
  ⟨.refl ref.toConsistent, ref, holds⟩

theorem keeps_throw (fault : Fault) : (throw fault : Edit β).Keeps strict top net behind :=
  Proceeds.refl ref.toConsistent

theorem keeps_lift_bind {question : Except Fault α}
    (each : ∀ ans, question = .ok ans → (next ans).Keeps strict top net behind) :
    (liftM question >>= next).Keeps strict top net behind := by
  cases question with
  | ok ans => exact each ans rfl
  | error fault => exact ref.keeps_throw fault

theorem keeps_ask {question : Network → Except Fault α}
    (each : ∀ ans, question net = .ok ans → (next ans).Keeps strict top net behind) :
    (get >>= fun seen => liftM (question seen) >>= next).Keeps strict top net behind :=
  keeps_get_bind.mpr (ref.keeps_lift_bind each)

theorem keeps_mapM {step : α → Edit β} {entries : List α}
    (each : ∀ entry ∈ entries, ∀ {mid}, net.Evolves mid → mid.Referable strict top →
      (step entry).Keeps strict top mid fun _ _ => True) :
    (entries.mapM step).Keeps strict top net fun _ _ => True := by
  induction entries generalizing net with
  | nil => exact ref.keeps_pure trivial
  | cons entry entries ih =>
    rw [mapM_cons]
    refine Keeps.bind (each entry mem_cons_self (.refl ref.toConsistent) ref) fun evo kept _ => ?_
    refine Keeps.bind
      (ih kept fun other mem _ onwards => each other (mem_cons_of_mem _ mem) (evo.trans onwards)) ?_
    exact fun _ kept _ => kept.keeps_pure trivial

theorem keeps_forM {step : α → Edit PUnit} {entries : List α}
    (each : ∀ entry ∈ entries, ∀ {mid}, net.Evolves mid → mid.Referable strict top →
      (step entry).Keeps strict top mid fun _ _ => True) :
    (entries.forM step).Keeps strict top net fun _ _ => True := by
  rw [Edit.forM_eq_mapM]
  exact (ref.keeps_mapM each).bind fun _ kept _ => kept.keeps_pure trivial

theorem keeps_foldlM {step : β → α → Edit β} {entries : List α} {start : β}
    (each : ∀ {mid}, mid.Referable strict top →
      ∀ result entry, (step result entry).Keeps strict top mid fun _ _ => True) :
    (entries.foldlM step start).Keeps strict top net fun _ _ => True := by
  induction entries generalizing net start with
  | nil => exact ref.keeps_pure trivial
  | cons entry entries ih =>
    exact (each ref start entry).bind fun _ kept _ => ih kept

theorem keeps_disconnect (key : PortKey) :
    (Edit.disconnect key).Keeps strict top net fun peer next =>
      (∀ keys, net.Live keys → next.Live (peer.toList ++ keys)) ∧
      (strict →
        ∀ far, peer = some far →
          (∃ port, next.port? key = some port ∧ port.Dotless) ∧
          next.HasForm far Port.Dotless ∧
          ∀ side, next.HasForm key (·.direction = side) →
            next.HasForm far (·.direction = side.opposite)) := by
  -- Connections only go, and what the port was connected to faces the other way.
  refine keeps_of_call (.disconnect key) rfl trivial ref fun {peer next} runs evo => ?_
  obtain ⟨port, has⟩ : ∃ port, net.port? key = some port := ne_none_iff_exists'.mp fun absent => by
    simp [run_disconnect_absent absent] at runs
  simp only [run_disconnect ref.linked has, EStateM.Result.ok.injEq] at runs
  obtain ⟨rfl, rfl⟩ := runs
  refine ⟨ref.evolve evo (fun side => by cases side <;> simp [boundary])
    (fun _ other new hasNew isConn => ?_) fun isTop => (ref.unnested isTop).congr fun _ =>
    process?_unlink .., fun keys live => Live.unlink (fun other mem => ?_) key,
    fun isStrict far conn => ?_⟩
  · rw [ref.linked.port?_unlink has] at hasNew
    obtain ⟨old, hasOld, rfl⟩ := map_eq_some_iff.mp hasNew
    split at isConn
    · simp [Port.isConnected] at isConn
    · cases leads : old.connection <;> simp_all [Port.isConnected]
  · rcases mem_append.mp mem with isPeer | mem
    · obtain ⟨peer, hasPeer, -⟩ := ref.linked has (Option.mem_toList.mp isPeer)
      simp [hasPeer]
    · exact live other mem
  · obtain ⟨peer, hasPeer, back, crosses⟩ := ref.linked has conn
    have dotless := ref.connected isStrict has (by rw [Port.isConnected, conn]; rfl)
    have dotlessPeer := ref.connected isStrict hasPeer (by rw [Port.isConnected, back]; rfl)
    have hasNew := ref.linked.port?_unlink_self has
    refine ⟨⟨port.unlinked, hasNew, dotless⟩,
      HasForm.evolve (hasForm_of_port? hasPeer dotlessPeer) evo, fun side hasForm => ?_⟩
    have faces : port.direction = side := (hasForm.2 port.unlinked hasNew :)
    have facesBack : peer.direction = side.opposite := by
      cases dir : peer.direction <;> cases side <;> simp_all [Direction.opposite]
    exact HasForm.evolve (hasForm_of_port? hasPeer facesBack) evo

theorem keeps_connect {src dst : PortKey} (first : strict → net.HasForm src Port.Dotless)
    (second : strict → net.HasForm dst Port.Dotless) :
    (Edit.connect src dst).Keeps strict top net fun _ next =>
      ∀ keys, net.Live keys → next.Live keys := by
  refine keeps_of_call (.connect src dst) rfl trivial ref fun {_ next} runs evo => ?_
  obtain ⟨-, -, -, -, -, -, -, -, rfl⟩ := (ends_of_run runs).mp (ends_connect net src dst)
  refine ⟨ref.evolve evo (fun side => by cases side <;> rfl)
    (fun isStrict key new hasNew isConn => ?_) fun isTop => (ref.unnested isTop).congr fun _ => rfl,
    fun keys live => (live.relink src (some dst)).relink dst (some src)⟩
  by_cases isSrc : key = src
  · exact .inl (((first isStrict).evolve evo).2 new (isSrc ▸ hasNew))
  by_cases isDst : key = dst
  · exact .inl (((second isStrict).evolve evo).2 new (isDst ▸ hasNew))
  · rw [port?_join_of_ne isSrc isDst] at hasNew
    exact .inr ⟨new, hasNew, isConn⟩

theorem keeps_addPort (owner : ProcessId) (name : String) (dir : Direction)
    (type : Option DataType) :
    (Edit.addPort owner name dir type).Keeps strict top net fun key next =>
      next.Live [key] ∧ next.HasForm key fun port => port.name = name ∧ port.direction = dir := by
  refine keeps_of_call (.addPort owner name dir type) rfl trivial ref fun {key next} runs evo => ?_
  obtain ⟨proc, got⟩ : ∃ proc, net.process? owner = some proc :=
      ne_none_iff_exists'.mp fun absent => by
    simp [run_addPort_absent absent] at runs
  rw [run_addPort got] at runs
  split at runs
  · cases runs
  cases runs
  have has (key : PortKey) :=
    port?_pushPort net { name, owner, direction := dir, dataType := type } key
  have hasHere := has net.ports.nextKey
  rw [if_pos rfl] at hasHere
  refine ⟨ref.evolve evo (fun side => by cases side <;> rfl) (fun _ other new hasNew isConn => ?_)
    fun isTop => ?_, ?_, hasForm_of_port? hasHere ⟨rfl, rfl⟩⟩
  · rw [port?_setProcess, has] at hasNew
    split at hasNew
    · cases hasNew
      simp [Port.isConnected] at isConn
    · exact .inr ⟨new, hasNew, isConn⟩
  · have unnested : (net.pushPort { name, owner, direction := dir, dataType := type }).Unnested :=
      (ref.unnested isTop).congr fun _ => rfl
    obtain ⟨leaf, hier⟩ := ref.unnested isTop got
    cases dir <;> exact unnested.setProcess leaf hier
  · intro other mem
    rw [mem_singleton.mp mem, port?_setProcess, hasHere]
    rfl

theorem keeps_replaceBoundary {old new : PortKey} (side : Direction) (live : net.Live [new])
    (first : strict → net.HasForm old (·.direction = side))
    (second : strict → net.HasForm new (·.direction = side))
    (dotless : strict → net.isBoundary old → net.HasForm new Port.Dotless) :
    (discard (Edit.replaceBoundary old new)).Keeps strict top net fun _ _ => True := by
  refine Keeps.discard
    (keeps_of_call (.replaceBoundary old new) rfl live ref fun runs evo => ⟨?_, trivial⟩)
  cases runs
  refine ⟨evo.inv, ref.connected, fun isStrict side key port mem has => ?_, ref.unnested⟩
  have retargeted : key ∈ (net.boundary side).map fun key => if key = old then new else key := by
    cases side <;> exact mem
  obtain ⟨former, wasMem, rfl⟩ := mem_map.mp retargeted
  split at has
  · rename_i isOld
    subst isOld
    have onBdry := isBoundary_iff.mpr ⟨_, wasMem⟩
    obtain ⟨oldPort, hasOld⟩ := isSome_iff_exists.mp (ref.toConsistent.boundary onBdry)
    have faces : oldPort.direction = _ := (first isStrict).2 oldPort hasOld
    rw [← (ref.sides isStrict wasMem hasOld).1, faces]
    exact ⟨(second isStrict).2 port has, (dotless isStrict onBdry).2 port has⟩
  · exact ref.sides isStrict wasMem has

theorem keeps_removeProcess (id : ProcessId) :
    (discard (Edit.removeProcess id)).Keeps strict top net fun _ _ => True := by
  refine Keeps.discard
    (keeps_of_call (.removeProcess id) rfl trivial ref fun {_ next} runs evo => ⟨?_, trivial⟩)
  cases got : net.process? id with
  | none => simp [Edit.removeProcess, process_eq_error got] at runs
  | some proc =>
    obtain ⟨-, removed⟩ := (ends_of_run runs).mp (ends_removeProcess ref.toConsistent got)
    refine ref.evolve evo (fun side => ?_) (fun _ key new hasNew isConn => ?_)
      fun isTop other has isHas => ?_
    · cases side
      · exact removed.inputs
      · exact removed.outputs
    · rw [removed.ports] at hasNew
      split at hasNew
      · cases hasNew
      · obtain ⟨old, hasOld, rfl⟩ := map_eq_some_iff.mp hasNew
        cases leads : old.connection <;> simp_all [Port.isConnected]
    · rw [removed.processes] at isHas
      split at isHas
      · cases isHas
      · obtain ⟨old, wasGot, rfl⟩ := map_eq_some_iff.mp isHas
        obtain ⟨leaf, hier⟩ := ref.unnested isTop wasGot
        split
        · exact ⟨by rw [Process.disown, Kind.disown_leaf leaf]; exact leaf, hier⟩
        · exact ⟨leaf, hier⟩

theorem keeps_modifyProcess {id : ProcessId} {change : Process → Process}
    (ports : ∀ proc dir, (change proc).ports dir = proc.ports dir)
    (unnested : top →
      ∀ proc, proc.kind.isLeaf → proc.hierarchy = {} →
        (change proc).kind.isLeaf ∧ (change proc).hierarchy = {}) :
    (Edit.modifyProcess id change).Keeps strict top net fun _ _ => True := by
  refine keeps_of_call (.modifyProcess id change) rfl ports ref fun {_ next} runs evo =>
    ⟨?_, trivial⟩
  obtain ⟨proc, got⟩ : ∃ proc, net.process? id = some proc :=
      ne_none_iff_exists'.mp fun absent => by
    simp [run_modifyProcess_absent absent] at runs
  rw [run_modifyProcess got] at runs
  cases runs
  refine ref.evolve evo (fun side => by cases side <;> rfl)
    (fun _ _ _ has isConn => .inr ⟨_, has, isConn⟩)
    fun isTop => ?_
  obtain ⟨leaf, hier⟩ := ref.unnested isTop got
  obtain ⟨leafNew, hierNew⟩ := unnested isTop proc leaf hier
  exact (ref.unnested isTop).setProcess leafNew hierNew

theorem keeps_freshId (stem : String) :
    (Edit.freshId stem).Keeps strict top net fun _ _ => True := by
  refine keeps_of_call (.freshId stem) rfl trivial ref fun runs evo => ⟨?_, trivial⟩
  cases runs
  exact ⟨evo.inv, ref.connected, ref.sides, ref.unnested⟩

theorem keeps_addProcess (id : ProcessId) (unnested : top → kind.isLeaf ∧ hier = {}) :
    (Edit.addProcess id kind hier).Keeps strict top net fun _ _ => True := by
  refine keeps_of_call (.addProcess id kind hier) rfl trivial ref fun {_ next} runs evo =>
    ⟨?_, trivial⟩
  by_cases misplaced : net.process? id ≠ none ∨ ∃ parent, hier.parent? = some parent ∧
    net.childrenOf? parent = none
  · obtain ⟨fault, after, refuses⟩ := run_addProcess_error kind hier misplaced
    rw [refuses] at runs
    cases runs
  · rw [not_or, not_not] at misplaced
    obtain ⟨after, run, settled⟩ :=
        run_addProcess ref.toConsistent misplaced.1 kind hier fun parent isParent =>
      ne_none_iff_exists'.mp fun childless => misplaced.2 ⟨parent, isParent, childless⟩
    rw [run] at runs
    cases runs
    refine ref.evolve evo (fun side => ?_) (fun _ key new has isConn => .inr ⟨new, ?_, isConn⟩)
      fun isTop other new got => ?_
    · cases side
      · exact settled.inputs
      · exact settled.outputs
    · rwa [port?, settled.ports] at has
    · obtain ⟨leaf, rfl⟩ := unnested isTop
      rw [settled.processes] at got
      split at got
      · cases got
        exact ⟨leaf, rfl⟩
      · exact ref.unnested isTop (by simpa [Hierarchy.parent?] using got)

theorem keeps_addFresh (stem : String) (unnested : top → kind.isLeaf ∧ hier = {}) :
    (Edit.addFresh stem kind hier).Keeps strict top net fun _ _ => True :=
  (ref.keeps_freshId stem).bind fun _ kept _ => kept.keeps_addProcess _ unnested

end Network.Referable

end Dataflow
