import Dataflow.Proofs.Meaning.Replacement
import Dataflow.Proofs.Transform.Fusion

/-! Elementwise sections: those that let through the same values as the parallel map that takes
their place. -/

open List

namespace Dataflow

universe u

namespace Network

variable {net : Network} {id : ProcessId} {key : PortKey} {reg : Section}
  {chains : List (List ProcessId)}

/-- The out-port of a process is connected to the given in-port. -/
def Delivers (net : Network) (id : ProcessId) (key : PortKey) : Prop :=
  ∃ exit port, net.port? exit = some port ∧ port.owner = id ∧ port.direction = .output ∧
    port.connection = some key

/-- Each branch leads to the in-port of the stop at its own position, and works on elements as a
whole. -/
structure Elementwise (net : Network) (region : Section) (chains : List (List ProcessId)) :
    Prop where
  lanes : ∃ closer, net.process? region.stop = some closer ∧
    List.Forall₂ (fun chain key => ∃ id, chain.getLast? = some id ∧ net.Delivers id key) chains
      closer.inPorts
  scalar : ∀ chain ∈ chains, ∀ id ∈ chain, (net.kindOf id).isParallelMap = false

/-- A process with one in-port and one out-port on a branch of its own, between an out-port and the
stop of a section. -/
structure Single (net : Network) (key : PortKey) (chain : List ProcessId) (id : ProcessId)
    (process : Process) (entry exit : PortKey) : Prop where
  alone : chain = [id]
  stored : net.process? id = some process
  ins : process.inPorts = [entry]
  outs : process.outPorts = [exit]
  fed : ∃ port, net.port? key = some port ∧ port.connection = some entry

theorem Branch.exists_single {stop : ProcessId} {chain : List ProcessId}
    (branch : net.Branch stop key chain) (inv : net.Consistent) (len : chain.length = 1)
    {port : Port} (has : net.port? key = some port) (leaves : port.direction = .output) :
    ∃ id proc entry exit, net.Single key chain id proc entry exit := by
  obtain ⟨id, rfl⟩ := length_eq_one_iff.mp len
  obtain ⟨proc, entry, exit, got, ins, outs⟩ := branch.line.simple id mem_cons_self
  obtain ⟨too, other, peer, hasToo, conn, hasPeer, owned⟩ := remote_eq_some.mp branch.enters
  rw [has] at hasToo
  cases hasToo
  have enters := inv.linked.crosses has conn hasPeer leaves
  obtain rfl := inv.eq_of_inPorts got ins hasPeer owned enters
  exact ⟨id, proc, _, exit, rfl, got, ins, outs, port, has, conn⟩

theorem Bundle.singles (bundle : net.Bundle reg chains) (inv : net.Consistent)
    (unif : net.Uniform chains 1) {opener : Process} (got : net.process? reg.start = some opener) :
    List.Forall₂
      (fun key chain => key ∈ opener.outPorts ∧ chain ∈ chains ∧
        ∃ id proc entry exit, net.Single key chain id proc entry exit)
      opener.outPorts chains := by
  obtain ⟨-, branches⟩ := of_found got bundle.opens
  refine (forall₂_mem branches).imp fun key chain ⟨mem, isChain, branch⟩ => ?_
  obtain ⟨port, has, -, leaves⟩ := inv.listed_out got mem
  exact ⟨mem, isChain, branch.exists_single inv (unif.lengths chain isChain) has leaves⟩

theorem Uniform.functions_eq (unif : net.Uniform chains 1) (mem : [id] ∈ chains) :
    net.functionsOf (chains.head?.bind (·.head?)).toList = (net.kindOf id).functions := by
  cases chains with
  | nil => simp at mem
  | cons first rest =>
    obtain ⟨head, rfl⟩ := length_eq_one_iff.mp (unif.lengths first mem_cons_self)
    have same := unif.same [head] mem_cons_self [id] mem
    simp only [map_cons, map_nil, List.cons.injEq, and_true] at same
    simp [functionsOf, same]

end Network

namespace Interpretation

variable {Value : Type u} {model : Interpretation Value}

theorem relates_map {kind : Kind Composite} (shaped : kind.isMapShaped)
    (scalar : kind.isParallelMap = false) (id : ProcessId) (input output : Value) :
    model.Relates id [input] [output] kind ↔ output = model.applyAll kind.functions input := by
  cases kind <;> simp_all [Kind.isMapShaped, Kind.isParallelMap, Relates, Kind.functions, applyAll]

end Interpretation

namespace Network

variable {Value : Type u} {model : Interpretation Value} {net : Network} {reg : Section}
  {chains : List (List ProcessId)}
  {opener closer : Process} {entry exit : PortKey}

/-- An elementwise section is fed from elsewhere at its entry only. -/
theorem Elementwise.closes (elementwise : net.Elementwise reg chains)
    (bundle : net.Bundle reg chains) (inv : net.Consistent)
    (got : net.process? reg.start = some opener) (ins : opener.inPorts = [entry]) :
    net.Closes (reg.members chains) entry := by
  intro key port has inside enters notEntry
  rcases Section.mem_members.mp inside with isStart | isStop | ⟨chain, mem, onChain⟩
  · exact absurd (inv.eq_of_inPorts got ins has isStart enters) notEntry
  · obtain ⟨closer, gotStop, lanes⟩ := elementwise.lanes
    have isKey := inv.mem_ports gotStop has isStop
    rw [enters] at isKey
    obtain ⟨chain, mem, id, isLast, out, peer, hasOut, owned, -, conn⟩ :=
      exists_of_forall₂ lanes isKey
    refine ⟨out, peer, inv.linked.back hasOut conn has, hasOut,
      Section.mem_members.mpr (.inr (.inr ⟨chain, mem, ?_⟩))⟩
    exact owned ▸ mem_of_getLast? isLast
  · obtain ⟨proc, out, gotStart, -, isOut, branch⟩ := bundle.exists_branch mem
    obtain ⟨src, feeds, isSrc⟩ := branch.exists_source inv gotStart isOut onChain
    obtain ⟨member, only, -, gotMem, single, -⟩ := branch.line.simple _ onChain
    obtain ⟨near, nearPort, other, peer, hasNear, leaves, conn, hasPeer, rfl, ownsPeer⟩ := feeds
    have isIn := inv.linked.crosses hasNear conn hasPeer leaves
    obtain rfl := inv.eq_of_inPorts gotMem single has rfl enters
    obtain rfl := inv.eq_of_inPorts gotMem single hasPeer ownsPeer isIn
    refine ⟨near, nearPort, inv.linked.back hasNear conn has, hasNear, Section.mem_members.mpr ?_⟩
    exact isSrc.imp_right fun isMem => .inr ⟨chain, mem, isMem⟩

theorem Bundle.kind_start (bundle : net.Bundle reg chains)
    (got : net.process? reg.start = some opener) : opener.kind = .unzip := by
  obtain ⟨too, gotToo, unzips, -⟩ := bundle.opens
  rw [got] at gotToo
  cases kind : opener.kind <;> simp_all [Kind.isUnzip]

theorem Bundle.kind_stop (bundle : net.Bundle reg chains)
    (got : net.process? reg.stop = some closer) : closer.kind = .zip := by
  obtain ⟨too, gotToo, zips⟩ := (Option.any_eq_true _ _).mp bundle.closes
  rw [got] at gotToo
  cases kind : closer.kind <;> simp_all [Kind.isZip]

section Within

variable {value : PortKey → Value} {out into first last : PortKey} {chain : List ProcessId}
  {id : ProcessId} {proc : Process}

section

variable (single : net.Single out chain id proc first last)
  (within : SolvesWithin model.Relates net (reg.members chains) value) (inv : net.Consistent)

include single within inv

theorem Single.value_entry (got : net.process? reg.start = some opener)
    (isOut : out ∈ opener.outPorts) (mem : chain ∈ chains) : value out = value first := by
  obtain ⟨port, has, fed⟩ := single.fed
  obtain ⟨owned, -⟩ := of_found has (inv.listed_out got isOut)
  obtain ⟨peer, hasFirst, ownedFirst, -⟩ :=
    inv.listed single.stored (show first ∈ proc.ports .input by simp [Process.ports, single.ins])
  refine within.connected has (owned ▸ Section.start_mem) fed hasFirst ?_
  rw [ownedFirst]
  exact Section.mem_members_of_mem mem (by simp [single.alone])

theorem Single.value_exit (gotStop : net.process? reg.stop = some closer)
    (isInto : into ∈ closer.inPorts) (mem : chain ∈ chains) (delivers : net.Delivers id into) :
    value last = value into := by
  obtain ⟨near, port, has, owned, leaves, conn⟩ := delivers
  obtain rfl := inv.eq_of_outPorts single.stored single.outs has owned leaves
  obtain ⟨peer, hasInto, ownedInto, -⟩ := inv.listed_in gotStop isInto
  refine within.connected has ?_ conn hasInto (ownedInto ▸ Section.stop_mem)
  rw [owned]
  exact Section.mem_members_of_mem mem (by simp [single.alone])

end

end Within

theorem Elementwise.relates_of_passes (elementwise : net.Elementwise reg chains)
    (isSealed : net.Sealed reg chains) (unif : net.Uniform chains 1) (ready : net.Ready)
    (got : net.process? reg.start = some opener) (ins : opener.inPorts = [entry])
    (gotStop : net.process? reg.stop = some closer) (outs : closer.outPorts = [exit])
    (fresh : ProcessId) {input output : Value}
    (passes : model.Passes net (reg.members chains) entry exit input output) :
    model.Relates fresh [input] [output] (net.fused chains) := by
  obtain ⟨value, within, rfl, rfl⟩ := passes
  let fns := net.functionsOf (chains.head?.bind (·.head?)).toList
  have unzips : model.array (opener.outPorts.map value) = value entry := by
    have rel := within.related got Section.start_mem
    simpa [isSealed.kind_start got, ins, Interpretation.Relates, eq_comm] using rel
  have zips : value exit = model.array (closer.inPorts.map value) := by
    have rel := within.related gotStop Section.stop_mem
    simpa [isSealed.kind_stop gotStop, outs, Interpretation.Relates] using rel
  -- Along each branch a value is taken through the functions, from its out-port to its in-port.
  have lanes : List.Forall₂ (fun out into => value into = model.applyAll fns (value out))
      opener.outPorts closer.inPorts := by
    have delivered := of_found gotStop elementwise.lanes
    refine forall₂_trans ?_ (isSealed.singles ready.inv unif got) (forall₂_mem delivered)
    rintro out chain into ⟨isOut, mem, id, proc, first, last, single⟩
      ⟨-, isInto, too, isLast, delivers⟩
    have entering := single.value_entry within ready.inv got isOut mem
    obtain rfl := single.alone
    obtain rfl : id = too := by simpa using isLast
    have leaving := single.value_exit within ready.inv gotStop isInto mem delivers
    have isMem : id ∈ reg.members chains := Section.mem_members_of_mem mem mem_cons_self
    have kind : net.kindOf id = proc.kind := by simp [kindOf, single.stored]
    have rel := within.related single.stored isMem
    rw [single.ins, single.outs, map_singleton, map_singleton,
      Interpretation.relates_map
      (kind ▸ net.isMapShaped_eq id ▸ isSealed.isMapShaped mem mem_cons_self)
        (kind ▸ elementwise.scalar [id] mem id mem_cons_self)] at rel
    rw [← leaving, entering, rel, ← kind, ← unif.functions_eq mem]
  refine ⟨opener.outPorts.map value, ?_, by rw [unzips], ?_⟩
  · obtain ⟨-, branches⟩ := of_found got isSealed.opens
    rw [length_map, branches.length_eq, ready.toNat_ofNat_length isSealed.toBundle]
  · have mapped : closer.inPorts.map value = (opener.outPorts.map value).map
        (model.applyAll fns) := by
      rw [map_map, ← forall₂_eq_eq_eq, forall₂_map_left_iff, forall₂_map_right_iff]
      exact lanes.flip
    rw [zips, mapped]

theorem Bundle.nodup_chains (bundle : net.Bundle reg chains) (inv : net.Consistent)
    (unif : net.Uniform chains 1) (got : net.process? reg.start = some opener) : chains.Nodup := by
  refine nodup_of_forall₂ (bundle.singles inv unif got) (inv.nodup_outPorts got) ?_
  rintro out other chain ⟨-, -, id, proc, first, last, single⟩
    ⟨-, -, too, procToo, firstToo, lastToo, singleToo⟩
  obtain rfl : id = too := by simpa [single.alone] using singleToo.alone
  have sameProc : proc = procToo := Option.mem_unique single.stored singleToo.stored
  subst sameProc
  obtain rfl : first = firstToo := by simpa [single.ins] using singleToo.ins
  obtain ⟨port, has, conn⟩ := single.fed
  obtain ⟨portToo, hasToo, connToo⟩ := singleToo.fed
  obtain ⟨peer, hasPeer, back, -⟩ := inv.linked has conn
  have backToo := inv.linked.back hasToo connToo hasPeer
  exact Option.mem_unique back backToo

/-- The values inside an elementwise section for given elements, where `change` is what each branch
does. -/
def spread (net : Network) (region : Section) (chains : List (List ProcessId))
    (opener closer : Process) (elements : List Value) (change : Value → Value)
    (input output : Value) (key : PortKey) : Value :=
  match net.port? key with
  | none => input
  | some port =>
    let element (position : Nat) := elements.getD position input
    if port.owner = region.start then
      match port.direction with
      | .input => input
      | .output => element (opener.outPorts.idxOf key)
    else if port.owner = region.stop then
      match port.direction with
      | .input => change (element (closer.inPorts.idxOf key))
      | .output => output
    else
      match port.direction with
      | .input => element (chains.idxOf [port.owner])
      | .output => change (element (chains.idxOf [port.owner]))

section Spread

variable {elements : List Value} {change : Value → Value} {input output : Value}
  {key other : PortKey}
  {port peer : Port}

theorem spread_of_start (has : net.port? key = some port) (owned : port.owner = reg.start)
    (leaves : port.direction = .output) :
    net.spread reg chains opener closer elements change input output key =
      elements.getD (opener.outPorts.idxOf key) input := by
  simp [spread, has, owned, leaves]

section

variable (bundle : net.Bundle reg chains) (has : net.port? key = some port)

include bundle has

theorem spread_of_stop (owned : port.owner = reg.stop) (enters : port.direction = .input) :
    net.spread reg chains opener closer elements change input output key =
      change (elements.getD (closer.inPorts.idxOf key) input) := by
  simp [spread, has, owned, enters, Ne.symm bundle.start_ne_stop]

theorem spread_of_branch (mem : [port.owner] ∈ chains) :
    net.spread reg chains opener closer elements change input output key =
      match port.direction with
      | .input => elements.getD (chains.idxOf [port.owner]) input
      | .output => change (elements.getD (chains.idxOf [port.owner]) input) := by
  have notStart : port.owner ≠ reg.start := fun same => bundle.start_not_mem mem (by simp [same])
  have notStop : port.owner ≠ reg.stop := fun same => bundle.stop_not_mem mem (by simp [same])
  simp [spread, has, notStart, notStop]

end

theorem Elementwise.spread_connected (elementwise : net.Elementwise reg chains)
    (bundle : net.Bundle reg chains) (unif : net.Uniform chains 1) (ready : net.Ready)
    (exc : net.Excisable reg.start reg.stop (reg.members chains) entry exit)
    (got : net.process? reg.start = some opener) (gotStop : net.process? reg.stop = some closer)
    (outs : closer.outPorts = [exit]) (has : net.port? key = some port)
    (inside : port.owner ∈ reg.members chains) (leads : port.direction = .output)
    (conn : port.connection = some other) (hasPeer : net.port? other = some peer)
    (peerInside : peer.owner ∈ reg.members chains) :
    net.spread reg chains opener closer elements change input output key =
      net.spread reg chains opener closer elements change input output other := by
  have inv := ready.inv
  have singles := bundle.singles inv unif got
  have onceChains := bundle.nodup_chains inv unif got
  rcases Section.mem_members.mp inside with isStart | isStop | ⟨chain, mem, onChain⟩
  · -- An out-port of the start leads to the branch at its position.
    have isKey := inv.mem_ports got has isStart
    rw [leads] at isKey
    obtain ⟨chain, paired, -, mem, id, proc, near, far, single⟩ := exists_mem_zip singles isKey
    obtain rfl := single.alone
    have fed := of_found has single.fed
    rw [conn] at fed
    cases fed
    obtain ⟨nearPort, hasNear, owned, into⟩ :=
      inv.listed single.stored (show other ∈ proc.ports .input by simp [Process.ports, single.ins])
    rw [hasPeer] at hasNear
    cases hasNear
    have pos := idxOf_eq_of_mem_zip (inv.nodup_outPorts got) onceChains paired
    rw [spread_of_start has isStart leads, spread_of_branch bundle hasPeer (owned ▸ mem),
      into, owned, pos]
  · obtain rfl := inv.eq_of_outPorts gotStop outs has isStop leads
    exact absurd peerInside (exc.exit_outside has conn hasPeer)
  · obtain ⟨only, rfl⟩ := length_eq_one_iff.mp (unif.lengths chain mem)
    obtain rfl := mem_singleton.mp onChain
    have lanes := of_found gotStop elementwise.lanes
    obtain ⟨into, paired, id, isLast, near, nearPort, hasNear, owned, leadsNear, connNear⟩ :=
      exists_mem_zip lanes mem
    obtain rfl : port.owner = id := by simpa using isLast
    obtain ⟨proc, -, out, gotMem, -, single⟩ := ready.legal.simple (bundle.isMapShaped mem onChain)
    obtain rfl := inv.eq_of_outPorts gotMem single has rfl leads
    obtain rfl := inv.eq_of_outPorts gotMem single hasNear owned leadsNear
    rw [has] at hasNear
    cases hasNear
    rw [conn] at connNear
    cases connNear
    obtain ⟨intoPort, hasInto, ownedInto, entersInto⟩ :=
      inv.listed gotStop (show other ∈ closer.ports .input from (of_mem_zip paired).2)
    rw [hasPeer] at hasInto
    cases hasInto
    have pos := idxOf_eq_of_mem_zip onceChains (inv.nodup_inPorts gotStop) paired
    rw [spread_of_branch bundle has mem, leads, spread_of_stop bundle hasPeer ownedInto entersInto,
      pos]

end Spread

theorem Elementwise.passes_of_relates (elementwise : net.Elementwise reg chains)
    (isSealed : net.Sealed reg chains) (unif : net.Uniform chains 1) (ready : net.Ready)
    (exc : net.Excisable reg.start reg.stop (reg.members chains) entry exit)
    (got : net.process? reg.start = some opener) (ins : opener.inPorts = [entry])
    (gotStop : net.process? reg.stop = some closer) (outs : closer.outPorts = [exit])
    (fresh : ProcessId) {input output : Value}
    (relates : model.Relates fresh [input] [output] (net.fused chains)) :
    model.Passes net (reg.members chains) entry exit input output := by
  -- The elements are spread over the branches, so that each member turns one of them into its
  -- image.
  have inv := ready.inv
  have bundle := isSealed.toBundle
  obtain ⟨elements, count, isInput, isOut⟩ := relates
  let change := model.applyAll (net.functionsOf (chains.head?.bind (·.head?)).toList)
  let value := net.spread reg chains opener closer elements change input output
  have lengths : chains.length = elements.length := by rw [count, ready.toNat_ofNat_length bundle]
  obtain ⟨first, hasEntry, ownedEntry, enters⟩ := exc.exists_entry inv
  obtain ⟨last, hasExit, ownedExit, leaves⟩ := exc.exists_exit inv
  have atEntry : value entry = input := by simp [value, spread, hasEntry, ownedEntry, enters]
  have atExit : value exit = output := by
    simp [value, spread, hasExit, ownedExit, leaves, Ne.symm bundle.start_ne_stop]
  refine ⟨value, ⟨fun {key port other peer} has inside conn hasPeer peerInside => ?_,
    fun {id proc} gotId isMem => ?_⟩, atEntry, atExit⟩
  · cases side : port.direction with
    | output =>
      exact elementwise.spread_connected bundle unif ready exc got gotStop outs has inside side conn
        hasPeer peerInside
    | input =>
      have leaves := inv.linked.crosses_back has conn hasPeer side
      exact (elementwise.spread_connected bundle unif ready exc got gotStop outs hasPeer peerInside
        leaves (inv.linked.back has conn hasPeer) has inside).symm
  · rcases Section.mem_members.mp isMem with rfl | rfl | ⟨chain, mem, onChain⟩
    · rw [got] at gotId
      cases gotId
      have spreads : opener.outPorts.map value = elements := by
        have positions : opener.outPorts.map value =
            opener.outPorts.map fun key => elements.getD (opener.outPorts.idxOf key) input :=
          map_congr_left fun key mem => by
            obtain ⟨port, has, owned, leaves⟩ := inv.listed_out got mem
            exact spread_of_start has owned leaves
        rw [positions,
          map_getD_idxOf (inv.nodup_outPorts got)
          ((bundle.singles inv unif got).length_eq.trans lengths)]
      rw [bundle.kind_start got, ins, map_singleton, spreads, atEntry]
      exact isInput
    · rw [gotStop] at gotId
      cases gotId
      have lanes := of_found gotStop elementwise.lanes
      have gathers : closer.inPorts.map value = elements.map change := by
        have positions : closer.inPorts.map value =
            (closer.inPorts.map fun key => elements.getD (closer.inPorts.idxOf key) input).map
            change := by
          rw [map_map]
          refine map_congr_left fun key mem => ?_
          obtain ⟨port, has, owned, enters⟩ := inv.listed_in gotStop mem
          exact spread_of_stop bundle has owned enters
        rw [positions,
          map_getD_idxOf (inv.nodup_inPorts gotStop) (lanes.length_eq.symm.trans lengths)]
      rw [bundle.kind_stop gotStop, outs, map_singleton, gathers, atExit]
      exact isOut
    · obtain ⟨only, rfl⟩ := length_eq_one_iff.mp (unif.lengths chain mem)
      obtain rfl := mem_singleton.mp onChain
      have shaped := bundle.isMapShaped mem onChain
      obtain ⟨member, near, far, gotMem, nears, fars⟩ := ready.legal.simple shaped
      rw [gotId] at gotMem
      cases gotMem
      have kind : net.kindOf id = proc.kind := by simp [kindOf, gotId]
      obtain ⟨nearPort, hasNear, ownedNear, entersNear⟩ := inv.exists_in gotId nears
      obtain ⟨farPort, hasFar, ownedFar, leavesFar⟩ := inv.exists_out gotId fars
      have atNear : value near = elements.getD (chains.idxOf [id]) input :=
        (spread_of_branch bundle hasNear (ownedNear ▸ mem)).trans (by rw [entersNear, ownedNear])
      have atFar : value far = change (elements.getD (chains.idxOf [id]) input) :=
        (spread_of_branch bundle hasFar (ownedFar ▸ mem)).trans (by rw [leavesFar, ownedFar])
      rw [nears, fars, map_singleton, map_singleton, atNear, atFar,
        Interpretation.relates_map (kind ▸ net.isMapShaped_eq id ▸ shaped)
        (kind ▸ elementwise.scalar [id] mem id onChain), ← kind, ← unif.functions_eq mem]

end Network

end Dataflow
