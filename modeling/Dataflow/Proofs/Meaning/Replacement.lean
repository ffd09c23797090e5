import Dataflow.Proofs.Meaning.Solution
import Dataflow.Proofs.Transform.Replaced

/-! A process that does what a region does can take its place without a change of meaning. -/

open List

namespace Dataflow

universe u

variable {Value : Type u} {law : Behaviour Value} {model : Interpretation Value}
  {net next : Network}
  {start stop fresh : ProcessId} {gone : List ProcessId}
  {entry exit key : PortKey} {kind : Kind Composite} {hier : Hierarchy}
  {value after : PortKey → Value} {port : Port}

namespace Network

/-- Values that fit together inside a region, whatever is around it. -/
structure SolvesWithin (law : Behaviour Value) (net : Network) (gone : List ProcessId)
    (value : PortKey → Value) : Prop where
  connected : ∀ {key port other peer}, net.port? key = some port → port.owner ∈ gone →
    port.connection = some other → net.port? other = some peer → peer.owner ∈ gone →
    value key = value other
  related : ∀ {id process}, net.process? id = some process → id ∈ gone →
    law id (process.inPorts.map value) (process.outPorts.map value) process.kind

/-- The values that a region lets through: the one at its entry and the one at its exit. -/
def Lets (law : Behaviour Value) (net : Network) (gone : List ProcessId) (entry exit : PortKey)
    (input output : Value) : Prop :=
  ∃ value : PortKey → Value, SolvesWithin law net gone value ∧ value entry = input ∧
    value exit = output

theorem isBoundary_of_input (mem : key ∈ net.inputs) : net.isBoundary key := by
  simp [isBoundary, mem]

theorem isBoundary_of_output (mem : key ∈ net.outputs) : net.isBoundary key := by
  simp [isBoundary, mem]

theorem Consistent.relates_congr (inv : net.Consistent) {id : ProcessId} {proc : Process}
    (got : net.process? id = some proc)
    (same : ∀ {key port}, net.port? key = some port → port.owner = id → value key = after key)
    (relates : law id (proc.inPorts.map value) (proc.outPorts.map value) proc.kind) :
    law id (proc.inPorts.map after) (proc.outPorts.map after) proc.kind := by
  have all (dir : Direction) : (proc.ports dir).map value = (proc.ports dir).map after := by
    refine map_congr_left fun key mem => ?_
    obtain ⟨port, has, owned, -⟩ := inv.listed got mem
    exact same has owned
  have ins : proc.inPorts.map value = proc.inPorts.map after := all .input
  have outs : proc.outPorts.map value = proc.outPorts.map after := all .output
  rwa [ins, outs] at relates

namespace Replaced

/-- The values at the ports after a replacement, from those before it. -/
def forth (net : Network) (entry exit : PortKey) (value : PortKey → Value) (key : PortKey) :
    Value :=
  if key = net.ports.nextKey then value entry else if key =
    net.ports.nextKey + 1 then value exit else value key

/-- The values at the ports before a replacement, from those after it and those inside the
region. -/
def back (net : Network) (gone : List ProcessId) (inner after : PortKey → Value) (key : PortKey) :
    Value :=
  if net.ownedBy gone key then inner key else after key

theorem forth_of_found (has : net.port? key = some port) :
    forth net entry exit value key = value key := by
  have old := lt_nextKey has
  rw [forth, if_neg (Nat.ne_of_lt old), if_neg (Nat.ne_of_lt (Nat.lt_succ_of_lt old))]

theorem forth_substitute (has : net.port? key = some port) :
    forth net entry exit value (net.substitute entry exit key) = value key := by
  unfold substitute
  split
  · rename_i isEntry
    simp [forth, isEntry]
  · split
    · rename_i isExit
      simp [forth, isExit]
    · exact forth_of_found has

section

variable (repl : net.Replaced gone entry exit fresh kind hier next)

include repl

theorem solves_forth (inv : net.Consistent)
    (equivalent : ∀ input out, Lets law net gone entry exit input out →
      law fresh [input] [out] kind) (solves : Solves law net value) :
    Solves law next (forth net entry exit value) := by
  have first : forth net entry exit value net.ports.nextKey = value entry := by simp [forth]
  have second : forth net entry exit value (net.ports.nextKey + 1) = value exit := by simp [forth]
  have leads {key port other} (has : net.port? key = some port)
      (conn : port.connection = some other) : value key = forth net entry exit value other := by
    obtain ⟨peer, hasPeer, -⟩ := inv.linked has conn
    rw [forth_of_found hasPeer, solves.connected has conn]
  constructor
  · intro key port other has conn
    rcases repl.port_cases has with
      ⟨rfl, old, hasOld, rfl⟩ | ⟨rfl, old, hasOld, rfl⟩ | ⟨old, hasOld, -, rfl⟩
    · rw [first, leads hasOld conn]
    · rw [second, leads hasOld conn]
    · obtain ⟨pre, connPre, rewired⟩ := Option.bind_eq_some_iff.mp conn
      obtain ⟨peer, hasPeer, -⟩ := inv.linked hasOld connPre
      have placed : other = net.substitute entry exit pre := by
        unfold rewire at rewired
        unfold substitute
        split at rewired
        · simp_all
        · grind
      rw [placed, forth_substitute hasPeer, forth_of_found hasOld, solves.connected hasOld connPre]
  · intro id proc got
    rcases repl.process_cases got with ⟨rfl, rfl⟩ | ⟨-, pre⟩
    · simp only [map_cons, map_nil, first, second]
      refine equivalent _ _ ⟨value, ⟨fun has _ conn _ _ => solves.connected has conn, ?_⟩, rfl, rfl⟩
      exact fun gotId _ => solves.related gotId
    · exact inv.relates_congr pre (fun has _ => (forth_of_found has).symm) (solves.related pre)

theorem solves_back (inv : net.Consistent) (exc : net.Excisable start stop gone entry exit)
    (closes : net.Closes gone entry) {inner : PortKey → Value} (solves : Solves law next after)
    (within : SolvesWithin law net gone inner) (enters : inner entry = after net.ports.nextKey)
    (leaves : inner exit = after (net.ports.nextKey + 1)) :
    Solves law net (back net gone inner after) := by
  have inside {key port} (has : net.port? key = some port) (isInside : port.owner ∈ gone) :
      back net gone inner after key = inner key := by simp [back, ownedBy_eq has, isInside]
  have outside {key port} (has : net.port? key = some port) (isOutside : port.owner ∉ gone) :
      back net gone inner after key = after key := by simp [back, ownedBy_eq has, isOutside]
  -- A connection between the region and the rest goes through the entry or the exit.
  have crosses {key other port peer} (has : net.port? key = some port)
      (isInside : port.owner ∈ gone)
      (conn : port.connection = some other) (hasPeer : net.port? other = some peer)
        (isOutside : peer.owner ∉ gone) :
      inner key = after other := by
    rcases exc.eq_entry_or_exit closes has isInside conn hasPeer isOutside with rfl | rfl
    · rw [enters, solves.connected (repl.port_entry has) conn]
    · rw [leaves, solves.connected (repl.port_exit has) conn]
  constructor
  · intro key port other has conn
    obtain ⟨peer, hasPeer, leadsBack, -⟩ := inv.linked has conn
    by_cases isInside : port.owner ∈ gone <;> by_cases peerInside : peer.owner ∈ gone
    · rw [inside has isInside, inside hasPeer peerInside,
        within.connected has isInside conn hasPeer peerInside]
    · grind
    · grind
    · rw [outside has isInside, outside hasPeer peerInside]
      have apart := exc.rewire_of inv hasPeer peerInside
      exact solves.connected (repl.port_of has isInside) (by simp [conn, apart])
  · intro id proc got
    by_cases isInside : id ∈ gone
    · exact inv.relates_congr got (fun has owned => (inside has (owned ▸ isInside)).symm)
        (within.related got isInside)
    · refine inv.relates_congr got (fun has owned => (outside has (owned ▸ isInside)).symm) ?_
      exact solves.related (repl.process_of got isInside)

theorem preserves (inv : net.Consistent) (legal : net.Legal)
    (exc : net.Excisable start stop gone entry exit) (closes : net.Closes gone entry)
    (equivalent : ∀ input out, Lets law net gone entry exit input out ↔
      law fresh [input] [out] kind) : Preserves law net next := by
  refine ⟨repl.evolves, fun got => ?_, fun value solves => ?_, fun after solves => ?_⟩
  · rcases repl.process_cases got with ⟨rfl, -⟩ | ⟨-, pre⟩
    · exact .inr repl.unused
    · exact .inl pre
  · refine ⟨_, repl.solves_forth inv (fun input out => (equivalent input out).mp) solves,
      fun {key} live _ => ?_, ?_, ?_⟩
    · obtain ⟨port, has⟩ := Option.isSome_iff_exists.mp live
      exact (forth_of_found has).symm
    · rw [repl.inputs, map_map]
      refine map_congr_left fun key mem => ?_
      obtain ⟨port, has⟩ := Option.isSome_iff_exists.mp (inv.boundary (isBoundary_of_input mem))
      exact (forth_substitute has).symm
    · rw [repl.outputs, map_map]
      refine map_congr_left fun key mem => ?_
      obtain ⟨port, has⟩ := Option.isSome_iff_exists.mp (inv.boundary (isBoundary_of_output mem))
      exact (forth_substitute has).symm
  · have freshGot : next.process? fresh =
        some ⟨kind, hier, [net.ports.nextKey], [net.ports.nextKey + 1]⟩ := by
      rw [repl.processes, if_pos rfl]
    obtain ⟨inner, within, enters, leaves⟩ := (equivalent _ _).mpr (solves.related freshGot)
    -- On the boundary the region has its entry and its exit only.
    have onBdry {key} (isBdry : net.isBoundary key) :
        back net gone inner after key = after (net.substitute entry exit key) := by
      obtain ⟨port, has⟩ := Option.isSome_iff_exists.mp (inv.boundary isBdry)
      by_cases isInside : port.owner ∈ gone
      · rw [back, ownedBy_eq has, if_pos (by simpa using isInside)]
        by_cases isEntry : key = entry
        · simp [substitute, isEntry, enters]
        · obtain rfl := (exc.eq_of_isBoundary legal has isInside isBdry).resolve_left isEntry
          simp [substitute, isEntry, leaves]
      · have notEntry := exc.ne_entry inv has isInside
        have notExit := exc.ne_exit inv has isInside
        simp [back, ownedBy_eq has, isInside, substitute, notEntry, notExit]
    refine ⟨_, repl.solves_back inv exc closes solves within enters leaves,
      fun {key} live liveNext => ?_, ?_, ?_⟩
    · obtain ⟨port, has⟩ := Option.isSome_iff_exists.mp live
      obtain ⟨new, hasNext⟩ := Option.isSome_iff_exists.mp liveNext
      have old := lt_nextKey has
      rcases repl.port_cases hasNext with ⟨same, -⟩ | ⟨same, -⟩ | ⟨former, hasOld, isOutside, -⟩
      · exact absurd same (Nat.ne_of_lt old)
      · grind
      · simp [back, ownedBy_eq hasOld, isOutside]
    · rw [repl.inputs, map_map]
      exact map_congr_left fun key mem => onBdry (isBoundary_of_input mem)
    · rw [repl.outputs, map_map]
      exact map_congr_left fun key mem => onBdry (isBoundary_of_output mem)

end

end Replaced

end Network

/-- The values that a region lets through if processes do what an interpretation says. -/
abbrev Interpretation.Passes (model : Interpretation Value) (net : Network) (gone : List ProcessId)
    (entry exit : PortKey) : Value → Value → Prop :=
  Network.Lets model.Relates net gone entry exit

end Dataflow
