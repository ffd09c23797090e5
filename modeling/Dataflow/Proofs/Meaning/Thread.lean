import Dataflow.Proofs.Meaning.Replacement
import Dataflow.Proofs.Transform.Ready

/-! A line of processes lets through what its processes let through one after the other. -/

open List Option

namespace Dataflow.Network

universe u

variable {Value : Type u} {law : Behaviour Value} {value : PortKey → Value} {net : Network}
  {id first last : ProcessId}
  {chain gone fewer : List ProcessId} {entry exit : PortKey} {front back : Process}
  {input output : Value}

/-- The values that processes let through one after the other. -/
def Threads (law : Behaviour Value) (net : Network) : List ProcessId → Value → Value → Prop
  | [], input, output => output = input
  | id :: chain, input, output =>
    ∃ between, law id [input] [between] (net.kindOf id) ∧ Threads law net chain between output

theorem SolvesWithin.mono (within : SolvesWithin law net gone value) (inside : fewer ⊆ gone) :
    SolvesWithin law net fewer value where
  connected has isMem conn hasPeer isMemPeer :=
    within.connected has (inside isMem) conn hasPeer (inside isMemPeer)
  related got isMem := within.related got (inside isMem)

theorem Consistent.solvesWithin (inv : net.Consistent)
    (conn : ∀ {src dst near far}, net.Connects src dst → net.port? src = some near →
      near.owner ∈ gone → net.port? dst = some far → far.owner ∈ gone → value src = value dst)
    (rel : ∀ {id proc}, net.process? id = some proc → id ∈ gone →
      law id (proc.inPorts.map value) (proc.outPorts.map value) proc.kind) :
    SolvesWithin law net gone value := by
  refine ⟨fun {key port other peer} has isMem leads hasPeer isMemPeer => ?_, rel⟩
  cases side : port.direction with
  | output => exact conn ⟨port, has, side, leads⟩ has isMem hasPeer isMemPeer
  | input =>
    exact (conn ((inv.linked.connection_eq_some has side).mp leads) hasPeer isMemPeer
      has isMem).symm

namespace Line

section

variable (line : net.Line chain) (inv : net.Consistent)

include line inv

theorem threads (within : SolvesWithin law net chain value) (starts : chain.head? = some first)
    (stops : chain.getLast? = some last) (got : net.process? first = some front)
    (ins : front.inPorts = [entry]) (gotLast : net.process? last = some back)
    (outs : back.outPorts = [exit]) : Threads law net chain (value entry) (value exit) := by
  -- The first process passes its result on to the line behind it.
  induction chain generalizing first front entry with
  | nil => simp at starts
  | cons id chain ih =>
    obtain rfl : id = first := by simpa using starts
    obtain ⟨too, into, out, gotToo, -, singleOut⟩ := line.simple id mem_cons_self
    obtain rfl := mem_unique got gotToo
    have rel := within.related got mem_cons_self
    rw [ins, singleOut] at rel
    refine ⟨value out, by simpa [kindOf, got] using rel, ?_⟩
    cases chain with
    | nil =>
      obtain rfl : id = last := by simpa using stops
      obtain rfl := mem_unique got gotLast
      rw [outs] at singleOut
      exact congrArg value (List.cons.inj singleOut).1
    | cons second chain =>
      obtain ⟨follower, intoNext, -, gotNext, singleNext, -⟩ := line.simple second (by simp)
      obtain ⟨port, peer, has, owned, -, conn, hasPeer, ownedPeer⟩ := inv.connection_of_feeds
        (isChain_cons_cons.mp line.chained).1 got singleOut gotNext singleNext
      rw [within.connected has (by simp [owned]) conn hasPeer (by simp [ownedPeer])]
      exact ih line.tail (within.mono (subset_cons_self _ _)) rfl
        (by rwa [getLast?_cons_cons] at stops) gotNext singleNext

theorem exists_within (entered : ∀ first ∈ chain.head?, ∀ src ∈ chain, ¬ net.Feeds src first)
    (threads : Threads law net chain input output) :
    ∃ value, SolvesWithin law net chain value ∧
      (∀ first ∈ chain.head?, ∀ front entry, net.process? first = some front →
        front.inPorts = [entry] → value entry = input) ∧
      ∀ last ∈ chain.getLast?, ∀ back exit, net.process? last = some back → back.outPorts = [exit] →
        value exit = output := by
  -- The values behind the first process are there already, and those at its own two ports are set.
  induction chain generalizing input with
  | nil => exact ⟨fun _ => input, ⟨by simp, by simp⟩, by simp, by simp⟩
  | cons id chain ih =>
    obtain ⟨between, relates, threads⟩ := threads
    have new := (nodup_cons.mp line.once).1
    have follows {second} (isSecond : second ∈ chain.head?) : net.Feeds id second :=
      (isChain_cons.mp line.chained).1 second isSecond
    have simple (other : ProcessId) (mem : other ∈ chain) :=
      line.simple other (mem_cons_of_mem _ mem)
    obtain ⟨inner, within, starts, stops⟩ := ih line.tail (fun second isSecond src mem feeds =>
      new ((simple second (mem_of_head? isSecond)).source_unique inv feeds (follows isSecond) ▸
      mem)) threads
    obtain ⟨proc, entry, exit, got, ins, outs⟩ := line.simple id mem_cons_self
    obtain ⟨near, hasEntry, ownedEntry, enters⟩ := inv.exists_in got ins
    obtain ⟨far, hasExit, ownedExit, leaves⟩ := inv.exists_out got outs
    have apart : exit ≠ entry := by
      rintro rfl
      simp_all
    let value := Function.update (Function.update inner exit between) entry input
    have atEntry : value entry = input := Function.update_self ..
    have atExit : value exit = between := by simp [value, apart]
    have elsewhere {key port} (has : net.port? key = some port) (other : port.owner ≠ id) :
        value key = inner key := by grind
    refine ⟨value, inv.solvesWithin ?_ ?_, ?_, ?_⟩
    · intro src dst port peer connects has isMem hasPeer isMemPeer
      obtain ⟨isOut, conn⟩ := of_found has ((connects :))
      have feeds : net.Feeds port.owner peer.owner :=
        ⟨src, port, dst, peer, has, isOut, conn, hasPeer, rfl, rfl⟩
      have notFirst : peer.owner ≠ id := fun same => entered id rfl port.owner isMem (same ▸ feeds)
      have behind := (mem_cons.mp isMemPeer).resolve_left notFirst
      rw [elsewhere hasPeer notFirst]
      by_cases isFirst : port.owner = id
      · obtain rfl := inv.eq_of_outPorts got outs has isFirst isOut
        obtain ⟨second, more, rfl⟩ := exists_cons_of_ne_nil (ne_nil_of_mem behind)
        obtain ⟨follower, into, -, gotNext, single, -⟩ := simple second mem_cons_self
        have isSecond :=
          (line.simple id mem_cons_self).target_unique inv (isFirst ▸ feeds) (follows rfl)
        obtain rfl := inv.eq_of_inPorts gotNext single hasPeer isSecond
          (inv.linked.crosses has conn hasPeer isOut)
        rw [atExit, starts second rfl follower dst gotNext single]
      · rw [elsewhere has isFirst]
        exact within.connected has ((mem_cons.mp isMem).resolve_left isFirst) conn hasPeer behind
    · intro other has gotOther isMem
      by_cases isFirst : other = id
      · subst isFirst
        obtain rfl := mem_unique got gotOther
        simpa [ins, outs, atEntry, atExit, kindOf, got] using relates
      · refine inv.relates_congr gotOther
          (fun hasPort owned => (elsewhere hasPort (owned ▸ isFirst)).symm) ?_
        exact within.related gotOther ((mem_cons.mp isMem).resolve_left isFirst)
    · intro first isFirst front into gotFirst single
      obtain rfl : id = first := by simpa using isFirst
      obtain rfl := mem_unique got gotFirst
      rw [ins] at single
      rw [← (List.cons.inj single).1, atEntry]
    · intro last isLast back out gotLast single
      cases chain with
      | nil =>
        obtain rfl : id = last := by simpa using isLast
        obtain rfl := mem_unique got gotLast
        rw [outs] at single
        rw [← (List.cons.inj single).1, atExit]
        exact threads.symm
      | cons second more =>
        obtain ⟨port, has, owned, -⟩ := inv.exists_out gotLast single
        rw [elsewhere has fun same => new (same ▸ owned ▸ mem_of_getLast? isLast)]
        exact stops last isLast back out gotLast single

theorem lets_iff (starts : chain.head? = some first) (stops : chain.getLast? = some last)
    (opens : ¬ net.Feeds last first) (got : net.process? first = some front)
    (ins : front.inPorts = [entry]) (gotLast : net.process? last = some back)
    (outs : back.outPorts = [exit]) :
    Lets law net chain entry exit input output ↔ Threads law net chain input output := by
  constructor
  · rintro ⟨value, within, rfl, rfl⟩
    exact line.threads inv within starts stops got ins gotLast outs
  · intro threads
    obtain ⟨value, within, enters, leaves⟩ :=
      line.exists_within inv (fun head isHead src mem feeds => by
        obtain rfl : first = head := mem_unique starts isHead
        exact line.source_outside inv starts stops opens feeds mem) threads
    exact ⟨value, within, enters first starts front entry got ins,
      leaves last stops back exit gotLast outs⟩

end

end Line

end Dataflow.Network
