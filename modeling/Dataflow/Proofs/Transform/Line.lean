import Dataflow.Proofs.Transform.Replaced

/-! Lines: processes with one in-port and one out-port that follow each other, which can be replaced
by one process. -/

open List Option

namespace Dataflow

theorem exists_next_of_isChain {α : Type} {r : α → α → Prop} {chain : List α} {node : α}
    (chained : chain.IsChain r) (mem : node ∈ chain) (inner : chain.getLast? ≠ some node) :
    ∃ front next back, chain = front ++ node :: next :: back ∧ r node next := by
  obtain ⟨front, back, rfl⟩ := append_of_mem mem
  cases back with
  | nil => simp at inner
  | cons next back =>
    have behind : (node :: next :: back).IsChain r := chained.suffix (suffix_append _ _)
    exact ⟨front, next, back, rfl, (isChain_cons_cons.mp behind).1⟩

theorem exists_previous_of_isChain {α : Type} {r : α → α → Prop} {chain : List α} {node : α}
    (chained : chain.IsChain r) (mem : node ∈ chain) (inner : chain.head? ≠ some node) :
    ∃ front previous back, chain = front ++ previous :: node :: back ∧ r previous node := by
  obtain ⟨front, back, rfl⟩ := append_of_mem mem
  rcases eq_nil_or_concat front with rfl | ⟨pre, previous, rfl⟩
  · simp at inner
  · simp only [concat_eq_append, append_assoc, cons_append, nil_append] at chained ⊢
    have behind : (previous :: node :: back).IsChain r := chained.suffix (suffix_append _ _)
    exact ⟨pre, previous, back, rfl, (isChain_cons_cons.mp behind).1⟩

namespace Network

variable {net : Network} {id first last src other dst : ProcessId}
  {chain front back : List ProcessId} {entry : PortKey}

/-- A process with one in-port and one out-port. -/
def Simple (net : Network) (id : ProcessId) : Prop :=
  ∃ process entry exit, net.process? id = some process ∧ process.inPorts = [entry] ∧
    process.outPorts = [exit]

/-- Different processes with one in-port and one out-port, each of which feeds the next one. -/
structure Line (net : Network) (chain : List ProcessId) : Prop where
  simple : ∀ id ∈ chain, net.Simple id
  chained : chain.IsChain net.Feeds
  once : chain.Nodup

theorem Simple.exists_port (simple : net.Simple id) (dir : Direction) :
    ∃ proc key, net.process? id = some proc ∧ proc.ports dir = [key] := by
  obtain ⟨proc, entry, exit, got, ins, outs⟩ := simple
  cases dir with
  | input => exact ⟨proc, entry, got, ins⟩
  | output => exact ⟨proc, exit, got, outs⟩

theorem Simple.source_unique (simple : net.Simple id) (inv : net.Consistent)
    (feeds : net.Feeds src id) (feedsToo : net.Feeds other id) : src = other := by
  obtain ⟨proc, entry, exit, got, ins, -⟩ := simple
  exact inv.source_unique got ins feeds feedsToo

theorem Simple.target_unique (simple : net.Simple id) (inv : net.Consistent)
    (feeds : net.Feeds id dst) (feedsToo : net.Feeds id other) : dst = other := by
  obtain ⟨proc, entry, exit, got, -, outs⟩ := simple
  exact inv.target_unique got outs feeds feedsToo

theorem Consistent.connection_of_feeds (inv : net.Consistent) {front back : Process}
    {exit : PortKey} (feeds : net.Feeds src dst) (got : net.process? src = some front)
    (outs : front.outPorts = [exit]) (gotDst : net.process? dst = some back)
    (ins : back.inPorts = [entry]) :
    ∃ port peer, net.port? exit = some port ∧ port.owner = src ∧ port.direction = .output ∧
      port.connection = some entry ∧ net.port? entry = some peer ∧ peer.owner = dst := by
  obtain ⟨key, port, other, peer, has, leaves, conn, hasPeer, owned, ownedPeer⟩ := feeds
  have enters := inv.linked.crosses has conn hasPeer leaves
  obtain rfl := inv.eq_of_outPorts got outs has owned leaves
  obtain rfl := inv.eq_of_inPorts gotDst ins hasPeer ownedPeer enters
  exact ⟨port, peer, has, owned, leaves, conn, hasPeer, ownedPeer⟩

namespace Line

theorem tail (line : net.Line (id :: chain)) : net.Line chain :=
  ⟨fun other mem => line.simple other (mem_cons_of_mem _ mem), line.chained.tail, line.once.tail⟩

section

variable (line : net.Line chain) (inv : net.Consistent)

include line inv

theorem eq_previous {previous : ProcessId} (split : chain = front ++ previous :: id :: back)
    (feeds : net.Feeds src id) : src = previous := by
  subst split
  have behind : (previous :: id :: back).IsChain net.Feeds :=
    line.chained.suffix (suffix_append _ _)
  exact (line.simple id (by simp)).source_unique inv feeds (isChain_cons_cons.mp behind).1

theorem eq_next {next : ProcessId} (split : chain = front ++ id :: next :: back)
    (feeds : net.Feeds id dst) : dst = next := by
  subst split
  have behind : (id :: next :: back).IsChain net.Feeds := line.chained.suffix (suffix_append _ _)
  exact (line.simple id (by simp)).target_unique inv feeds (isChain_cons_cons.mp behind).1

section

variable (starts : chain.head? = some first) (stops : chain.getLast? = some last)
  (opens : ¬ net.Feeds last first)

include starts stops opens

theorem target_outside (feeds : net.Feeds last dst) : dst ∉ chain := by
  intro mem
  by_cases here : dst = first
  · exact opens (here ▸ feeds)
  have inner : chain.head? ≠ some dst := fun isFirst => here (mem_unique isFirst starts)
  obtain ⟨front, previous, back, split, -⟩ := exists_previous_of_isChain line.chained mem inner
  obtain rfl := line.eq_previous inv split feeds
  have once := line.once
  subst split
  have behind : last ∈ dst :: back := by
    rw [getLast?_append_of_ne_nil _ (by simp)] at stops
    exact mem_of_getLast? stops
  exact (nodup_cons.mp (nodup_append.mp once).2.1).1 behind

theorem source_outside (feeds : net.Feeds src first) : src ∉ chain := by
  intro mem
  by_cases here : src = last
  · exact opens (here ▸ feeds)
  have inner : chain.getLast? ≠ some src := fun isLast => here (mem_unique isLast stops)
  obtain ⟨front, next, back, split, -⟩ := exists_next_of_isChain line.chained mem inner
  obtain rfl := line.eq_next inv split feeds
  have once := line.once
  subst split
  cases front with
  | nil => grind
  | cons head front => simp_all

end

end

theorem induction_on {r : ProcessId → ProcessId → Prop} {reg : ProcessId → Prop}
    {whole : List ProcessId} (chained : chain.IsChain r) (inside : chain ⊆ whole)
    (starts : ∀ first ∈ chain.head?, reg first)
    (step : ∀ src ∈ whole, ∀ dst ∈ whole, reg src → r src dst → reg dst) :
    ∀ id ∈ chain, reg id := by
  induction chain with
  | nil => simp
  | cons head tail ih =>
    have here : reg head := starts head rfl
    refine forall_mem_cons.mpr
      ⟨here, ih chained.tail (fun id mem => inside (mem_cons_of_mem _ mem)) ?_⟩
    intro second isSecond
    have mem : second ∈ tail := mem_of_head? isSecond
    refine step head (inside mem_cons_self) second (inside (mem_cons_of_mem _ mem)) here ?_
    exact (isChain_cons.mp chained).1 second isSecond

section

variable (line : net.Line chain) (inv : net.Consistent) (starts : chain.head? = some first)

include line inv starts

/-- In-ports of a line other than its entry are connected inside the line. -/
theorem closes {front : Process} (got : net.process? first = some front)
    (ins : front.inPorts = [entry]) : net.Closes chain entry := by
  intro key port has isMem enters notEntry
  have inner : chain.head? ≠ some port.owner := fun isFirst => by
    obtain rfl : first = port.owner := mem_unique starts isFirst
    exact notEntry (inv.eq_of_inPorts got ins has rfl enters)
  obtain ⟨pre, previous, behind, split, feeds⟩ :=
    exists_previous_of_isChain line.chained isMem inner
  have isPrevious : previous ∈ chain := by simp [split]
  obtain ⟨proc, into, -, gotHere, single, -⟩ := line.simple _ isMem
  obtain ⟨src, -, out, gotSrc, -, singleOut⟩ := line.simple _ isPrevious
  obtain ⟨peer, too, hasPeer, owned, -, conn, hasToo, -⟩ :=
    inv.connection_of_feeds feeds gotSrc singleOut gotHere single
  obtain rfl := inv.eq_of_inPorts gotHere single has rfl enters
  exact ⟨out, peer, inv.linked.back hasPeer conn has, hasPeer, owned ▸ isPrevious⟩

/-- A line that does not feed itself can be replaced. -/
theorem excisable (stops : chain.getLast? = some last) (opens : ¬ net.Feeds last first) :
    ∃ entry exit, net.Excisable first last chain entry exit := by
  have memFirst : first ∈ chain := mem_of_head? starts
  have memLast : last ∈ chain := mem_of_getLast? stops
  obtain ⟨front, entry, -, gotFirst, ins, -⟩ := line.simple first memFirst
  obtain ⟨back, -, exit, gotLast, -, outs⟩ := line.simple last memLast
  refine ⟨entry, exit, ⟨front, gotFirst, ins⟩, ⟨back, gotLast, outs⟩, memFirst, memLast, ?_,
    ?_, ?_, ?_, ?_⟩
  · -- An out-port that is not the exit leads to the next member.
    intro key port has owned leaves notExit
    have inner : chain.getLast? ≠ some port.owner := fun isLast => by
      have same : port.owner = last := mem_unique isLast stops
      exact notExit (inv.eq_of_outPorts gotLast outs has same leaves)
    obtain ⟨_, next, _, split, feeds⟩ := exists_next_of_isChain line.chained owned inner
    obtain ⟨proc, -, out, got, -, single⟩ := line.simple _ owned
    obtain ⟨near, nearPort, other, peer, hasNear, isOut, conn, hasPeer, ownsNear, ownsPeer⟩ := feeds
    obtain rfl := inv.eq_of_outPorts got single has rfl leaves
    obtain rfl := inv.eq_of_outPorts got single hasNear ownsNear isOut
    rw [has] at hasNear
    cases hasNear
    exact ⟨other, peer, conn, hasPeer, by simp [split, ownsPeer]⟩
  · intro key port has owned enters notEntry
    obtain ⟨other, peer, conn, -⟩ := line.closes inv starts gotFirst ins has owned enters notEntry
    simp [conn]
  · intro other port peer has conn hasPeer
    obtain ⟨owns, enters⟩ := of_found has (inv.exists_in gotFirst ins)
    exact line.source_outside inv starts stops opens
      (owns ▸ inv.feeds_of_input has enters conn hasPeer)
  · intro other port peer has conn hasPeer
    obtain ⟨owns, leaves⟩ := of_found has (inv.exists_out gotLast outs)
    exact line.target_outside inv starts stops opens
      ⟨exit, port, other, peer, has, leaves, conn, hasPeer, owns, rfl⟩
  · intro reg isFirst step
    exact induction_on line.chained (List.Subset.refl _) (fun head isHead => by simp_all) step

end

end Line

end Network

end Dataflow
