import Dataflow.Proofs.Region.Enclosed
import Dataflow.Proofs.Transform.Rim
import Dataflow.Proofs.Transform.Shorten

/-!
Networks in which everything between two processes stands in a row.

A row is made of segments that feed each other: bundles of branches that all apply the same
functions, and parallel maps. The transformations of sections and of parallel maps exchange some
segments of a row for others, and the rest stays as it is.
-/

open List Option

namespace Dataflow

/-- A part of a row, with the functions that it applies to each element. -/
inductive Segment where
  | bundle (region : Section) (chains : List (List ProcessId)) (functions : List Func)
  | single (id : ProcessId) (functions : List Func)

theorem Network.functionsOf_congr {net next : Network} {chain : List ProcessId}
    (same : ∀ id ∈ chain, next.process? id = net.process? id) :
    next.functionsOf chain = net.functionsOf chain :=
  flatMap_congr fun id mem => by rw [kindOf, kindOf, same id mem]

namespace Segment

/-- The process that a segment is entered at. -/
def entry : Segment → ProcessId
  | .bundle region _ _ => region.start
  | .single id _ => id

/-- The process that a segment is left at. -/
def exit : Segment → ProcessId
  | .bundle region _ _ => region.stop
  | .single id _ => id

/-- The processes of a segment. -/
def members : Segment → List ProcessId
  | .bundle region chains _ => region.members chains
  | .single id _ => [id]

/-- The functions that a segment applies to each element, in order. -/
def functions : Segment → List Func
  | .bundle _ _ functions => functions
  | .single _ functions => functions

/-- A segment is in a network, with so many branches; one that is a single process is new since the
beginning. -/
def Stands (origin : Network) (count : Nat) (net : Network) : Segment → Prop
  | .bundle region chains functions =>
    net.Enclosed region chains ∧ chains.length = count ∧ ∀ chain ∈ chains,
      net.functionsOf chain = functions
  | .single id functions =>
    origin.process? id = none ∧ net.kindOf id = .parallelMap (UInt64.ofNat count) functions

/-- A process is part of some segment of a list. -/
def Within (segments : List Segment) (id : ProcessId) : Prop :=
  ∃ segment ∈ segments, id ∈ segment.members

/-- The process that a list of segments is entered at. -/
def entryOf (segments : List Segment) : Option ProcessId :=
  segments.head?.map entry

/-- The process that a list of segments is left at. -/
def exitOf (segments : List Segment) : Option ProcessId :=
  segments.getLast?.map exit

variable {origin net next : Network} {count : Nat} {id : ProcessId} {seg : Segment}
  {segs others : List Segment}

theorem entry_mem (seg : Segment) : seg.entry ∈ seg.members := by
  cases seg <;> simp [entry, members, Section.members]

theorem exit_mem (seg : Segment) : seg.exit ∈ seg.members := by
  cases seg <;> simp [exit, members, Section.members]

theorem within_append : Within (segs ++ others) id ↔ Within segs id ∨ Within others id := by
  simp [Within, or_and_right, exists_or]

theorem within_singleton : Within [seg] id ↔ id ∈ seg.members := by
  simp [Within]

theorem within_bundle {reg : Section} {chains : List (List ProcessId)} {fns : List Func} :
    Within [.bundle reg chains fns] id ↔ id ∈ reg.members chains :=
  within_singleton

theorem within_of_entryOf (enters : entryOf segs = some id) : Within segs id := by
  obtain ⟨seg, starts, rfl⟩ := map_eq_some_iff.mp enters
  exact ⟨seg, mem_of_head? starts, seg.entry_mem⟩

theorem within_of_exitOf (leaves : exitOf segs = some id) : Within segs id := by
  obtain ⟨seg, stops, rfl⟩ := map_eq_some_iff.mp leaves
  exact ⟨seg, mem_of_getLast? stops, seg.exit_mem⟩

theorem entryOf_append : entryOf (segs ++ others) = (entryOf segs).or (entryOf others) := by
  rw [entryOf, head?_append, map_or]
  rfl

theorem exitOf_append : exitOf (segs ++ others) = (exitOf others).or (exitOf segs) := by
  rw [exitOf, getLast?_append, map_or]
  rfl

theorem exists_entryOf (nonempty : segs ≠ []) : ∃ id, entryOf segs = some id :=
  ⟨_, congrArg _ (head?_eq_some_head nonempty)⟩

theorem exists_exitOf (nonempty : segs ≠ []) : ∃ id, exitOf segs = some id :=
  ⟨_, congrArg _ (getLast?_eq_some_getLast nonempty)⟩

theorem Stands.exists_process (stands : seg.Stands origin count net) (isMem : id ∈ seg.members) :
    ∃ proc, net.process? id = some proc := by
  cases seg with
  | bundle reg chains fns => exact stands.1.toBundle.exists_process isMem
  | single other fns =>
    obtain rfl := mem_singleton.mp isMem
    cases got : net.process? id with
    | some proc => exact ⟨proc, rfl⟩
    | none => simp [Stands, Network.kindOf, got] at stands

/-- A segment whose processes stay is still there, a bundle if it stays enclosed. -/
theorem Stands.kept (stands : seg.Stands origin count net)
    (same : ∀ id ∈ seg.members, next.process? id = net.process? id)
    (encloses : ∀ {reg chains fns}, seg = .bundle reg chains fns → net.Enclosed reg chains →
      next.Enclosed reg chains) : seg.Stands origin count next := by
  cases seg with
  | bundle reg chains fns =>
    obtain ⟨enclosed, counts, applied⟩ := stands
    refine ⟨encloses rfl enclosed, counts, fun chain mem => ?_⟩
    rw [← applied chain mem]
    exact Network.functionsOf_congr fun id onChain =>
      same id (Section.mem_members_of_mem mem onChain)
  | single id fns =>
    obtain ⟨absent, isMap⟩ := stands
    exact ⟨absent, by rw [← isMap, Network.kindOf, Network.kindOf, same id mem_cons_self]⟩

end Segment

open Segment

/-- Everything between the ends of a rim stands in a row. -/
structure Row (rim : Rim) (count : Nat) (segments : List Segment) (net : Network) : Prop where
  evolves : rim.origin.Evolves net
  around : ∃ first last enter leave, entryOf segments = some first ∧ exitOf segments = some last ∧
    rim.Around first last enter leave net
  stands : ∀ segment ∈ segments, segment.Stands rim.origin count net
  apart : segments.Pairwise fun segment other => segment.members.Disjoint other.members
  outside : ∀ id ∈ rim.ends, ¬ Within segments id
  covers : ∀ {id process}, net.process? id = some process → id ∈ rim.ends ∨ Within segments id
  linked : segments.IsChain fun segment other => net.Feeds segment.exit other.entry

/-- Some segments of a row give way to others, and what is outside of them stays. -/
structure Exchange (rim : Rim) (count : Nat) (net : Network) (old new : List Segment)
    (next : Network) : Prop where
  evolves : net.Evolves next
  former : old ≠ []
  later : new ≠ []
  stands : ∀ segment ∈ new, segment.Stands rim.origin count next
  apart : new.Pairwise fun segment other => segment.members.Disjoint other.members
  linked : new.IsChain fun segment other => next.Feeds segment.exit other.entry
  fresh : ∀ {id}, Within new id → Within old id ∨ net.process? id = none
  covers : ∀ {id process}, next.process? id = some process →
    Within new id ∨ net.process? id = some process ∧ ¬ Within old id
  keeps : ∀ {segment : Segment}, segment.Stands rim.origin count net →
    (∀ id ∈ segment.members, ¬ Within old id) →
    segment.Stands rim.origin count next
  feeds : ∀ {source target}, net.Feeds source target → ¬ Within old source → ¬ Within old target →
    next.Feeds source target
  enters : ∀ {source former later}, entryOf old = some former → entryOf new = some later →
    net.Feeds source former → ¬ Within old source → next.Feeds source later
  leaves : ∀ {target former later}, exitOf old = some former → exitOf new = some later →
    net.Feeds former target → ¬ Within old target → next.Feeds later target
  around : ∀ {first last enter leave}, rim.Around first last enter leave net →
    (∀ id ∈ rim.ends, ¬ Within old id) →
    (Within old first → entryOf old = some first) →
    (Within old last → exitOf old = some last) →
    ∃ laterFirst laterLast enter leave, rim.Around laterFirst laterLast enter leave next ∧
      (Within old first → entryOf new = some laterFirst) ∧
      (¬ Within old first → laterFirst = first) ∧
      (Within old last → exitOf new = some laterLast) ∧
      (¬ Within old last → laterLast = last)

namespace Row

variable {rim : Rim} {count : Nat} {net next : Network} {id : ProcessId}
  {pre old new after : List Segment}

theorem not_within {front back : List Segment} (row : Row rim count (front ++ back) net)
    (inFront : Within front id) : ¬ Within back id := by
  obtain ⟨seg, mem, isMem⟩ := inFront
  rintro ⟨other, memOther, isMemOther⟩
  exact (pairwise_append.mp row.apart).2.2 seg mem other memOther isMem isMemOther

theorem beside (row : Row rim count (pre ++ (old ++ after)) net)
    (within : Within pre id ∨ Within after id) :
    (∃ proc, net.process? id = some proc) ∧ ¬ Within old id := by
  rcases within with inPre | inAfter
  · obtain ⟨seg, mem, isMem⟩ := inPre
    have stands := row.stands seg (mem_append_left _ mem)
    exact ⟨stands.exists_process isMem, fun inOld =>
      row.not_within ⟨seg, mem, isMem⟩ (within_append.mpr (.inl inOld))⟩
  · obtain ⟨seg, mem, isMem⟩ := inAfter
    have stands := row.stands seg (mem_append_right _ (mem_append_right _ mem))
    have behind : Row rim count ((pre ++ old) ++ after) net := by rwa [append_assoc]
    exact ⟨stands.exists_process isMem, fun inOld =>
      behind.not_within (within_append.mpr (.inr inOld)) ⟨seg, mem, isMem⟩⟩

end Row

namespace Exchange

variable {rim : Rim} {count : Nat} {net next : Network} {id : ProcessId}
  {pre old new after : List Segment}

theorem of_inside {touched : ProcessId → Prop} {start stop : ProcessId} (evo : net.Evolves next)
    (stands : ∀ seg ∈ new, seg.Stands rim.origin count next)
    (apart : new.Pairwise fun seg other => seg.members.Disjoint other.members)
    (linked : new.IsChain fun seg other => next.Feeds seg.exit other.entry)
    (fresh : ∀ {id}, Within new id → Within old id ∨ net.process? id = none)
    (covers : ∀ {id proc}, next.process? id = some proc →
      Within new id ∨ net.process? id = some proc ∧ ¬ Within old id)
    (inside : ∀ {id}, touched id → Within old id) (starts : entryOf old = some start)
    (startsNew : entryOf new = some start) (stops : exitOf old = some stop)
    (stopsNew : exitOf new = some stop) (outerStart : ¬ touched start) (outerStop : ¬ touched stop)
    (keeps : ∀ {seg : Segment}, seg.Stands rim.origin count net →
      (∀ id ∈ seg.members, ¬ touched id) →
      seg.Stands rim.origin count next)
    (feeds : ∀ {src dst}, net.Feeds src dst → ¬ touched src → ¬ touched dst → next.Feeds src dst)
    (around : ∀ {first last enter leave}, rim.Around first last enter leave net →
      (∀ id ∈ rim.ends, ¬ touched id) →
      ¬ touched first → ¬ touched last → ∃ enter leave, rim.Around first last enter leave next) :
    Exchange rim count net old new next where
  evolves := evo
  former := by
    rintro rfl
    cases starts
  later := by
    rintro rfl
    cases startsNew
  stands := stands
  apart := apart
  linked := linked
  fresh := fresh
  covers := covers
  keeps stands outside := keeps stands fun id isMem => mt inside (outside id isMem)
  feeds fed outside outsideToo := feeds fed (mt inside outside) (mt inside outsideToo)
  enters isOld isNew fed outside := by
    cases starts.symm.trans isOld
    cases startsNew.symm.trans isNew
    exact feeds fed (mt inside outside) outerStart
  leaves isOld isNew fed outside := by grind
  around {first last enter leave} rimmed outside entersOld leavesOld := by
    -- Where the row begins or ends within the segments, it does so where they are entered or left.
    have isStart (within : Within old first) : start = first := mem_unique starts (entersOld within)
    have isStop (within : Within old last) : stop = last := mem_unique stops (leavesOld within)
    obtain ⟨enter, leave, later⟩ := around rimmed (fun id isEnd => mt inside (outside id isEnd))
      (fun isTouched => outerStart (isStart (inside isTouched) ▸ isTouched))
      (fun isTouched => outerStop (isStop (inside isTouched) ▸ isTouched))
    exact ⟨first, last, enter, leave, later, fun within => isStart within ▸ startsNew, fun _ => rfl,
      fun within => isStop within ▸ stopsNew, fun _ => rfl⟩

section

variable (exchange : Exchange rim count net old new next)
  (row : Row rim count (pre ++ (old ++ after)) net)

include exchange row

theorem not_within (within : Within pre id ∨ Within after id) : ¬ Within new id := fun inNew => by
  obtain ⟨⟨proc, got⟩, notOld⟩ := row.beside within
  rcases exchange.fresh inNew with inOld | absent
  · exact notOld inOld
  · simp [got] at absent

theorem pairwise :
    (pre ++ (new ++ after)).Pairwise fun seg other => seg.members.Disjoint other.members := by
  obtain ⟨pairsFront, pairs, cross⟩ := pairwise_append.mp row.apart
  obtain ⟨-, pairsBack, -⟩ := pairwise_append.mp pairs
  refine pairwise_append.mpr ⟨pairsFront, pairwise_append.mpr ⟨exchange.apart, pairsBack, ?_⟩, ?_⟩
  · intro seg inNew other inAfter id isMem isMemOther
    exact exchange.not_within row (.inr ⟨other, inAfter, isMemOther⟩) ⟨seg, inNew, isMem⟩
  · intro seg inPre other mem id isMem isMemOther
    rcases mem_append.mp mem with inNew | inAfter
    · exact exchange.not_within row (.inl ⟨seg, inPre, isMem⟩) ⟨other, inNew, isMemOther⟩
    · exact cross seg inPre other (mem_append_right _ inAfter) isMem isMemOther

/-- The segments of the row still feed each other. -/
theorem isChain :
    (pre ++ (new ++ after)).IsChain fun seg other => next.Feeds seg.exit other.entry := by
  obtain ⟨chainFront, chain, link⟩ := isChain_append.mp row.linked
  obtain ⟨-, chainBack, linkBack⟩ := isChain_append.mp chain
  have outer {seg} (mem : seg ∈ pre ∨ seg ∈ after) {id} (isMem : id ∈ seg.members) :
      ¬ Within old id :=
    (row.beside (mem.imp (⟨seg, ·, isMem⟩) (⟨seg, ·, isMem⟩))).2
  have starts := head?_eq_some_head exchange.former
  have stops := getLast?_eq_some_getLast exchange.former
  refine isChain_append.mpr ⟨chainFront.imp_of_mem_imp ?_, isChain_append.mpr
    ⟨exchange.linked, chainBack.imp_of_mem_imp ?_, ?_⟩, ?_⟩
  · intro seg other mem memOther feeds
    exact exchange.feeds feeds (outer (.inl mem) seg.exit_mem)
      (outer (.inl memOther) other.entry_mem)
  · intro seg other mem memOther feeds
    exact exchange.feeds feeds (outer (.inr mem) seg.exit_mem)
      (outer (.inr memOther) other.entry_mem)
  · intro seg isLast other isFirst
    exact exchange.leaves (congrArg _ stops) (congrArg _ isLast) (linkBack _ stops other isFirst)
      (outer (.inr (mem_of_head? isFirst)) other.entry_mem)
  · intro seg isLast other isFirst
    rw [head?_append_of_ne_nil _ exchange.later] at isFirst
    refine exchange.enters (congrArg _ starts) (congrArg _ isFirst) (link seg isLast _ ?_)
      (outer (.inl (mem_of_getLast? isLast)) seg.exit_mem)
    rw [head?_append_of_ne_nil _ exchange.former]
    exact starts

theorem exists_around :
    ∃ first last enter leave, entryOf (pre ++ (new ++ after)) = some first ∧
      exitOf (pre ++ (new ++ after)) = some last ∧ rim.Around first last enter leave next := by
  obtain ⟨first, last, enter, leave, enters, leaves, around⟩ := row.around
  have outside (id : ProcessId) (isEnd : id ∈ rim.ends) : ¬ Within old id := fun inOld =>
    row.outside id isEnd (within_append.mpr (.inr (within_append.mpr (.inl inOld))))
  obtain ⟨start, starts⟩ := exists_entryOf exchange.former
  obtain ⟨stop, stops⟩ := exists_exitOf exchange.former
  have opens : entryOf pre = some first ∧ ¬ Within old first ∨ entryOf pre = none ∧
      start = first := by
    cases front : entryOf pre with
    | none => simpa [entryOf_append, front, starts] using enters
    | some other =>
      obtain rfl : other = first := by simpa [entryOf_append, front] using enters
      exact .inl ⟨rfl, (row.beside (.inl (within_of_entryOf front))).2⟩
  have closes : exitOf after = some last ∧ ¬ Within old last ∨ exitOf after = none ∧
      stop = last := by
    cases back : exitOf after with
    | none => simpa [exitOf_append, back, stops] using leaves
    | some other =>
      obtain rfl : other = last := by simpa [exitOf_append, back] using leaves
      exact .inl ⟨rfl, (row.beside (.inr (within_of_exitOf back))).2⟩
  obtain ⟨newFirst, newLast, enter, leave, later, entersNew, sameFirst, leavesNew, sameLast⟩ :=
    exchange.around around outside (fun inOld => by
      rcases opens with ⟨-, notOld⟩ | ⟨-, rfl⟩
      · exact absurd inOld notOld
      · exact starts) (fun inOld => by
      rcases closes with ⟨-, notOld⟩ | ⟨-, rfl⟩
      · exact absurd inOld notOld
      · exact stops)
  refine ⟨newFirst, newLast, enter, leave, ?_, ?_, later⟩
  · rcases opens with ⟨front, notOld⟩ | ⟨front, rfl⟩
    · simp [entryOf_append, front, sameFirst notOld]
    · simp [entryOf_append, front, entersNew (within_of_entryOf starts)]
  · rcases closes with ⟨back, notOld⟩ | ⟨back, rfl⟩
    · simp [exitOf_append, back, sameLast notOld]
    · simp [exitOf_append, back, leavesNew (within_of_exitOf stops)]

theorem later_row (intact : rim.Intact) : Row rim count (pre ++ (new ++ after)) next where
  evolves := row.evolves.trans exchange.evolves
  around := exchange.exists_around row
  stands seg mem := by
    simp only [mem_append] at mem
    have stands := row.stands seg
    simp only [mem_append] at stands
    rcases mem with inPre | inNew | inAfter
    · exact exchange.keeps (stands (.inl inPre)) fun id isMem =>
        (row.beside (.inl ⟨seg, inPre, isMem⟩)).2
    · exact exchange.stands seg inNew
    · exact exchange.keeps (stands (.inr (.inr inAfter))) fun id isMem =>
        (row.beside (.inr ⟨seg, inAfter, isMem⟩)).2
  apart := exchange.pairwise row
  outside id isEnd within := by
    have outside := row.outside id isEnd
    simp only [within_append] at within outside
    rcases within with inPre | inNew | inAfter
    · exact outside (.inl inPre)
    · rcases exchange.fresh inNew with inOld | absent
      · exact outside (.inr (.inl inOld))
      · obtain ⟨first, last, enter, leave, -, -, around⟩ := row.around
        obtain ⟨proc, fn, got, -⟩ := around.exists_process intact isEnd
        simp [got] at absent
    · exact outside (.inr (.inr inAfter))
  covers got := by
    rcases exchange.covers got with inNew | ⟨gotPre, notOld⟩
    · simp [within_append, inNew]
    · have covered := row.covers gotPre
      simp only [within_append, notOld, false_or] at covered ⊢
      exact covered.imp_right (Or.imp_right .inr)
  linked := exchange.isChain row

end

theorem whole (exchange : Exchange rim count net old new next) (row : Row rim count old net)
    (intact : rim.Intact) : Row rim count new next := by
  have whole : Row rim count ([] ++ (old ++ [])) net := by simpa using row
  simpa using exchange.later_row whole intact

end Exchange

end Dataflow
