import Dataflow.Proofs.Region.Span

/-! When the sections that are reported are the largest ones. -/

namespace Dataflow.Network

open Relation

variable {net : Network} {id src dst : ProcessId} {region inner outer : Section}

/-- The search for sections comes to the process. -/
def Visited (net : Network) (id : ProcessId) : Prop :=
  ∃ output, net.Emits output ∧ ReflTransGen net.Upstream output id

theorem Reports.leads (reports : net.Reports region) (inv : net.Consistent) :
    ReflTransGen net.Feeds region.start region.stop :=
  (reaches_of_backs (reports.backs inv) inv reports.isUnzip_start).leads_back inv

theorem Visited.reachesOutput (visited : net.Visited id) (inv : net.Consistent) :
    net.ReachesOutput id := by
  obtain ⟨out, emits, upstream⟩ := visited
  refine ⟨out, emits, ?_⟩
  induction upstream with
  | refl => exact .refl
  | tail _ step ih =>
    rcases step with ⟨region, reports, rfl, rfl⟩ | ⟨-, feeds⟩
    · exact (reports.leads inv).trans ih
    · exact ih.head feeds

theorem Reported.encloses (reported : net.Reported region) (inv : net.Consistent) :
    net.Encloses region where
  starts := reported.1.isUnzip_start
  stops := reported.1.1
  leads := Visited.reachesOutput reported.2 inv
  contained := (inv.isContained_eq_true reported.1.isUnzip_start reported.1.1).mpr reported.1.2.2

theorem Reported.visited_start (reported : net.Reported region) : net.Visited region.start := by
  obtain ⟨reports, out, emits, upstream⟩ := reported
  exact ⟨out, emits, upstream.tail (.inl ⟨region, reports, rfl, rfl⟩)⟩

theorem ReachesOutput.visited (reaches : net.ReachesOutput id) (inv : net.Consistent) :
    net.Visited id ∨
    ∃ region, net.Reported region ∧ net.Draws region id ∧ id ≠ region.start ∧ id ≠ region.stop := by
  obtain ⟨out, emits, leads⟩ := reaches
  have behind {region src} (reported : net.Reported region) (draws : net.Draws region src) :
      net.Visited src ∨ ∃ region, net.Reported region ∧ net.Draws region src ∧ src ≠ region.start ∧
      src ≠ region.stop := by
    by_cases starts : src = region.start
    · exact .inl (starts ▸ reported.visited_start)
    by_cases stops : src = region.stop
    · exact .inl (stops ▸ reported.2)
    · grind
  induction leads using ReflTransGen.head_induction_on with
  | refl => exact .inl ⟨out, emits, .refl⟩
  | @head src dst feeds _ ih =>
    rcases ih with visited | ⟨region, reported, draws, elsewhere, -⟩
    · by_cases stops : ∃ region, net.Reports region ∧ region.stop = dst
      · obtain ⟨region, reports, rfl⟩ := stops
        have apart := reports.stop_ne_of_isUnzip reports.isUnzip_start
        exact behind ⟨reports, visited⟩ (Draws.tail .refl inv apart feeds)
      · obtain ⟨first, emitsFirst, upstream⟩ := visited
        exact .inl
          ⟨first, emitsFirst,
            upstream.tail (.inr ⟨fun region reports stop => stops ⟨region, reports, stop⟩, feeds⟩)⟩
    · exact behind reported (draws.tail inv elsewhere feeds)

namespace Tight

theorem exists_source (tight : net.Tight region) (inv : net.Consistent)
    (contained : net.Contained region) (spans : net.Spans region id)
    (elsewhere : id ≠ region.start) : ∃ src, net.Feeds src id ∧ net.Spans region src := by
  have leads := contained.2.leadsInto ((tight.spans_iff id).mp spans) elsewhere
  obtain ⟨src, across, draws, -⟩ := leads.exists_both leads
  exact ⟨src, inv.mem_across_input.mp across, (tight.spans_iff src).mpr draws⟩

theorem not_emits (tight : net.Tight region) (inv : net.Consistent) (legal : net.Legal)
    (contained : net.Contained region) (unzips : net.isUnzip region.start)
    (spans : net.Spans region id) (elsewhere : id ≠ region.stop) (fed : net.Feeds src id) :
    ¬ net.Emits id := by
  rintro ⟨key, isOut, port, has, owned⟩
  have open_ : port.connection = none := legal.unconnected (by simp [isBoundary, isOut]) has
  cases facing : port.direction with
  | output =>
    exact (contained.1.leadsInto spans elsewhere).connection_ne_none inv has owned facing open_
  | input =>
    by_cases starts : id = region.start
    · -- The start has one in-port, and that is fed.
      subst starts
      obtain ⟨proc, got, isUnzip⟩ := (Option.any_eq_true _ _).mp unzips
      have admitted := legal.admits got
      have single : proc.inPorts.length = 1 := by
        cases kind : proc.kind <;> simp_all [Kind.isUnzip, Kind.arity, Arity.admits]
      obtain ⟨entry, ins⟩ := List.length_eq_one_iff.mp single
      obtain ⟨far, first, near, peer, hasFar, leaves, conn, hasPeer, -, ownedPeer⟩ := fed
      have enters := inv.linked.crosses hasFar conn hasPeer leaves
      obtain rfl := inv.eq_of_inPorts got ins hasPeer ownedPeer enters
      obtain rfl := inv.eq_of_inPorts got ins has owned facing
      simp [inv.linked.back hasFar conn has] at open_
    · exact (contained.2.leadsInto ((tight.spans_iff id).mp spans) starts).connection_ne_none inv
        has owned facing open_

end Tight

/-- All sections that the search could report are tight. -/
def AllTight (net : Network) : Prop :=
  ∀ {region}, net.Reports region → net.ReachesOutput region.stop → net.Tight region

section

variable (tight : net.AllTight) (inv : net.Consistent)

include tight inv

theorem AllTight.not_spans_start (reported : net.Reported region) (reports : net.Reports outer)
    (reaches : net.ReachesOutput outer.stop) (outside : ¬ net.Spans region outer.stop)
    (apart : outer.start ≠ region.start) : ¬ net.Spans region outer.start := by
  intro spans
  have encloses := reported.encloses inv
  have tightOuter := tight reports reaches
  obtain ⟨near, far, pre, step, outsideNear, insideFar⟩ :=
    exists_step_into (net.Spans region) (reports.backs inv) outside spans
  obtain rfl : far = region.stop := by
    by_contra elsewhere
    exact outsideNear (insideFar.tail inv elsewhere step.2)
  have draws : net.Draws outer region.start := ReflTransGen.trans
    (reaches_of_backs (pre.tail step) inv reports.isUnzip_start)
    (reaches_of_backs (reported.1.backs inv) inv reports.isUnzip_start)
  have lies : net.LiesIn region outer := .of_start ((tightOuter.spans_iff _).mpr draws) outside
  obtain ⟨src, feeds, spansSrc⟩ :=
    (tight reported.1 encloses.leads).exists_source inv (encloses.confined inv) spans apart
  exact tightOuter.fresh feeds (lies src spansSrc)

theorem AllTight.not_visited (legal : net.Legal) (reported : net.Reported region)
    (spans : net.Spans region id) (notStart : id ≠ region.start) (notStop : id ≠ region.stop) :
    ¬ net.Visited id := by
  have encloses := reported.encloses inv
  have tightHere := tight reported.1 encloses.leads
  rintro ⟨out, emits, upstream⟩
  -- Outputs do not lie inside, so there is a first step into the section.
  have outside : ¬ (net.Spans region out ∧ out ≠ region.start ∧ out ≠ region.stop) := by
    rintro ⟨spans, notStart, notStop⟩
    obtain ⟨src, feeds, -⟩ := tightHere.exists_source inv (encloses.confined inv) spans notStart
    exact tightHere.not_emits inv legal (encloses.confined inv) encloses.starts spans
      notStop feeds emits
  obtain ⟨near, far, pre, step, notInside, spansFar, farStart, farStop⟩ :=
    exists_step_into (fun id => net.Spans region id ∧ id ≠ region.start ∧ id ≠ region.stop) upstream
      outside ⟨spans, notStart, notStop⟩
  have beyond (inside : net.Spans region near) : near = region.start ∨
    near = region.stop := by grind
  rcases step with ⟨other, reports, rfl, rfl⟩ | ⟨nowhere, feeds⟩
  · have elsewhere : ¬ net.Spans region other.stop := fun inside => by
      rcases beyond inside with starts | stops
      · exact reports.stop_ne_of_isUnzip encloses.starts starts
      · exact farStart (congrArg Section.start (reports.unique reported.1 stops))
    exact tight.not_spans_start inv reported reports (Visited.reachesOutput ⟨out, emits, pre⟩ inv)
      elsewhere farStart
      spansFar
  · have spansNear := spansFar.tail inv farStop feeds
    rcases beyond spansNear with rfl | rfl
    · exact tightHere.fresh feeds spansFar
    · exact nowhere region reported.1 rfl

theorem AllTight.not_liesIn (legal : net.Legal) (reported : net.Reported inner)
    (reportedToo : net.Reported outer) (apart : inner ≠ outer) : ¬ net.LiesIn inner outer := by
  intro lies
  have encloses := reported.encloses inv
  have stops : net.Spans inner inner.stop :=
    ((tight reported.1 encloses.leads).spans_iff _).mpr .refl
  refine tight.not_visited inv legal reportedToo (lies _ stops) ?_
    (fun same => apart (reported.1.unique reportedToo.1 same))
    reported.2
  exact reported.1.stop_ne_of_isUnzip reportedToo.1.isUnzip_start

theorem AllTight.exists_reported (legal : net.Legal) (reports : net.Reports inner)
    (reaches : net.ReachesOutput inner.stop) :
    ∃ outer, net.Reported outer ∧ net.LiesIn inner outer := by
  rcases reaches.visited inv with visited | ⟨outer, reported, draws, notStart, notStop⟩
  · exact ⟨inner, ⟨reports, visited⟩, fun _ spans => spans⟩
  have encloses := reported.encloses inv
  have tightInner := tight reports reaches
  have tightOuter := tight reported.1 encloses.leads
  have spansStop := (tightOuter.spans_iff _).mpr draws
  -- The way back from the stop to the start stays inside as well.
  have spansStart : net.Spans outer inner.start := (tightOuter.spans_iff _).mpr
    (ReflTransGen.trans draws (reaches_of_backs (reports.backs inv) inv reported.1.isUnzip_start))
  refine ⟨outer, reported, .of_start spansStart fun meets => ?_⟩
  have pre {id} (either : net.Spans inner id ∨ net.Spans outer id) :
      net.Spans inner id ∧ id ≠ inner.stop ∨ net.Spans outer id ∧ id ≠ outer.stop := by
    rcases either with inside | inside
    · by_cases stops : id = inner.stop
      · exact .inr (stops ▸ ⟨spansStop, notStop⟩)
      · exact .inl ⟨inside, stops⟩
    · by_cases stops : id = outer.stop
      · exact .inl (stops ▸ ⟨meets, notStop.symm⟩)
      · exact .inr ⟨inside, stops⟩
  obtain ⟨out, emits, leads⟩ := encloses.leads
  have stays : net.Spans inner out ∨ net.Spans outer out := by
    clear emits
    induction leads with
    | refl => exact .inl meets
    | tail _ feeds ih =>
      rcases pre ih with ⟨inside, elsewhere⟩ | ⟨inside, elsewhere⟩
      · exact .inl (inside.tail inv elsewhere feeds)
      · exact .inr (inside.tail inv elsewhere feeds)
  obtain ⟨src, fed⟩ : ∃ src, net.Feeds src out := by
    rcases leads.cases_tail with rfl | ⟨src, -, feeds⟩
    · obtain ⟨src, feeds, -⟩ := tightInner.exists_source inv reports.2.2 meets
        (reported.1.stop_ne_of_isUnzip reports.isUnzip_start)
      exact ⟨src, feeds⟩
    · exact ⟨src, feeds⟩
  rcases pre stays with ⟨inside, elsewhere⟩ | ⟨inside, elsewhere⟩
  · exact tightInner.not_emits inv legal reports.2.2 reports.isUnzip_start inside
      elsewhere fed emits
  · exact tightOuter.not_emits inv legal (encloses.confined inv) encloses.starts inside
      elsewhere fed emits

end

theorem Consistent.reports_iff (inv : net.Consistent) :
    net.Reports region ↔
      net.isZip region.stop ∧ net.sectionAt? region.stop = .ok (some region) := by
  refine and_congr_right fun stops => ?_
  obtain ⟨has, asked, right⟩ := inv.sectionAt?_eq (mem_ids_of_any stops)
  rw [asked, Except.ok.injEq, right]
  simp

/-- The sections of a legal network are found, each of them once. They are contained regions that
lead to an output, namely those at zips that the search comes to, with the nearest unzip as their
start. Where those are tight, none of them lies inside another one, and all contained regions lie
inside one of them exactly if each lies inside one that starts at the nearest unzip of its stop. -/
theorem sections_maximal (wellFormed : net.WellFormed) (valid : net.validate = []) :
    ∃ regions, net.sections = .ok regions ∧ regions.Nodup ∧
      (∀ region ∈ regions, net.Encloses region) ∧
      (∀ region, region ∈ regions ↔
        net.Visited region.stop ∧ net.isZip region.stop ∧
        net.sectionAt? region.stop = .ok (some region)) ∧
      (net.AllTight →
        (∀ inner ∈ regions, ∀ outer ∈ regions, inner ≠ outer → ¬ net.LiesIn inner outer) ∧
        ((∀ inner, net.Encloses inner → ∃ outer ∈ regions, net.LiesIn inner outer) ↔
          ∀ inner, net.Encloses inner →
            ∃ outer, net.Encloses outer ∧ net.sectionAt? outer.stop = .ok (some outer) ∧
              net.LiesIn inner outer)) := by
  -- The search tells what is reported; regions that are tight are then compared with each other.
  have consistent := wellFormed.toConsistent
  have legal := consistent.validate_eq_nil_iff.mp valid
  obtain ⟨regions, asked, reported, once⟩ := consistent.sections_eq
  refine ⟨regions, asked, once.of_map, fun region listed =>
    ((reported region).mp listed).encloses consistent, fun region => ?_,
    fun tight => ⟨fun inner listed outer listedToo => ?_, fun all inner encloses => ?_,
      fun all inner encloses => ?_⟩⟩
  · rw [reported, Reported, consistent.reports_iff, and_comm]
    exact Iff.rfl
  · exact tight.not_liesIn consistent legal ((reported inner).mp listed)
      ((reported outer).mp listedToo)
  · obtain ⟨outer, listed, lies⟩ := all inner encloses
    have isReported := (reported outer).mp listed
    exact ⟨outer, isReported.encloses consistent, (consistent.reports_iff.mp isReported.1).2, lies⟩
  · obtain ⟨middle, enclosesMiddle, found, lies⟩ := all inner encloses
    obtain ⟨outer, isReported, liesMiddle⟩ :=
      tight.exists_reported consistent legal
        (consistent.reports_iff.mpr ⟨enclosesMiddle.stops, found⟩) enclosesMiddle.leads
    exact ⟨outer, (reported outer).mpr isReported, fun id spans => liesMiddle id (lies id spans)⟩

/-- A region between an unzip and a zip with a smaller one on its first branch; the branches lead to
the given in-ports of the zip. -/
def nested (first second : PortKey) : Network :=
  Operation.build
    (Operation.addAll none [("U", .unzip, ["in"], ["out0", "out1"]),
        ("Z", .zip, ["in0", "in1"], ["out"]), ("k", .fanout, ["in"], ["out"]),
        ("u", .unzip, ["in"], ["out0", "out1"]), ("m", .fanout, ["in"], ["out"]),
        ("n", .fanout, ["in"], ["out"]), ("z", .zip, ["in0", "in1"], ["out"])] ++
      [.connect 1 8, .connect 2 6, .connect 9 11, .connect 10 13, .connect 12 15, .connect 14 16,
        .connect 17 first, .connect 7 second, .addInput 0, .addOutput 5])

theorem consistent_nested (first second : PortKey) : (nested first second).Consistent :=
  (Reachable.empty.foldl (by simp [Operation.Allowed])).inv

/-- Where the branch without a region of its own comes first, the larger region is found, and the
smaller one lies inside. -/
theorem sections_maximal_nested :
    (nested 4 3).WellFormed ∧ (nested 4 3).validate = [] ∧ (nested 4 3).AllTight ∧
    ∃ regions, (nested 4 3).sections = .ok regions ∧
      (∀ inner ∈ regions, ∀ outer ∈ regions, inner ≠ outer → ¬ (nested 4 3).LiesIn inner outer) ∧
      ∀ inner, (nested 4 3).Encloses inner →
        ∃ outer ∈ regions, (nested 4 3).LiesIn inner outer := by
  have consistent := consistent_nested 4 3
  have wellFormed : (nested 4 3).WellFormed := ⟨consistent, by decide +kernel⟩
  have valid : (nested 4 3).validate = [] := List.isEmpty_iff.mp (by decide +kernel)
  have legal := consistent.validate_eq_nil_iff.mp valid
  have tight : (nested 4 3).AllTight := fun reports _ =>
    reports.2.2.tight consistent (legal.acyclic consistent (by decide +kernel))
  obtain ⟨regions, asked, -, -, -, maximal⟩ := sections_maximal wellFormed valid
  obtain ⟨apart, covered⟩ := maximal tight
  refine ⟨wellFormed, valid, tight, regions, asked, apart, covered.mpr fun inner encloses => ?_⟩
  -- The only other region is the smaller one, which starts inside the larger one.
  have emits : (nested 4 3).Emits "Z" :=
    ⟨5, by decide +kernel, ⟨"out", "Z", .output, none, none⟩, by decide +kernel, rfl⟩
  have larger : (nested 4 3).Encloses ⟨"U", "Z"⟩ :=
    ⟨by decide +kernel, by decide +kernel, ⟨"Z", emits, .refl⟩, by decide +kernel⟩
  refine ⟨⟨"U", "Z"⟩, larger, by decide +kernel, ?_⟩
  obtain ⟨start, stop⟩ := inner
  have unzips : ∀ id ∈ (nested 4 3).ids, (nested 4 3).isUnzip id → id = "U" ∨
    id = "u" := by decide +kernel
  have zips : ∀ id ∈ (nested 4 3).ids, (nested 4 3).isZip id → id = "Z" ∨
    id = "z" := by decide +kernel
  have mixed : (nested 4 3).isContained ⟨"U", "z"⟩ ≠ .ok true ∧
    (nested 4 3).isContained ⟨"u", "Z"⟩ ≠ .ok true := by decide +kernel
  have members : (nested 4 3).LiesIn ⟨"u", "z"⟩ ⟨"U", "Z"⟩ := by
    refine .of_start (.single ⟨by decide, by decide +kernel⟩) fun spans => ?_
    exact absurd (spans.mem_of_closed ["u", "m", "n", "z"] (by decide) (by decide +kernel))
      (by decide)
  rcases unzips start (mem_ids_of_any encloses.starts) encloses.starts with rfl | rfl <;>
  rcases zips stop (mem_ids_of_any encloses.stops) encloses.stops with rfl | rfl
  · exact fun _ spans => spans
  · exact absurd encloses.contained mixed.1
  · exact absurd encloses.contained mixed.2
  · exact members

/-- A region between an unzip and a zip whose smaller region leads back to the unzip, past a
delay. -/
def entangled : Network :=
  Operation.build
    (Operation.addAll none [("U", .unzip, ["in"], ["out0", "out1"]),
        ("Z", .zip, ["in0", "in1"], ["out"]), ("d", .delay "0", ["in"], ["out"]),
        ("u", .unzip, ["in"], ["out0", "out1"]), ("m", .fanout, ["in"], ["out"]),
        ("n", .fanout, ["in"], ["out"]), ("z", .zip, ["in0", "in1"], ["out"]),
        ("f", .fanout, ["in"], ["out0", "out1"])] ++
      [.connect 1 8, .connect 2 3, .connect 9 11, .connect 10 13, .connect 12 15, .connect 14 16,
        .connect 17 18, .connect 19 6, .connect 7 0, .connect 20 4, .addOutput 5])

/-- Where the smaller region comes first, the larger one is not found, as the nearest unzip does not
start it. Where the smaller region leads back to the start of the larger one, both are found. -/
theorem sections_maximal_hidden :
    ((nested 3 4).WellFormed ∧ (nested 3 4).validate = [] ∧
      ∃ regions inner, (nested 3 4).sections = .ok regions ∧ (nested 3 4).Encloses inner ∧
        ∀ outer ∈ regions, ¬ (nested 3 4).LiesIn inner outer) ∧
    entangled.WellFormed ∧ entangled.validate = [] ∧
    ∃ regions, entangled.sections = .ok regions ∧
      ∃ inner ∈ regions, ∃ outer ∈ regions, inner ≠ outer ∧ entangled.LiesIn inner outer := by
  have consistent : entangled.Consistent :=
    (Reachable.empty.foldl (by simp [Operation.Allowed])).inv
  refine ⟨⟨⟨consistent_nested 3 4, by decide +kernel⟩, List.isEmpty_iff.mp (by decide +kernel),
    [⟨"u", "z"⟩], ⟨"U", "Z"⟩, by decide +kernel, ?_, ?_⟩, ⟨consistent, by decide +kernel⟩,
    List.isEmpty_iff.mp (by decide +kernel), [⟨"U", "Z"⟩, ⟨"u", "z"⟩],
    by decide +kernel, ⟨"u", "z"⟩, by simp, ⟨"U", "Z"⟩, by simp, by decide, ?_⟩
  · have emits : (nested 3 4).Emits "Z" :=
      ⟨5, by decide +kernel, ⟨"out", "Z", .output, none, none⟩, by decide +kernel, rfl⟩
    exact ⟨by decide +kernel, by decide +kernel, ⟨"Z", emits, .refl⟩, by decide +kernel⟩
  · intro outer listed lies
    obtain rfl := List.mem_singleton.mp listed
    exact absurd
      ((lies "U" .refl).mem_of_closed ["u", "m", "n", "z"] (by decide) (by decide +kernel))
      (by decide)
  · refine .of_start (.single ⟨by decide, by decide +kernel⟩) fun spans => ?_
    exact absurd (spans.mem_of_closed ["u", "m", "n", "z"] (by decide) (by decide +kernel))
      (by decide)

end Dataflow.Network
