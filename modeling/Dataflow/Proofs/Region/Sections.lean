import Dataflow.Proofs.Region.Nearest
import Mathlib.Logic.Relation

/-! Which sections a search from the outputs of the graph reports. -/

open List Option

namespace Dataflow.Network

open Relation

variable {net : Network} {id : ProcessId} {reg : Section} {proc : Process} {has : Option Section}

/-- A section that stops at a zip, and is reported if the search comes there. -/
def Reports (net : Network) (region : Section) : Prop :=
  net.isZip region.stop ∧ net.SectionAt region

/-- Where the search goes on behind a process: at the start of a section that stops there, or at
what feeds it. -/
def Upstream (net : Network) (id next : ProcessId) : Prop :=
  (∃ region, net.Reports region ∧ region.stop = id ∧ next = region.start) ∨
    (∀ region, net.Reports region → region.stop ≠ id) ∧ net.Feeds next id

/-- A section that is found from an output of the graph. -/
def Reported (net : Network) (region : Section) : Prop :=
  net.Reports region ∧ ∃ output, net.Emits output ∧ ReflTransGen net.Upstream output region.stop

theorem Reports.unique {other : Section} (first : net.Reports reg) (second : net.Reports other)
    (same : reg.stop = other.stop) : reg = other := by
  obtain ⟨start, stop⟩ := reg
  obtain ⟨otherStart, otherStop⟩ := other
  obtain rfl : stop = otherStop := same
  cases first.2.1.unique second.2.1
  rfl

theorem Reports.isUnzip_start (reports : net.Reports reg) : net.isUnzip reg.start :=
  reports.2.1.isUnzip

theorem not_isZip_of_isUnzip (unzips : net.isUnzip id) : ¬ net.isZip id := by
  obtain ⟨proc, got, kind⟩ := (any_eq_true _ _).mp unzips
  simp only [isZip, got, any_some]
  cases shape : proc.kind <;> simp [shape, Kind.isUnzip, Kind.isZip] at kind ⊢

theorem Reports.stop_ne_of_isUnzip (reports : net.Reports reg) (unzips : net.isUnzip id) :
    reg.stop ≠ id := by
  rintro rfl
  exact not_isZip_of_isUnzip unzips reports.1

/-- A search that has found exactly the sections that stop at visited processes. -/
structure Faithful (net : Network) (search : SectionSearch) : Prop where
  found : ∀ region, region ∈ search.sections ↔ net.Reports region ∧ region.stop ∈ search.visited
  once : (search.sections.map (·.stop)).Nodup

/-- What a search for sections achieves that goes to the given processes. -/
structure Surveyed (net : Network) (goals : List ProcessId) (search result : SectionSearch) :
    Prop where
  grows : search.visited ⊆ result.visited
  arrives : goals ⊆ result.visited
  closed : ∀ id ∈ result.visited, id ∉ search.visited →
    ∀ next, net.Upstream id next → next ∈ result.visited
  reached : ∀ id ∈ result.visited, id ∈ search.visited ∨
    ∃ goal ∈ goals, ReflTransGen net.Upstream goal id
  faithful : net.Faithful result

namespace Surveyed

variable {goals : List ProcessId} {search mid result : SectionSearch}

theorem visited (faithful : net.Faithful search) (known : goals ⊆ search.visited) :
    net.Surveyed goals search search :=
  ⟨List.Subset.refl _, known, fun _ mem fresh => absurd mem fresh, fun _ mem => .inl mem, faithful⟩

/-- Searches for several processes are made in turn. -/
theorem cons (first : net.Surveyed [id] search mid) (rest : net.Surveyed goals mid result) :
    net.Surveyed (id :: goals) search result where
  grows := List.Subset.trans first.grows rest.grows
  arrives := cons_subset.mpr ⟨rest.grows (first.arrives (mem_singleton_self id)), rest.arrives⟩
  closed other mem fresh next upstream := by
    by_cases between : other ∈ mid.visited
    · exact rest.grows (first.closed other between fresh next upstream)
    · exact rest.closed other mem between next upstream
  reached other mem := by
    rcases rest.reached other mem with between | ⟨goal, isGoal, leads⟩
    · rcases first.reached other between with pre | ⟨goal, isGoal, leads⟩
      · exact .inl pre
      · grind
    · grind
  faithful := rest.faithful

end Surveyed

/-- The search after it has come to a process at which a section stops or not. -/
def SectionSearch.enter (search : SectionSearch) (id : ProcessId) : Option Section → SectionSearch
  | some region =>
    { visited := region.start :: id :: search.visited, sections := search.sections ++ [region] }
  | none => { search with visited := id :: search.visited }

theorem Consistent.exists_section (inv : net.Consistent) (got : net.process? id = some proc) :
    ∃ has, (if proc.kind.isZip then net.sectionAt? id else pure none) = .ok has ∧
      ∀ reg, has = some reg ↔ net.Reports reg ∧ reg.stop = id := by
  -- Only a zip can end a section.
  have zips : net.isZip id = proc.kind.isZip := by simp [isZip, got]
  by_cases isZip : proc.kind.isZip
  · obtain ⟨has, asked, right⟩ := inv.sectionAt?_eq (mem_ids.mpr ⟨proc, got⟩)
    refine ⟨has, by rw [if_pos isZip, asked], fun reg => ?_⟩
    rw [right]
    constructor
    · rintro ⟨rfl, isSection⟩
      exact ⟨⟨zips.trans isZip, isSection⟩, rfl⟩
    · rintro ⟨⟨-, isSection⟩, rfl⟩
      exact ⟨rfl, isSection⟩
  · refine ⟨none, by rw [if_neg isZip]; rfl, fun reg => ⟨by simp, ?_⟩⟩
    rintro ⟨⟨stops, -⟩, rfl⟩
    exact absurd (zips ▸ stops) isZip

theorem Consistent.searchSections_succ (inv : net.Consistent) (depth : Nat) {search : SectionSearch}
    {origin : Process} (got : net.process? id = some proc) (fresh : id ∉ search.visited)
    (asked : (if proc.kind.isZip then net.sectionAt? id else pure none) = .ok has)
    (gotOrigin : net.process? (has.elim id (·.start)) = some origin) :
    net.searchSections (depth + 1) id search =
      (net.across (has.elim id (·.start)) .input).foldlM
        (fun search predecessor => net.searchSections depth predecessor search)
        (search.enter id has) := by
  rw [searchSections, if_neg fresh, process_eq_ok.mpr got]
  by_cases zips : proc.kind.isZip
  · rw [if_pos zips] at asked
    simp only [bind, Except.bind, zips, if_true, asked]
    cases has with
    | none =>
      simp only [predecessors, elim_none, inv.neighbours_eq got]
      rfl
    | some reg =>
      rw [elim_some] at gotOrigin
      simp only [predecessors, elim_some, inv.neighbours_eq gotOrigin]
      rfl
  · rw [if_neg zips] at asked
    cases asked
    simp only [bind, Except.bind, zips, Bool.false_eq_true, if_false, pure, Except.pure,
      predecessors, elim_none, inv.neighbours_eq got]
    rfl

theorem SectionSearch.mem_enter {search : SectionSearch} {other : ProcessId} :
    other ∈ (search.enter id has).visited ↔
      other = has.elim id (·.start) ∨ other = id ∨ other ∈ search.visited := by
  cases has <;> simp [SectionSearch.enter]

/-- A search stays faithful when it comes to a process. -/
theorem Faithful.enter {search : SectionSearch} (faithful : net.Faithful search)
    (fresh : id ∉ search.visited)
    (right : ∀ reg, has = some reg ↔ net.Reports reg ∧ reg.stop = id) :
    net.Faithful (search.enter id has) := by
  cases has with
  | none =>
    refine ⟨fun reg => ?_, faithful.once⟩
    have elsewhere : net.Reports reg → reg.stop ≠ id := fun reports here => by
      cases (right reg).mpr ⟨reports, here⟩
    simp only [SectionSearch.enter, faithful.found, mem_cons]
    exact and_congr_right fun reports => by simp [elsewhere reports]
  | some has =>
    obtain ⟨reports, here⟩ := (right has).mp rfl
    refine ⟨fun reg => ?_, ?_⟩
    · rw [SectionSearch.enter, mem_append, mem_singleton, faithful.found, mem_cons, mem_cons]
      constructor
      · grind
      · rintro ⟨isReported, start | stop | known⟩
        · exact absurd start (isReported.stop_ne_of_isUnzip reports.isUnzip_start)
        · grind
        · exact .inl ⟨isReported, known⟩
    · simp only [SectionSearch.enter, map_append, map_singleton]
      refine nodup_append.mpr ⟨faithful.once, nodup_singleton _, ?_⟩
      intro stop mem other isStop same
      obtain ⟨reg, isHas, rfl⟩ := mem_map.mp mem
      rw [mem_singleton.mp isStop, here] at same
      exact fresh (same ▸ ((faithful.found reg).mp isHas).2)

theorem upstream_iff (right : ∀ reg, has = some reg ↔ net.Reports reg ∧ reg.stop = id)
    {next : ProcessId} : net.Upstream id next ↔ has.elim (net.Feeds next id) (next = ·.start) := by
  cases has with
  | none =>
    have nowhere : ∀ reg, net.Reports reg → reg.stop ≠ id := fun reg reports here => by
      cases (right reg).mpr ⟨reports, here⟩
    refine ⟨fun upstream => ?_, fun feeds => .inr ⟨nowhere, feeds⟩⟩
    rcases upstream with ⟨reg, reports, here, -⟩ | ⟨-, feeds⟩
    · exact absurd here (nowhere reg reports)
    · exact feeds
  | some has =>
    obtain ⟨reports, here⟩ := (right has).mp rfl
    refine ⟨fun upstream => ?_, fun starts => .inl ⟨has, reports, here, starts⟩⟩
    rcases upstream with ⟨reg, isReported, stop, starts⟩ | ⟨nowhere, -⟩
    · grind
    · exact absurd here (nowhere has reports)

theorem Consistent.surveyed_searchSections (inv : net.Consistent) (depth : Nat)
    {search : SectionSearch} (mem : id ∈ net.ids) (faithful : net.Faithful search)
    (room : net.unvisited search.visited ≤ depth) :
    ∃ result, net.searchSections depth id search = .ok result ∧
      net.Surveyed [id] search result := by
  induction depth generalizing id search with
  | zero =>
    have all := countP_eq_zero.mp (Nat.le_zero.mp room) id mem
    exact ⟨search, rfl, .visited faithful (by simpa using all)⟩
  | succ depth ih =>
    by_cases known : id ∈ search.visited
    · refine ⟨search, ?_, .visited faithful (by simpa using known)⟩
      rw [searchSections, if_pos known]
      rfl
    obtain ⟨proc, got⟩ := mem_ids.mp mem
    obtain ⟨has, asked, right⟩ := inv.exists_section got
    have entered := faithful.enter known right
    have fewer := unvisited_cons_lt mem known
    -- What feeds the process, or the start of its section, is searched in turn.
    have fold (goals : List ProcessId) (inside : goals ⊆ net.ids) (search : SectionSearch)
        (faithful : net.Faithful search)
        (room : net.unvisited search.visited ≤ depth) :
        ∃ result,
          goals.foldlM (fun search predecessor => net.searchSections depth predecessor search)
          search = .ok result ∧ net.Surveyed goals search result := by
      induction goals generalizing search with
      | nil => exact ⟨search, rfl, .visited faithful (nil_subset _)⟩
      | cons goal goals ihGoals =>
        obtain ⟨mid, searched, first⟩ := ih (inside mem_cons_self) faithful room
        obtain ⟨result, run, rest⟩ := ihGoals (fun id mem => inside (mem_cons_of_mem _ mem)) mid
          first.faithful (Nat.le_trans (unvisited_le first.grows) room)
        refine ⟨result, ?_, first.cons rest⟩
        rw [foldlM_cons, searched]
        exact run
    have inside (other : ProcessId) : net.across other .input ⊆ net.ids := fun src across =>
      mem_ids.mpr (inv.exists_source (inv.mem_across_input.mp across))
    have gotOrigin : ∃ origin, net.process? (has.elim id (·.start)) = some origin := by
      cases has with
      | none => exact ⟨proc, got⟩
      | some reg =>
        obtain ⟨origin, gotOrigin, -⟩ := (any_eq_true _ _).mp ((right reg).mp rfl).1.isUnzip_start
        exact ⟨origin, gotOrigin⟩
    have toOrigin : ReflTransGen net.Upstream id (has.elim id (·.start)) := by
      cases has with
      | none => exact .refl
      | some reg => exact .single ((upstream_iff right).mpr rfl)
    have fromOrigin {next} : net.Upstream (has.elim id (·.start)) next ↔
        net.Feeds next (has.elim id (·.start)) := by
      cases has with
      | none => exact upstream_iff right
      | some reg =>
        have unzips := ((right reg).mp rfl).1.isUnzip_start
        have nowhere (other : Section) : none = some other ↔ net.Reports other ∧
            other.stop = reg.start :=
          ⟨by simp, fun ⟨reports, here⟩ => absurd here (reports.stop_ne_of_isUnzip unzips)⟩
        exact upstream_iff nowhere
    have fromHere {next} (upstream : net.Upstream id next) :
        next = has.elim id (·.start) ∨ net.Upstream (has.elim id (·.start)) next := by
      cases has with
      | none => exact .inr upstream
      | some reg => exact .inl ((upstream_iff right).mp upstream)
    obtain ⟨origin, gotOrigin⟩ := gotOrigin
    have room : net.unvisited (search.enter id has).visited ≤ depth := by
      have grows : id :: search.visited ⊆ (search.enter id has).visited := fun other mem =>
        SectionSearch.mem_enter.mpr (.inr (mem_cons.mp mem))
      exact Nat.le_trans (unvisited_le grows) (by omega)
    obtain ⟨result, run, surveyed⟩ := fold _ (inside _) _ entered room
    refine ⟨result, (inv.searchSections_succ depth got known asked gotOrigin).trans run, ?_⟩
    have visits {other}
        (pre : other = has.elim id (·.start) ∨ other = id ∨ other ∈ search.visited) :
        other ∈ result.visited := surveyed.grows (SectionSearch.mem_enter.mpr pre)
    have behindOrigin {next} (upstream : net.Upstream (has.elim id (·.start)) next) :
        next ∈ result.visited :=
      surveyed.arrives (inv.mem_across_input.mpr (fromOrigin.mp upstream))
    refine ⟨fun other pre => visits (.inr (.inr pre)), by simpa using visits (.inr (.inl rfl)),
      fun other memOther fresh next upstream => ?_, fun other memOther => ?_, surveyed.faithful⟩
    · by_cases atOrigin : other = has.elim id (·.start)
      · exact behindOrigin (atOrigin ▸ upstream)
      by_cases here : other = id
      · grind
      · exact surveyed.closed other memOther
          (by simp [SectionSearch.mem_enter, atOrigin, here, fresh]) next upstream
    · rcases surveyed.reached other memOther with pre | ⟨goal, isGoal, leads⟩
      · rcases SectionSearch.mem_enter.mp pre with rfl | rfl | pre
        · grind
        · grind
        · exact .inl pre
      · have upstream := fromOrigin.mpr (inv.mem_across_input.mp isGoal)
        exact .inr ⟨id, mem_singleton_self id, (toOrigin.tail upstream).trans leads⟩

theorem Consistent.sections_eq (inv : net.Consistent) :
    ∃ regs, net.sections = .ok regs ∧ (∀ reg, reg ∈ regs ↔ net.Reported reg) ∧
      (regs.map (·.stop)).Nodup := by
  obtain ⟨outs, asked, -, emitting⟩ := inv.outputProcesses_eq
  have depth : net.unvisited [] ≤ net.searchDepth := by
    rw [unvisited_nil, searchDepth]
    omega
  have fold (goals : List ProcessId) (inside : goals ⊆ net.ids) (search : SectionSearch)
      (faithful : net.Faithful search) :
      ∃ result,
        goals.foldlM (fun search id => net.searchSections net.searchDepth id search) search =
        .ok result ∧ net.Surveyed goals search result := by
    induction goals generalizing search with
    | nil => exact ⟨search, rfl, .visited faithful (nil_subset _)⟩
    | cons goal goals ih =>
      obtain ⟨mid, searched, first⟩ := inv.surveyed_searchSections net.searchDepth
        (inside mem_cons_self) faithful (Nat.le_trans (unvisited_le (nil_subset _)) depth)
      obtain ⟨result, run, rest⟩ :=
        ih (fun id mem => inside (mem_cons_of_mem _ mem)) mid first.faithful
      refine ⟨result, ?_, first.cons rest⟩
      rw [foldlM_cons, searched]
      exact run
  have inside : outs ⊆ net.ids := fun id mem => by
    obtain ⟨key, -, port, has, rfl⟩ := (emitting id).mp mem
    obtain ⟨proc, got, -⟩ := inv.owned has
    exact mem_ids.mpr ⟨proc, got⟩
  obtain ⟨result, run, surveyed⟩ := fold outs inside {} ⟨by simp, nodup_nil⟩
  refine ⟨result.sections, ?_, fun reg => ?_, surveyed.faithful.once⟩
  · rw [sections, asked]
    simp only [bind, Except.bind, run]
    rfl
  · rw [surveyed.faithful.found]
    refine and_congr_right fun _ => ⟨fun visited => ?_, ?_⟩
    · obtain ⟨goal, isGoal, leads⟩ := (surveyed.reached _ visited).resolve_left not_mem_nil
      exact ⟨goal, (emitting goal).mp isGoal, leads⟩
    · -- Everything that was visited is closed upstream, and the outputs were visited.
      rintro ⟨out, emits, leads⟩
      generalize reg.stop = stop at leads ⊢
      induction leads with
      | refl => exact surveyed.arrives ((emitting out).mpr emits)
      | tail _ upstream ih => exact surveyed.closed _ ih not_mem_nil _ upstream

end Dataflow.Network
