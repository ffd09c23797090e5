import Dataflow.Proofs.Region.Confined

/-! The nearest unzip behind a process, described without reference to the depth of the search for
it. -/

open List

namespace Dataflow.Network

/-- Whether the process of that name takes arrays apart. -/
def isUnzip (net : Network) (id : ProcessId) : Bool :=
  (net.process? id).any (·.kind.isUnzip)

/-- Whether the process of that name puts arrays together. -/
def isZip (net : Network) (id : ProcessId) : Bool :=
  (net.process? id).any (·.kind.isZip)

/-- What a search finds that has processes left to look at and skips those that it visited
before. -/
inductive Finds (net : Network) : List ProcessId → List ProcessId → Option ProcessId → Prop
  /-- With nothing left nothing is found. -/
  | none {visited} : Finds net [] visited none
  /-- A process that was visited is skipped. -/
  | skip {id rest visited answer} (known : id ∈ visited) (onwards : Finds net rest visited answer) :
      Finds net (id :: rest) visited answer
  /-- An unzip is found. -/
  | hit {id rest visited} (fresh : id ∉ visited) (unzips : net.isUnzip id) :
      Finds net (id :: rest) visited (some id)
  /-- Before the rest the search goes on with what feeds a process. -/
  | expand {id rest visited answer} (fresh : id ∉ visited) (passes : ¬ net.isUnzip id)
      (onwards : Finds net (net.across id .input ++ rest) (id :: visited) answer) :
      Finds net (id :: rest) visited answer

variable {net : Network} {id : ProcessId} {visited result rest : List ProcessId}
  {has ans : Option ProcessId}

namespace Finds

/-- A search finds one thing only. -/
theorem unique {other : Option ProcessId} (first : net.Finds rest visited ans)
    (second : net.Finds rest visited other) : ans = other := by
  induction first with
  | none => cases second; rfl
  | skip known _ ih =>
    cases second with
    | skip _ onwards => exact ih onwards
    | hit fresh => exact absurd known fresh
    | expand fresh => exact absurd known fresh
  | hit fresh unzips =>
    cases second with
    | skip known => exact absurd known fresh
    | hit => rfl
    | expand _ passes => exact absurd unzips passes
  | expand fresh passes _ ih =>
    cases second with
    | skip known => exact absurd known fresh
    | hit _ unzips => exact absurd unzips passes
    | expand _ _ onwards => exact ih onwards

theorem isUnzip (finds : net.Finds rest visited (some id)) : net.isUnzip id := by
  generalize has : some id = ans at finds
  induction finds with
  | none => cases has
  | skip _ _ ih => exact ih has
  | hit _ unzips => cases has; exact unzips
  | expand _ _ _ ih => exact ih has

end Finds

/-- The step of the search at one of the processes that feed another one. -/
def unzipStep (net : Network) (depth : Nat) :
    Option ProcessId × List ProcessId → ProcessId →
      Except Fault (Option ProcessId × List ProcessId) :=
  fun (found, visited) predecessor =>
    if found.isSome then .ok (found, visited) else net.searchUnzip depth predecessor visited

theorem foldlM_unzipStep_some (depth : Nat) (ids : List ProcessId) :
    ids.foldlM (net.unzipStep depth) (some id, visited) = .ok (some id, visited) := by
  induction ids with
  | nil => rfl
  | cons other ids ih =>
    exact ih

/-- A search that is over has its answer, and one that found nothing goes on with the rest. -/
def Resumes (net : Network) (found : Option ProcessId) (result rest : List ProcessId)
    (answer : Option ProcessId) : Prop :=
  match found with
  | some id => answer = some id
  | none => net.Finds rest result answer

theorem Consistent.searchUnzip_eq (inv : net.Consistent) (depth : Nat) (mem : id ∈ net.ids)
    (room : net.unvisited visited ≤ depth) :
    ∃ has result, net.searchUnzip depth id visited = .ok (has, result) ∧ visited ⊆ result ∧
      ∀ rest ans, net.Resumes has result rest ans → net.Finds (id :: rest) visited ans := by
  induction depth generalizing id visited with
  | zero =>
    have all := countP_eq_zero.mp (Nat.le_zero.mp room) id mem
    exact ⟨none, visited, rfl, List.Subset.refl _, fun rest ans resumes =>
      .skip (by simpa using all) resumes⟩
  | succ depth ih =>
    by_cases known : id ∈ visited
    · refine ⟨none, visited, ?_, List.Subset.refl _, fun rest ans resumes => .skip known resumes⟩
      rw [searchUnzip, if_pos known]
      rfl
    obtain ⟨proc, got⟩ := mem_ids.mp mem
    have fewer := unvisited_cons_lt mem known
    by_cases unzips : proc.kind.isUnzip
    · refine ⟨some id, id :: visited, ?_, subset_cons_self _ _, ?_⟩
      · rw [searchUnzip, if_neg known, process_eq_ok.mpr got]
        simp only [bind, Except.bind, unzips, if_true]
        rfl
      · rintro rest ans rfl
        exact .hit known (by simpa [isUnzip, got] using unzips)
    -- What feeds the process is searched in turn, until an unzip is found.
    have fold (ids : List ProcessId) (inside : ids ⊆ net.ids) (visited : List ProcessId)
        (room : net.unvisited visited ≤ depth) :
        ∃ has result, ids.foldlM (net.unzipStep depth) (none, visited) = .ok (has, result) ∧
          visited ⊆ result ∧ ∀ rest ans, net.Resumes has result rest ans →
          net.Finds (ids ++ rest) visited ans := by
      induction ids generalizing visited with
      | nil => exact ⟨none, visited, rfl, List.Subset.refl _, fun _ _ resumes => resumes⟩
      | cons other ids ihIds =>
        obtain ⟨has, mid, searched, grows, starts⟩ := ih (inside mem_cons_self) room
        rw [foldlM_cons, show net.unzipStep depth (none, visited) other = .ok (has, mid)
          from searched]
        cases has with
        | some unzip =>
          exact ⟨some unzip, mid, foldlM_unzipStep_some depth ids, grows, fun rest ans resumes =>
            starts _ _ resumes⟩
        | none =>
          obtain ⟨has, result, run, growsMore, continues⟩ :=
            ihIds (fun id mem => inside (mem_cons_of_mem _ mem)) mid
              (Nat.le_trans (unvisited_le grows) room)
          refine ⟨has, result, run, List.Subset.trans grows growsMore, fun rest ans resumes => ?_⟩
          exact starts _ _ (continues rest ans resumes)
    have inside : net.across id .input ⊆ net.ids := fun other across =>
      mem_ids.mpr (inv.exists_source (inv.mem_across_input.mp across))
    obtain ⟨has, result, run, grows, continues⟩ := fold _ inside (id :: visited) (by omega)
    refine ⟨has, result, ?_, (cons_subset.mp grows).2, fun rest ans resumes => ?_⟩
    · rw [searchUnzip, if_neg known, process_eq_ok.mpr got]
      simp only [bind, Except.bind, unzips, predecessors, inv.neighbours_eq got]
      exact run
    · refine .expand known ?_ (continues rest ans resumes)
      simpa [isUnzip, got] using unzips

theorem Consistent.nearestUnzip?_eq (inv : net.Consistent) (mem : id ∈ net.ids) :
    ∃ has, net.nearestUnzip? id = .ok has ∧ net.Finds [id] [] has := by
  have room : net.unvisited [] ≤ net.searchDepth := by
    rw [unvisited_nil, searchDepth]
    omega
  obtain ⟨has, result, run, -, finds⟩ := inv.searchUnzip_eq net.searchDepth mem room
  refine ⟨has, by rw [nearestUnzip?, run]; rfl, finds [] has ?_⟩
  cases has with
  | none => exact .none
  | some unzip => rfl

/-- A zip at which a contained region stops that starts at its nearest unzip. -/
def SectionAt (net : Network) (region : Section) : Prop :=
  net.Finds [region.stop] [] (some region.start) ∧ net.Contained region

theorem Consistent.sectionAt?_eq (inv : net.Consistent) (mem : id ∈ net.ids) :
    ∃ has, net.sectionAt? id = .ok has ∧
      ∀ reg, has = some reg ↔ reg.stop = id ∧ net.SectionAt reg := by
  obtain ⟨nearest, asked, finds⟩ := inv.nearestUnzip?_eq mem
  cases nearest with
  | none =>
    refine ⟨none, by rw [sectionAt?, asked]; rfl, fun reg => ⟨by simp, ?_⟩⟩
    rintro ⟨rfl, other, -⟩
    cases finds.unique other
  | some start =>
    have starts : start ∈ net.ids := by
      obtain ⟨proc, got, -⟩ := Option.any_eq_true _ _ |>.mp finds.isUnzip
      exact mem_ids.mpr ⟨proc, got⟩
    obtain ⟨contained, askedContained, right⟩ := inv.isContained_eq { start, stop := id } starts mem
    refine ⟨if contained then some { start, stop := id } else none, ?_, fun reg => ?_⟩
    · rw [sectionAt?, asked]
      simp only [bind, Except.bind, askedContained]
      rfl
    · constructor
      · intro has
        split at has
        · rename_i yes
          cases has
          exact ⟨rfl, finds, right.mp yes⟩
        · cases has
      · rintro ⟨rfl, other, inside⟩
        cases finds.unique other
        simp [right.mpr inside]

end Dataflow.Network
