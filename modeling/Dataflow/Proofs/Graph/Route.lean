import Mathlib.Logic.Basic

/-!
Routes: connections in a row, with a crossing between one and the next.

A crossing can be taken out by connecting what leads to it with what it leads to. Routes stay the
same but for it.
-/

open List

namespace Dataflow.Graph

variable {κ ι : Type} {joins new : κ → κ → Prop} {crosses newCrosses : ι → κ → κ → Prop} {mark : ι}
  {entry exit : κ}
  {src dst start stop : κ} {trail kept : List ι}

/-- Connections in a row; the marks of the crossings between them are noted in order. -/
inductive Route (joins : κ → κ → Prop) (crosses : ι → κ → κ → Prop) : κ → List ι → κ → Prop where
  /-- A single connection. -/
  | join {source target : κ} (joined : joins source target) : Route joins crosses source [] target
  /-- A connection to a crossing, and the route behind that. -/
  | cross {source near far target : κ} {mark : ι} {trail : List ι} (joined : joins source near)
    (crossed : crosses mark near far) (onwards : Route joins crosses far trail target) :
    Route joins crosses source (mark :: trail) target

/-- Where one gets to from a place: nowhere else, or through the crossing there and along the route
behind it. -/
inductive Lands (joins : κ → κ → Prop) (crosses : ι → κ → κ → Prop) : κ → List ι → κ → Prop where
  /-- One stays where one is. -/
  | stay {place : κ} : Lands joins crosses place [] place
  /-- One takes the crossing. -/
  | cross {near far target : κ} {mark : ι} {trail : List ι} (crossed : crosses mark near far)
    (onwards : Route joins crosses far trail target) :
    Lands joins crosses near (mark :: trail) target

theorem route_iff_lands :
    Route joins crosses src trail dst ↔
      ∃ near, joins src near ∧ Lands joins crosses near trail dst := by
  constructor
  · intro route
    cases route with
    | join joined => exact ⟨dst, joined, .stay⟩
    | cross joined crossed onwards => exact ⟨_, joined, .cross crossed onwards⟩
  · rintro ⟨near, joined, lands⟩
    cases lands with
    | stay => exact .join joined
    | cross crossed onwards => exact .cross joined crossed onwards

/-- Two routes with a crossing between them are one. -/
theorem Route.append {near far : κ} {others : List ι} (first : Route joins crosses src trail near)
    (crossed : crosses mark near far) (second : Route joins crosses far others dst) :
    Route joins crosses src (trail ++ mark :: others) dst := by
  induction first with
  | join joined => exact .cross joined crossed second
  | cross joined crossedFirst _ ih => exact .cross joined crossedFirst (ih crossed)

theorem Route.reverse (route : Route joins crosses src trail dst) :
    Route (fun first second => joins second first)
      (fun mark first second => crosses mark second first) dst trail.reverse src := by
  induction route with
  | join joined => exact .join joined
  | cross joined crossed _ ih =>
    rw [reverse_cons]
    exact ih.append crossed (.join joined)

theorem Route.exists_crossed (route : Route joins crosses src trail dst) (mem : mark ∈ trail) :
    ∃ near far, crosses mark near far := by
  induction route with
  | join joined => cases mem
  | cross joined crossed _ ih => grind

theorem Lands.exists_crossed (lands : Lands joins crosses src trail dst) (mem : mark ∈ trail) :
    ∃ near far, crosses mark near far := by
  cases lands with
  | stay => cases mem
  | cross crossed onwards =>
    rcases mem_cons.mp mem with rfl | behind
    · exact ⟨_, _, crossed⟩
    · exact onwards.exists_crossed behind

/-- Routes in relations that agree are the same. -/
theorem Route.imp (route : Route joins crosses src trail dst)
    (same : ∀ {first second}, joins first second → new first second)
    (sameCrosses : ∀ {mark first second}, crosses mark first second →
      newCrosses mark first second) : Route new newCrosses src trail dst := by
  induction route with
  | join joined => exact .join (same joined)
  | cross joined crossed _ ih => exact .cross (same joined) (sameCrosses crossed) ih

/-- What one gets to depends on the relations alone. -/
theorem Lands.imp (lands : Lands joins crosses src trail dst)
    (same : ∀ {first second}, joins first second → new first second)
    (sameCrosses : ∀ {mark first second}, crosses mark first second →
      newCrosses mark first second) : Lands new newCrosses src trail dst := by
  cases lands with
  | stay => exact .stay
  | cross crossed onwards => exact .cross (sameCrosses crossed) (onwards.imp same sameCrosses)

/-- Where connections and crossings do not branch, a route that cannot go on is the only one of its
kind. -/
theorem Route.unique {others : List ι} (route : Route joins crosses src trail dst)
    (joinsOnce : ∀ {first second third}, joins first second → joins first third → second = third)
    (crossesOnce : ∀ {mark other near far last}, crosses mark near far → crosses other near last →
      mark = other ∧ far = last) (ends : ∀ mark far, ¬ crosses mark dst far)
    (too : Route joins crosses src others stop) (endsToo : ∀ mark far, ¬ crosses mark stop far) :
    trail = others ∧ dst = stop := by
  induction route generalizing others with
  | join joined =>
    cases too with
    | join joinedToo => exact ⟨rfl, joinsOnce joined joinedToo⟩
    | cross joinedToo crossed _ => grind
  | cross joined crossed _ ih =>
    cases too with
    | join joinedToo =>
      obtain rfl := joinsOnce joined joinedToo
      exact absurd crossed (endsToo _ _)
    | cross joinedToo crossedToo onwards =>
      obtain rfl := joinsOnce joined joinedToo
      obtain ⟨rfl, rfl⟩ := crossesOnce crossed crossedToo
      obtain ⟨rfl, same⟩ := ih ends onwards
      exact ⟨rfl, same⟩

/-- Where connections and crossings do not branch, one gets to one place from which one cannot go
on. -/
theorem Lands.unique {others : List ι} (lands : Lands joins crosses src trail dst)
    (joinsOnce : ∀ {first second third}, joins first second → joins first third → second = third)
    (crossesOnce : ∀ {mark other near far last}, crosses mark near far → crosses other near last →
      mark = other ∧ far = last) (ends : ∀ mark far, ¬ crosses mark dst far)
    (too : Lands joins crosses src others stop) (endsToo : ∀ mark far, ¬ crosses mark stop far) :
    trail = others ∧ dst = stop := by
  cases lands with
  | stay =>
    cases too with
    | stay => exact ⟨rfl, rfl⟩
    | cross crossed _ => exact absurd crossed (ends _ _)
  | cross crossed onwards =>
    cases too with
    | stay => exact absurd crossed (endsToo _ _)
    | cross crossedToo onwardsToo =>
      obtain ⟨rfl, rfl⟩ := crossesOnce crossed crossedToo
      obtain ⟨rfl, same⟩ := onwards.unique joinsOnce crossesOnce ends onwardsToo endsToo
      exact ⟨rfl, same⟩

/-- One crossing is taken out: what led to it is connected with what it led to. -/
structure Splice (joins : κ → κ → Prop) (crosses : ι → κ → κ → Prop) (mark : ι) (entry exit : κ)
    (later : κ → κ → Prop) (laterCrosses : ι → κ → κ → Prop) : Prop where
  crossed : crosses mark entry exit
  entry_unique : ∀ {other far}, crosses other entry far → other = mark ∧ far = exit
  exit_unique : ∀ {other near}, crosses other near exit → other = mark ∧ near = entry
  mark_unique : ∀ {near far}, crosses mark near far → near = entry ∧ far = exit
  joins : ∀ {first second}, later first second ↔
    first ≠ exit ∧ second ≠ entry ∧ (joins first second ∨ joins first entry ∧ joins exit second)
  crosses : ∀ {other near far}, laterCrosses other near far ↔ crosses other near far ∧ other ≠ mark

namespace Splice

/-- Backwards, the crossing is taken out as well. -/
theorem flip (splice : Splice joins crosses mark entry exit new newCrosses) :
    Splice (fun first second => joins second first)
      (fun mark first second => crosses mark second first) mark exit entry
      (fun first second => new second first)
      (fun mark first second => newCrosses mark second first) where
  crossed := splice.crossed
  entry_unique := splice.exit_unique
  exit_unique := splice.entry_unique
  mark_unique crossed := (splice.mark_unique crossed).symm
  joins {first second} := by
    rw [splice.joins]
    constructor <;> grind
  crosses := splice.crosses

variable [DecidableEq ι]

section

variable (splice : Splice joins crosses mark entry exit new newCrosses)

include splice

theorem forth (route : Route joins crosses src trail dst) (beyond : dst ≠ entry) :
    (src ≠ exit → Route new newCrosses src (trail.filter (· ≠ mark)) dst) ∧
    (src = exit →
      ∀ pre, joins pre entry → pre ≠ exit →
        Route new newCrosses pre (trail.filter (· ≠ mark)) dst) := by
  induction route with
  | join joined =>
    refine ⟨fun apart => .join (splice.joins.mpr ⟨apart, beyond, .inl joined⟩), ?_⟩
    rintro rfl pre leads apart
    exact .join (splice.joins.mpr ⟨apart, beyond, .inr ⟨leads, joined⟩⟩)
  | @cross src near far dst other trail joined crossed onwards ih =>
    obtain ⟨fromElsewhere, fromExit⟩ := ih beyond
    by_cases here : near = entry
    · subst here
      obtain ⟨rfl, rfl⟩ := splice.entry_unique crossed
      have dropped : (other :: trail).filter (· ≠ other) = trail.filter (· ≠ other) := by simp
      rw [dropped]
      refine ⟨fun apart => fromExit rfl src joined apart, ?_⟩
      rintro rfl pre leads apart
      exact fromExit rfl pre leads apart
    · have different : other ≠ mark := fun same => here (splice.mark_unique (same ▸ crossed)).1
      have outside : far ≠ exit := fun same => here (splice.exit_unique (same ▸ crossed)).2
      have stays : (other :: trail).filter (· ≠ mark) = other :: trail.filter (· ≠ mark) := by
        simp [different]
      have crossesNew := splice.crosses.mpr ⟨crossed, different⟩
      rw [stays]
      refine ⟨fun apart => .cross (splice.joins.mpr ⟨apart, here, .inl joined⟩) crossesNew
        (fromElsewhere outside), ?_⟩
      rintro rfl pre leads apart
      exact .cross (splice.joins.mpr ⟨apart, here, .inr ⟨leads, joined⟩⟩) crossesNew
        (fromElsewhere outside)

/-- A route without the crossing was one before. -/
theorem back (route : Route new newCrosses src kept dst) :
    ∃ trail, Route joins crosses src trail dst ∧ trail.filter (· ≠ mark) = kept := by
  induction route with
  | join joined =>
    obtain ⟨-, -, joined | ⟨pre, behind⟩⟩ := splice.joins.mp joined
    · exact ⟨[], .join joined, rfl⟩
    · exact ⟨[mark], .cross pre splice.crossed (.join behind), by simp⟩
  | cross joined crossed _ ih =>
    obtain ⟨trail, onwards, rfl⟩ := ih
    obtain ⟨crossedPre, different⟩ := splice.crosses.mp crossed
    obtain ⟨-, -, joined | ⟨pre, behind⟩⟩ := splice.joins.mp joined
    · exact ⟨_, .cross joined crossedPre onwards, by simp [different]⟩
    · exact ⟨_, .cross pre splice.crossed (.cross behind crossedPre onwards), by simp [different]⟩

theorem route_iff (start : src ≠ exit) (beyond : dst ≠ entry) :
    Route new newCrosses src kept dst ↔
      ∃ trail, Route joins crosses src trail dst ∧ trail.filter (· ≠ mark) = kept := by
  constructor
  · exact splice.back
  · rintro ⟨trail, route, rfl⟩
    exact (splice.forth route beyond).1 start

theorem lands_iff (start : src ≠ entry) (beyond : dst ≠ entry) :
    Lands new newCrosses src kept dst ↔
      ∃ trail, Lands joins crosses src trail dst ∧ trail.filter (· ≠ mark) = kept := by
  constructor
  · intro lands
    cases lands with
    | stay => exact ⟨[], .stay, rfl⟩
    | cross crossed onwards =>
      obtain ⟨crossedPre, different⟩ := splice.crosses.mp crossed
      obtain ⟨trail, route, rfl⟩ := splice.back onwards
      exact ⟨_, .cross crossedPre route, by simp [different]⟩
  · rintro ⟨trail, lands, rfl⟩
    cases lands with
    | stay => exact .stay
    | @cross far _ other trail crossed onwards =>
      have different : other ≠ mark := fun same => start (splice.mark_unique (same ▸ crossed)).1
      have outside : far ≠ exit := fun same => start (splice.exit_unique (same ▸ crossed)).2
      have stays : (other :: trail).filter (· ≠ mark) = other :: trail.filter (· ≠ mark) := by
        simp [different]
      rw [stays]
      exact .cross (splice.crosses.mpr ⟨crossed, different⟩)
        ((splice.forth onwards beyond).1 outside)

theorem lands_entry_iff (beyond : dst ≠ entry) (leads : ∀ {other}, joins exit other ↔ other = stop)
    (outside : stop ≠ entry) :
    Lands new newCrosses stop kept dst ↔
      ∃ trail, Lands joins crosses entry trail dst ∧ trail.filter (· ≠ mark) = kept := by
  rw [splice.lands_iff outside beyond]
  constructor
  · rintro ⟨trail, lands, rfl⟩
    exact ⟨mark :: trail, .cross splice.crossed (route_iff_lands.mpr ⟨stop, leads.mpr rfl, lands⟩),
      by simp⟩
  · rintro ⟨trail, lands, rfl⟩
    cases lands with
    | stay => exact absurd rfl beyond
    | cross crossed onwards =>
      obtain ⟨rfl, rfl⟩ := splice.entry_unique crossed
      obtain ⟨near, joined, lands⟩ := route_iff_lands.mp onwards
      obtain rfl := leads.mp joined
      exact ⟨_, lands, by simp⟩

end

end Splice

end Dataflow.Graph
