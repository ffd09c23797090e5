import Dataflow.Proofs.Transform.Flatten

/-!
Composites that can never be inlined: one of their helpers is gone, and inlining others does not
bring it back.

Flattening stops in front of such a composite every time, whatever it does before.
-/

open List

namespace Dataflow

namespace Network

variable {net mid next : Network} {id other : ProcessId} {proc : Process}

/-- Processes may have gone, but not a certain one, and those that are left are as they were but for
their places. -/
structure LosesOthers (net : Network) (id : ProcessId) (next : Network) : Prop where
  former : ∀ {other later}, next.process? other = some later →
    ∃ process, net.process? other = some process ∧ later.core = process.core
  stays : ∃ process, next.process? id = some process

namespace LosesOthers

theorem refl (got : net.process? id = some proc) : net.LosesOthers id net where
  former got := ⟨_, got, rfl⟩
  stays := ⟨proc, got⟩

theorem changed (loses : net.LosesOthers id mid) (change : ProcessId → Process → Process)
    (kept : ∀ other proc, (change other proc).core = proc.core)
    (procs : ∀ other, next.process? other = (mid.process? other).map (change other)) :
    net.LosesOthers id next where
  former {other new} got := by
    rw [procs] at got
    obtain ⟨has, gotHas, rfl⟩ := Option.map_eq_some_iff.mp got
    obtain ⟨old, gotOld, core⟩ := loses.former gotHas
    exact ⟨old, gotOld, (kept other has).trans core⟩
  stays := by
    obtain ⟨has, gotHas⟩ := loses.stays
    exact ⟨_, by rw [procs, gotHas]; rfl⟩

theorem congr (loses : net.LosesOthers id mid)
    (same : ∀ other, next.process? other = mid.process? other) : net.LosesOthers id next :=
  loses.changed (fun _ has => has) (fun _ _ => rfl) fun other => by rw [same, Option.map_id']

theorem eraseProcess (loses : net.LosesOthers id mid) (different : other ≠ id) :
    net.LosesOthers id (mid.eraseProcess other) where
  former {another new} gotNew := by
    rw [process?_eraseProcess] at gotNew
    split at gotNew
    · cases gotNew
    · exact loses.former gotNew
  stays := by
    rw [process?_eraseProcess, if_neg different]
    exact loses.stays

theorem process?_eq_none (loses : net.LosesOthers id next) (absent : net.process? other = none) :
    next.process? other = none := by
  cases got : next.process? other with
  | none => rfl
  | some new =>
    obtain ⟨proc, gotOld, -⟩ := loses.former got
    rw [absent] at gotOld
    cases gotOld

theorem ne_of_leaf (loses : net.LosesOthers id mid) (got : net.process? id = some proc)
    (comp : proc.kind.isLeaf = false) {leaf : Process} (gotLeaf : mid.process? other = some leaf)
    (isLeaf : leaf.kind.isLeaf) : other ≠ id := by
  rintro rfl
  have core := of_found got (loses.former gotLeaf)
  rw [Process.isLeaf_eq core, comp] at isLeaf
  cases isLeaf

end LosesOthers

end Network

namespace Edit

variable {α β : Type} {edit : Edit α} {next : α → Edit β} {net : Network}
  {id other helper : ProcessId} {proc : Process}

/-- An edit that lets processes go at most, and never a certain one. -/
def RemovesOthers (net : Network) (id : ProcessId) (edit : Edit α) : Prop :=
  ∀ middle, net.LosesOthers id middle →
    edit.Ends middle (fun _ => net.LosesOthers id) (net.LosesOthers id)

namespace RemovesOthers

theorem pure (ans : α) : (Pure.pure ans : Edit α).RemovesOthers net id := fun _ loses => loses

theorem throw (fault : Fault) : (MonadExcept.throw fault : Edit α).RemovesOthers net id :=
      fun _ loses => loses

theorem get : (MonadState.get : Edit Network).RemovesOthers net id := fun _ loses => loses

theorem lift (question : Except Fault α) : (liftM question : Edit α).RemovesOthers net id :=
      fun mid loses => by
  cases question <;> exact loses

theorem ends_bind_of {mid : Network} {answered : β → Network → Prop}
    (first : edit.RemovesOthers net id) (loses : net.LosesOthers id mid)
    (second : ∀ ans between, net.LosesOthers id between →
      (next ans).Ends between answered (net.LosesOthers id)) :
    (edit >>= next).Ends mid answered (net.LosesOthers id) :=
  ends_bind.mpr ((first mid loses).mono second fun _ loses => loses)

theorem bind (first : edit.RemovesOthers net id) (second : ∀ ans, (next ans).RemovesOthers net id) :
    (edit >>= next).RemovesOthers net id :=
  fun _ loses => first.ends_bind_of loses second

theorem discard (removesOthers : edit.RemovesOthers net id) :
    (Functor.discard edit).RemovesOthers net id :=
  fun mid loses => ends_discard.mpr (removesOthers mid loses)

theorem forM {step : α → Edit PUnit} (each : ∀ entry, (step entry).RemovesOthers net id)
    (entries : List α) : (entries.forM step).RemovesOthers net id :=
  fun _ loses => ends_forM (fun _ => net.LosesOthers id) (fun loses => each _ _ loses) loses

end RemovesOthers

variable {kept : Network → Prop} {fact : α → Prop} {mid : Network}

theorem ends_mapM_each {step : α → Edit β}
    (each : ∀ entry mid, kept mid →
      (step entry).Ends mid (fun _ next => kept next ∧ fact entry) kept) (entries : List α)
    (holds : kept mid) :
    (entries.mapM step).Ends mid (fun _ next => kept next ∧ ∀ entry ∈ entries, fact entry)
      kept := by
  induction entries generalizing mid with
  | nil => exact ⟨holds, by simp⟩
  | cons entry rest ih =>
    rw [mapM_cons]
    refine ends_bind.mpr
      ((each entry mid holds).mono (fun _ between ⟨holds, here⟩ => ?_) fun _ held => held)
    exact ends_bind.mpr
      ((ih holds).mono (fun _ _ ⟨holds, behind⟩ => ⟨holds, forall_mem_cons.mpr ⟨here, behind⟩⟩)
        fun _ held => held)

theorem ends_forM_each {step : α → Edit PUnit}
    (each : ∀ entry mid, kept mid →
      (step entry).Ends mid (fun _ next => kept next ∧ fact entry) kept) (entries : List α)
    (holds : kept mid) :
    (entries.forM step).Ends mid (fun _ next => kept next ∧ ∀ entry ∈ entries, fact entry)
      kept := by
  rw [forM_eq_mapM]
  exact ends_bind.mpr (ends_mapM_each each entries holds)

theorem removesOthers_modify {change : Network → Network}
    (same : ∀ mid other, (change mid).process? other = mid.process? other) :
    (modify change : Edit PUnit).RemovesOthers net id :=
  fun _ loses => loses.congr (same _)

theorem removesOthers_setConnection (key : PortKey) (link : Option PortKey) :
    (setConnection key link).RemovesOthers net id :=
  RemovesOthers.get.bind fun _ => (RemovesOthers.lift _).bind fun _ =>
    removesOthers_modify fun _ _ => rfl

theorem removesOthers_connect (src dst : PortKey) : (connect src dst).RemovesOthers net id := by
  have finish :
      (do setConnection src (some dst); setConnection dst (some src) : Edit Unit).RemovesOthers net
      id :=
    (removesOthers_setConnection src _).bind fun _ => removesOthers_setConnection dst _
  refine RemovesOthers.get.bind fun _ => (RemovesOthers.lift _).bind fun first =>
    (RemovesOthers.lift _).bind fun second => ?_
  dsimp only
  split
  · exact fun _ loses => loses
  · split
    · exact fun _ loses => loses
    · split
      · exact fun _ loses => loses
      · exact finish

theorem removesOthers_disconnect (key : PortKey) : (disconnect key).RemovesOthers net id := by
  refine RemovesOthers.get.bind fun _ => (RemovesOthers.lift _).bind fun peer =>
    (removesOthers_setConnection key none).bind fun _ => ?_
  cases peer with
  | none => exact .pure _
  | some other => exact (removesOthers_setConnection other none).bind fun _ => .pure _

theorem removesOthers_replaceBoundary (old new : PortKey) :
    (replaceBoundary old new).RemovesOthers net id :=
  fun _ loses => loses.congr fun _ => rfl

theorem removesOthers_modifyProcess {change : Process → Process}
    (kept : ∀ proc, (change proc).core = proc.core) :
    (modifyProcess other change).RemovesOthers net id := by
  intro mid loses
  unfold Ends
  cases got : mid.process? other with
  | none =>
    rw [run_modifyProcess_absent got]
    exact loses
  | some proc =>
    rw [run_modifyProcess got]
    refine loses.changed (fun another has => if other = another then change has else has)
      (fun _ _ => ?_) fun another => ?_
    · split
      · exact kept _
      · rfl
    · rw [Network.process?_setProcess]
      split
      · grind
      · rw [Option.map_id']

theorem ends_removeProcess_of_ne {mid : Network} (loses : net.LosesOthers id mid)
    (different : other ≠ id) :
    (removeProcess other).Ends mid
      (fun _ next => net.LosesOthers id next ∧ next.process? other = none)
      (net.LosesOthers id) := by
  have freed (key : PortKey) : (freePort key).RemovesOthers net id :=
    (removesOthers_disconnect key).bind fun _ => removesOthers_modify fun _ _ => rfl
  rw [removeProcess, ends_bind, ends_get, ends_bind]
  refine (RemovesOthers.lift _ mid loses).mono (fun proc between loses => ?_) fun _ loses => loses
  dsimp only
  split
  · exact loses
  refine ends_bind.mpr
    ((RemovesOthers.forM freed _ _ loses).mono (fun _ bare loses => ?_) fun _ loses => loses)
  rw [ends_bind]
  have erased := loses.eraseProcess different
  have gone : (bare.eraseProcess other).process? other = none := by
    rw [Network.process?_eraseProcess, if_pos rfl]
  split
  · rename_i parent _
    obtain ⟨next, runs, procs, -⟩ := Network.run_disown (bare.eraseProcess other) parent other
    refine ends_bind.mpr ((ends_of_run runs).mpr ⟨erased.changed _ (fun _ _ => ?_) procs, ?_⟩)
    · split
      · exact Process.core_disown ..
      · rfl
    · rw [procs, gone, Option.map_none]
  · exact ⟨erased, gone⟩

theorem removesOthers_removeProcess (different : other ≠ id) :
    (removeProcess other).RemovesOthers net id :=
  fun _ loses => (ends_removeProcess_of_ne loses different).mono (fun _ _ left => left.1)
    fun _ loses => loses

theorem ends_helper {mid : Network} {body : Process → Edit α} (loses : net.LosesOthers id mid)
    (got : net.process? id = some proc) (comp : proc.kind.isLeaf = false)
    (known : ∀ gone : Process, (gone.kind.isLeaf → helper ≠ id) →
      (body gone).RemovesOthers net id) :
    (do body (← (← get).process helper) : Edit α).Ends mid
      (fun _ next => net.LosesOthers id next ∧ net.process? helper ≠ none)
      (net.LosesOthers id) := by
  rw [ends_bind, ends_get, ends_bind]
  cases gotHelper : mid.process? helper with
  | none =>
    rw [Network.process_eq_error gotHelper]
    exact loses
  | some gone =>
    rw [Network.process_eq_ok.mpr gotHelper]
    obtain ⟨old, gotOld, -⟩ := loses.former gotHelper
    refine (known gone (loses.ne_of_leaf got comp gotHelper) mid loses).mono
      (fun _ _ loses => ⟨loses, ?_⟩) fun _ loses => loses
    simp [gotOld]

theorem ends_inlineInput {mid : Network} (loses : net.LosesOthers id mid)
    (got : net.process? id = some proc) (comp : proc.kind.isLeaf = false) (owner : ProcessId)
    (idx : Nat) (outer : PortKey) (helper : ProcessId) :
    (inlineInput owner idx outer helper).Ends mid
      (fun _ next => net.LosesOthers id next ∧ net.process? helper ≠ none)
      (net.LosesOthers id) := by
  -- Every step is one that spares the composite.
  refine ends_helper loses got comp fun gone different => ?_
  split
  · rename_i kind
    have finish (notes : List Diagnostic) :
        (do discard <| removeProcess helper; return notes : Edit (List Diagnostic)).RemovesOthers
        net id :=
      (removesOthers_removeProcess (different (by rw [kind]; rfl))).discard.bind fun _ => .pure _
    refine RemovesOthers.get.bind fun _ => (RemovesOthers.lift _).bind fun inner => ?_
    refine (removesOthers_disconnect outer).bind fun _ =>
      (removesOthers_disconnect inner).bind fun _ => ?_
    split
    · exact (removesOthers_connect _ _).bind fun _ => finish _
    · exact (removesOthers_replaceBoundary outer _).discard.bind fun _ => finish _
    · refine RemovesOthers.get.bind fun _ => ?_
      split
      · exact fun _ loses => loses
      · exact RemovesOthers.get.bind fun _ => finish _
  · exact .throw _

theorem ends_inlineOutput {mid : Network} (loses : net.LosesOthers id mid)
    (got : net.process? id = some proc) (comp : proc.kind.isLeaf = false) (owner : ProcessId)
    (idx : Nat) (outer : PortKey) (helper : ProcessId) :
    (inlineOutput owner idx outer helper).Ends mid
      (fun _ next => net.LosesOthers id next ∧ net.process? helper ≠ none)
      (net.LosesOthers id) := by
  refine ends_helper loses got comp fun gone different => ?_
  split
  · rename_i kind
    have finish : (discard <| removeProcess helper : Edit Unit).RemovesOthers net id :=
      (removesOthers_removeProcess (different (by rw [kind]; rfl))).discard
    refine RemovesOthers.get.bind fun _ => (RemovesOthers.lift _).bind fun inner => ?_
    refine (removesOthers_disconnect inner).bind fun _ =>
      (removesOthers_disconnect outer).bind fun _ => ?_
    split
    · exact (removesOthers_connect _ _).bind fun _ => finish
    · exact (removesOthers_replaceBoundary outer _).discard.bind fun _ => finish
    · refine RemovesOthers.get.bind fun _ => ?_
      split
      · exact fun _ loses => loses
      · exact finish
  · exact .throw _

theorem removesOthers_releaseChildren (owner : ProcessId) (hier : Hierarchy) :
    (releaseChildren owner hier).RemovesOthers net id := by
  refine RemovesOthers.get.bind fun _ => (RemovesOthers.lift _).bind fun _ => ?_
  refine RemovesOthers.bind
    (RemovesOthers.forM (fun child => removesOthers_modifyProcess fun proc => ?_) _) fun _ => ?_
  · rfl
  · split
    · exact removesOthers_modifyProcess fun proc => by simp [Process.core]
    · exact .pure _

theorem exists_entry {keys : List PortKey} {helpers : List ProcessId}
    (counts : keys.length = helpers.length) (mem : helper ∈ helpers) :
    ∃ entry ∈ (keys.zip helpers).zipIdx, entry.1.2 = helper := by
  have isSnd : helper ∈ (keys.zip helpers).map (·.2) := by
    rwa [map_snd_zip (Nat.le_of_eq counts.symm)]
  obtain ⟨pair, isPair, rfl⟩ := mem_map.mp isSnd
  rw [← zipIdx_map_fst 0 (keys.zip helpers)] at isPair
  obtain ⟨entry, isEntry, rfl⟩ := mem_map.mp isPair
  exact ⟨entry, isEntry, rfl⟩

theorem ends_inlineComposite_of_losesOthers (got : net.process? id = some proc)
    (comp : proc.kind.isLeaf = false) {inside : Composite} {around : Process}
    (gotOther : net.process? other = some around) (kind : around.kind = .composite inside)
    (jammed : other = id → ∃ helper ∈ inside.inputs ++ inside.outputs, net.process? helper = none) :
    (inlineComposite other).Ends net
      (fun _ next => net.LosesOthers id next ∧ next.process? other = none)
      (net.LosesOthers id) := by
  have loses := Network.LosesOthers.refl got
  rw [inlineComposite, ends_bind, ends_get, ends_bind, Network.process_eq_ok.mpr gotOther,
    ends_answer, kind]
  dsimp only
  split
  · exact loses
  rename_i counts
  rw [not_or, not_not, not_not] at counts
  -- Each helper has to be there when its turn comes.
  refine ends_bind.mpr
    ((ends_mapM_each (fun entry _ loses => ends_inlineInput loses got comp ..) _ loses).mono
      (fun notes mid entered => ?_) fun _ loses => loses)
  refine ends_bind.mpr
    ((ends_forM_each (fun entry _ loses => ends_inlineOutput loses got comp ..) _ entered.1).mono
      (fun _ mid left => ?_) fun _ loses => loses)
  have different : other ≠ id := fun same => by
    obtain ⟨helper, mem, absent⟩ := jammed same
    rcases mem_append.mp mem with mem | mem
    · obtain ⟨entry, isEntry, rfl⟩ := exists_entry counts.1 mem
      exact entered.2 entry isEntry absent
    · obtain ⟨entry, isEntry, rfl⟩ := exists_entry counts.2 mem
      exact left.2 entry isEntry absent
  refine (removesOthers_releaseChildren other _).ends_bind_of left.1 fun _ _ loses => ?_
  exact ends_bind.mpr (ends_discard.mpr (ends_removeProcess_of_ne loses different))

end Edit

namespace Network

variable {net : Network}

theorem Jammed.ends_inlineAll (jammed : net.Jammed) {fuel : Nat} (room : net.size ≤ fuel)
    (report : Report) : (Edit.inlineAll fuel report).Ends net (fun _ _ => False) Jammed := by
  induction fuel generalizing net report with
  | zero =>
    -- A network without processes has no composite.
    obtain ⟨id, proc, inside, helper, got, kind, -⟩ := jammed
    have leaf := flat_of_size_eq_zero (Nat.le_zero.mp room) got
    rw [kind] at leaf
    cases leaf
  | succ fuel ih =>
    obtain ⟨id, proc, inside, helper, got, kind, mem, absent⟩ := jammed
    have comp : proc.kind.isLeaf = false := by rw [kind]; rfl
    have jammed {next} (loses : net.LosesOthers id next) : next.Jammed := by
      obtain ⟨new, gotNew⟩ := loses.stays
      have core := of_found got (loses.former gotNew)
      obtain ⟨around, kindNew, same⟩ := Process.exists_composite core kind
      exact ⟨id, new, around, helper, gotNew, kindNew, same ▸ mem, loses.process?_eq_none absent⟩
    rw [Edit.inlineAll, Edit.ends_bind, Edit.ends_get]
    split
    · rename_i none
      rw [innermostComposite?_eq_none_iff.mp none id proc got] at comp
      cases comp
    · rename_i other has
      obtain ⟨around, within, first⟩ := first_of_innermostComposite? has
      refine Edit.ends_bind.mpr <|
        (Edit.ends_inlineComposite_of_losesOthers got comp first.stored first.kind
          fun same => ?_).mono
        (fun notes mid faded => ?_) fun _ => jammed
      · subst same
        obtain rfl := Option.mem_unique got first.stored
        obtain rfl := Kind.composite.inj (kind.symm.trans first.kind)
        exact ⟨helper, mem, absent⟩
      · have smaller :=
          size_lt (fun gotNew => (faded.1.former gotNew).imp fun _ old => old.1)
            first.stored faded.2
        exact ih (jammed faded.1) (Nat.le_of_lt_succ (Nat.lt_of_lt_of_le smaller room)) _

theorem Jammed.ends_flatten (jammed : net.Jammed) :
    Edit.flatten.Ends net (fun _ _ => False) Jammed := by
  exact jammed.ends_inlineAll (Nat.le_refl _) {}

end Network

end Dataflow
