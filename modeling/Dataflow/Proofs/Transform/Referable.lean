import Dataflow.Proofs.Edit.Referable
import Dataflow.Transform.Contract
import Dataflow.Transform.DataParallel
import Dataflow.Transform.Inline
import Dataflow.Transform.Merge

/-! Every transformation is made of calls, also when it stops midway, and keeps networks referable
as far as it succeeds. -/

open List

namespace Dataflow

open Edit

theorem dotless_append_toString {stem : String} (dotless : '.' ∉ stem.toList) (number : Nat) :
    '.' ∉ (stem ++ toString number).toList := by
  rw [String.toList_append, mem_append, not_or]
  refine ⟨dotless, fun mem => ?_⟩
  have digits : (toString number).toList = Nat.toDigits 10 number := by simp [toString, Nat.repr]
  have isDigit := Nat.isDigit_of_mem_toDigits (by decide) (by decide) (digits ▸ mem)
  revert isDigit
  decide

namespace Network.Referable

variable {net : Network} {key outer : PortKey} {strict top : Prop}

section

variable (ref : net.Referable strict top)

include ref

theorem keeps_movePort (owner : ProcessId) {dir : Direction}
    (faces : strict → net.HasForm key (·.direction = dir)) :
    (Edit.movePort owner dir key).Keeps strict top net fun _ _ => True := by
  refine ref.keeps_ask fun port isPort => ?_
  have named : net.HasForm key (·.name = port.name) := hasForm_of_port? (port_eq_ok.mp isPort) rfl
  refine (ref.keeps_addPort owner port.name dir port.dataType).bind
    fun {moved added} evo ordered ⟨live, hasForm⟩ => ?_
  refine (ordered.keeps_disconnect key).bind fun {remote broken} onwards kept ⟨alive, ends⟩ => ?_
  have liveMoved : broken.Live [moved] :=
    fun other mem => alive [moved] live other (mem_append_right _ mem)
  have finish {last : Network} (lasts : broken.Evolves last) (refLast : last.Referable strict top)
      (liveLast : last.Live [moved]) :
      (discard (Edit.replaceBoundary key moved)).Keeps strict top last fun _ _ => True := by
    have whole := (evo.trans onwards).trans lasts
    have formLast := hasForm.evolve (onwards.trans lasts)
    refine refLast.keeps_replaceBoundary dir liveLast
      (fun isStrict => (faces isStrict).evolve whole)
      (fun _ => formLast.imp fun _ held => held.2) fun isStrict onBdry => ?_
    have dotless := refLast.dotless_of_boundary isStrict onBdry (named.evolve whole)
    exact formLast.imp fun _ held => by rw [Port.Dotless, held.1]; exact dotless
  cases remote with
  | none => exact finish (.refl kept.toConsistent) kept liveMoved
  | some remote =>
    -- The moved port has the name of one that was connected.
    have dotlessRemote (isStrict : strict) : broken.HasForm remote Port.Dotless :=
      (ends isStrict remote rfl).2.1
    have dotlessMoved (isStrict : strict) : broken.HasForm moved Port.Dotless := by
      obtain ⟨still, hasStill, dotless⟩ := (ends isStrict remote rfl).1
      have isName : still.name = port.name :=
        ((named.evolve (evo.trans onwards)).2 still hasStill :)
      refine (hasForm.evolve onwards).imp fun _ held => ?_
      rw [Port.Dotless, held.1, ← isName]
      exact dotless
    cases dir with
    | input =>
      exact (kept.keeps_connect dotlessRemote dotlessMoved).bind fun lasts refLast keeps =>
        finish lasts refLast (keeps _ liveMoved)
    | output =>
      exact (kept.keeps_connect dotlessMoved dotlessRemote).bind fun lasts refLast keeps =>
        finish lasts refLast (keeps _ liveMoved)

theorem keeps_redirect (oldStart oldStop newStart newStop : ProcessId) :
    (Edit.redirect oldStart oldStop newStart newStop).Keeps strict top net fun _ _ => True := by
  have move {net : Network} {id : ProcessId} {proc : Process} (ref : net.Referable strict top)
      (isProc : net.process id = .ok proc) (dir : Direction) (owner : ProcessId) :
      ((proc.ports dir).forM (Edit.movePort owner dir)).Keeps strict top net fun _ _ => True :=
    ref.keeps_forM fun key mem {_} evo kept => kept.keeps_movePort owner fun _ =>
      (ref.hasForm_of_mem (process_eq_ok.mp isProc) mem).evolve evo
  refine ref.keeps_ask fun proc isProc => ?_
  refine (move ref isProc .input newStart).bind fun _ kept _ => ?_
  exact kept.keeps_ask fun proc isProc => move kept isProc .output newStop

theorem keeps_destroy (depth : Nat) (id : ProcessId) :
    (Edit.destroy depth id).Keeps strict top net fun _ _ => True := by
  induction depth generalizing net id with
  | zero => exact ref.keeps_pure trivial
  | succ depth ih =>
    refine keeps_get_bind.mpr ?_
    split
    · refine ref.keeps_ask fun next _ => (ref.keeps_removeProcess id).bind fun _ kept _ => ?_
      exact kept.keeps_foldlM fun kept _ successor => (ih kept successor).bind fun _ kept _ =>
        kept.keeps_pure trivial
    · exact ref.keeps_pure trivial

theorem keeps_destroyChain (start : ProcessId) :
    (discard (Edit.destroyChain start)).Keeps strict top net fun _ _ => True :=
  Keeps.discard (keeps_get_bind.mpr (ref.keeps_destroy ..))

theorem keeps_replaceRegion (start stop : ProcessId) (stem : String) {kind : Kind Composite}
    (leaf : top → kind.isLeaf) :
    (Edit.replaceRegion start stop stem kind).Keeps strict top net fun _ _ => True := by
  refine ref.keeps_ask fun proc isProc => ?_
  refine Keeps.bind (ref.keeps_addFresh stem fun isTop =>
    ⟨leaf isTop, (ref.unnested isTop (process_eq_ok.mp isProc)).2⟩) fun _ kept _ => ?_
  exact (kept.keeps_redirect ..).bind fun _ kept _ => kept.keeps_destroyChain start

theorem keeps_contract (id : ProcessId) :
    (Edit.contract id).Keeps strict top net fun _ _ => True := by
  refine ref.keeps_ask fun entry isEntry => ref.keeps_ask fun exit isExit => ?_
  have enters := ref.hasForm_portAt isEntry
  have leaves := ref.hasForm_portAt isExit
  refine (ref.keeps_disconnect entry).bind fun {pre first} evo ordered ⟨alive, ends⟩ => ?_
  refine (ordered.keeps_disconnect exit).bind
    fun {behind second} onwards kept ⟨aliveToo, endsToo⟩ => ?_
  have finish {last} (refLast : last.Referable strict top) :
      (discard (Edit.removeProcess id) >>= fun _ => pure true : Edit Bool).Keeps strict top last
      fun _ _ => True :=
    (refLast.keeps_removeProcess id).bind fun _ kept _ => kept.keeps_pure trivial
  have live (keys : List PortKey) (mem : keys ⊆ behind.toList ++ pre.toList) : second.Live keys :=
      fun key isKey => aliveToo pre.toList
      (fun other isOther => alive [] (by simp [Live]) other (mem_append_left _ isOther))
      key (mem isKey)
  have entersLast := enters.evolve (evo.trans onwards)
  have leavesLast := leaves.evolve (evo.trans onwards)
  have dotless {src} (fed : pre = some src) (isStrict : strict) : second.HasForm src Port.Dotless :=
    (ends isStrict src fed).2.1.evolve onwards
  cases pre with
  | none =>
    cases behind with
    | none =>
      refine keeps_get_bind.mpr (keeps_get_bind.mpr ?_)
      split
      · exact kept.keeps_pure trivial
      · exact finish kept
    | some dst =>
      exact Keeps.bind
        (kept.keeps_replaceBoundary .input (live [dst] (by simp)) (fun _ => entersLast)
          (fun isStrict => (endsToo isStrict dst rfl).2.2 .output leavesLast) fun isStrict _ =>
          (endsToo isStrict dst rfl).2.1)
        fun _ kept _ => finish kept
  | some src =>
    cases behind with
    | none =>
      exact Keeps.bind
        (kept.keeps_replaceBoundary .output (live [src] (by simp)) (fun _ => leavesLast)
          (fun isStrict => ((ends isStrict src rfl).2.2 .input (enters.evolve evo)).evolve onwards)
          fun isStrict _ => dotless rfl isStrict) fun _ kept _ => finish kept
    | some dst =>
      exact Keeps.bind
        (kept.keeps_connect (dotless rfl) fun isStrict => (endsToo isStrict dst rfl).2.1)
        fun _ kept _ => finish kept

theorem keeps_threadBranch (zip unzip id : ProcessId) (branch : Nat) :
    (Edit.threadBranch zip unzip id branch).Keeps strict top net fun _ _ => True := by
  refine ref.keeps_ask fun src _ => ?_
  refine (ref.keeps_disconnect src).bind fun {peer broken} _ kept ⟨_, ends⟩ => ?_
  cases peer with
  | none => exact kept.keeps_throw _
  | some dst =>
    have dotlessSrc (isStrict : strict) : broken.HasForm src Port.Dotless := by
      obtain ⟨port, has, dotless⟩ := (ends isStrict dst rfl).1
      exact hasForm_of_port? has dotless
    refine kept.keeps_ask fun _ _ => kept.keeps_ask fun _ _ => ?_
    refine (kept.keeps_addPort ..).bind fun {entry entered} evo kept ⟨_, formEntry⟩ => ?_
    refine (kept.keeps_addPort ..).bind fun {exit left} onwards kept ⟨_, formExit⟩ => ?_
    have dotlessEntry : entered.HasForm entry Port.Dotless := formEntry.imp fun _ held => by
      rw [Port.Dotless, held.1]
      exact dotless_append_toString (by decide) branch
    have dotlessExit : left.HasForm exit Port.Dotless := formExit.imp fun _ held => by
      rw [Port.Dotless, held.1]
      exact dotless_append_toString (by decide) branch
    refine Keeps.bind
      (kept.keeps_connect (fun isStrict => (dotlessSrc isStrict).evolve (evo.trans onwards))
        fun _ => dotlessEntry.evolve onwards) fun further kept _ => ?_
    exact (kept.keeps_connect (fun _ => dotlessExit.evolve further) fun isStrict =>
      (ends isStrict dst rfl).2.1.evolve ((evo.trans onwards).trans further)).mono
      fun _ _ _ => trivial

theorem keeps_cutAt {hier : Hierarchy} (unnested : top → hier = {}) (branches : Nat)
    (column : List ProcessId) :
    (Edit.cutAt hier branches column).Keeps strict top net fun _ _ => True := by
  cases column with
  | nil => exact ref.keeps_pure trivial
  | cons sample column =>
    refine keeps_get_bind.mpr (ref.keeps_ask fun _ _ => ref.keeps_lift_bind fun _ _ => ?_)
    refine (ref.keeps_addFresh "_zip" fun isTop => ⟨rfl, unnested isTop⟩).bind fun _ kept _ => ?_
    refine (kept.keeps_addFresh "_unzip" fun isTop => ⟨rfl, unnested isTop⟩).bind fun _ kept _ => ?_
    refine (kept.keeps_addPort ..).bind fun {exit left} _ kept ⟨_, formExit⟩ => ?_
    refine (kept.keeps_addPort ..).bind fun {entry entered} evo kept ⟨_, formEntry⟩ => ?_
    have dotlessExit : left.HasForm exit Port.Dotless :=
      formExit.imp fun _ held => by rw [Port.Dotless, held.1]; decide
    have dotlessEntry : entered.HasForm entry Port.Dotless :=
      formEntry.imp fun _ held => by rw [Port.Dotless, held.1]; decide
    refine (kept.keeps_connect (fun _ => dotlessExit.evolve evo) fun _ => dotlessEntry).bind
      fun _ kept _ => ?_
    exact kept.keeps_forM fun _ _ _ _ kept => kept.keeps_threadBranch ..

theorem keeps_removeRedundant : Edit.removeRedundant.Keeps strict top net fun _ _ => True := by
  refine ref.keeps_ask fun _ _ => keeps_get_bind.mpr ?_
  refine ref.keeps_foldlM fun kept _ candidate => (kept.keeps_contract candidate.1).bind
    fun _ kept _ => ?_
  split <;> exact kept.keeps_pure trivial

theorem keeps_combToMap : Edit.combToMap.Keeps strict top net fun _ _ => True := by
  refine ref.keeps_ask fun _ _ => keeps_get_bind.mpr (ref.keeps_foldlM fun kept _ candidate => ?_)
  refine Keeps.bind (kept.keeps_modifyProcess (fun _ dir => ?_) fun _ _ _ hier => ⟨rfl, hier⟩)
    fun _ kept _ => ?_
  · cases dir <;> rfl
  · exact kept.keeps_pure trivial

theorem keeps_coalesceChain (chain : List ProcessId) :
    (Edit.coalesceChain chain).Keeps strict top net fun _ _ => True := by
  unfold Edit.coalesceChain
  split
  · exact ref.keeps_ask fun _ _ => ref.keeps_replaceRegion _ _ _ fun _ => rfl
  · exact ref.keeps_pure trivial

theorem keeps_coalesceDataParallel :
    Edit.coalesceDataParallel.Keeps strict top net fun _ _ => True := by
  refine ref.keeps_ask fun _ _ => ref.keeps_ask fun _ _ =>
    ref.keeps_foldlM fun kept _ candidate => ?_
  dsimp only
  split
  · exact kept.keeps_pure trivial
  refine kept.keeps_ask fun _ _ => ?_
  exact Keeps.bind (kept.keeps_forM fun chain _ _ _ kept => kept.keeps_coalesceChain chain)
    fun _ kept _ => kept.keeps_pure trivial

theorem keeps_splitSection (reg : Section) (len : Nat) :
    (Edit.splitSection reg len).Keeps strict top net fun _ _ => True := by
  refine ref.keeps_ask fun _ _ => ref.keeps_ask fun proc isProc =>
    ref.keeps_forM fun _ _ _ _ kept => ?_
  exact kept.keeps_cutAt (fun isTop => (ref.unnested isTop (process_eq_ok.mp isProc)).2) ..

theorem keeps_splitSegments : Edit.splitSegments.Keeps strict top net fun _ _ => True := by
  refine ref.keeps_ask fun _ _ => ref.keeps_ask fun _ _ =>
    ref.keeps_foldlM fun kept _ candidate => ?_
  dsimp only
  split
  · exact kept.keeps_pure trivial
  exact (kept.keeps_splitSection ..).bind fun _ kept _ => kept.keeps_pure trivial

theorem keeps_fuseSection (reg : Section) :
    (Edit.fuseSection reg).Keeps strict top net fun _ _ => True :=
  ref.keeps_ask fun _ _ => ref.keeps_ask fun _ _ => ref.keeps_replaceRegion _ _ _ fun _ => rfl

theorem keeps_fuseSections : Edit.fuseSections.Keeps strict top net fun _ _ => True := by
  refine ref.keeps_ask fun _ _ => ref.keeps_ask fun _ _ =>
    ref.keeps_foldlM fun kept report candidate => ?_
  dsimp only
  split
  · exact kept.keeps_throw _
  · exact (kept.keeps_fuseSection _).bind fun _ kept _ => kept.keeps_pure trivial

theorem keeps_mergeChain (chain : List ProcessId) :
    (Edit.mergeChain chain).Keeps strict top net fun _ _ => True := by
  unfold Edit.mergeChain
  split
  · refine ref.keeps_ask fun _ _ => ?_
    split
    · refine ref.keeps_ask fun _ _ => ?_
      exact (ref.keeps_replaceRegion _ _ _ fun _ => rfl).bind fun _ kept _ =>
        kept.keeps_pure trivial
    · exact ref.keeps_pure trivial
  · exact ref.keeps_pure trivial

theorem keeps_mergeFrom (merging : Edit.Merging) (id : ProcessId) :
    (Edit.mergeFrom merging id).Keeps strict top net fun _ _ => True := by
  refine keeps_get_bind.mpr ?_
  split
  · exact ref.keeps_pure trivial
  refine ref.keeps_ask fun _ _ => ?_
  split
  · exact ref.keeps_pure trivial
  refine keeps_get_bind.mpr (ref.keeps_ask fun chain _ => ?_)
  split
  · exact ref.keeps_pure trivial
  refine ref.keeps_ask fun _ _ => ?_
  split
  · exact ref.keeps_pure trivial
  · refine (ref.keeps_mergeChain chain).bind fun _ kept _ => ?_
    split <;> exact kept.keeps_pure trivial

theorem keeps_mergeParallelMaps : Edit.mergeParallelMaps.Keeps strict top net fun _ _ => True := by
  refine ref.keeps_ask fun _ _ => keeps_get_bind.mpr ?_
  exact (ref.keeps_foldlM fun kept => kept.keeps_mergeFrom).bind fun _ kept _ =>
    kept.keeps_pure trivial

theorem keeps_inlineInput (id : ProcessId) (idx : Nat) (helper : ProcessId)
    (enters : strict → net.HasForm outer (·.direction = .input)) :
    (Edit.inlineInput id idx outer helper).Keeps strict top net fun _ _ => True := by
  -- What is put on the boundary faces like the outer port, as it was connected to the inner one.
  have finish (notes : List Diagnostic) {last} (refLast : last.Referable strict top) :
      (discard (Edit.removeProcess helper) >>= fun _ => pure notes : Edit (List Diagnostic)).Keeps
      strict top last fun _ _ => True :=
    (refLast.keeps_removeProcess helper).bind fun _ kept _ => kept.keeps_pure trivial
  refine ref.keeps_ask fun proc _ => ?_
  split
  · refine ref.keeps_ask fun inner isInner => ?_
    have leaves := ref.hasForm_portAt isInner
    refine (ref.keeps_disconnect outer).bind fun {producer first} evo ordered ⟨_, ends⟩ => ?_
    refine (ordered.keeps_disconnect inner).bind
      fun {consumer second} onwards kept ⟨alive, endsToo⟩ => ?_
    have unread (notes : Network → List Diagnostic) : (do
        if (← get).isBoundary outer then throw (.malformedComposite id (.unusedInput idx))
        let notes ← pure (notes (← get))
        discard <| Edit.removeProcess helper
        return notes : Edit (List Diagnostic)).Keeps strict top second fun _ _ => True := by
      refine keeps_get_bind.mpr ?_
      split
      · exact kept.keeps_throw _
      · exact finish _ kept
    cases consumer with
    | some dst =>
      have dotless (isStrict : strict) : second.HasForm dst Port.Dotless :=
        (endsToo isStrict dst rfl).2.1
      cases producer with
      | some src =>
        exact Keeps.bind
          (kept.keeps_connect (fun isStrict => (ends isStrict src rfl).2.1.evolve onwards) dotless)
          fun _ kept _ => finish _ kept
      | none =>
        exact Keeps.bind (kept.keeps_replaceBoundary .input (alive [] (by simp [Live]))
          (fun isStrict => (enters isStrict).evolve (evo.trans onwards))
          (fun isStrict =>
          (endsToo isStrict dst rfl).2.2 .output (leaves.evolve (evo.trans onwards)))
          fun isStrict _ => dotless isStrict) fun _ kept _ => finish _ kept
    | none => cases producer <;> exact unread _
  · exact ref.keeps_throw _

theorem keeps_inlineOutput (id : ProcessId) (idx : Nat) (helper : ProcessId)
    (leaves : strict → net.HasForm outer (·.direction = .output)) :
    (Edit.inlineOutput id idx outer helper).Keeps strict top net fun _ _ => True := by
  refine ref.keeps_ask fun proc _ => ?_
  split
  · refine ref.keeps_ask fun inner isInner => ?_
    have enters := ref.hasForm_portAt isInner
    refine (ref.keeps_disconnect inner).bind fun {producer first} evo ordered ⟨alive, ends⟩ => ?_
    refine (ordered.keeps_disconnect outer).bind
      fun {consumer second} onwards kept ⟨aliveToo, endsToo⟩ => ?_
    cases producer with
    | some src =>
      have dotless (isStrict : strict) : second.HasForm src Port.Dotless :=
        (ends isStrict src rfl).2.1.evolve onwards
      cases consumer with
      | some dst =>
        exact Keeps.bind (kept.keeps_connect dotless fun isStrict => (endsToo isStrict dst rfl).2.1)
          fun _ kept _ => kept.keeps_removeProcess helper
      | none =>
        exact Keeps.bind
          (kept.keeps_replaceBoundary .output (aliveToo [src] (alive [] (by simp [Live])))
            (fun isStrict => (leaves isStrict).evolve (evo.trans onwards))
            (fun isStrict =>
            ((ends isStrict src rfl).2.2 .input (enters.evolve evo)).evolve onwards)
            fun isStrict _ => dotless isStrict) fun _ kept _ => kept.keeps_removeProcess helper
    | none =>
      refine keeps_get_bind.mpr ?_
      split
      · exact kept.keeps_throw _
      · exact kept.keeps_removeProcess helper
  · exact ref.keeps_throw _

end

section

variable (ref : net.Referable strict False)

include ref

theorem keeps_releaseChildren (id : ProcessId) (hier : Hierarchy) :
    (Edit.releaseChildren id hier).Keeps strict False net fun _ _ => True := by
  have modify {net} (ref : net.Referable strict False) (child : ProcessId) {change}
      (ports : ∀ proc dir, (change proc).ports dir = proc.ports dir) :
      (Edit.modifyProcess child change).Keeps strict False net fun _ _ => True :=
    ref.keeps_modifyProcess ports False.elim
  refine ref.keeps_ask fun _ _ => ?_
  refine Keeps.bind
    (ref.keeps_forM fun child _ _ _ kept => modify kept child fun _ dir => by cases dir <;> rfl)
    fun _ kept _ => ?_
  split
  · exact modify kept _ fun _ dir => by cases dir <;> rfl
  · exact kept.keeps_pure trivial

theorem keeps_inlineComposite (id : ProcessId) :
    (Edit.inlineComposite id).Keeps strict False net fun _ _ => True := by
  refine ref.keeps_ask fun proc isProc => ?_
  have faces {dir : Direction} {helpers : List ProcessId} {entry : (PortKey × ProcessId) × Nat}
      (mem : entry ∈ ((proc.ports dir).zip helpers).zipIdx) : net.HasForm entry.1.1
        (·.direction = dir) :=
    ref.hasForm_of_mem (process_eq_ok.mp isProc) (of_mem_zip (fst_mem_of_mem_zipIdx mem)).1
  split
  · split
    · exact ref.keeps_throw _
    refine Keeps.bind
      (ref.keeps_mapM fun entry mem _ evo kept => kept.keeps_inlineInput id entry.2 entry.1.2
        fun _ => HasForm.evolve (faces mem) evo) fun evo kept _ => ?_
    refine Keeps.bind
      (kept.keeps_forM fun entry mem _ onwards kept => kept.keeps_inlineOutput id entry.2 entry.1.2
        fun _ => HasForm.evolve (faces mem) (evo.trans onwards)) fun _ kept _ => ?_
    refine (kept.keeps_releaseChildren ..).bind fun _ kept _ => (kept.keeps_removeProcess id).bind
      fun _ kept _ => ?_
    exact kept.keeps_pure trivial
  · exact ref.keeps_throw _

theorem keeps_flatten : Edit.flatten.Keeps strict False net fun _ _ => True := by
  have inline (fuel : Nat) (report : Report) {net} (ref : net.Referable strict False) :
      (Edit.inlineAll fuel report).Keeps strict False net fun _ _ => True := by
    induction fuel generalizing net report with
    | zero => exact ref.keeps_pure trivial
    | succ fuel ih =>
      refine keeps_get_bind.mpr ?_
      split
      · exact ref.keeps_pure trivial
      · exact (ref.keeps_inlineComposite _).bind fun _ kept _ => ih _ kept
  exact keeps_get_bind.mpr (inline _ _ ref)

end

end Network.Referable

end Dataflow
