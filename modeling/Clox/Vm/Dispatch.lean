import Mathlib.Logic.Relation
import Clox.Vm.Throw

/-! # Which handler an error reaches

The handlers that are active, from the one entered last: the clauses and
ensure blocks of the tries around the point each frame has reached, and the
native protections added in each frame. `throwError` looks at the protections
first, then at the frames by the offset of the call, and at an ensure block
wherever the frame is, so it finds the first of them only under a condition.
-/

namespace Clox.Throw

open Relation (ReflTransGen)

variable (cls : Classes)

/-! ## The handlers in order -/

/-- The first row that guards the frame's `ip` and takes the error. The rows of a try come behind
those of the tries inside it, its clauses in their order, the ensure block last. -/
def dueRow (klass : ClassId) (f : CallFrame) (th : Thread) : Option ℕ :=
  (th.tables f.chunk).findIdx? fun row =>
    row.guards f.ip && (row.isEnsure || row.accepts cls th.crefStack.head? klass)

/-- The protection of the frame number `depth` that was added last, of those that accept the
class, by the number of others under it. -/
def dueProtection (klass : ClassId) (depth : ℕ) : List ErrTagInfo → Option ℕ
  | [] => none
  | info :: prev =>
    if info.frame = depth then
      if info.accepts cls klass then some prev.length else dueProtection klass depth prev
    else none

/-- The handler that was entered last, of those that take the error. -/
def innermost (klass : ClassId) : List CallFrame → Thread → Option Handler
  | [], _ => none
  | f :: rest, th =>
    match if f.isCCall then none else dueRow cls klass f th with
    | some i => some (.row (rest.length + 1) i)
    | none =>
      match dueProtection cls klass (rest.length + 1) th.errInfo with
      | some below => some (.protection (rest.length + 1) below)
      | none => innermost klass rest (th.popFrame f (rest.length + 1))

/-- The frames that are left when the handler goes on: those down to its frame. -/
def State.framesAt (st : State) : Handler → List CallFrame
  | .row frame i =>
    match st.frames.drop (st.frames.length - frame) with
    | [] => []
    | f :: rest =>
      { f with ip := (((st.thread.tables f.chunk)[i]?).map (·.itarget)).getD f.ip } :: rest
  | .protection frame _ => st.frames.drop (st.frames.length - frame)

/-- The error reaches the innermost handler, and the frames above it are popped. -/
def ReachesInnermost (err : Err) (st : State) : Prop :=
  let r := throwErr cls err st
  r.handler = innermost cls err.klass st.frames st.thread ∧
    ∀ h, innermost cls err.klass st.frames st.thread = some h → r.state.frames = st.framesAt h

/-! ## When they agree -/

/-- No try guards a frame down to the frame number `depth`. -/
def Unguarded (klass : ClassId) (depth : ℕ) : List CallFrame → Thread → Prop
  | [], _ => True
  | f :: rest, th =>
    (f.isCCall ∨ dueRow cls klass f th = none) ∧
      (rest.length + 1 = depth ∨
        Unguarded klass depth rest (th.popFrame f (rest.length + 1)))

/-- The row that is due in the frame a native frame stands on. -/
def dueBelow (klass : ClassId) : List CallFrame → Thread → Option ℕ
  | [], _ => none
  | f :: rest, th =>
    if f.isCCall then dueBelow klass rest (th.popFrame f (rest.length + 1))
    else dueRow cls klass f th

/-- The thread when the search has passed the frame: its last ensure block counts as done. -/
def Thread.pass (th : Thread) (f : CallFrame) (depth : ℕ) : Thread :=
  match findEnsureRow (th.tables f.chunk) with
  | some i => (th.setEnsureRunning f.chunk i false).popFrame f depth
  | none => th.popFrame f depth

/-- From the offset `off` on no frame misleads the search: a clause that is due is the first that
guards the offset, an ensure block that is due is the last of its function and not running, and no
clause guards the offset; a frame where nothing is due has no clause for the offset, and no ensure
block in its function but one that is running. -/
def Undisturbed (klass : ClassId) : ℕ → List CallFrame → Thread → Prop
  | _, [], _ => True
  | off, f :: rest, th =>
    let rows := th.tables f.chunk
    let caught := findCatchRow cls th.crefStack.head? klass off rows
    match dueBelow cls klass (f :: rest) th with
    | some i =>
      if (rows[i]?).any (·.isEnsure) then
        caught = none ∧ findEnsureRow rows = some i ∧
          (isEnsureRunning rows i = false ∨ f.isCCall)
      else caught = some i
    | none =>
      caught = none ∧
        (∀ i, findEnsureRow rows = some i → isEnsureRunning rows i ∧ f.isCCall = false) ∧
        Undisturbed klass f.start rest (th.pass f (rest.length + 1))

/-- The native protections and the frames leave the innermost handler to be found. -/
def FindsInnermost (klass : ClassId) (st : State) : Prop :=
  match findErrTag cls klass st.thread.errInfo with
  | some (info, _) => Unguarded cls klass info.frame st.frames st.thread
  | none => Undisturbed cls klass ((st.frames.head?.map (·.ip)).getD 0) st.frames st.thread

/-! ## Well-formed states -/

/-- A native frame stands on a frame with the same chunk. -/
def NativeWf : List CallFrame → Prop
  | [] => True
  | f :: rest =>
    (f.isCCall = true → f.start = 0 ∧ ∃ g rest', rest = g :: rest' ∧ g.chunk = f.chunk) ∧
      NativeWf rest

/-- The protections are those of the frames, from the last frame on. -/
structure ErrInfoWf (depth : ℕ) (errInfo : List ErrTagInfo) : Prop where
  sorted : errInfo.Pairwise fun a b => b.frame ≤ a.frame
  bounded : ∀ e ∈ errInfo, 1 ≤ e.frame ∧ e.frame ≤ depth

theorem ErrInfoWf.popFrame {depth : ℕ} {errInfo : List ErrTagInfo}
    (h : ErrInfoWf (depth + 1) errInfo) :
    ErrInfoWf depth (errInfo.dropWhile (·.frame == depth + 1)) := by
  refine ⟨h.sorted.sublist (List.dropWhile_sublist _), fun e he => ?_⟩
  induction errInfo with
  | nil => cases he
  | cons info prev ih =>
    have hprev : ErrInfoWf (depth + 1) prev :=
      ⟨(List.pairwise_cons.mp h.sorted).2, fun e he => h.bounded e (List.mem_cons_of_mem _ he)⟩
    by_cases hinfo : info.frame = depth + 1
    · rw [List.dropWhile_cons_of_pos (by simpa using hinfo)] at he
      exact ih hprev he
    · rw [List.dropWhile_cons_of_neg (by simpa using hinfo)] at he
      have hlt : info.frame ≤ depth := by
        have := (h.bounded info List.mem_cons_self).2
        omega
      have hmem := h.bounded e he
      rcases List.mem_cons.mp he with rfl | he
      · exact ⟨hmem.1, hlt⟩
      · exact ⟨hmem.1, Nat.le_trans ((List.pairwise_cons.mp h.sorted).1 e he) hlt⟩

structure State.Wf (st : State) : Prop where
  native : NativeWf st.frames
  nonempty : st.frames ≠ []
  errInfo : ErrInfoWf st.frames.length st.thread.errInfo

/-! ## A protection takes the error -/

section

variable {cls : Classes} {klass : ClassId} {depth below : ℕ} {info : ErrTagInfo}
  {errInfo : List ErrTagInfo} {frames : List CallFrame} {th : Thread}

theorem findErrTag_mem (h : findErrTag cls klass errInfo = some (info, below)) :
    info ∈ errInfo ∧ info.accepts cls klass := by
  induction errInfo with
  | nil => cases h
  | cons e prev ih =>
    rw [findErrTag] at h
    split at h <;> rename_i haccepts
    · cases h
      exact ⟨List.mem_cons_self, haccepts⟩
    · exact ⟨List.mem_cons_of_mem _ (ih h).1, (ih h).2⟩

/-- In the protection's own frame it is the one that is due. -/
theorem dueProtection_of_findErrTag (hwf : ErrInfoWf depth errInfo)
    (h : findErrTag cls klass errInfo = some (info, below)) (hframe : info.frame = depth) :
    dueProtection cls klass depth errInfo = some below := by
  induction errInfo with
  | nil => cases h
  | cons e prev ih =>
    have hprev : ErrInfoWf depth prev :=
      ⟨(List.pairwise_cons.mp hwf.sorted).2, fun e he => hwf.bounded e (List.mem_cons_of_mem _ he)⟩
    have hmem := (findErrTag_mem h).1
    have he : e.frame = depth := by
      apply Nat.le_antisymm (hwf.bounded e List.mem_cons_self).2
      rcases List.mem_cons.mp hmem with rfl | hmem
      · exact Nat.le_of_eq hframe.symm
      · exact hframe ▸ (List.pairwise_cons.mp hwf.sorted).1 info hmem
    rw [findErrTag] at h
    rw [dueProtection, if_pos he]
    split at h <;> rename_i haccepts
    · cases h
      rw [if_pos haccepts]
    · rw [if_neg haccepts]
      exact ih hprev h

/-- In a frame above there is none, and the frame can be popped. -/
theorem findErrTag_popFrame (h : findErrTag cls klass errInfo = some (info, below))
    (hframe : info.frame ≠ depth) :
    dueProtection cls klass depth errInfo = none ∧
      findErrTag cls klass (errInfo.dropWhile (·.frame == depth)) = some (info, below) := by
  induction errInfo with
  | nil => cases h
  | cons e prev ih =>
    by_cases he : e.frame = depth
    · rw [findErrTag] at h
      split at h <;> rename_i haccepts
      · cases h
        exact absurd he hframe
      · rw [dueProtection, if_pos he, if_neg haccepts, List.dropWhile_cons_of_pos (by simpa using he)]
        exact ih h
    · rw [dueProtection, if_neg he, List.dropWhile_cons_of_neg (by simpa using he)]
      exact ⟨rfl, h⟩

/-- With no protection for the class there is none in any frame. -/
theorem findErrTag_none_popFrame (depth : ℕ) (h : findErrTag cls klass errInfo = none) :
    dueProtection cls klass depth errInfo = none ∧
      findErrTag cls klass (errInfo.dropWhile (·.frame == depth)) = none := by
  induction errInfo with
  | nil => exact ⟨rfl, rfl⟩
  | cons e prev ih =>
    rw [findErrTag] at h
    split at h <;> rename_i haccepts
    · cases h
    · by_cases he : e.frame = depth
      · rw [dueProtection, if_pos he, if_neg haccepts, List.dropWhile_cons_of_pos (by simpa using he)]
        exact ih h
      · rw [dueProtection, if_neg he, List.dropWhile_cons_of_neg (by simpa using he), findErrTag,
          if_neg haccepts]
        exact ⟨rfl, h⟩

/-- The protection that is found is the innermost handler exactly when no try comes first. -/
theorem innermost_eq_protection_iff (hwf : ErrInfoWf frames.length th.errInfo)
    (h : findErrTag cls klass th.errInfo = some (info, below)) :
    innermost cls klass frames th = some (.protection info.frame below) ↔
      Unguarded cls klass info.frame frames th := by
  induction frames generalizing th with
  | nil =>
    have hbound := hwf.bounded info (findErrTag_mem h).1
    simp only [List.length_nil] at hbound
    omega
  | cons f rest ih =>
    rw [innermost, Unguarded]
    cases hdue : (if f.isCCall then none else dueRow cls klass f th) with
    | some i =>
      constructor
      · intro heq
        cases heq
      · rintro ⟨hf | hf, _⟩
        · rw [if_pos hf] at hdue
          cases hdue
        · rw [hf] at hdue
          split at hdue <;> cases hdue
    | none =>
      have hf : f.isCCall ∨ dueRow cls klass f th = none := by
        split at hdue <;> rename_i hf
        · exact .inl hf
        · exact .inr hdue
      by_cases hframe : info.frame = rest.length + 1
      · have hdp := dueProtection_of_findErrTag hwf h hframe
        simp only [List.length_cons] at hdp
        simp only [hdp, hframe, hf, true_or, and_self]
      · rcases findErrTag_popFrame h hframe with ⟨hdp, hpop⟩
        simp only [hdp]
        rw [@ih (th.popFrame f (rest.length + 1)) hwf.popFrame hpop]
        simp only [hf, true_and, Ne.symm hframe, false_or]

theorem unwindTo_frames (hpos : 1 ≤ depth) (hle : depth ≤ frames.length) :
    (unwindTo depth frames th).1 = frames.drop (frames.length - depth) := by
  induction frames generalizing th with
  | nil => exact absurd (Nat.le_trans hpos hle) (Nat.not_succ_le_zero 0)
  | cons f rest ih =>
    rw [unwindTo]
    simp only [List.length_cons] at hle ⊢
    split <;> rename_i hdepth
    · rw [hdepth, Nat.sub_self]
      rfl
    · rw [ih (by omega), Nat.sub_add_comm (by omega), List.drop_succ_cons]

end

/-! ## The frames are searched -/

section

variable {cls : Classes} {klass : ClassId} {off depth i : ℕ} {frames rest : List CallFrame}
  {f : CallFrame} {th : Thread} {h : Handler}

theorem popCCalls_frames : (popCCalls frames th).1 = frames.dropWhile (·.isCCall) := by
  induction frames generalizing th with
  | nil => rfl
  | cons f rest ih =>
    rw [popCCalls]
    cases hf : f.isCCall with
    | true =>
      rw [if_pos rfl, ih, List.dropWhile_cons_of_pos hf]
    | false =>
      rw [if_neg Bool.false_ne_true, List.dropWhile_cons_of_neg (by simp [hf])]

/-- The handler the search finds. -/
def found (cls : Classes) (klass : ClassId) (off : ℕ) (frames : List CallFrame) (th : Thread) :
    Option Handler :=
  let r := findThrowJumpLoc cls klass off frames th
  r.1.map (.row r.2.1.length)

/-- What the search does in one frame. -/
theorem found_cons : found cls klass off (f :: rest) th =
    match findCatchRow cls th.crefStack.head? klass off (th.tables f.chunk) with
    | some i => some (.row ((f :: rest).dropWhile (·.isCCall)).length i)
    | none =>
      match findEnsureRow (th.tables f.chunk) with
      | some i =>
        if isEnsureRunning (th.tables f.chunk) i then
          found cls klass f.start rest (th.pass f (rest.length + 1))
        else some (.row ((f :: rest).dropWhile (·.isCCall)).length i)
      | none => found cls klass f.start rest (th.pass f (rest.length + 1)) := by
  have hnext : ∀ th' : Thread,
      (let r := if rest.isEmpty then (none, [f], th')
        else findThrowJumpLoc cls klass f.start rest (th'.popFrame f (rest.length + 1))
      r.1.map (Handler.row r.2.1.length)) =
        found cls klass f.start rest (th'.popFrame f (rest.length + 1)) := by
    intro th'
    cases rest with
    | nil => rfl
    | cons g rest => rfl
  rw [found, findThrowJumpLoc]
  cases findCatchRow cls th.crefStack.head? klass off (th.tables f.chunk) with
  | some i => simp only [Option.map_some, popCCalls_frames]
  | none =>
    unfold Thread.pass
    cases findEnsureRow (th.tables f.chunk) with
    | some i =>
      dsimp only
      split
      · exact hnext _
      · simp only [Option.map_some, popCCalls_frames]
    | none => exact hnext _

/-- The frame of the handler is one of the frames. -/
theorem found_frame_le (h' : found cls klass off frames th = some h) : h.frame ≤ frames.length := by
  induction frames generalizing off th with
  | nil => cases h'
  | cons f rest ih =>
    have hdrop : ((f :: rest).dropWhile (·.isCCall)).length ≤ (f :: rest).length :=
      (List.dropWhile_sublist _).length_le
    rw [found_cons] at h'
    split at h'
    · cases h'
      exact hdrop
    · split at h'
      · split at h'
        · exact Nat.le_succ_of_le (ih h')
        · cases h'
          exact hdrop
      · exact Nat.le_succ_of_le (ih h')

theorem innermost_frame_le (h' : innermost cls klass frames th = some h) :
    h.frame ≤ frames.length := by
  induction frames generalizing th with
  | nil => cases h'
  | cons f rest ih =>
    rw [innermost] at h'
    split at h'
    · cases h'
      exact Nat.le_refl _
    · split at h'
      · cases h'
        exact Nat.le_refl _
      · exact Nat.le_succ_of_le (ih h')

/-- Without protections the innermost handler is the row that is due below the native frames. -/
theorem innermost_of_dueBelow (hnone : findErrTag cls klass th.errInfo = none)
    (hdue : dueBelow cls klass frames th = some i) :
    innermost cls klass frames th = some (.row (frames.dropWhile (·.isCCall)).length i) := by
  induction frames generalizing th with
  | nil => cases hdue
  | cons f rest ih =>
    rw [dueBelow] at hdue
    rw [innermost]
    split at hdue <;> rename_i hf
    · rcases findErrTag_none_popFrame (rest.length + 1) hnone with ⟨hdp, hpop⟩
      rw [if_pos hf, hdp, List.dropWhile_cons_of_pos hf]
      exact ih hpop hdue
    · rw [if_neg hf, hdue, List.dropWhile_cons_of_neg hf]
      rfl

theorem innermost_lt_of_dueBelow (hnone : findErrTag cls klass th.errInfo = none)
    (hdue : dueBelow cls klass frames th = none) (h' : innermost cls klass frames th = some h) :
    h.frame < (frames.dropWhile (·.isCCall)).length := by
  induction frames generalizing th with
  | nil => cases h'
  | cons f rest ih =>
    rcases findErrTag_none_popFrame (rest.length + 1) hnone with ⟨hdp, hpop⟩
    rw [dueBelow] at hdue
    rw [innermost] at h'
    split at hdue <;> rename_i hf
    · rw [if_pos hf, hdp] at h'
      rw [List.dropWhile_cons_of_pos hf]
      exact ih hpop hdue h'
    · rw [if_neg hf, hdue, hdp] at h'
      rw [List.dropWhile_cons_of_neg hf]
      exact Nat.lt_succ_of_le (innermost_frame_le h')

theorem innermost_of_not_due (hnone : findErrTag cls klass th.errInfo = none)
    (hdue : dueBelow cls klass (f :: rest) th = none) : innermost cls klass (f :: rest) th =
      innermost cls klass rest (th.popFrame f (rest.length + 1)) := by
  rw [dueBelow] at hdue
  rw [innermost, (findErrTag_none_popFrame _ hnone).1]
  split at hdue <;> rename_i hf
  · rw [if_pos hf]
  · rw [if_neg hf, hdue]

/-! ### Rows and their flags -/

theorem findIdx?_modify {α : Type} {p : α → Bool} {g : α → α} {l : List α} {j : ℕ}
    (hg : ∀ a, p (g a) = p a) : (l.modify j g).findIdx? p = l.findIdx? p := by
  induction l generalizing j with
  | nil => cases j <;> rfl
  | cons a l ih =>
    cases j with
    | zero => simp only [List.modify_zero_cons, List.findIdx?_cons, hg]
    | succ j => simp only [List.modify_succ_cons, List.findIdx?_cons, ih]

theorem findEnsureRow_modify {rows : List CatchTable} {j : ℕ} {g : CatchTable → CatchTable}
    (hg : ∀ row, (g row).isEnsure = row.isEnsure) :
    findEnsureRow (rows.modify j g) = findEnsureRow rows := by
  have hidxs : ∀ s : ℕ, (rows.modify j g).findIdxs (·.isEnsure) s =
      rows.findIdxs (·.isEnsure) s := by
    induction rows generalizing j with
    | nil => cases j <;> simp
    | cons row rows ih =>
      intro s
      cases j with
      | zero => simp only [List.modify_zero_cons, List.findIdxs_cons, hg]
      | succ j => simp only [List.modify_succ_cons, List.findIdxs_cons, ih]
  rw [findEnsureRow, findEnsureRow, hidxs]

/-- The handlers do not depend on which ensure blocks are running. -/
theorem innermost_setEnsureRunning (c j : ℕ) (b : Bool) :
    innermost cls klass frames (th.setEnsureRunning c j b) = innermost cls klass frames th := by
  induction frames generalizing th with
  | nil => rfl
  | cons f rest ih =>
    have hdue : dueRow cls klass f (th.setEnsureRunning c j b) = dueRow cls klass f th := by
      unfold dueRow Thread.setEnsureRunning
      by_cases hc : f.chunk = c
      · subst hc
        rw [Thread.tables_modifyRow]
        exact findIdx?_modify fun row => rfl
      · rw [Thread.tables_modifyRow_of_ne _ _ _ hc]
        rfl
    rw [innermost, innermost, hdue]
    have hrest := @ih (th.popFrame f (rest.length + 1))
    simp only [← hrest]
    rfl

theorem findCatchRow_zero {cref : Option ClassId} {rows : List CatchTable} :
    findCatchRow cls cref klass 0 rows = none := by
  apply List.findIdx?_eq_none_iff.mpr
  intro row _
  simp [CatchTable.guards]

theorem findCatchRow_spec {cref : Option ClassId} {rows : List CatchTable}
    (hi : findCatchRow cls cref klass off rows = some i) :
    (rows[i]?).any (·.isEnsure) = false := by
  rcases List.findIdx?_eq_some_iff_getElem.mp hi with ⟨hlt, hp, _⟩
  rw [List.getElem?_eq_getElem hlt]
  simp only [Bool.and_eq_true, Bool.not_eq_true'] at hp
  exact hp.1.1

theorem findEnsureRow_spec {rows : List CatchTable} (hi : findEnsureRow rows = some i) :
    ∃ row, rows[i]? = some row ∧ row.isEnsure = true := by
  have hmem := List.mem_of_getLast? hi
  rcases List.mem_findIdxs_iff_exists_getElem_pos.mp hmem with ⟨hlt, hp⟩
  exact ⟨rows[i], List.getElem?_eq_getElem hlt, hp⟩

/-- Below a native frame with a running ensure block, the block is run again. -/
theorem found_of_native_running (hwf : NativeWf (f :: rest)) (hf : f.isCCall = true)
    (hi : findEnsureRow (th.tables f.chunk) = some i) (d : ℕ) :
    found cls klass f.start rest (th.pass f d) =
      some (.row (rest.dropWhile (·.isCCall)).length i) := by
  rcases hwf.1 hf with ⟨hstart, g, rest', rfl, hchunk⟩
  have htable : (th.pass f d).tables g.chunk =
      (th.tables f.chunk).modify i fun row => { row with isEnsureRunning := false } := by
    rw [hchunk, Thread.pass, hi]
    exact th.tables_modifyRow ..
  have hi' : findEnsureRow ((th.tables f.chunk).modify i
      fun row => { row with isEnsureRunning := false }) = some i := by
    rw [← hi]
    exact findEnsureRow_modify fun row => rfl
  have hdone : isEnsureRunning ((th.tables f.chunk).modify i
      fun row => { row with isEnsureRunning := false }) i = false := by
    rcases findEnsureRow_spec hi with ⟨row, hrow, _⟩
    simp [isEnsureRunning, hrow]
  rw [found_cons, hstart, findCatchRow_zero, htable, hi']
  dsimp only
  rw [hdone, if_neg Bool.false_ne_true]

/-- Below a native frame without ensure blocks the search goes on further out. -/
theorem found_lt_of_native (hwf : NativeWf (f :: rest)) (hf : f.isCCall = true)
    (hi : findEnsureRow (th.tables f.chunk) = none) {d : ℕ}
    (h' : found cls klass f.start rest (th.pass f d) = some h) :
    h.frame < (rest.dropWhile (·.isCCall)).length := by
  induction rest generalizing f th d with
  | nil => cases h'
  | cons g rest ih =>
    rcases hwf.1 hf with ⟨hstart, g', rest', heq, hchunk⟩
    cases heq
    have htable : (th.pass f d).tables g.chunk = th.tables f.chunk := by
      rw [hchunk, Thread.pass, hi]
      rfl
    rw [found_cons, hstart, findCatchRow_zero, htable, hi] at h'
    cases hg : g.isCCall with
    | true =>
      rw [List.dropWhile_cons_of_pos hg]
      exact ih hwf.2 hg (htable ▸ hi) h'
    | false =>
      rw [List.dropWhile_cons_of_neg (by simp [hg])]
      exact Nat.lt_succ_of_le (found_frame_le h')

theorem errInfo_pass (d : ℕ) : (th.pass f d).errInfo = (th.popFrame f d).errInfo := by
  unfold Thread.pass
  split <;> rfl

/-- Passing a frame is popping it, as far as the handlers are concerned. -/
theorem innermost_pass (d : ℕ) : innermost cls klass frames (th.pass f d) =
    innermost cls klass frames (th.popFrame f d) := by
  unfold Thread.pass
  split
  · exact @innermost_setEnsureRunning cls klass frames (th.popFrame f d) _ _ _
  · rfl

/-- The search does not come back to the frame it has passed, unless there is an ensure block and
the frame is native. -/
theorem found_ne_of_pass (hwf : NativeWf (f :: rest)) (d : ℕ)
    (hf : f.isCCall = true → findEnsureRow (th.tables f.chunk) = none) :
    found cls klass f.start rest (th.pass f d) ≠
      some (.row ((f :: rest).dropWhile (·.isCCall)).length i) := by
  intro h'
  cases hnative : f.isCCall with
  | true =>
    rw [List.dropWhile_cons_of_pos hnative] at h'
    exact Nat.lt_irrefl _ (found_lt_of_native hwf hnative (hf hnative) h')
  | false =>
    rw [List.dropWhile_cons_of_neg (by simp [hnative])] at h'
    exact Nat.not_succ_le_self _ (found_frame_le h')

theorem row_inj {d i j : ℕ} : some (Handler.row d j) = some (Handler.row d i) ↔ j = i := by
  simp

/-- The row that is due is found. -/
theorem found_eq_due_iff (hwf : NativeWf (f :: rest)) :
    found cls klass off (f :: rest) th =
        some (.row ((f :: rest).dropWhile (·.isCCall)).length i) ↔
      let rows := th.tables f.chunk
      let caught := findCatchRow cls th.crefStack.head? klass off rows
      if (rows[i]?).any (·.isEnsure) then
        caught = none ∧ findEnsureRow rows = some i ∧ (isEnsureRunning rows i = false ∨ f.isCCall)
      else caught = some i := by
  rw [found_cons]
  dsimp only
  cases hcaught : findCatchRow cls th.crefStack.head? klass off (th.tables f.chunk) with
  | some j =>
    have hj := findCatchRow_spec hcaught
    dsimp only
    rw [row_inj]
    split <;> rename_i hi
    · refine iff_of_false ?_ (by simp)
      rintro rfl
      rw [hj] at hi
      cases hi
    · simp
  | none =>
    cases hens : findEnsureRow (th.tables f.chunk) with
    | none =>
      refine iff_of_false (found_ne_of_pass hwf _ fun _ => hens) ?_
      split <;> simp
    | some j =>
      have hj : ((th.tables f.chunk)[j]?).any (·.isEnsure) = true := by
        rcases findEnsureRow_spec hens with ⟨row, hrow, hrow'⟩
        simp [hrow, hrow']
      -- the block is run exactly when it is the one that is due
      have hiff : ∀ P : Prop, (j = i → P) → (j = i ↔
          if ((th.tables f.chunk)[i]?).any (·.isEnsure) then
            (none : Option ℕ) = none ∧ some j = some i ∧ P
          else (none : Option ℕ) = some i) := by
        intro P hP
        constructor
        · rintro rfl
          rw [if_pos hj]
          exact ⟨rfl, rfl, hP rfl⟩
        · intro h'
          split at h'
          · exact Option.some.inj h'.2.1
          · cases h'
      cases hrun : isEnsureRunning (th.tables f.chunk) j with
      | false =>
        dsimp only
        rw [hrun, if_neg Bool.false_ne_true, row_inj]
        exact hiff _ fun hji => .inl (hji ▸ hrun)
      | true =>
        dsimp only
        rw [hrun, if_pos rfl]
        cases hf : f.isCCall with
        | true =>
          rw [found_of_native_running hwf hf hens, List.dropWhile_cons_of_pos hf, row_inj]
          exact hiff _ fun _ => .inr rfl
        | false =>
          refine iff_of_false (found_ne_of_pass hwf _ fun hf' => ?_) ?_
          · rw [hf] at hf'
            cases hf'
          · split
            · rintro ⟨_, hji, hnot | hnot⟩
              · cases hji
                rw [hrun] at hnot
                cases hnot
              · cases hnot
            · simp

/-- Where nothing is due the search goes on with the next frame. -/
theorem found_eq_of_not_due (hwf : NativeWf (f :: rest)) {r : Option Handler}
    (hlt : ∀ h, r = some h → h.frame < ((f :: rest).dropWhile (·.isCCall)).length) :
    found cls klass off (f :: rest) th = r ↔
      let rows := th.tables f.chunk
      findCatchRow cls th.crefStack.head? klass off rows = none ∧
        (∀ i, findEnsureRow rows = some i → isEnsureRunning rows i ∧ f.isCCall = false) ∧
        found cls klass f.start rest (th.pass f (rest.length + 1)) = r := by
  have hne : ∀ i, some (.row ((f :: rest).dropWhile (·.isCCall)).length i) ≠ r := by
    rintro i rfl
    exact Nat.lt_irrefl _ (hlt _ rfl)
  rw [found_cons]
  dsimp only
  cases hcaught : findCatchRow cls th.crefStack.head? klass off (th.tables f.chunk) with
  | some j => simpa using hne j
  | none =>
    cases hens : findEnsureRow (th.tables f.chunk) with
    | none => simp
    | some j =>
      cases hrun : isEnsureRunning (th.tables f.chunk) j with
      | false => simpa [hrun] using hne j
      | true =>
        cases hf : f.isCCall with
        | true =>
          have hfound : found cls klass f.start rest (th.pass f (rest.length + 1)) =
              some (.row ((f :: rest).dropWhile (·.isCCall)).length j) := by
            rw [List.dropWhile_cons_of_pos hf]
            exact found_of_native_running hwf hf hens _
          simpa [hrun, hfound] using hne j
        | false => simp [hrun]

/-- Without protections the search finds the innermost handler exactly when nothing misleads
it. -/
theorem found_eq_innermost_iff (hwf : NativeWf frames)
    (hnone : findErrTag cls klass th.errInfo = none) :
    found cls klass off frames th = innermost cls klass frames th ↔
      Undisturbed cls klass off frames th := by
  induction frames generalizing off th with
  | nil => exact iff_of_true rfl trivial
  | cons f rest ih =>
    have hpop := (findErrTag_none_popFrame (rest.length + 1) hnone).2
    have hrest := @ih f.start (th.pass f (rest.length + 1)) hwf.2
      (by rw [errInfo_pass]; exact hpop)
    rw [innermost_pass] at hrest
    rw [Undisturbed]
    cases hdue : dueBelow cls klass (f :: rest) th with
    | some i =>
      rw [innermost_of_dueBelow hnone hdue]
      exact found_eq_due_iff hwf
    | none =>
      have hlt := fun h => innermost_lt_of_dueBelow (h := h) hnone hdue
      rw [found_eq_of_not_due hwf hlt]
      refine and_congr Iff.rfl (and_congr_right fun hens => ?_)
      rw [← hrest, innermost_of_not_due hnone hdue]

/-! ### The frames that are left -/

/-- What unwinding does: it pops a frame, or marks an ensure block as running or done. -/
inductive Unwinds : List CallFrame × Thread → List CallFrame × Thread → Prop
  | pop (f : CallFrame) (rest : List CallFrame) (th : Thread) :
      Unwinds (f :: rest, th) (rest, th.popFrame f (rest.length + 1))
  | mark (frames : List CallFrame) (th : Thread) (c j : ℕ) (b : Bool) :
      Unwinds (frames, th) (frames, th.setEnsureRunning c j b)

theorem popCCalls_unwinds : ReflTransGen Unwinds (frames, th) (popCCalls frames th) := by
  induction frames generalizing th with
  | nil => exact .refl
  | cons f rest ih =>
    rw [popCCalls]
    split
    · exact .head (.pop f rest th) ih
    · exact .refl

theorem unwindTo_unwinds : ReflTransGen Unwinds (frames, th) (unwindTo depth frames th) := by
  induction frames generalizing th with
  | nil => exact .refl
  | cons f rest ih =>
    rw [unwindTo]
    split
    · exact .refl
    · exact .head (.pop f rest th) ih

theorem findThrowJumpLoc_unwinds :
    ReflTransGen Unwinds (frames, th) (findThrowJumpLoc cls klass off frames th).2 := by
  induction frames generalizing off th with
  | nil => exact .refl
  | cons f rest ih =>
    have hnext : ∀ th' : Thread, ReflTransGen Unwinds (f :: rest, th')
        (if rest.isEmpty then (none, [f], th')
          else findThrowJumpLoc cls klass f.start rest (th'.popFrame f (rest.length + 1))).2 := by
      intro th'
      split <;> rename_i hrest
      · rw [List.isEmpty_iff.mp hrest]
      · exact .head (.pop f rest th') ih
    rw [findThrowJumpLoc]
    split
    · exact popCCalls_unwinds
    · split
      · split
        · exact .head (.mark _ _ _ _ _) (hnext _)
        · exact popCCalls_unwinds.tail (.mark _ _ _ _ _)
      · exact hnext _

theorem NativeWf.of_suffix {frames' : List CallFrame} (hwf : NativeWf frames)
    (h : frames' <:+ frames) : NativeWf frames' := by
  induction frames with
  | nil =>
    rw [List.suffix_nil.mp h]
    trivial
  | cons f rest ih =>
    rcases List.suffix_cons_iff.mp h with rfl | h
    · exact hwf
    · exact ih hwf.2 h

theorem unwinds_spec {p q : List CallFrame × Thread} (h : ReflTransGen Unwinds p q) :
    q.1 <:+ p.1 ∧ (∀ c, (q.2.tables c).map (·.itarget) = (p.2.tables c).map (·.itarget)) ∧
      (ErrInfoWf p.1.length p.2.errInfo → ErrInfoWf q.1.length q.2.errInfo) := by
  induction h with
  | refl => exact ⟨List.suffix_refl _, fun _ => rfl, id⟩
  | tail _ hstep ih =>
    rcases ih with ⟨hsuffix, htables, hwf⟩
    cases hstep with
    | pop f rest th =>
      exact ⟨(List.suffix_cons ..).trans hsuffix, htables, fun h => (hwf h).popFrame⟩
    | mark frames th c j b =>
      refine ⟨hsuffix, fun c' => (htables c').symm ▸ ?_, hwf⟩
      by_cases hc : c' = c
      · subst hc
        rw [Thread.setEnsureRunning, Thread.tables_modifyRow]
        apply List.ext_getElem?
        intro k
        rw [List.getElem?_map, List.getElem?_map, List.getElem?_modify]
        cases (th.tables c')[k]? with
        | none => rfl
        | some row => by_cases hk : j = k <;> simp [hk]
      · rw [Thread.setEnsureRunning, Thread.tables_modifyRow_of_ne _ _ _ hc]

end

/-! ## Every throw -/

section

variable {cls : Classes} {st : State}

/-- The handler `throwError` jumps to. -/
theorem handler_throwErr (cls : Classes) (st : State) (err : Err) :
    (throwErr cls err st).handler =
    match findErrTag cls err.klass st.thread.errInfo with
    | some (info, below) => some (.protection info.frame below)
    | none => found cls err.klass ((st.frames.head?.map (·.ip)).getD 0) st.frames st.thread := by
  unfold throwErr found
  cases findErrTag cls err.klass st.thread.errInfo with
  | some p => rfl
  | none =>
    dsimp only
    split <;> rename_i h <;> rw [h] <;> rfl

/-- The frames above the handler are popped, each once. -/
theorem frames_throwErr (hwf : st.Wf) {err : Err} {h : Handler}
    (hh : (throwErr cls err st).handler = some h) :
    (throwErr cls err st).state.frames = st.framesAt h := by
  unfold throwErr at hh ⊢
  cases htag : findErrTag cls err.klass st.thread.errInfo with
  | some p =>
    rw [htag] at hh
    cases hh
    have hbound := hwf.errInfo.bounded p.1 (findErrTag_mem htag).1
    exact unwindTo_frames hbound.1 hbound.2
  | none =>
    rw [htag] at hh
    dsimp only at hh ⊢
    cases hr : findThrowJumpLoc cls err.klass ((st.frames.head?.map (·.ip)).getD 0) st.frames
      st.thread with
    | mk found left =>
      rcases left with ⟨left, th⟩
      rw [hr] at hh
      cases found with
      | none => cases hh
      | some i =>
        cases hh
        have hunwinds : ReflTransGen Unwinds (st.frames, st.thread) (some i, left, th).2 :=
          hr ▸ findThrowJumpLoc_unwinds
        rcases unwinds_spec hunwinds with ⟨hsuffix, htables, _⟩
        dsimp only at hsuffix htables ⊢
        rw [State.framesAt, ← List.suffix_iff_eq_drop.mp hsuffix]
        cases left with
        | nil => rfl
        | cons f rest =>
          have hi : ((th.tables f.chunk)[i]?).map (·.itarget) =
              ((st.thread.tables f.chunk)[i]?).map (·.itarget) := by
            rw [← List.getElem?_map, htables, List.getElem?_map]
          simp only [resumeAt, hi]

theorem dropWhile_isCCall_ne_nil {f : CallFrame} {rest : List CallFrame}
    (hwf : NativeWf (f :: rest)) : (f :: rest).dropWhile (·.isCCall) ≠ [] := by
  induction rest generalizing f with
  | nil =>
    cases hf : f.isCCall with
    | true =>
      rcases (hwf.1 hf).2 with ⟨g, rest', heq, _⟩
      cases heq
    | false => simp [hf]
  | cons g rest ih =>
    cases hf : f.isCCall with
    | true =>
      rw [List.dropWhile_cons_of_pos hf]
      exact ih hwf.2
    | false => simp [hf]

theorem found_frame_pos {klass : ClassId} {off : ℕ} {frames : List CallFrame} {th : Thread}
    {h : Handler} (hwf : NativeWf frames) (h' : found cls klass off frames th = some h) :
    1 ≤ h.frame := by
  induction frames generalizing off th with
  | nil => cases h'
  | cons f rest ih =>
    have hpos : 1 ≤ ((f :: rest).dropWhile (·.isCCall)).length :=
      List.length_pos_of_ne_nil (dropWhile_isCCall_ne_nil hwf)
    rw [found_cons] at h'
    split at h'
    · cases h'
      exact hpos
    · split at h'
      · split at h'
        · exact ih hwf.2 h'
        · cases h'
          exact hpos
      · exact ih hwf.2 h'

theorem resumeAt_wf {err : Err} {i : ℕ} {frames : List CallFrame} {th : Thread}
    (hnative : NativeWf frames) (hpos : frames ≠ []) (herr : ErrInfoWf frames.length th.errInfo) :
    (resumeAt err i frames th).Wf := by
  cases frames with
  | nil => exact absurd rfl hpos
  | cons f rest => exact ⟨⟨hnative.1, hnative.2⟩, by simp [resumeAt], herr⟩

theorem throwErr_wf (hwf : st.Wf) {err : Err} (hh : (throwErr cls err st).handler ≠ none) :
    (throwErr cls err st).state.Wf := by
  have hhandler := handler_throwErr cls st err
  unfold throwErr at hh ⊢
  cases htag : findErrTag cls err.klass st.thread.errInfo with
  | some p =>
    have hbound := hwf.errInfo.bounded p.1 (findErrTag_mem htag).1
    have hframes := @unwindTo_frames _ _ st.thread hbound.1 hbound.2
    have hunwinds : ReflTransGen Unwinds (st.frames, st.thread)
        (unwindTo p.1.frame st.frames st.thread) := unwindTo_unwinds
    rcases unwinds_spec hunwinds with ⟨hsuffix, _, herr⟩
    refine ⟨hwf.native.of_suffix hsuffix, ?_, ?_⟩
    · show (unwindTo p.1.frame st.frames st.thread).1 ≠ []
      rw [hframes]
      intro hnil
      have := List.drop_eq_nil_iff.mp hnil
      omega
    · have h := herr hwf.errInfo
      exact ⟨h.sorted.sublist (List.drop_sublist ..),
        fun e he => h.bounded e (List.mem_of_mem_drop he)⟩
  | none =>
    rw [htag] at hh hhandler
    dsimp only at hh hhandler ⊢
    cases hr : findThrowJumpLoc cls err.klass ((st.frames.head?.map (·.ip)).getD 0) st.frames
      st.thread with
    | mk i left =>
      rcases left with ⟨left, th⟩
      rw [hr] at hh
      cases i with
      | none => exact absurd rfl hh
      | some i =>
        have hunwinds : ReflTransGen Unwinds (st.frames, st.thread) (some i, left, th).2 :=
          hr ▸ findThrowJumpLoc_unwinds
        rcases unwinds_spec hunwinds with ⟨hsuffix, _, herr⟩
        have hpos : 1 ≤ left.length := by
          apply found_frame_pos (h := .row left.length i) hwf.native
          rw [found, hr]
          rfl
        exact resumeAt_wf (hwf.native.of_suffix hsuffix) (List.length_pos_iff.mp hpos)
          (herr hwf.errInfo)

theorem Built.wf (h : Built cls st) : st.Wf := by
  induction h with
  | main chunk tables =>
    exact ⟨⟨nofun, trivial⟩, by simp, ⟨.nil, by simp⟩⟩
  | run ip hf _ ih => exact ⟨⟨fun h => ih.native.1 h, ih.native.2⟩, by simp, ih.errInfo⟩
  | call chunk ip klass hstart _ ih =>
    refine ⟨⟨nofun, ih.native⟩, by simp, ih.errInfo.sorted, fun e he => ?_⟩
    have := ih.errInfo.bounded e he
    exact ⟨this.1, Nat.le_succ_of_le this.2⟩
  | callNative klass _ ih =>
    refine ⟨⟨fun _ => ⟨rfl, _, _, rfl, rfl⟩, ih.native⟩, by simp, ih.errInfo.sorted, fun e he => ?_⟩
    have := ih.errInfo.bounded e he
    exact ⟨this.1, Nat.le_succ_of_le this.2⟩
  | load chunk _ ih =>
    refine ⟨⟨nofun, ih.native⟩, by simp, ?_, ?_⟩
    · refine List.pairwise_cons.mpr ⟨fun e he => ?_, ih.errInfo.sorted⟩
      exact Nat.le_succ_of_le (ih.errInfo.bounded e he).2
    · intro e he
      rcases List.mem_cons.mp he with rfl | he
      · exact ⟨Nat.succ_pos _, Nat.le_refl _⟩
      · have := ih.errInfo.bounded e he
        exact ⟨this.1, Nat.le_succ_of_le this.2⟩
  | popFrame _ ih => exact ⟨ih.native.2, by simp, ih.errInfo.popFrame⟩
  | addErrInfo errClass _ ih =>
    refine ⟨ih.native, by simp, ?_, ?_⟩
    · exact List.pairwise_cons.mpr ⟨fun e he => (ih.errInfo.bounded e he).2, ih.errInfo.sorted⟩
    · intro e he
      rcases List.mem_cons.mp he with rfl | he
      · exact ⟨Nat.succ_pos _, Nat.le_refl _⟩
      · exact ih.errInfo.bounded e he
  | popErrInfo _ ih =>
    exact ⟨ih.native, by simp, ih.errInfo.sorted.sublist (List.tail_sublist _),
      fun e he => ih.errInfo.bounded e (List.mem_of_mem_tail he)⟩
  | unsetErrInfo _ ih =>
    exact ⟨ih.native, by simp, ih.errInfo.sorted.sublist (List.tail_sublist _),
      fun e he => ih.errInfo.bounded e (List.mem_of_mem_tail he)⟩
  | cref crefStack _ ih => exact ⟨ih.native, by simp, ih.errInfo⟩
  | chunks tables _ ih => exact ⟨ih.native, by simp, ih.errInfo⟩
  | throw err hh _ ih => exact throwErr_wf ih hh

/-- An error reaches the innermost handler exactly when the native protections and the frames
leave it to be found. -/
theorem Built.reachesInnermost_iff (h : Built cls st) (err : Err) :
    ReachesInnermost cls err st ↔ FindsInnermost cls err.klass st := by
  have hwf := h.wf
  have hhandler := handler_throwErr cls st err
  have hiff : (throwErr cls err st).handler = innermost cls err.klass st.frames st.thread ↔
      FindsInnermost cls err.klass st := by
    rw [hhandler, FindsInnermost]
    cases htag : findErrTag cls err.klass st.thread.errInfo with
    | some p => exact eq_comm.trans (innermost_eq_protection_iff hwf.errInfo htag)
    | none => exact found_eq_innermost_iff hwf.native htag
  constructor
  · intro hreach
    exact hiff.mp hreach.1
  · intro hfinds
    have heq := hiff.mpr hfinds
    exact ⟨heq, fun i hi => frames_throwErr hwf (heq.trans hi)⟩

end

/-! ## A try in a block -/

/-- `Error`, the class number 1. -/
def errorClass : Classes where
  findConstantUnder := fun _ name => if name = "Error" then some 1 else none
  isSubclass := fun klass ancestor => klass == ancestor

/-- The table of `try { .. } catch (Error) { .. }`. -/
def tryTable : List CatchTable := [{ ifrom := 0, ito := 10, itarget := 10, catchVal := "Error" }]

theorem tryTable_reachesInnermost :
    ReachesInnermost errorClass ⟨0, 1⟩
      ⟨[{ isCCall := false, chunk := 0, ip := 5, start := 0 }], { tables := fun _ => tryTable },
        none⟩ := by
  have hmain : Built errorClass _ := .main 0 fun _ => tryTable
  have hrun := hmain.run 5 rfl
  refine (hrun.reachesInnermost_iff ⟨0, 1⟩).mpr ?_
  exact (rfl : findCatchRow errorClass none 1 5 tryTable = some 0)

/-- The try is in a block that a native function yields to under its own protection. -/
theorem tryInBlock_skipped : ∃ cls st err, Built cls st ∧
    innermost cls err.klass st.frames st.thread = some (.row 3 0) ∧
    (throwErr cls err st).handler = some (.protection 2 0) ∧ ¬ ReachesInnermost cls err st := by
  have hmain : Built errorClass _ := .main 0 fun chunk => if chunk = 1 then tryTable else []
  have hnative := ((hmain.run 5 rfl).callNative none).addErrInfo (some 1)
  have hblock := (hnative.call 1 0 none (by decide)).run 5 rfl
  refine ⟨_, _, ⟨0, 1⟩, hblock, rfl, rfl, ?_⟩
  intro h
  have hhandler := h.1
  revert hhandler
  decide

end Clox.Throw
