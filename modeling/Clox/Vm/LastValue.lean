import Mathlib.Data.List.Basic
import Mathlib.Logic.Function.Basic

/-! # The value of a block

`OP_BLOCK_CONTINUE` hands on what lies in the slot that was popped last on the
thread, by whatever popped it. The steps are those of the thread: the opcodes of
the block body, of what it calls, and of natives, as far as they touch the
operand stacks. Slots are addresses, so a step to another execution context is a
`setTop`. What the optimizer does to the code of an expression statement shows
in the step it is executed by: its `OP_POP` is merged with pops behind it, or its
constant is removed together with the pop.
-/

namespace Clox.LastValue

variable {V : Type}

/-- What lies in the slot that `lastValue` points to. -/
inductive Popped where
  /-- `lastValue` is `NULL`. -/
  | nothing
  /-- The value of the expression statement executed last in the innermost activation. -/
  | expression
  /-- The nil of an `OP_NIL`, `OP_POP` that stands for a value. -/
  | implicitNil
  /-- Anything popped otherwise, or written there later. -/
  | other
deriving DecidableEq, Repr

structure Thread (V : Type) where
  slots : ℕ → V
  stackTop : ℕ
  lastValue : Option ℕ := none
  /-- Ghost: for each activation the value of the expression statement executed last in it. -/
  lastExprs : List (Option V) := []
  /-- Ghost. -/
  popped : Popped := .nothing
  /-- Ghost: the values handed to yielding functions, and those that were due. -/
  handed : List (V × V) := []

inductive Step (V : Type) where
  | push (v : V)
  | pushSwap (v : V)
  /-- `OP_SET_LOCAL`, or `OP_SET_UPVALUE` through an open upvalue. -/
  | write (slot : ℕ) (v : V)
  | pop
  | popN (n : ℕ)
  /-- A return or an error sets `stackTop`. -/
  | setTop (n : ℕ)
  /-- The `OP_POP` of an expression statement, with `merged` pops that stood behind it. -/
  | exprStatement (merged : ℕ)
  /-- An expression statement whose `OP_CONSTANT`, `OP_POP` the optimizer removed. -/
  | exprRemoved (v : V)
  /-- `OP_NIL`, `OP_POP` of an empty body or of `continue`. -/
  | implicitNil
  | enter
  | leave
  | blockContinue
  /-- `OP_NIL`, `OP_RETURN` at the end of a function that is given as a block. -/
  | opReturn
deriving Repr

namespace Thread

variable (nil : V) (th : Thread V)

/-- The value of a slot changes. -/
def write (a : ℕ) (v : V) : Thread V :=
  { th with
    slots := Function.update th.slots a v
    popped := if th.lastValue = some a then .other else th.popped }

/-- `vm_push` -/
def push (v : V) : Thread V := { th.write th.stackTop v with stackTop := th.stackTop + 1 }

/-- `vm_popN`, and `vm_pop` for one value. -/
def popN (n : ℕ) (popped : Popped) : Thread V :=
  { th with
    stackTop := th.stackTop - n
    lastValue := some (th.stackTop - n)
    popped := popped }

/-- What `OP_BLOCK_CONTINUE` takes for the value of the block. -/
def ret : V :=
  match th.lastValue with
  | some a => th.slots a
  | none => nil

/-- Of the innermost activation. -/
def lastExpr : Option V := th.lastExprs.head?.join

def setLastExpr (v : V) : Thread V :=
  { th with lastExprs := some v :: th.lastExprs.tail }

/-- The value goes to the yielding function. -/
def handOver : Thread V :=
  { th with handed := (th.ret nil, th.lastExpr.getD nil) :: th.handed }

/-- Control is in another activation. -/
def moveTo (lastExprs : List (Option V)) : Thread V :=
  { th with
    lastExprs := lastExprs
    popped := if th.popped = .expression then .other else th.popped }

/-- `none` where an `ASSERT` fails, or there is no activation to leave. -/
def step : Step V → Option (Thread V)
  | .push v => some (th.push v)
  | .pushSwap v => if 0 < th.stackTop then some (th.write (th.stackTop - 1) v) else none
  | .write slot v => some (th.write slot v)
  | .pop => if 0 < th.stackTop then some (th.popN 1 .other) else none
  | .popN n => if n ≤ th.stackTop then some (th.popN n .other) else none
  | .setTop n => some { th with stackTop := n }
  | .exprStatement merged =>
    if merged + 1 ≤ th.stackTop then
      -- merged pops leave `lastValue` at the slot of the last of them
      some ((th.popN (merged + 1) (if merged = 0 then .expression else .other)).setLastExpr
        (th.slots (th.stackTop - 1)))
    else none
  | .exprRemoved v => some ({ th with popped := .other }.setLastExpr v)
  | .implicitNil => some ((th.push nil).popN 1 .implicitNil)
  | .enter => some (th.moveTo (none :: th.lastExprs))
  | .leave =>
    match th.lastExprs with
    | [] => none
    | _ :: outer => some (th.moveTo outer)
  | .blockContinue => some (th.handOver nil)
  | .opReturn => some (((th.push nil).popN 1 .implicitNil).handOver nil)

/-- The value of the expression statement executed last was popped last on the thread and is still in
its slot, or there is neither such a value nor another in the slot. -/
def Kept : Prop :=
  th.popped = .expression ∨
    (th.popped = .implicitNil ∨ th.popped = .nothing) ∧ th.lastExpr.isNone = true

instance : Decidable th.Kept :=
  inferInstanceAs (Decidable (th.popped = .expression ∨
    (th.popped = .implicitNil ∨ th.popped = .nothing) ∧ th.lastExpr.isNone = true))

/-- What a step has to meet for the value handed on to be that of the block. -/
def Keeps : Step V → Prop
  | .blockContinue => th.Kept
  | .opReturn => th.lastExpr.isNone = true
  | _ => True

end Thread

/-- Any steps of a thread from its start, as long as they meet `P`. -/
inductive Run (nil : V) (P : Thread V → Step V → Prop) : Thread V → Prop where
  | init (slots : ℕ → V) : Run nil P { slots := slots, stackTop := 0 }
  | step {th th' : Thread V} (st : Step V) :
      Run nil P th → P th st → th.step nil st = some th' → Run nil P th'

/-! ## What `lastValue` points to -/

/-- `popped` says what is in the slot. -/
def PointsTo (nil : V) (th : Thread V) : Prop :=
  match th.popped with
  | .nothing => th.lastValue = none
  | .expression => ∃ a, th.lastValue = some a ∧ th.lastExpr = some (th.slots a)
  | .implicitNil => ∃ a, th.lastValue = some a ∧ th.slots a = nil
  | .other => True

variable {nil : V} {th th' : Thread V}

theorem PointsTo.ret_eq (h : PointsTo nil th) (kept : th.Kept) :
    th.ret nil = th.lastExpr.getD nil := by
  obtain hexpr | ⟨hnil | hnothing, hnone⟩ := kept
  · rw [PointsTo, hexpr] at h
    obtain ⟨a, hlast, hval⟩ := h
    rw [Thread.ret, hlast, hval]
    rfl
  · rw [PointsTo, hnil] at h
    obtain ⟨a, hlast, hval⟩ := h
    rw [Thread.ret, hlast, Option.isNone_iff_eq_none.mp hnone]
    exact hval
  · rw [PointsTo, hnothing] at h
    rw [Thread.ret, h, Option.isNone_iff_eq_none.mp hnone]
    rfl

theorem PointsTo.write (h : PointsTo nil th) (a : ℕ) (v : V) : PointsTo nil (th.write a v) := by
  unfold Thread.write PointsTo
  by_cases hlast : th.lastValue = some a
  · simp [hlast]
  · -- the slot `lastValue` points to is another one
    have hother : ∀ b, th.lastValue = some b → Function.update th.slots a v b = th.slots b := by
      intro b hb
      apply Function.update_of_ne
      intro hba
      exact hlast (hba ▸ hb)
    simp only [if_neg hlast]
    unfold PointsTo at h
    split at h
    · simpa using h
    · obtain ⟨b, hb, hval⟩ := h
      exact ⟨b, hb, by rw [hother b hb]; exact hval⟩
    · obtain ⟨b, hb, hval⟩ := h
      exact ⟨b, hb, by rw [hother b hb]; exact hval⟩
    · trivial

theorem PointsTo.push (h : PointsTo nil th) (v : V) : PointsTo nil (th.push v) :=
  h.write th.stackTop v

/-- Leaving out an expression value that is another activation's. -/
theorem PointsTo.moveTo (h : PointsTo nil th) (lastExprs : List (Option V)) :
    PointsTo nil (th.moveTo lastExprs) := by
  unfold Thread.moveTo
  by_cases hexpr : th.popped = .expression
  · simp [PointsTo, hexpr]
  · unfold PointsTo at h ⊢
    simp only [if_neg hexpr]
    split at h
    · simp [*]
    · exact absurd ‹_› hexpr
    · simp [*]
    · simp [*]

theorem pointsTo_implicitNil (th : Thread V) :
    PointsTo nil ((th.push nil).popN 1 .implicitNil) :=
  ⟨th.stackTop, by simp [Thread.popN, Thread.push], by simp [Thread.popN, Thread.push, Thread.write]⟩

theorem PointsTo.step (h : PointsTo nil th) {st : Step V} (hst : th.step nil st = some th') :
    PointsTo nil th' := by
  cases st with
  | push v =>
    obtain rfl : th.push v = th' := by simpa [Thread.step] using hst
    exact h.push v
  | pushSwap v =>
    obtain ⟨-, rfl⟩ : 0 < th.stackTop ∧ th.write (th.stackTop - 1) v = th' := by
      simpa [Thread.step] using hst
    exact h.write _ v
  | write slot v =>
    obtain rfl : th.write slot v = th' := by simpa [Thread.step] using hst
    exact h.write slot v
  | pop =>
    obtain ⟨-, rfl⟩ : 0 < th.stackTop ∧ th.popN 1 .other = th' := by
      simpa [Thread.step] using hst
    trivial
  | popN n =>
    obtain ⟨-, rfl⟩ : n ≤ th.stackTop ∧ th.popN n .other = th' := by
      simpa [Thread.step] using hst
    trivial
  | setTop n =>
    obtain rfl : { th with stackTop := n } = th' := by simpa [Thread.step] using hst
    exact h
  | exprStatement merged =>
    simp only [Thread.step] at hst
    split at hst
    case isFalse => cases hst
    case isTrue htop =>
      cases hst
      by_cases hmerged : merged = 0
      · subst hmerged
        -- one pop: `lastValue` is the slot the value was in
        exact ⟨th.stackTop - 1, rfl, rfl⟩
      · simp [PointsTo, Thread.setLastExpr, Thread.popN, hmerged]
  | exprRemoved v =>
    obtain rfl : { th with popped := .other }.setLastExpr v = th' := by
      simpa [Thread.step] using hst
    trivial
  | implicitNil =>
    obtain rfl : (th.push nil).popN 1 .implicitNil = th' := by simpa [Thread.step] using hst
    exact pointsTo_implicitNil th
  | enter =>
    obtain rfl : th.moveTo (none :: th.lastExprs) = th' := by simpa [Thread.step] using hst
    exact h.moveTo _
  | leave =>
    simp only [Thread.step] at hst
    split at hst
    · cases hst
    · cases hst
      exact h.moveTo _
  | blockContinue =>
    obtain rfl : th.handOver nil = th' := by simpa [Thread.step] using hst
    exact h
  | opReturn =>
    obtain rfl : ((th.push nil).popN 1 .implicitNil).handOver nil = th' := by
      simpa [Thread.step] using hst
    exact pointsTo_implicitNil th

theorem Run.pointsTo {P : Thread V → Step V → Prop} (run : Run nil P th) : PointsTo nil th := by
  induction run with
  | init slots => exact rfl
  | step st _ _ hst ih => exact ih.step hst

/-! ## What is handed over -/

/-- All values handed over so far were those due. -/
def Handed (th : Thread V) : Prop := ∀ p ∈ th.handed, p.1 = p.2

/-- Only `OP_BLOCK_CONTINUE` and `OP_RETURN` hand a value over. -/
theorem Handed.step (handed : Handed th) (pointsTo : PointsTo nil th) {st : Step V}
    (keeps : th.Keeps st) (hst : th.step nil st = some th') : Handed th' := by
  have hsame : th'.handed = th.handed → Handed th' := by
    intro h p hp
    exact handed p (h ▸ hp)
  cases st with
  | blockContinue =>
    obtain rfl : th.handOver nil = th' := by simpa [Thread.step] using hst
    intro p hp
    obtain rfl | hp := List.mem_cons.mp hp
    · exact pointsTo.ret_eq keeps
    · exact handed p hp
  | opReturn =>
    obtain rfl : ((th.push nil).popN 1 .implicitNil).handOver nil = th' := by
      simpa [Thread.step] using hst
    intro p hp
    obtain rfl | hp := List.mem_cons.mp hp
    · exact (pointsTo_implicitNil th).ret_eq (.inr ⟨.inl rfl, keeps⟩)
    · exact handed p hp
  | pushSwap v | pop | popN n | exprStatement merged | leave =>
    simp only [Thread.step] at hst
    split at hst
    all_goals cases hst
    all_goals exact hsame rfl
  | push v | write slot v | setTop n | exprRemoved v | implicitNil | enter =>
    simp only [Thread.step] at hst
    cases hst
    exact hsame rfl

/-- In all runs in which nothing else is popped, and nothing is written to the slot, between the last
expression statement of a block and its end, its value is what the block hands over. -/
theorem Run.handed (run : Run nil Thread.Keeps th) : Handed th := by
  induction run with
  | init slots => simp [Handed]
  | step st run keeps hst ih => exact ih.step run.pointsTo keeps hst

/-- `[1].map() -> (b) { b + 1; };` with `OP_GET_LOCAL`, `OP_CONSTANT`, `OP_ADD`, `OP_POP`. -/
theorem mapBlock_handed :
    ∃ th : Thread (Option ℕ), Run none Thread.Keeps th ∧ Handed th ∧
      th.handed = [(some 2, some 2)] := by
  have native : Run (none : Option ℕ) Thread.Keeps _ :=
    .step .enter (.init fun _ => none) trivial rfl
  have block := native.step .enter trivial rfl
  have operands := (block.step (.push (some 1)) trivial rfl).step (.push (some 1)) trivial rfl
  have added := (operands.step .pop trivial rfl).step (.pushSwap (some 2)) trivial rfl
  have ended := (added.step (.exprStatement 0) trivial rfl).step .blockContinue (.inl rfl) rfl
  exact ⟨_, ended, ended.handed, rfl⟩

/-- `[1].map() -> (b) { b + 1; var y = 7; };`: the slot of the sum is the slot of `y`. -/
theorem varBehindStatement_handed :
    ∃ th : Thread (Option ℕ), Run none (fun _ _ => True) th ∧ ¬ Handed th := by
  have native : Run (none : Option ℕ) (fun _ _ => True) _ :=
    .step .enter (.init fun _ => none) trivial rfl
  have block := native.step .enter trivial rfl
  have operands := (block.step (.push (some 1)) trivial rfl).step (.push (some 1)) trivial rfl
  have added := (operands.step .pop trivial rfl).step (.pushSwap (some 2)) trivial rfl
  have declared := (added.step (.exprStatement 0) trivial rfl).step (.push (some 7)) trivial rfl
  have ended := declared.step .blockContinue trivial rfl
  refine ⟨_, ended, fun handed => ?_⟩
  have := handed (some 7, some 2) (List.mem_singleton.mpr rfl)
  cases this

end Clox.LastValue
