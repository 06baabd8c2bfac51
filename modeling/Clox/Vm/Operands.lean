import Mathlib.Algebra.Ring.Nat
import Mathlib.Data.List.Basic

/-! # The operand stack at a handler

`longjmp` restores no operand stack: what is on it at a throw stays there, but
for what `popFrame` and `findThrowJumpLoc` take off with a frame. Heights are
counted from the start of the stack of the current execution context. The frames
of all contexts and the native protections stand in one list, as in `Activity`;
which frame's catch table the search stops at is not modelled, it may be any.
-/

namespace Clox.Operands

/-- What heights depend on of a `CallFrame`. -/
structure CallFrame where
  isCCall : Bool := false
  /-- A native frame has those of the frame that called it. -/
  slots : ℕ := 0
  stackAdjustOnPop : ℕ := 0
deriving DecidableEq, Repr

inductive Active where
  | frame (f : CallFrame)
  /-- A script or `eval` with its frame and protection, and `stackTop` of the context around it. -/
  | context (outerTop : ℕ)
  /-- `SETUP_BLOCK` or the `vm_protect` of `execStopRecursion`, with the height it was set up at. -/
  | protection (height : ℕ)
deriving DecidableEq, Repr

namespace Active

/-- It has an `ErrTagInfo`. -/
def isTag : Active → Bool
  | frame _ => false
  | context _ | protection _ => true

def isProtection : Active → Bool
  | protection _ => true
  | frame _ | context _ => false

def isCCall : Active → Bool
  | frame f => f.isCCall
  | context _ | protection _ => false

def slots : Active → ℕ
  | frame f => f.slots
  | context _ | protection _ => 0

def stackAdjustOnPop : Active → ℕ
  | frame f => f.stackAdjustOnPop
  | context _ | protection _ => 0

end Active

structure Stack where
  stackTop : ℕ
  /-- Innermost first. -/
  active : List Active
deriving DecidableEq, Repr

/-! ## Throwing -/

/-- `popFrame` takes the operands of a yield off the stack, if some are left under them. -/
def popFrame (f : CallFrame) (stackTop : ℕ) : ℕ :=
  if f.stackAdjustOnPop < stackTop then stackTop - f.stackAdjustOnPop else stackTop

/-- Where an error is caught. -/
inductive Handler where
  /-- A catch table of the frame with the slots. -/
  | row (slots : ℕ)
  | protection (height : ℕ)
deriving DecidableEq, Repr

/-- A handler starts. -/
structure Landed where
  handler : Handler
  stack : Stack
deriving DecidableEq, Repr

/-- `unwindJumpRecover` of the last protection, with `pop_EC` for that of a script or `eval`. -/
def unwindJumpRecover : ℕ → List Active → Option Landed
  | _, [] => none
  | stackTop, .frame f :: rest => unwindJumpRecover (popFrame f stackTop) rest
  | stackTop, .protection height :: rest => some ⟨.protection height, ⟨stackTop, rest⟩⟩
  | _, .context outerTop :: rest => some ⟨.protection outerTop, ⟨outerTop, rest⟩⟩

/-- `while (getFrame()->isCCall) popFrame();` -/
def popCCalls : ℕ → List Active → Option Landed
  | stackTop, .frame f :: rest =>
    if f.isCCall then popCCalls (popFrame f stackTop) rest
    else some ⟨.row f.slots, ⟨stackTop, .frame f :: rest⟩⟩
  | _, _ => none

/-- `findThrowJumpLoc` that stops after it has popped `n` frames. -/
def findThrowJumpLoc : ℕ → ℕ → List Active → Option Landed
  | 0, stackTop, active => popCCalls stackTop active
  | n + 1, _, .frame f :: rest => findThrowJumpLoc n (popFrame f f.slots) rest
  | _ + 1, _, _ => none

/-- `throwError`; `n` is for `findThrowJumpLoc`. -/
def throwErr (n : ℕ) (st : Stack) : Option Landed :=
  if st.active.any Active.isTag then unwindJumpRecover st.stackTop st.active
  else findThrowJumpLoc n st.stackTop st.active

/-! ## Steps -/

inductive Op where
  /-- Opcodes, or a native function, push and pop operands. -/
  | operands (stackTop : ℕ)
  /-- A closure is called, with the callee or receiver at `slots` and its parameters. -/
  | call (slots params : ℕ)
  | callNative
  /-- A native function pushes a closure with `argc` arguments and calls it as a block. The height of
  its protection is that below them. -/
  | yield (argc params : ℕ)
  /-- A protection of a native function that is not for a closure. -/
  | protect
  | protectEnd
  /-- A script or `eval` is run, which starts with `stackTop` operands. -/
  | load (stackTop : ℕ)
  | leave
  /-- A native function with `n` operands returns. -/
  | nativeReturn (n : ℕ)
  | opReturn
  | throw (n : ℕ)
deriving DecidableEq, Repr

namespace Stack

/-- The slots of the last frame. -/
def slots (st : Stack) : ℕ := ((st.active.find? fun a => !a.isProtection).map (·.slots)).getD 0

/-- One step; `none` where it is not possible. -/
def step (st : Stack) : Op → Option Stack
  | .operands stackTop => some { st with stackTop }
  | .call slots params =>
    some { stackTop := slots + 1 + params, active := .frame { slots } :: st.active }
  | .callNative =>
    some { st with active := .frame { isCCall := true, slots := st.slots } :: st.active }
  | .yield argc params =>
    let f : CallFrame := { slots := st.stackTop, stackAdjustOnPop := argc + 1 }
    some {
      stackTop := st.stackTop + 1 + params
      active := .frame f :: .protection st.stackTop :: st.active }
  | .protect => some { st with active := .protection st.stackTop :: st.active }
  | .protectEnd =>
    match st.active with
    | .protection _ :: rest => some { st with active := rest }
    | _ => none
  | .load stackTop => some { stackTop, active := .context st.stackTop :: st.active }
  | .leave =>
    match st.active with
    | .context outerTop :: rest => some { stackTop := outerTop, active := rest }
    | _ => none
  | .nativeReturn n =>
    match st.active.dropWhile Active.isProtection with
    | .frame f :: rest =>
      if f.isCCall then some { stackTop := st.stackTop - n + 1, active := rest } else none
    | _ => none
  | .opReturn =>
    match st.active with
    | .frame f :: rest =>
      if f.isCCall then none else some { stackTop := f.slots + 1, active := rest }
    | .context outerTop :: rest => some { stackTop := outerTop, active := rest }
    | _ => none
  | .throw n => (throwErr n st).map (·.stack)

end Stack

/-- The runs of a program. -/
inductive Run : Stack → Prop
  | init (stackTop : ℕ) : Run { stackTop, active := [.frame {}] }
  | step {st st' : Stack} (op : Op) (h : Run st) (hstep : st.step op = some st') : Run st'

/-! ## What handlers need -/

/-- The height the code of the handler was compiled for, with `locals` slots in use at its `try`
statement, or that its native function had. -/
def Handler.height (locals : ℕ) : Handler → ℕ
  | row slots => slots + locals
  | protection height => height

/-- The operands that `popFrame` takes off above the last protection. -/
def Stack.yielded (st : Stack) : ℕ :=
  let n := ((st.active.takeWhile fun a => !a.isTag).map (·.stackAdjustOnPop)).sum
  if n < st.stackTop then n else 0

/-- The height at the throw in the frame of the handler: that of the call that led to it, or at the
throw itself if only native functions were called. -/
def Stack.heightAt (n : ℕ) (st : Stack) : ℕ :=
  if n = 0 then st.stackTop else ((st.active[n - 1]?).map (·.slots)).getD 0

/-- Nothing is on the operand stack that the handler does not expect. -/
def Undisturbed (n locals : ℕ) (st : Stack) : Prop :=
  match st.active.find? Active.isTag with
  | some (.context _) => True
  | some (.protection height) => st.stackTop = height + st.yielded
  | _ => ∀ a ∈ (st.active.drop n).find? (!·.isCCall), st.heightAt n = a.slots + locals

/-! ## The invariant -/

/-- A frame that takes operands off stands on the protection of its block. -/
def Wf : List Active → Prop
  | [] => True
  | .frame f :: rest =>
    (f.stackAdjustOnPop ≠ 0 → ∃ height rest', rest = .protection height :: rest') ∧ Wf rest
  | _ :: rest => Wf rest

section

variable {st st' : Stack} {active rest : List Active} {stackTop n locals : ℕ} {r : Landed}

theorem Wf.tail {a : Active} (h : Wf (a :: rest)) : Wf rest := by
  cases a with
  | frame f => exact h.2
  | context outerTop => exact h
  | protection height => exact h

theorem Wf.suffix (hwf : Wf active) (h : rest <:+ active) : Wf rest := by
  induction active with
  | nil =>
    rw [List.suffix_nil.mp h]
    trivial
  | cons a active ih =>
    rcases List.suffix_cons_iff.mp h with rfl | h
    · exact hwf
    · exact ih hwf.tail h

theorem unwindJumpRecover_suffix (h : unwindJumpRecover stackTop active = some r) :
    r.stack.active <:+ active := by
  induction active generalizing stackTop with
  | nil => cases h
  | cons a rest ih =>
    cases a with
    | frame f => exact (ih h).trans (List.suffix_cons _ _)
    | context outerTop =>
      obtain rfl := Option.some.inj h
      exact List.suffix_cons _ _
    | protection height =>
      obtain rfl := Option.some.inj h
      exact List.suffix_cons _ _

theorem popCCalls_suffix (h : popCCalls stackTop active = some r) : r.stack.active <:+ active := by
  induction active generalizing stackTop with
  | nil => cases h
  | cons a rest ih =>
    cases a with
    | frame f =>
      rw [popCCalls] at h
      split at h
      · exact (ih h).trans (List.suffix_cons _ _)
      · obtain rfl := Option.some.inj h
        exact List.suffix_rfl
    | context outerTop => cases h
    | protection height => cases h

theorem findThrowJumpLoc_suffix (h : findThrowJumpLoc n stackTop active = some r) :
    r.stack.active <:+ active := by
  induction n generalizing stackTop active with
  | zero => exact popCCalls_suffix h
  | succ n ih =>
    cases active with
    | nil => cases h
    | cons a rest =>
      cases a with
      | frame f => exact (ih h).trans (List.suffix_cons _ _)
      | context outerTop => cases h
      | protection height => cases h

theorem throwErr_suffix (h : throwErr n st = some r) : r.stack.active <:+ st.active := by
  rw [throwErr] at h
  split at h
  · exact unwindJumpRecover_suffix h
  · exact findThrowJumpLoc_suffix h

theorem Wf.step (hwf : Wf st.active) {op : Op} (h : st.step op = some st') : Wf st'.active := by
  cases op with
  | operands stackTop =>
    obtain rfl := Option.some.inj h
    exact hwf
  | call slots params =>
    obtain rfl := Option.some.inj h
    exact ⟨by simp, hwf⟩
  | callNative =>
    obtain rfl := Option.some.inj h
    exact ⟨by simp, hwf⟩
  | yield argc params =>
    obtain rfl := Option.some.inj h
    exact ⟨fun _ => ⟨_, _, rfl⟩, hwf⟩
  | protect =>
    obtain rfl := Option.some.inj h
    exact hwf
  | protectEnd =>
    simp only [Stack.step] at h
    split at h
    · next hactive =>
      obtain rfl := Option.some.inj h
      rw [hactive] at hwf
      exact hwf
    · cases h
  | load stackTop =>
    obtain rfl := Option.some.inj h
    exact hwf
  | leave =>
    simp only [Stack.step] at h
    split at h
    · next hactive =>
      obtain rfl := Option.some.inj h
      rw [hactive] at hwf
      exact hwf
    · cases h
  | nativeReturn n =>
    simp only [Stack.step] at h
    split at h
    · next f rest hactive =>
      split at h
      · obtain rfl := Option.some.inj h
        have := hwf.suffix (List.dropWhile_suffix Active.isProtection)
        rw [hactive] at this
        exact this.tail
      · cases h
    · cases h
  | opReturn =>
    simp only [Stack.step] at h
    split at h
    · next f rest hactive =>
      split at h
      · cases h
      · obtain rfl := Option.some.inj h
        rw [hactive] at hwf
        exact hwf.tail
    · next hactive =>
      obtain rfl := Option.some.inj h
      rw [hactive] at hwf
      exact hwf
    · cases h
  | throw n =>
    simp only [Stack.step, Option.map_eq_some_iff] at h
    obtain ⟨r, hr, rfl⟩ := h
    exact hwf.suffix (throwErr_suffix hr)

theorem Run.wf (run : Run st) : Wf st.active := by
  induction run with
  | init stackTop => exact ⟨by simp, trivial⟩
  | step op _ hstep ih => exact ih.step hstep

/-! ## Landing -/

/-- Without protections no frame takes operands off. -/
theorem Wf.stackAdjustOnPop (hwf : Wf active) (htags : active.any Active.isTag = false) :
    ∀ a ∈ active, a.stackAdjustOnPop = 0 := by
  induction active with
  | nil => simp
  | cons a rest ih =>
    rw [List.any_cons, Bool.or_eq_false_iff] at htags
    intro b hb
    rcases List.mem_cons.mp hb with rfl | hb
    · cases b with
      | frame f =>
        by_contra hf
        obtain ⟨height, rest', rfl⟩ := hwf.1 hf
        simp [Active.isTag] at htags
      | context outerTop => rfl
      | protection height => rfl
    · exact ih hwf.tail htags.2 b hb

end

end Clox.Operands
