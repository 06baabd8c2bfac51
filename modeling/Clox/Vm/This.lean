import Mathlib.Data.List.Basic
import Mathlib.Tactic.SplitIfs

/-! # `this` and the constant scope

What the VM keeps of where the flow is: `v_thisStack`, `v_crefStack`, `thisObj`
and `inCCall` of a thread, with the frames whose `instance` and `klass` say what
`popFrame` pops. Beside them stands the stack of the constructs that were
entered and not left, each with the four as they were before it; the C function
of `Binding#eval` keeps the constant scope of its caller there. The frames of
all execution contexts are one list, without the limit `FRAMES_MAX`.

An error may land at any handler in the frames above the last script or `eval`,
which has a `vm_protect` for all errors; `lxObjectInstanceEval` sets `thisObj`
to the instance of its own frame, which it is, and is a script here.
-/

namespace Clox.This

abbrev Obj := ℕ

structure CallFrame where
  isCCall : Bool := false
  /-- `instance` -/
  inst : Option Obj := none
  klass : Option Obj := none
deriving DecidableEq, Repr

/-- Where a thread is. -/
structure Env where
  /-- Last pushed first, as is `crefStack`. -/
  thisStack : List Obj := []
  crefStack : List Obj := []
  thisObj : Option Obj := none
  inCCall : ℕ := 0
deriving DecidableEq, Repr

namespace Env

variable (e : Env)

def pushThis (this : Obj) : Env :=
  { e with thisStack := this :: e.thisStack, thisObj := some this }

def popThis : Env :=
  { e with thisStack := e.thisStack.tail, thisObj := e.thisStack.tail.head? }

def pushCref (klass : Obj) : Env := { e with crefStack := klass :: e.crefStack }

def popCref : Env := { e with crefStack := e.crefStack.tail }

/-- `doCallCallable` with the frame it pushes. -/
def pushFrame (f : CallFrame) : Env :=
  { thisStack := f.inst.toList ++ e.thisStack
    crefStack := f.klass.toList ++ e.crefStack
    thisObj := f.inst <|> e.thisObj
    inCCall := if f.isCCall then e.inCCall + 1 else e.inCCall }

def popFrame (f : CallFrame) : Env :=
  let e₁ : Env := if f.isCCall then { e with inCCall := e.inCCall - 1 } else e
  let e₂ := if f.klass.isSome then e₁.popCref else e₁
  if f.inst.isSome then e₂.popThis else e₂

variable (f : CallFrame)

theorem popFrame_thisStack :
    (e.popFrame f).thisStack = if f.inst.isSome then e.thisStack.tail else e.thisStack := by
  simp only [popFrame, popThis, popCref]
  split_ifs <;> rfl

theorem popFrame_crefStack :
    (e.popFrame f).crefStack = if f.klass.isSome then e.crefStack.tail else e.crefStack := by
  simp only [popFrame, popThis, popCref]
  split_ifs <;> rfl

theorem popFrame_thisObj :
    (e.popFrame f).thisObj = if f.inst.isSome then e.thisStack.tail.head? else e.thisObj := by
  simp only [popFrame, popThis, popCref]
  split_ifs <;> rfl

theorem popFrame_inCCall :
    (e.popFrame f).inCCall = if f.isCCall then e.inCCall - 1 else e.inCCall := by
  simp only [popFrame, popThis, popCref]
  split_ifs <;> rfl

end Env

/-- What the flow is in. -/
inductive Construct where
  /-- A function, method or constructor with its frame. -/
  | call (f : CallFrame)
  /-- `loadScript` or `doVMEval`. -/
  | script
  /-- `doVMBindingEval` with the `this` and the constant scope of the binding. -/
  | binding (thisObj : Option Obj) (crefStack : List Obj)
  /-- The body of a class or module. -/
  | classBody (klass : Obj)
  | inBody (klass : Obj)
  /-- A `try`, `SETUP_BLOCK` or `vm_protect`. -/
  | handler
deriving DecidableEq, Repr

namespace Construct

/-- It has a frame, which is that of a native function. -/
def isCCall? : Construct → Option Bool
  | call f => some f.isCCall
  | script | binding _ _ => some false
  | classBody _ | inBody _ | handler => none

def isContext : Construct → Bool
  | script | binding _ _ => true
  | _ => false

end Construct

structure Entered where
  construct : Construct
  before : Env
deriving DecidableEq, Repr

structure Thread where
  /-- Innermost first. -/
  frames : List CallFrame := [{}]
  env : Env := {}
  /-- Last entered first. -/
  entered : List Entered := [⟨.call {}, {}⟩]
deriving DecidableEq, Repr

namespace Thread

variable (th : Thread)

/-- The construct is entered. -/
def enter (c : Construct) : Thread := { th with entered := ⟨c, th.env⟩ :: th.entered }

def setThis (this : Obj) : Thread :=
  { th with
    env := th.env.pushThis this
    frames := th.frames.modifyHead fun f => { f with inst := some this } }

def popThis : Thread :=
  { th with
    env := th.env.popThis
    frames := th.frames.modifyHead fun f => { f with inst := th.env.popThis.thisObj } }

def popFrame : Thread :=
  match th.frames with
  | [] => th
  | f :: fs => { th with env := th.env.popFrame f, frames := fs }

/-- The last construct is left: its frame is popped, and the caller of `Binding#eval` gets its
constant scope back. The opcodes that end a body are not run. -/
def leaveLast : Thread :=
  match th.entered with
  | [] => th
  | item :: rest =>
    match item.construct with
    | .call _ | .script => { th.popFrame with entered := rest }
    | .binding _ _ =>
      let th' := th.popFrame
      { th' with
        env := { th'.env with crefStack := item.before.crefStack }
        entered := rest }
    | .classBody _ | .inBody _ | .handler => { th with entered := rest }

def unwind : ℕ → Thread → Thread
  | 0, th => th
  | n + 1, th => unwind n th.leaveLast

/-- A script or `eval` is left by `pop_EC`. -/
def popContext (item : Entered) (rest : List Entered) : Thread :=
  { th with
    frames := th.frames.tail
    env := match item.construct with
      | .binding _ _ => { th.env with crefStack := item.before.crefStack }
      | _ => th.env
    entered := rest }

/-- An error is thrown, to a handler or the end of a script or `eval` that has `n` constructs in
it. -/
def throwTo (n : ℕ) : Option Thread :=
  if (th.entered.take n).any (·.construct.isContext) then none
  else
    let th' := th.unwind n
    match th'.entered with
    | [] => none
    | item :: rest =>
      if item.construct = .handler then some { th' with entered := rest }
      else if item.construct.isContext then some (th'.popContext item rest)
      else none

/-- How many constructs are in the last frame. -/
def inFrame : ℕ := (th.entered.takeWhile (·.construct.isCCall?.isNone)).length

end Thread

inductive Op where
  | call (f : CallFrame)
  /-- `OP_CLASS`, `OP_SUBCLASS` and `OP_MODULE`. -/
  | classBody (klass : Obj)
  /-- `OP_POP_CREF` -/
  | classEnd
  /-- `OP_IN` -/
  | inBody (klass : Obj)
  /-- `OP_POP` -/
  | inEnd
  | tryBegin
  | tryEnd
  | load
  | bindingEval (thisObj : Option Obj) (crefStack : List Obj)
  /-- `OP_LEAVE` of a script or `eval`. -/
  | leave
  /-- `OP_RETURN`, or a native function returns. -/
  | opReturn
  | throw (n : ℕ)
  /-- The constructor of a new instance is called with a wrong number of arguments. -/
  | newThrow (instanceVal : Obj) (n : ℕ)
deriving DecidableEq, Repr

namespace Thread

/-- One step; `none` where it is not possible. -/
def step (th : Thread) : Op → Option Thread
  | .call f =>
    let th' := th.enter (.call f)
    some { th' with env := th.env.pushFrame f, frames := f :: th.frames }
  | .classBody klass =>
    let th' := (th.enter (.classBody klass)).setThis klass
    some { th' with env := th'.env.pushCref klass }
  | .classEnd =>
    match th.entered with
    | ⟨.classBody _, _⟩ :: rest =>
      let th' := { th with env := th.env.popCref, entered := rest }
      some th'.popThis
    | _ => none
  | .inBody klass => some ((th.enter (.inBody klass)).setThis klass)
  | .inEnd =>
    match th.entered with
    | ⟨.inBody _, _⟩ :: rest => some { th with entered := rest }
    | _ => none
  | .tryBegin => some (th.enter .handler)
  | .tryEnd =>
    match th.entered with
    | ⟨.handler, _⟩ :: rest => some { th with entered := rest }
    | _ => none
  | .load => some { th.enter .script with frames := {} :: th.frames }
  | .bindingEval thisObj crefStack =>
    let th' := th.enter (.binding thisObj crefStack)
    let env := match thisObj with
      | some this => th.env.pushThis this
      | none => th.env
    some { th' with env := { env with crefStack }, frames := { inst := thisObj } :: th.frames }
  | .leave =>
    match th.entered with
    | item :: rest =>
      if item.construct.isContext then some (th.popContext item rest) else none
    | [] => none
  | .opReturn =>
    if th.inFrame < th.entered.length then some (th.unwind (th.inFrame + 1)) else none
  | .throw n => th.throwTo n
  | .newThrow instanceVal n =>
    { th with env := { th.env with thisObj := some instanceVal } }.throwTo n

/-- The outermost construct a step leaves. -/
def left (th : Thread) : Op → Option Entered
  | .classEnd | .inEnd | .tryEnd | .leave => th.entered.head?
  | .opReturn => th.entered[th.inFrame]?
  | .throw n | .newThrow _ n => th.entered[n]?
  | _ => none

end Thread

/-- The runs whose steps all meet the condition. -/
inductive Run (P : Thread → Op → Prop) : Thread → Prop
  | init : Run P {}
  | step {th th' : Thread} (op : Op) (h : Run P th) (hop : P th op)
      (hstep : th.step op = some th') : Run P th'

/-- After the step the thread is where it was before the construct that the step leaves. -/
def Restores (th : Thread) (op : Op) (th' : Thread) : Prop :=
  ∀ item, th.left op = some item → th'.env = item.before

end Clox.This
