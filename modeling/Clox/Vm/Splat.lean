import Mathlib.Algebra.Ring.Nat
import Mathlib.Data.List.Basic

/-! # Calls with splatted arguments

`emitCall` and what the VM does with its code. `OP_SPLAT_ARRAY` tells the number
of elements it pushed by `lastSplatNumArgs` of the thread, which the next
`OP_CALL` or `OP_INVOKE` takes, whichever call it belongs to. The bodies that
calls run are a parameter: they give a value or throw, and leave any number in
`lastSplatNumArgs`, where a splat was not followed by its call.
-/

namespace Clox.Splat

/-- The elements of an array; their number is an `int`. -/
abbrev Elements (V : Type) := { l : List V // l.length < 2 ^ 31 }

/-- `lastSplatNumArgs`, which is none for -1. -/
abbrev NumArgs := Option (Fin (2 ^ 31))

/-- The values and functions of a program. -/
structure Program (V : Type) where
  asArray : V → Option (Elements V)
  /-- The value of a call, none if it throws, and `lastSplatNumArgs` after it. -/
  call : V → List V → Option V × NumArgs

/-! ## Expressions -/

inductive ArgKind where
  | plain
  /-- `KWARG_IN_CALL_STMT` -/
  | kwarg (name : String)
  /-- `SPLAT_EXPR` -/
  | splat
deriving DecidableEq, Repr

mutual

/-- An expression, as to the calls in it. It is one evaluation: an operand that `and` or `or` skips is
left out. -/
inductive Expr (V : Type) where
  /-- A literal, a variable or an operator with its operands. -/
  | op (apply : List V → NumArgs → Option V × NumArgs) (operands : Args V)
  /-- A call of a callable, or of a method of its receiver (`PROP_ACCESS_EXPR`). -/
  | call (isMethod : Bool) (lhs : Expr V) (args : Args V)

/-- Arguments, in the order of the source. -/
inductive Args (V : Type) where
  | nil
  | cons (kind : ArgKind) (arg : Expr V) (rest : Args V)

end

variable {V : Type}

def Args.length : Args V → ℕ
  | nil => 0
  | cons _ _ rest => rest.length + 1

def Args.hasSplat : Args V → Bool
  | nil => false
  | cons kind _ rest => kind == .splat || rest.hasSplat

mutual

/-- No call has more arguments than `emitCall` accepts, and only calls have splats. -/
def Expr.accepted : Expr V → Bool
  | .op _ operands => !operands.hasSplat && operands.accepted
  | .call _ lhs args => decide (args.length ≤ 8) && lhs.accepted && args.accepted

def Args.accepted : Args V → Bool
  | .nil => true
  | .cons _ arg rest => arg.accepted && rest.accepted

end

/-! ## Code -/

inductive Instr (V : Type) where
  /-- The opcodes of an operator with `n` operands. -/
  | op (apply : List V → NumArgs → Option V × NumArgs) (n : ℕ)
  | splatArray
  | call (numArgs : ℕ)
  | invoke (numArgs : ℕ)

/-- The opcode behind an argument. -/
def ArgKind.code : ArgKind → List (Instr V)
  | plain | kwarg _ => []
  | splat => [.splatArray]

mutual

/-- `emitNode`, with `emitCall` for calls. -/
def emitNode : Expr V → List (Instr V)
  | .op apply operands => emitChildren operands ++ [.op apply operands.length]
  | .call isMethod lhs args =>
    let op := if isMethod then Instr.invoke args.length else .call args.length
    emitNode lhs ++ (emitChildren args ++ [op])

def emitChildren : Args V → List (Instr V)
  | .nil => []
  | .cons kind arg rest => emitNode arg ++ (kind.code ++ emitChildren rest)

end

/-! ## The VM -/

structure Thread (V : Type) where
  /-- Last pushed first. -/
  stack : List V
  lastSplatNumArgs : NumArgs

/-- A callable or receiver, and the arguments it was called with. -/
abbrev Received (V : Type) := V × List V

/-- `numArgs` of `OP_CALL` and `OP_INVOKE`, of type `uint32_t`. -/
def addSplatNumArgs (numArgs : ℕ) : NumArgs → ℕ
  | some n => (numArgs + n + (2 ^ 32 - 1)) % 2 ^ 32
  | none => numArgs

/-- `VM_PEEK(numArgs)` with the operands above it; none where its assertion fails. -/
def peekCall (numArgs : ℕ) (stack : List V) : Option (Received V) :=
  stack[numArgs]?.map fun callable => (callable, (stack.take numArgs).reverse)

/-- `OP_CALL` or `OP_INVOKE`: what is called, and the thread after it. -/
def opCall (p : Program V) (numArgs : ℕ) (th : Thread V) :
    Option (Received V) × Option (Thread V) :=
  let numArgs := addSplatNumArgs numArgs th.lastSplatNumArgs
  match peekCall numArgs th.stack with
  | none => (none, none)
  | some r =>
    let (value, last) := p.call r.1 r.2
    (some r, value.map fun v => ⟨v :: th.stack.drop (numArgs + 1), last⟩)

/-- `OP_SPLAT_ARRAY`; none where it throws. -/
def opSplatArray (p : Program V) (th : Thread V) : Option (Thread V) :=
  match th.stack with
  | [] => none
  | ary :: stack =>
    (p.asArray ary).map fun els =>
      { stack := els.val.reverse ++ stack, lastSplatNumArgs := some ⟨els.val.length, els.property⟩ }

def opApply (apply : List V → NumArgs → Option V × NumArgs) (n : ℕ) (th : Thread V) :
    Option (Thread V) :=
  let (value, last) := apply (th.stack.take n).reverse th.lastSplatNumArgs
  value.map fun v => ⟨v :: th.stack.drop n, last⟩

/-- The code is run: what each call opcode calls, and the thread at the end, none after an error. -/
def exec (p : Program V) : List (Instr V) → Thread V → List (Option (Received V)) × Option (Thread V)
  | [], th => ([], some th)
  | .op apply n :: code, th =>
    match opApply apply n th with
    | some th' => exec p code th'
    | none => ([], none)
  | .splatArray :: code, th =>
    match opSplatArray p th with
    | some th' => exec p code th'
    | none => ([], none)
  | .call numArgs :: code, th | .invoke numArgs :: code, th =>
    match opCall p numArgs th with
    | (r, some th') => ((r :: (exec p code th').1), (exec p code th').2)
    | (r, none) => ([r], none)

end Clox.Splat
