import Clox.Ast.Node

/-! # The order of operands

`emitNode` for expressions, as to the order in which operands are evaluated, and
what the VM does with the code. Every subexpression but a literal has a label,
and a run of the code leaves a trace of them: of an operation when its opcode is
executed, of `and` and `or` when the left operand is tested. What opcodes do is a
parameter: with the values of its operands an operation gives a value or throws,
and it may change the state of the program in any way.
-/

namespace Clox.EvalOrder

/-- A place in the source. -/
abbrev Label := ℕ

mutual

inductive Expr (V : Type) where
  /-- `LITERAL_EXPR`; `canEmbed` is `isConstExprNodeCanEmbed`. -/
  | literal (canEmbed : Bool) (v : V)
  /-- A node whose children are emitted in their order, with one opcode behind them. -/
  | operation (label : Label) (operands : Args V)
  | logical (tok : LogicalTok) (label : Label) (lhs rhs : Expr V)
  /-- `ARRAY_EXPR`, or `MAP_EXPR` with its keys and values in turn. -/
  | collection (label : Label) (children : Args V)
  /-- `BINARY_ASSIGN_EXPR`: the reading of the variable, the operator, and the assignment. -/
  | binaryAssign (get op set : Label) (rhs : Expr V)
  /-- `PROP_SET_BINOP_EXPR`: the reading of the property, the operator, and the assignment. -/
  | propSetBinop (get op set : Label) (obj rval : Expr V)

inductive Args (V : Type) where
  | nil
  | cons (arg : Expr V) (rest : Args V)

end

namespace Expr

variable {V : Type}

/-- `VARIABLE_EXPR`, `CONSTANT_EXPR`, `THIS_EXPR`, `SUPER_EXPR` or `ANON_FN_EXPR` -/
def variableExpr (l : Label) : Expr V := operation l .nil

def unaryExpr (l : Label) (e : Expr V) : Expr V := operation l (.cons e .nil)

def binaryExpr (l : Label) (lhs rhs : Expr V) : Expr V := operation l (.cons lhs (.cons rhs .nil))

/-- `ASSIGN_EXPR`: only the value is evaluated. -/
def assignExpr (l : Label) (rval : Expr V) : Expr V := operation l (.cons rval .nil)

/-- `emitCall`: the callable, or the receiver of a method, then the arguments. -/
def callExpr (l : Label) (lhs : Expr V) (args : Args V) : Expr V := operation l (.cons lhs args)

def propAccessExpr (l : Label) (obj : Expr V) : Expr V := operation l (.cons obj .nil)

def propSetExpr (l : Label) (obj rval : Expr V) : Expr V :=
  operation l (.cons obj (.cons rval .nil))

def indexGetExpr (l : Label) (obj index : Expr V) : Expr V :=
  operation l (.cons obj (.cons index .nil))

def indexSetExpr (l : Label) (obj index rval : Expr V) : Expr V :=
  operation l (.cons obj (.cons index (.cons rval .nil)))

def isLiteral : Expr V → Bool
  | literal _ _ => true
  | _ => false

end Expr

variable {S V : Type}

namespace Args

def length : Args V → ℕ
  | nil => 0
  | cons _ rest => rest.length + 1

/-- The values of children that can all be embedded in a constant. -/
def constants? : Args V → Option (List V)
  | nil => some []
  | cons (.literal true v) rest => rest.constants?.map (v :: ·)
  | cons _ _ => none

def nonLiterals : Args V → ℕ
  | nil => 0
  | cons arg rest => (if arg.isLiteral then 0 else 1) + rest.nonLiterals

end Args

/-! ## Code -/

inductive Insn (V : Type) where
  /-- `OP_CONSTANT`, `OP_STRING`, `OP_TRUE`, `OP_FALSE` or `OP_NIL` -/
  | constant (v : V)
  /-- `OP_DUPARRAY` or `OP_DUPMAP` -/
  | dup (label : Label) (vs : List V)
  /-- An opcode that takes `n` operands. -/
  | operation (label : Label) (n : ℕ)
  /-- `OP_ARRAY` or `OP_MAP`: its first child is on top of the stack. -/
  | collection (label : Label) (n : ℕ)
  /-- `OP_JUMP_IF_FALSE_PEEK` or `OP_JUMP_IF_TRUE_PEEK`, over `n` instructions. -/
  | jumpPeek (tok : LogicalTok) (label : Label) (n : ℕ)
  /-- `OP_AND` or `OP_OR` -/
  | logical (tok : LogicalTok)

mutual

/-- `emitNode`; `flipped` says that the literals of the tree have been reversed before. -/
def emitNode (flipped : Bool) : Expr V → List (Insn V)
  | .literal _ v => [.constant v]
  | .operation l operands => emitChildren flipped operands ++ [.operation l operands.length]
  | .logical tok l lhs rhs =>
    let right := emitNode flipped rhs ++ [.logical tok]
    emitNode flipped lhs ++ (.jumpPeek tok l right.length :: right)
  | .collection l children =>
    match children.constants? with
    | some vs => [.dup l vs]
    | none =>
      (if flipped then emitChildren flipped children else emitChildrenRev flipped children) ++
        [.collection l children.length]
  | .binaryAssign get op set rhs =>
    .operation get 0 :: (emitNode flipped rhs ++ [.operation op 2, .operation set 1])
  | .propSetBinop get op set obj rval =>
    -- the object, and then the property access, with the object once more
    emitNode false obj ++ (emitNode true obj ++
      (.operation get 1 :: (emitNode flipped rval ++ [.operation op 2, .operation set 2])))

def emitChildren (flipped : Bool) : Args V → List (Insn V)
  | .nil => []
  | .cons arg rest => emitNode flipped arg ++ emitChildren flipped rest

/-- `emitChildren` after `vec_reverse`. -/
def emitChildrenRev (flipped : Bool) : Args V → List (Insn V)
  | .nil => []
  | .cons arg rest => emitChildrenRev flipped rest ++ emitNode flipped arg

end

/-! ## The VM -/

/-- A trace of labels, and the state and value at the end, none after an error. -/
abbrev Outcome (S α : Type) := List Label × Option (S × α)

namespace Outcome

variable {α β : Type}

/-- What happens next, unless there was an error. -/
def andThen (r : Outcome S α) (f : S → α → Outcome S β) : Outcome S β :=
  match r with
  | (t, none) => (t, none)
  | (t, some (s, a)) => (t ++ (f s a).1, (f s a).2)

def value (s : S) (a : α) : Outcome S α := ([], some (s, a))

end Outcome

structure Vm (S V : Type) where
  isTruthy : V → Bool
  falseValue : V
  /-- The opcode at a place in the source, none if it throws. -/
  apply : Label → S → List V → Option (S × V)

namespace Vm

variable (vm : Vm S V)

/-- The left operand decides, and the jump is taken. -/
def decides (tok : LogicalTok) (lhs : V) : Bool :=
  match tok with
  | .and => !vm.isTruthy lhs
  | .or => vm.isTruthy lhs

/-- `OP_AND` and `OP_OR` -/
def combine (tok : LogicalTok) (lhs rhs : V) : V :=
  match tok with
  | .and => if vm.isTruthy rhs then rhs else vm.falseValue
  | .or => if vm.isTruthy lhs || vm.isTruthy rhs then rhs else lhs

/-- An operation is executed. -/
def perform (l : Label) (s : S) (vs : List V) : Outcome S V := ([l], vm.apply l s vs)

/-- The code is run, but for the first `skip` instructions; the stack has the value pushed last in
front. -/
def exec : ℕ → List (Insn V) → S → List V → Outcome S (List V)
  | _, [], s, st => .value s st
  | skip + 1, _ :: code, s, st => exec skip code s st
  | 0, .constant v :: code, s, st => exec 0 code s (v :: st)
  | 0, .dup l vs :: code, s, st =>
    (vm.perform l s vs).andThen fun s v => exec 0 code s (v :: st)
  | 0, .operation l n :: code, s, st =>
    (vm.perform l s (st.take n).reverse).andThen fun s v => exec 0 code s (v :: st.drop n)
  | 0, .collection l n :: code, s, st =>
    (vm.perform l s (st.take n)).andThen fun s v => exec 0 code s (v :: st.drop n)
  | 0, .jumpPeek tok l n :: code, s, v :: st =>
    Outcome.andThen ([l], some (s, v)) fun s v =>
      exec (if vm.decides tok v then n else 0) code s (v :: st)
  | 0, .logical tok :: code, s, rhs :: lhs :: st => exec 0 code s (vm.combine tok lhs rhs :: st)
  -- the stack is too short
  | 0, _ :: _, _, _ => ([], none)

/-! ## What is written -/

mutual

/-- The operands that are needed are evaluated from left to right, each once. -/
def eval : Expr V → S → Outcome S V
  | .literal _ v, s => .value s v
  | .operation l operands, s => (evalArgs operands s).andThen (vm.perform l)
  | .logical tok l lhs rhs, s =>
    (eval lhs s).andThen fun s v =>
      Outcome.andThen ([l], some (s, v)) fun s v =>
        if vm.decides tok v then .value s v
        else (eval rhs s).andThen fun s w => .value s (vm.combine tok v w)
  | .collection l children, s => (evalArgs children s).andThen (vm.perform l)
  | .binaryAssign get op set rhs, s =>
    (vm.perform get s []).andThen fun s v =>
      (eval rhs s).andThen fun s w =>
        (vm.perform op s [v, w]).andThen fun s x => vm.perform set s [x]
  | .propSetBinop get op set obj rval, s =>
    (eval obj s).andThen fun s o =>
      (vm.perform get s [o]).andThen fun s v =>
        (eval rval s).andThen fun s w =>
          (vm.perform op s [v, w]).andThen fun s x => vm.perform set s [o, x]

def evalArgs : Args V → S → Outcome S (List V)
  | .nil, s => .value s []
  | .cons arg rest, s =>
    (eval arg s).andThen fun s v => (evalArgs rest s).andThen fun s vs => .value s (v :: vs)

end

end Vm

end Clox.EvalOrder
