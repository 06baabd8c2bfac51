import Clox.Compiler.Emit

/-! # Expressions in the VM

The opcodes of expressions without side effects, on the words of a chunk, and
the value of a syntax tree by the operators of the VM. Both are `none` where the
VM throws. Numbers are added, divided and so on by `LoxNum`; what an operator
does with other values, what variables hold and what a method call would be is
a parameter.
-/

namespace Clox

/-- What expressions read, and what operators do with values that are not both numbers. -/
structure World (ν : Type) where
  objEqual : Value ν → Value ν → Bool
  /-- Comparisons, indexing, and arithmetic on objects. -/
  operator : OpCode → Value ν → Value ν → Option (Value ν)
  locals : ℕ → Value ν
  globals : String → Option (Value ν)

namespace World

variable {ν : Type} [LoxNum ν] (w : World ν)

/-- `BINARY_OP` on numbers. -/
def arith (op : OpCode) (a b : ν) : Option ν :=
  match op with
  | .opAdd => some (LoxNum.add a b)
  | .opSubtract => some (LoxNum.sub a b)
  | .opMultiply => some (LoxNum.mul a b)
  | .opDivide => if LoxNum.isZero b then none else some (LoxNum.div a b)
  | .opModulo => if LoxNum.isZero b then none else LoxNum.mod a b
  | .opBitor => some (LoxNum.bitor a b)
  | .opBitand => some (LoxNum.bitand a b)
  | .opBitxor => some (LoxNum.bitxor a b)
  | .opShovelL => some (LoxNum.shovelL a b)
  | .opShovelR => some (LoxNum.shovelR a b)
  | _ => none

/-- The opcodes of `BINARY_OP`. -/
def isArith (op : OpCode) : Bool :=
  op = .opAdd || op = .opSubtract || op = .opMultiply || op = .opDivide || op = .opModulo ||
  op = .opBitor || op = .opBitand || op = .opBitxor || op = .opShovelL || op = .opShovelR

/-- An operator with two operands. -/
def binary (op : OpCode) (a b : Value ν) : Option (Value ν) :=
  match isArith op, a, b with
  | true, .number x, .number y => (arith op x y).map .number
  | _, a, b => w.operator op a b

/-- `OP_NEGATE` and `OP_NOT` -/
def unary (tok : UnaryTok) (v : Value ν) : Option (Value ν) :=
  match tok, v with
  | .minus, .number x => some (.number (LoxNum.neg x))
  | .minus, _ => none
  | .bang, v => some (.bool (!v.isTruthy))

/-- `OP_AND` and `OP_OR`, behind their jump. -/
def logical (tok : LogicalTok) (lhs rhs : Value ν) : Value ν :=
  match tok with
  | .and => if rhs.isTruthy then rhs else .bool false
  | .or => if lhs.isTruthy || rhs.isTruthy then rhs else lhs

/-- The left operand decides. -/
def decides (tok : LogicalTok) (lhs : Value ν) : Bool :=
  match tok with
  | .and => !lhs.isTruthy
  | .or => lhs.isTruthy

/-- Keys and values in turn, set in their order. -/
def mapOf (entries : List (Value ν × Value ν)) : List (Value ν) → List (Value ν × Value ν)
  | key :: val :: rest => mapOf (Value.tableSet w.objEqual key val entries) rest
  | _ => entries

end World

/-! ## The value of a tree -/

/-- What a name stands for where the tree is compiled. -/
inductive Access where
  | local (slot : ℕ)
  | upvalue
  | global
deriving DecidableEq, Repr

/-- As `namedVariable` looks it up. -/
def CompState.access {ν : Type} (s : CompState ν) (name : String) : Access :=
  match s.current.resolveLocal name with
  | some slot => .local slot
  | none =>
    match (Compiler.resolveUpvalue name s.current s.enclosing).2.2.1 with
    | some _ => .upvalue
    | none => .global

/-- The opcode of `emitBinaryOp`. -/
def BinaryTok.opcode : BinaryTok → OpCode
  | plus => .opAdd
  | minus => .opSubtract
  | star => .opMultiply
  | slash => .opDivide
  | percent => .opModulo
  | less => .opLess
  | lessEqual => .opLessEqual
  | greater => .opGreater
  | greaterEqual => .opGreaterEqual
  | equalEqual => .opEqual
  | bangEqual => .opNotEqual
  | pipe => .opBitor
  | amp => .opBitand
  | caret => .opBitxor
  | shovelL => .opShovelL
  | shovelR => .opShovelR

namespace World

variable {ν : Type} [LoxNum ν] (w : World ν) (access : String → Access)

def literal : Literal → Option (Value ν)
  | .number numStr => some (.number (Emit.numberLiteral numStr))
  | .string str _ => some (.string str)
  | .true => some (.bool true)
  | .false => some (.bool false)
  | .nil => some .nil
  | .regex _ => none

def readVariable (name : String) : Option (Value ν) :=
  match access name with
  | .local slot => some (w.locals slot)
  | .global => w.globals name
  | .upvalue => none

mutual

/-- The value of an expression: of literals, reads of local and global variables, operators, `and` and
`or`, grouping, array and map literals and indexing. -/
def eval : Node → Option (Value ν)
  | .literal lit => literal lit
  | .variable name => w.readVariable access name
  | .grouping expr => eval expr
  | .unary tok expr => (eval expr).bind (unary tok)
  | .binary tok lhs rhs =>
    (eval lhs).bind fun a => (eval rhs).bind fun b => w.binary tok.opcode a b
  | .logical tok lhs rhs =>
    (eval lhs).bind fun a =>
      if decides tok a then some a else (eval rhs).map (logical tok a)
  | .array children => (evalChildren children).map .array
  | .map children => (evalChildren children).map fun vs => .map (w.mapOf [] vs)
  | .indexGet obj index =>
    (eval obj).bind fun a => (eval index).bind fun b => w.binary .opIndexGet a b
  | _ => none

def evalChildren : List Node → Option (List (Value ν))
  | [] => some []
  | n :: rest => (eval n).bind fun v => (evalChildren rest).map (v :: ·)

end

mutual

/-- The tree is built from these nodes only, and its variables are local or global. -/
def IsExpr : Node → Bool
  | .literal (.regex _) => false
  | .literal _ => true
  | .variable name => access name ≠ .upvalue
  | .grouping expr | .unary _ expr => IsExpr expr
  | .binary _ lhs rhs | .logical _ lhs rhs | .indexGet lhs rhs => IsExpr lhs && IsExpr rhs
  | .array children | .map children => AreExprs children
  | _ => false

def AreExprs : List Node → Bool
  | [] => true
  | n :: rest => IsExpr n && AreExprs rest

end

end World

/-! ## The opcodes -/

/-- The opcodes of expressions without side effects. -/
def OpCode.isExpr (op : OpCode) : Bool :=
  match op with
  | .opConstant | .opString | .opTrue | .opFalse | .opNil | .opDuparray | .opDupmap
  | .opGetLocal | .opGetGlobal | .opArray | .opMap | .opNegate | .opNot
  | .opAnd | .opOr | .opJumpIfFalsePeek | .opJumpIfTruePeek
  | .opAdd | .opSubtract | .opMultiply | .opDivide | .opModulo | .opBitor | .opBitand | .opBitxor
  | .opShovelL | .opShovelR | .opEqual | .opNotEqual | .opGreater | .opLess | .opGreaterEqual
  | .opLessEqual | .opIndexGet => true
  | _ => false

/-- The words to skip behind the opcode, and the stack with the value pushed last in front. -/
abbrev Continue (ν : Type) := ℕ × List (Value ν)

namespace World

variable {ν : Type} [LoxNum ν] (w : World ν) (constants : List (Value ν))

/-- `READ_CONSTANT` -/
def readConstant (code : List ℕ) : Option (Value ν) := code.head?.bind fun idx => constants[idx]?

/-- A peeking jump; `ip += ipOffset - 1` behind its operand. -/
def jumpPeek (taken : Value ν → Bool) (code : List ℕ) (st : List (Value ν)) :
    Option (Continue ν) :=
  match code, st with
  | ipOffset :: _, cond :: _ => some (if taken cond then 1 + (ipOffset - 1) else 1, st)
  | _, _ => none

def withOperands (st : List (Value ν)) (f : Value ν → Value ν → Option (Value ν)) :
    Option (Continue ν) :=
  match st with
  | rhs :: lhs :: st => (f lhs rhs).map fun v => (0, v :: st)
  | _ => none

def withOperand (st : List (Value ν)) (f : Value ν → Option (Value ν)) : Option (Continue ν) :=
  match st with
  | v :: st => (f v).map fun v' => (0, v' :: st)
  | _ => none

/-- An array or map of the values on top of the stack, the one pushed last in front. -/
def collect (code : List ℕ) (st : List (Value ν)) (f : List (Value ν) → Value ν) :
    Option (Continue ν) :=
  match code with
  | n :: _ => if n ≤ st.length then some (1, f (st.take n) :: st.drop n) else none
  | [] => none

/-- An opcode, `code` being the words behind it. -/
def execOp (op : OpCode) (code : List ℕ) (st : List (Value ν)) : Option (Continue ν) :=
  match op with
  | .opConstant => (readConstant constants code).map fun v => (1, v :: st)
  | .opString =>
    match readConstant constants code with
    | some (.string str) => some (2, .string str :: st)
    | _ => none
  | .opTrue => some (0, .bool true :: st)
  | .opFalse => some (0, .bool false :: st)
  | .opNil => some (0, .nil :: st)
  | .opDuparray =>
    match readConstant constants code with
    | some (.array els) => some (1, .array els :: st)
    | _ => none
  | .opDupmap =>
    match readConstant constants code with
    | some (.map entries) => some (1, .map entries :: st)
    | _ => none
  | .opGetLocal => code.head?.map fun slot => (2, w.locals slot :: st)
  | .opGetGlobal =>
    match readConstant constants code with
    | some (.string name) => (w.globals name).map fun v => (1, v :: st)
    | _ => none
  | .opArray => collect code st .array
  | .opMap => collect code st fun vs => .map (w.mapOf [] vs)
  | .opNegate => withOperand st (unary .minus)
  | .opNot => withOperand st (unary .bang)
  | .opAnd => withOperands st fun lhs rhs => some (logical .and lhs rhs)
  | .opOr => withOperands st fun lhs rhs => some (logical .or lhs rhs)
  | .opJumpIfFalsePeek => jumpPeek (decides .and) code st
  | .opJumpIfTruePeek => jumpPeek (decides .or) code st
  | op => withOperands st (w.binary op)

/-- The chunk is run, behind the next `skip` words, until an opcode that is not one of these: the rest
of the code there, and the stack. -/
def exec : ℕ → List ℕ → List (Value ν) → Option (List ℕ × List (Value ν))
  | 0, [], st => some ([], st)
  | _ + 1, [], _ => none
  | skip + 1, _ :: code, st => exec skip code st
  | 0, word :: code, st =>
    match OpCode.ofNat? word with
    | some op =>
      if op.isExpr then (w.execOp constants op code st).bind fun (skip, st') => exec skip code st'
      else some (word :: code, st)
    | none => some (word :: code, st)

end World

end Clox
