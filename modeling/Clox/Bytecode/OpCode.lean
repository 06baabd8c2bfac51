import Mathlib.Data.Nat.Notation
import Mathlib.Logic.Function.Basic

/-! # Opcodes

The instruction set of `opcodes.h.inc`, in the order of that file: the number
of an opcode (`OpCode.toNat`) is the word the compiler writes to a chunk.
-/

namespace Clox

/-- `enum OpCode`: `OP_GET_LOCAL` is `opGetLocal`, in the order of `opcodes.h.inc`. -/
inductive OpCode where
  | opConstant
  | opAdd | opSubtract | opMultiply | opDivide | opModulo | opBitor | opBitand | opBitxor
  | opShovelL | opShovelR | opNegate | opNot
  | opGetLocal | opSetLocal | opUnpackSetLocal | opGetGlobal | opSetGlobal | opDefineGlobal
  | opUnpackDefineGlobal | opGetConst | opSetConst | opGetConstUnder
  | opClosure | opGetUpvalue | opSetUpvalue | opCloseUpvalue
  | opPropGet | opPropSet | opMethod | opClassMethod | opGetter | opSetter
  | opCall | opInvoke | opSplatArray | opGetThis | opGetSuper | opReturn | opPrint
  | opString | opArray | opDuparray | opDupmap | opMap | opRegex | opIter | opIterNext
  | opBlockBreak | opBlockContinue | opBlockReturn | opToBlock
  | opTrue | opFalse | opNil
  | opAnd | opOr
  | opPop | opPopCref | opPopN | opPopDebug
  | opEqual | opNotEqual | opGreater | opLess | opGreaterEqual | opLessEqual
  | opJump | opJumpIfFalse | opJumpIfTrue | opJumpIfFalsePeek | opJumpIfTruePeek | opLoop
  | opBreak
  | opClass | opSubclass | opModule | opIn
  | opThrow | opGetThrown | opRethrowIfErr
  | opIndexGet | opIndexSet
  | opCheckKeyword
  | opLeave
deriving DecidableEq, Repr

namespace OpCode

/-- The word that stands for an opcode in a chunk. -/
def toNat (op : OpCode) : ℕ := op.ctorIdx

/-- All opcodes, in the order of their numbers. -/
def all : List OpCode :=
  [opConstant, opAdd, opSubtract, opMultiply, opDivide, opModulo, opBitor, opBitand, opBitxor,
   opShovelL, opShovelR, opNegate, opNot, opGetLocal, opSetLocal, opUnpackSetLocal,
   opGetGlobal, opSetGlobal, opDefineGlobal, opUnpackDefineGlobal, opGetConst, opSetConst,
   opGetConstUnder, opClosure, opGetUpvalue, opSetUpvalue, opCloseUpvalue, opPropGet,
   opPropSet, opMethod, opClassMethod, opGetter, opSetter, opCall, opInvoke, opSplatArray,
   opGetThis, opGetSuper, opReturn, opPrint, opString, opArray, opDuparray, opDupmap, opMap,
   opRegex, opIter, opIterNext, opBlockBreak, opBlockContinue, opBlockReturn, opToBlock,
   opTrue, opFalse, opNil, opAnd, opOr, opPop, opPopCref, opPopN, opPopDebug, opEqual,
   opNotEqual, opGreater, opLess, opGreaterEqual, opLessEqual, opJump, opJumpIfFalse,
   opJumpIfTrue, opJumpIfFalsePeek, opJumpIfTruePeek, opLoop, opBreak, opClass, opSubclass,
   opModule, opIn, opThrow, opGetThrown, opRethrowIfErr, opIndexGet, opIndexSet,
   opCheckKeyword, opLeave]

/-- The opcode a chunk word stands for (`dispatchTable[instruction]`). -/
def ofNat? (w : ℕ) : Option OpCode := all[w]?

@[simp] theorem ofNat?_toNat (op : OpCode) : ofNat? op.toNat = some op := by
  cases op <;> rfl

theorem toNat_injective : Function.Injective toNat := by
  intro a b h
  have h' : ofNat? a.toNat = ofNat? b.toNat := by rw [h]
  simpa using h'

@[simp] theorem toNat_inj {a b : OpCode} : a.toNat = b.toNat ↔ a = b :=
  toNat_injective.eq_iff

end OpCode

end Clox
