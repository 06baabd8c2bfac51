import Clox.Bytecode.Iseq

/-! # The bytecode optimizer

`optimizeIseq` of `compiler.c`: constant folding, merging of pops, removal of
jumps whose condition is a constant and of unused constants, and the patching
of jump operands each of these does. The loop is a step function on the
sequence and its cursor `cur`; one step is one pass through the body of the
`while` loop, which leaves the cursor behind or sends it back to the head.

The state carries a ghost: the list of edits that changed the number of words
in front of some instruction, each with the sequence it was made on.
-/

namespace Clox

/-- `CompilerOpts` -/
structure CompilerOpts where
  noOptimize : Bool := false
  noRemoveUnusedExpressions : Bool := false

/-! ## Classes of instructions -/

namespace Insn

/-- `isBinOp` -/
def isBinOp (i : Insn) : Bool :=
  i.is .opAdd || i.is .opSubtract || i.is .opMultiply || i.is .opDivide || i.is .opModulo ||
  i.is .opBitor || i.is .opBitand || i.is .opBitxor || i.is .opShovelL || i.is .opShovelR

/-- `isNumConstOp` -/
def isNumConstOp (i : Insn) : Bool := i.is .opConstant && i.flNumber

/-- `isJump` -/
def isJump (i : Insn) : Bool :=
  i.is .opJump || i.is .opJumpIfFalse || i.is .opJumpIfTrue || i.is .opJumpIfTruePeek ||
  i.is .opJumpIfFalsePeek

/-- `isLoop` -/
def isLoop (i : Insn) : Bool := i.is .opLoop

/-- `isJumpNextInsn` -/
def isJumpNextInsn (i : Insn) : Bool := i.operand0 == 0

/-- `isConst` -/
def isConst (i : Insn) : Bool :=
  i.is .opConstant || i.is .opFalse || i.is .opTrue || i.is .opNil

/-- `constBool` of an instruction that `isConst`. -/
def constBool (i : Insn) : Bool := i.is .opConstant || i.is .opTrue

/-- `noSideEffectsConst` -/
def noSideEffectsConst (i : Insn) : Bool := i.isConst

/-- `isJumpIfFalse` -/
def isJumpIfFalse (i : Insn) : Bool := i.is .opJumpIfFalse

/-- `isJumpIfTrue` -/
def isJumpIfTrue (i : Insn) : Bool := i.is .opJumpIfTruePeek

/-- `isPop` -/
def isPop (i : Insn) : Bool := i.is .opPop

/-- `isPopType` -/
def isPopType (i : Insn) : Bool := i.is .opPop || i.is .opPopN

/-- `isJumpTarget` -/
def isJumpTarget (i : Insn) : Bool := i.isLabel

end Insn

/-- `BYTECODE_MAX` -/
def bytecodeMax : ℕ := 2 ^ 32 - 1

/-- `MAX_INSN_OPERANDS` -/
def maxInsnOperands : ℕ := 3

namespace Iseq

variable {ν : Type}

/-! ## Constants -/

/-- `iseqGetConstant` and `AS_NUMBER`, for an instruction that `isNumConstOp`. -/
def numConstant (seq : Iseq ν) (i : Insn) : Except Abort ν :=
  match seq.constants[i.operand0]? with
  | some (.number n) => .ok n
  | _ => .error .undefinedBehaviour

/-- `foldConstant` -/
def foldConstant [LoxNum ν] (seq : Iseq ν) (cur bin ain : Insn) : Except Abort (Value ν) := do
  let b ← seq.numConstant bin
  let a ← seq.numConstant ain
  if cur.is .opAdd then return .number (LoxNum.add a b)
  if cur.is .opSubtract then return .number (LoxNum.sub a b)
  if cur.is .opMultiply then return .number (LoxNum.mul a b)
  if cur.is .opDivide then
    if LoxNum.isZero b then return .undef
    return .number (LoxNum.div a b)
  if cur.is .opModulo then
    if LoxNum.isZero b then return .undef
    match LoxNum.mod a b with
    | none => throw .intDivisionTrap
    | some n => return .number n
  if cur.is .opBitor then return .number (LoxNum.bitor a b)
  if cur.is .opBitand then return .number (LoxNum.bitand a b)
  if cur.is .opBitxor then return .number (LoxNum.bitxor a b)
  if cur.is .opShovelL then return .number (LoxNum.shovelL a b)
  if cur.is .opShovelR then return .number (LoxNum.shovelR a b)
  throw .unreachable

/-- `changeConstant` -/
def changeConstant (seq : Iseq ν) (constIdx : ℕ) (newVal : Value ν) : Except Abort (Iseq ν) :=
  if constIdx < seq.constants.length then
    .ok { seq with constants := seq.constants.set constIdx newVal }
  else .error .assertFailed

/-! ## Patching jumps around an edit -/

/-- The sum of a `bytecode_t` and an `int`, which is unsigned: below zero it wraps around. -/
def unsignedSum (operand : ℕ) (offset : ℤ) : ℤ :=
  if operand + offset < 0 then operand + offset + 2 ^ 32 else operand + offset

/-- `patchJumpInsnWithOffset` -/
def patchJumpInsnWithOffset (jump : Insn) (offset : ℤ) : Except Abort Insn :=
  if unsignedSum jump.operand0 offset > bytecodeMax then .error .assertFailed
  else if unsignedSum jump.operand0 offset ≤ 0 then .error .assertFailed
  else .ok (jump.setOperand0 (unsignedSum jump.operand0 offset).toNat)

/-- The instruction a forward jump is recorded to land on: `jumpTo`, or what follows `jumpToPrev`,
which may have been freed. A jump without either is `ifNull`. -/
def jumpTarget (seq : Iseq ν) (jump : Insn) (ifNull : Abort) : Except Abort Addr :=
  match jump.jumpTo, jump.jumpToPrev with
  | some target, _ => .ok target
  | none, none => .error ifNull
  | none, some prev =>
    match seq.insn? prev with
    | none => .error .useAfterFree
    | some _ =>
      match seq.next prev with
      | none => .error .assertFailed
      | some target => .ok target.addr

/-- How the recorded target of a jump or loop lies to an instruction that is being edited. -/
inductive Span where
  /-- The edited instruction is not between the jump and its recorded target. -/
  | outside
  /-- It is between them. -/
  | across
  /-- It is the recorded target. -/
  | onto
deriving DecidableEq

/-- The two index tests of `rmInsnAndPatchJumps` and `addInsnOperand`. -/
def span (seq : Iseq ν) (insn : Addr) (inn : Insn) (ifNull : Abort) : Except Abort Span := do
  let insnIdx := Layout.index (·.addr) seq.insns insn
  let idx := Layout.index (·.addr) seq.insns inn.addr
  if idx < insnIdx ∧ inn.isJump then
    let target ← seq.jumpTarget inn ifNull
    match seq.iseqInsnIndex target with
    | none => throw .assertFailed
    | some jumpToIndex =>
      return if insnIdx < jumpToIndex then .across
        else if jumpToIndex = insnIdx then .onto else .outside
  else if insnIdx < idx ∧ inn.isLoop then
    match inn.jumpTo with
    | none => throw .assertFailed
    | some target =>
      match seq.iseqInsnIndex target with
      | none => throw .assertFailed
      | some jumpToIndex =>
        return if jumpToIndex < insnIdx then .across
          else if jumpToIndex = insnIdx then .onto else .outside
  else return .outside

/-- The loop body of `rmInsnAndPatchJumps` (`offset` the words removed, negated) and of
`addInsnOperand` (`offset` one, and `clearPrev`: a jump onto the edited instruction loses its
`jumpToPrev`). -/
def patchAround (seq : Iseq ν) (insn : Addr) (offset : ℤ) (ifNull : Abort) (clearPrev : Bool)
    (inn : Insn) : Except Abort Insn :=
  if inn.addr = insn then .ok inn
  else
    match seq.span insn inn ifNull with
    | .error e => .error e
    | .ok .outside => .ok inn
    | .ok .across => patchJumpInsnWithOffset inn offset
    | .ok .onto =>
      patchJumpInsnWithOffset
        { inn with
          jumpTo := (seq.next insn).map (·.addr)
          jumpToPrev := if clearPrev && inn.isJump then none else inn.jumpToPrev }
        offset

theorem addr_of_patchJumpInsnWithOffset {jump jump' : Insn} {offset : ℤ}
    (h : patchJumpInsnWithOffset jump offset = .ok jump') : jump'.addr = jump.addr := by
  unfold patchJumpInsnWithOffset at h
  split at h
  · cases h
  · split at h
    · cases h
    · cases h
      rfl

theorem addr_of_patchAround {seq : Iseq ν} {insn : Addr} {offset : ℤ} {ifNull : Abort}
    {clearPrev : Bool} {inn inn' : Insn}
    (h : seq.patchAround insn offset ifNull clearPrev inn = .ok inn') : inn'.addr = inn.addr := by
  unfold patchAround at h
  split at h
  · cases h
    rfl
  · split at h
    · cases h
    · cases h
      rfl
    · exact addr_of_patchJumpInsnWithOffset h
    · exact (addr_of_patchJumpInsnWithOffset h).trans rfl

/-- `rmInsnAndPatchJumps` -/
def rmInsnAndPatchJumps (seq : Iseq ν) (insn : Addr) : Except Abort (Iseq ν) :=
  match seq.insn? insn with
  | none => .error .assertFailed
  | some i => do
    let seq ← seq.mapInsnsM (seq.patchAround insn (-(i.numOperands + 1)) .assertFailed false)
      fun _ _ => addr_of_patchAround
    return seq.iseqRmInsn i

/-- Store `operand` behind the operands of an instruction, as `addInsnOperand` begins. -/
def pushOperand (seq : Iseq ν) (insn : Addr) (operand : ℕ) : Iseq ν :=
  let seq := seq.modify insn (fun i => { i with operands := i.operands ++ [operand] }) fun _ => rfl
  { seq with wordCount := seq.wordCount + 1 }

/-- `addInsnOperand` -/
def addInsnOperand (seq : Iseq ν) (insn : Addr) (operand : ℕ) : Except Abort (Iseq ν) :=
  match seq.insn? insn with
  | none => .error .assertFailed
  | some i =>
    if i.numOperands = maxInsnOperands then .error .unreachable
    else
      let seq := seq.pushOperand insn operand
      seq.mapInsnsM (seq.patchAround insn 1 .nullDeref true) fun _ _ => addr_of_patchAround

end Iseq

/-! ## The optimizer loop -/

/-- An edit that changes the number of words of one instruction. -/
inductive Edit where
  /-- `rmInsnAndPatchJumps` -/
  | remove (insn : Addr)
  /-- `addInsnOperand` -/
  | addOperand (insn : Addr)
  /-- `OP_JUMP_IF_FALSE` rewritten to `OP_POP` in place (`replaceJumpInsn`). -/
  | jumpToPop (insn : Addr)
deriving DecidableEq, Repr

/-- The instruction an edit is made on. -/
def Edit.insn : Edit → Addr
  | .remove a => a
  | .addOperand a => a
  | .jumpToPop a => a

/-- The optimizer's state: the sequence, and as a ghost the edits made so far, each with the
sequence it was made on. -/
structure OptState (ν : Type) where
  seq : Iseq ν
  edits : List (Iseq ν × Edit) := []

namespace OptState

variable {ν : Type}

def remove (st : OptState ν) (insn : Addr) : Except Abort (OptState ν) := do
  let seq ← st.seq.rmInsnAndPatchJumps insn
  return { seq, edits := st.edits ++ [(st.seq, .remove insn)] }

def addOperand (st : OptState ν) (insn : Addr) (operand : ℕ) : Except Abort (OptState ν) := do
  let seq ← st.seq.addInsnOperand insn operand
  return { seq, edits := st.edits ++ [(st.seq, .addOperand insn)] }

def jumpToPop (st : OptState ν) (insn : Addr) : OptState ν :=
  { seq := st.seq.modify insn (fun i => { i with code := OpCode.opPop.toNat, operands := [] })
      fun _ => rfl
    edits := st.edits ++ [(st.seq, .jumpToPop insn)] }

/-- `replaceJumpInsn`; whether the jump was deleted. -/
def replaceJumpInsn (st : OptState ν) (jumpInsn : Insn) : Except Abort (OptState ν × Bool) :=
  if jumpInsn.is .opJump || jumpInsn.is .opJumpIfFalsePeek || jumpInsn.is .opJumpIfTruePeek then
    if !jumpInsn.isLabel then do
      let st ← st.remove jumpInsn.addr
      return (st, true)
    else .ok (st, false)
  else if jumpInsn.is .opJumpIfFalse then
    if !jumpInsn.isLabel then .ok (st.jumpToPop jumpInsn.addr, false)
    else .ok (st, false)
  else .error .unreachable

/-- The two constants in front of a binary operator that can be folded: `prev` and `prevp`. -/
def foldOperands (seq : Iseq ν) (cur : Insn) : Option (Insn × Insn) :=
  if cur.isBinOp then
    match seq.prev cur.addr with
    | none => none
    | some prev =>
      match seq.prev prev.addr with
      | none => none
      | some prevp =>
        if prev.isNumConstOp && prevp.isNumConstOp then some (prev, prevp) else none
  else none

/-- Fold `prevp prev cur` into `prevp`; the new cursor. -/
def foldConstants [LoxNum ν] (st : OptState ν) (cur prev prevp : Insn) :
    Except Abort (OptState ν × Option Addr) := do
  let newVal ← st.seq.foldConstant cur prev prevp
  if newVal.isUndef then
    return (st, (st.seq.next cur.addr).map (·.addr))
  else
    let seq ← st.seq.changeConstant prevp.operand0 newVal
    let st ← { st with seq }.remove cur.addr
    let st ← st.remove prev.addr
    return (st, some prevp.addr)

/-- Consolidate the pops `prev` and `cur`; the sequence, and `cur` as it is afterwards. -/
def consolidatePops (st : OptState ν) (prev : Option Insn) (cur : Insn) :
    Except Abort (OptState ν × Insn) :=
  match prev with
  | none => .ok (st, cur)
  | some prev =>
    if prev.isPopType && cur.isPopType && !prev.isJumpTarget && !cur.isJumpTarget then do
      let n := if prev.is .opPop then 1 else prev.operand0
      let st ← st.remove prev.addr
      if cur.is .opPop then
        let st ← st.addOperand cur.addr (n + 1)
        let seq := st.seq.modify cur.addr (fun i => { i with code := OpCode.opPopN.toNat })
          fun _ => rfl
        return ({ st with seq }, { cur with code := OpCode.opPopN.toNat })
      else
        let seq := st.seq.modify cur.addr
          (fun i => i.setOperand0 ((i.operand0 + n) % 2 ^ 32)) fun _ => rfl
        return ({ st with seq }, cur)
    else .ok (st, cur)

/-- Remove or replace the jump `cur` if its condition `prev` is a constant that never jumps;
whether it was deleted. -/
def replaceConstJump (st : OptState ν) (prev : Option Insn) (cur : Insn) :
    Except Abort (OptState ν × Bool) :=
  if cur.isJumpIfFalse && prev.any (·.constBool) then st.replaceJumpInsn cur
  else if cur.isJumpIfTrue && prev.any (!·.constBool) then st.replaceJumpInsn cur
  else .ok (st, false)

/-- The tests after the pops, which look at `prev` and `cur`: jumps to the next instruction,
jumps on a constant, unused constants. -/
def simplifyJumpOrConst (opts : CompilerOpts) (st : OptState ν) (prev : Option Insn)
    (cur : Insn) : Except Abort (OptState ν × Option Addr) := do
  let next := st.seq.next cur.addr
  if cur.isJump && cur.isJumpNextInsn then
    let (st, _) ← st.replaceJumpInsn cur
    return (st, next.map (·.addr))
  else if cur.isJump && prev.any (·.isConst) then
    let (st, deleted) ← st.replaceConstJump prev cur
    if deleted then return (st, st.seq.insns.head?.map (·.addr))
    else return (st, next.map (·.addr))
  else
    match prev with
    | some prev =>
      -- OP_BLOCK_CONTINUE takes the popped value from the previous pop, so needs it
      if !opts.noRemoveUnusedExpressions && cur.isPop && prev.noSideEffectsConst &&
          next.all (!·.is .opBlockContinue) then
        let st ← st.remove prev.addr
        let st ← st.remove cur.addr
        return (st, st.seq.insns.head?.map (·.addr))
      else return (st, next.map (·.addr))
    | none => return (st, next.map (·.addr))

/-- One pass through the body of the loop of `optimizeIseq`. -/
def optimizeStep [LoxNum ν] (opts : CompilerOpts) (st : OptState ν) (cur : Insn) :
    Except Abort (OptState ν × Option Addr) :=
  match foldOperands st.seq cur with
  | some (prev, prevp) => st.foldConstants cur prev prevp
  | none => do
    let prev := st.seq.prev cur.addr
    let (st, cur) ← st.consolidatePops prev cur
    st.simplifyJumpOrConst opts prev cur

/-- At most `fuel` passes of the loop, from the cursor `cur`; the state and cursor reached. -/
def optimizeLoop [LoxNum ν] (opts : CompilerOpts) :
    ℕ → OptState ν → Option Addr → Except Abort (OptState ν × Option Addr)
  | 0, st, cur => .ok (st, cur)
  | _ + 1, st, none => .ok (st, none)
  | fuel + 1, st, some a =>
    match st.seq.insn? a with
    | none => .error .useAfterFree
    | some cur => do
      let (st, next) ← st.optimizeStep opts cur
      optimizeLoop opts fuel st next

end OptState

namespace Iseq

variable {ν : Type} [LoxNum ν]

/-- Passes that are enough for the loop to end: each one shortens the sequence or moves on. -/
def optimizeFuel (seq : Iseq ν) : ℕ := (seq.insns.length + 1) * (seq.insns.length + 1)

/-- `optimizeIseq` -/
def optimizeIseq (opts : CompilerOpts) (seq : Iseq ν) : Except Abort (OptState ν) := do
  let (st, _) ← OptState.optimizeLoop opts seq.optimizeFuel { seq } (seq.insns.head?.map (·.addr))
  return st

/-- `copyIseqToChunk`: the words of the chunk. -/
def copyIseqToChunk (opts : CompilerOpts) (seq : Iseq ν) : Except Abort (Iseq ν × List ℕ) := do
  let seq ← if opts.noOptimize then .ok seq else (seq.optimizeIseq opts).map (·.seq)
  if seq.insns.length = seq.count then
    return (seq, (seq.insns.map Insn.words).flatten)
  else throw .assertFailed

end Iseq

end Clox
