import Clox.Ast.Node
import Clox.Compiler.Optimizer

/-! # The state of the compiler

`compiler.h` and the static state of `compiler.c`: the chain of function
compilers with their locals, upvalues and instruction sequences, the loop and
scope state, and what the compiler has finished. `Emit` is the monad of the
functions that work on it. Line numbers and the tables only the debugger reads
(`varInfo`) are left out.
-/

namespace Clox

inductive FunctionType where
  | named | init | method | classMethod | getter | setter | anon | block | topLevel | eval
deriving DecidableEq, Repr

inductive CompileScopeType where
  | main | function | if | while | foreach | for | try | in | klass | module | block
deriving DecidableEq, Repr

/-- `eLoopType` -/
inductive LoopType where
  | none | for | foreach | while | block
deriving DecidableEq, Repr

inductive VarOp where
  | get | set
deriving DecidableEq, Repr

structure Scope where
  type : CompileScopeType
  bytecodeStart : ℕ
  bytecodeEnd : Option ℕ := none
deriving DecidableEq, Repr

structure LocalVariable where
  name : String
  /-- Index of the scope in the function's `scopes`. -/
  scope : Option ℕ
  slot : ℕ
  bytecodeDeclareStart : ℕ
deriving DecidableEq, Repr

structure Local where
  name : String
  depth : ℕ
  isUpvalue : Bool := false
  popOnScopeEnd : Bool := true
deriving DecidableEq, Repr

structure Upvalue where
  index : ℕ
  isLocal : Bool
deriving DecidableEq, Repr

/-- A parameter node of a function, with its `ParamNodeInfo`. -/
structure Param where
  kind : ParamKind
  name : String
  defaultArgIPOffset : Option ℕ := none
deriving DecidableEq, Repr

/-- `ObjFunction`, as the compiler fills it in. -/
structure ObjFunction (ν : Type) where
  ftype : FunctionType
  name : Option String := none
  isBlock : Bool := false
  hasReceiver : Bool := false
  arity : ℕ := 0
  numDefaultArgs : ℕ := 0
  hasRestArg : Bool := false
  numKwargs : ℕ := 0
  hasBlockArg : Bool := false
  params : List Param := []
  localVariables : List LocalVariable := []
  scopes : List Scope := []
  localsTable : List (String × ℕ) := []
  localCount : ℕ := 0
  upvaluesInfo : List Upvalue := []
  /-- The sequence the chunk is copied from, after the optimizer. -/
  iseq : Iseq ν := {}
  /-- `chunk->code` -/
  code : List ℕ := []

/-- `CallInfo`, as the compiler fills it in. -/
structure CallInfo where
  nameTok : String
  argc : ℕ
  numKwargs : ℕ
  usesSplat : Bool
  kwargNames : List String
  blockFunction : Option ℕ := none
deriving DecidableEq, Repr

/-- `struct Compiler`; `locals` are the first `localCount` entries of the C array. -/
structure Compiler (ν : Type) where
  function : ObjFunction ν
  type : FunctionType
  locals : List Local := []
  upvalues : List Upvalue := []
  localCountMax : ℕ := 0
  scopeDepth : ℕ
  iseq : Iseq ν := {}
  constTbl : List (String × ℕ) := []
  hadError : Bool := false

/-- The static variables of `compiler.c`. -/
structure CompState (ν : Type) where
  opts : CompilerOpts
  current : Compiler ν
  /-- The compilers that enclose `current`, innermost first. -/
  enclosing : List (Compiler ν) := []
  /-- Names of the classes and modules around, innermost first. -/
  currentClassOrModule : List String := []
  inINBlock : Bool := false
  loopStart : ℤ := -1
  curLoopType : LoopType := .none
  breakBlock : Bool := false
  /-- `curScope` and its parents, as indices into the `scopes` of their functions. -/
  curScope : List ℕ := []
  loopLocalCount : ℕ := 0
  nextInsnIsLabel : Bool := false
  errMessages : List String := []
  /-- The functions finished so far, by id. -/
  functions : List (ObjFunction ν) := []
  callInfos : List CallInfo := []

/-- Computations on the compiler's state; `Abort` ends the process. -/
abbrev Emit (ν : Type) := StateT (CompState ν) (Except Abort)

/-! ## Locals and upvalues -/

/-- `LX_MAX_UPVALUES` -/
def lxMaxUpvalues : ℕ := 256

namespace Compiler

variable {ν : Type}

def localCount (c : Compiler ν) : ℕ := c.locals.length

/-- Store a local behind the others (`incrLocalCount`). -/
def pushLocal (c : Compiler ν) (l : Local) : Compiler ν :=
  { c with
    locals := c.locals ++ [l]
    localCountMax := max c.localCountMax (c.locals.length + 1) }

/-- `resolveLocal`, `-1` being `none`: the last local with the name. -/
def resolveLocal (c : Compiler ν) (name : String) : Option ℕ :=
  c.locals.findIdxs (·.name == name) |>.getLast?

/-- `addUpvalue`: the index, and whether there were too many. -/
def addUpvalue (c : Compiler ν) (index : ℕ) (isLocal : Bool) : Compiler ν × ℕ × Bool :=
  match c.upvalues.findIdx? (fun u => u.index == index && u.isLocal == isLocal) with
  | some i => (c, i, false)
  | none =>
    if c.upvalues.length = lxMaxUpvalues then (c, 0, true)
    else ({ c with upvalues := c.upvalues ++ [{ index, isLocal }] }, c.upvalues.length, false)

/-- `resolveUpvalue` for `compiler` with the compilers that enclose it: both afterwards, the
index (`-1` being `none`), and whether some function had too many upvalues. The indices are cast
to `uint8_t`. -/
def resolveUpvalue (name : String) :
    Compiler ν → List (Compiler ν) → Compiler ν × List (Compiler ν) × Option ℕ × Bool
  | compiler, [] => (compiler, [], none, false)
  | compiler, outer :: rest =>
    match outer.resolveLocal name with
    | some slot =>
      let outer := { outer with
        locals := outer.locals.modify slot fun l => { l with isUpvalue := true } }
      let (compiler, i, overflow) := compiler.addUpvalue (slot % 256) true
      (compiler, outer :: rest, some i, overflow)
    | none =>
      match resolveUpvalue name outer rest with
      | (outer, rest, some upvalue, overflow) =>
        let (compiler, i, overflow') := compiler.addUpvalue (upvalue % 256) false
        (compiler, outer :: rest, some i, overflow || overflow')
      | (outer, rest, none, overflow) => (compiler, outer :: rest, none, overflow)

end Compiler

namespace Emit

variable {ν : Type}

/-- A sequence that succeeds: what its two parts did. -/
theorem bind_eq_ok {α β : Type} {m : Emit ν α} {f : α → Emit ν β} {s s' : CompState ν}
    {b : β} (h : (m >>= f) s = .ok (b, s')) :
    ∃ a s₁, m s = .ok (a, s₁) ∧ f a s₁ = .ok (b, s') := by
  have h' : (m s >>= fun r => f r.1 r.2) = .ok (b, s') := h
  rcases Except.bind_eq_ok.mp h' with ⟨⟨a, s₁⟩, h₁, h₂⟩
  exact ⟨a, s₁, h₁, h₂⟩

def modifyCurrent (f : Compiler ν → Compiler ν) : Emit ν Unit :=
  modify fun s => { s with current := f s.current }

def modifyFunction (f : ObjFunction ν → ObjFunction ν) : Emit ν Unit :=
  modifyCurrent fun c => { c with function := f c.function }

def modifyIseq (f : Iseq ν → Iseq ν) : Emit ν Unit :=
  modifyCurrent fun c => { c with iseq := f c.iseq }

/-- `currentIseq` -/
def currentIseq : Emit ν (Iseq ν) := return (← get).current.iseq

/-- Set `hadError` of the outermost compiler, `top`. -/
def markTop : List (Compiler ν) → List (Compiler ν)
  | [] => []
  | [c] => [{ c with hadError := true }]
  | c :: rest => c :: markTop rest

/-- `error` -/
def error (msg : String) : Emit ν Unit :=
  modify fun s => { s with
    errMessages := s.errMessages ++ [msg]
    current := { s.current with hadError := true }
    enclosing := markTop s.enclosing }

/-! ## Constants -/

/-- `makeConstant` of a value that is not memoized. -/
def makeConstant (value : Value ν) : Emit ν ℕ := do
  let (iseq, idx) := (← currentIseq).iseqAddConstant value
  modifyIseq fun _ => iseq
  return idx

/-- `makeConstant` of a string literal (`CONST_T_STRLIT`); `identifierConstant` is the same. -/
def identifierConstant (name : String) : Emit ν ℕ := do
  match (← get).current.constTbl.lookup name with
  | some idx => return idx
  | none =>
    let idx ← makeConstant (.string name)
    modifyCurrent fun c => { c with constTbl := (name, idx) :: c.constTbl }
    return idx

/-! ## Instructions -/

/-- `emitInsn`; the address of the new instruction. -/
def emitInsn (code : ℕ) (operands : List ℕ) (flNumber : Bool) : Emit ν Addr := do
  let s ← get
  let insn : Insn := { addr := 0, code, operands, flNumber, isLabel := s.nextInsnIsLabel }
  set { s with
    nextInsnIsLabel := false
    current := { s.current with iseq := s.current.iseq.iseqAddInsn insn } }
  return s.current.iseq.nextAddr

/-- `emitOp0`, `emitOp1`, `emitOp2` and `emitOp3` -/
def emitOp (op : OpCode) (operands : List ℕ) : Emit ν Unit := do
  let _ ← emitInsn op.toNat operands false

/-- `emitConstant` of a number literal. -/
def emitNumber (n : ν) : Emit ν Unit := do
  let idx ← makeConstant (.number n)
  let _ ← emitInsn OpCode.opConstant.toNat [idx] true

/-- `emitJump`: patched later. -/
def emitJump (op : OpCode) : Emit ν Addr := emitInsn op.toNat [0] false

def updateInsn (a : Addr) (f : Insn → Insn) (hf : ∀ i, (f i).addr = i.addr) : Emit ν Unit :=
  modifyIseq fun seq => seq.modify a f hf

theorem addr_jumpTo (a : Addr) (i : Insn) : ({ i with jumpTo := some a } : Insn).addr = i.addr := rfl

theorem addr_label (i : Insn) : ({ i with isLabel := true } : Insn).addr = i.addr := rfl

/-- A pointer that is dereferenced. -/
def deref {α : Type} : Option α → Emit ν α
  | some a => return a
  | none => throw .nullDeref

def assert (b : Bool) : Emit ν Unit := if b then return () else throw .assertFailed

theorem deref_eq_ok {α : Type} {o : Option α} {a : α} {s s' : CompState ν}
    (h : (deref o : Emit ν α) s = .ok (a, s')) : o = some a ∧ s' = s := by
  cases o <;> cases h
  exact ⟨rfl, rfl⟩

theorem assert_eq_ok {b : Bool} {u : Unit} {s s' : CompState ν}
    (h : (assert b : Emit ν Unit) s = .ok (u, s')) : b = true ∧ s' = s := by
  cases b <;> cases h
  exact ⟨rfl, rfl⟩

/-- `insnOffset` -/
def insnOffset (first last : Addr) : Emit ν ℕ := do
  let seq ← currentIseq
  let i := Layout.index (·.addr) seq.insns first
  let j := Layout.index (·.addr) seq.insns last
  assert (i ≤ j && last ∈ seq.insns.map (·.addr))
  return Layout.width Insn.size ((seq.insns.drop i).take (j - i))

/-- `patchJump` with the offset `jumpoffset` to the instruction `jumpTo`. -/
def patchJumpTo (toPatch : Addr) (jumpoffset : ℕ) (jumpTo : Addr) (jumpToNext : Bool) :
    Emit ν Unit := do
  let patch ← deref ((← currentIseq).insn? toPatch)
  assert (patch.operand0 == 0)
  assert (patch.jumpTo == none)
  updateInsn toPatch (fun i => i.setOperand0 jumpoffset) fun _ => rfl
  if jumpToNext then
    modify fun s => { s with nextInsnIsLabel := true }
    updateInsn toPatch (fun i => { i with jumpToPrev := some jumpTo }) fun _ => rfl
  else
    updateInsn toPatch (fun i => { i with jumpTo := some jumpTo }) (addr_jumpTo jumpTo)
    updateInsn jumpTo (fun i => { i with isLabel := true }) addr_label

/-- `patchJump` with `jumpoffset` `-1`: to behind `jumpTo`, or behind the last instruction. -/
def patchJump (toPatch : Addr) (jumpTo : Option Addr) : Emit ν Unit := do
  let seq ← currentIseq
  let jumpTo ← deref (jumpTo.or (seq.tail.map (·.addr)))
  let insn ← deref (seq.insn? jumpTo)
  let offset ← insnOffset toPatch jumpTo
  patchJumpTo toPatch (offset + insn.numOperands) jumpTo (seq.next jumpTo).isNone

/-- `getInsnTail` -/
def getInsnTail (tailIndex : ℕ) : Emit ν (Option Insn) :=
  return (← currentIseq).insns.reverse[tailIndex]?

/-- `isPopType2` -/
def isPopType2 (i : Insn) : Bool := i.is .opPop || i.is .opPopN || i.is .opPopDebug

/-- The instructions from `a` up to and without `b`. -/
def insnsBetween (seq : Iseq ν) (a b : Addr) : List Insn :=
  let i := Layout.index (·.addr) seq.insns a
  let j := Layout.index (·.addr) seq.insns b
  (seq.insns.drop i).take (j - i)

/-- `patchContinuesBetween` -/
def patchContinuesBetween (a b : Addr) : Emit ν Unit := do
  forM (insnsBetween (← currentIseq) a b) fun cur => do
    -- isContinue
    if cur.is .opJump && cur.flContinue then
      let jumpTo ← getInsnTail cur.extra
      if 0 < cur.extra then assert (isPopType2 (← deref jumpTo))
      patchJump cur.addr (jumpTo.map (·.addr))

/-- `emitLoop` -/
def emitLoop (loopStart : ℤ) : Emit ν Unit := do
  let seq ← currentIseq
  let offset : ℤ := seq.wordCount - loopStart + 2
  assert (0 ≤ offset)
  let loopInsn ← emitInsn OpCode.opLoop.toNat [offset.toNat] false
  match (← currentIseq).insnAtOffset (loopStart - 2).toNat with
  | none => throw .assertFailed
  | some target =>
    updateInsn loopInsn (fun i => { i with jumpTo := some target.addr }) (addr_jumpTo target.addr)
    updateInsn target.addr (fun i => { i with isLabel := true }) addr_label

/-- `patchBreaks`, `after` being a positive `offset`: breaks go behind `last`. -/
def patchBreaks (first last : Addr) (after : Bool) : Emit ν Unit := do
  let seq ← currentIseq
  let lastInsn ← deref (seq.insn? last)
  forM (insnsBetween seq first last) fun cur => do
    if cur.is .opBreak && cur.operand0 == 0 then
      if after then modify fun s => { s with nextInsnIsLabel := true }
      let off ← insnOffset cur.addr last
      let off := if after then off + lastInsn.size else off
      updateInsn cur.addr (fun i => i.setOperand0 off) fun _ => rfl
      unless after do updateInsn last (fun i => { i with isLabel := true }) addr_label

/-! ## Scopes and variables -/

/-- `pushScope` -/
def pushScope (stype : CompileScopeType) : Emit ν Unit := do
  let s ← get
  let scopes := s.current.function.scopes
  modifyFunction fun f => { f with
    scopes := scopes ++ [{ type := stype, bytecodeStart := s.current.iseq.wordCount }] }
  modifyCurrent fun c => { c with scopeDepth := c.scopeDepth + 1 }
  modify fun s => { s with curScope := scopes.length :: s.curScope }

/-- `emitReturn` -/
def emitReturn : Emit ν Unit := do
  let s ← get
  let compiler := s.current
  assert (compiler.type ≠ .topLevel)
  if compiler.type = .init then
    emitOp .opGetThis []
    emitOp .opReturn []
  else if s.breakBlock && compiler.type = .block then
    if compiler.iseq.count = 0 then
      emitOp .opNil []
    -- continue with last evaluated statement
    emitOp .opBlockContinue []
  else if compiler.type = .block then
    if compiler.iseq.count = 0 then
      emitOp .opNil []
      emitOp .opPop []
    emitOp .opBlockContinue []
  else
    emitOp .opNil []
    emitOp .opReturn []

/-- The pops of `popScope`, for the locals from the last one down. -/
def popLocals (ctype : FunctionType) (scopeDepth : ℕ) : List Local → Emit ν Unit
  | [] => return ()
  | l :: rest =>
    if scopeDepth ≤ l.depth then do
      if l.isUpvalue then
        emitOp .opCloseUpvalue []
      else if ctype ≠ .block && l.popOnScopeEnd then
        emitOp .opPop []
      modifyCurrent fun c => { c with locals := c.locals.dropLast }
      popLocals ctype scopeDepth rest
    else return ()

/-- `popScope` -/
def popScope (stype : CompileScopeType) : Emit ν Unit := do
  let c := (← get).current
  popLocals c.type c.scopeDepth c.locals.reverse
  if stype = .function || stype = .main then emitReturn
  let wordCount := (← currentIseq).wordCount
  match (← get).curScope with
  | [] => throw .nullDeref
  | scope :: parents =>
    modifyFunction fun f => { f with
      scopes := f.scopes.modify scope fun sc => { sc with bytecodeEnd := some wordCount } }
    modify fun s => { s with curScope := parents }
  modifyCurrent fun c => { c with scopeDepth := c.scopeDepth - 1 }

/-- `UINT8_MAX`, the limit on locals and on the elements of a literal. -/
def uint8Max : ℕ := 255

/-- `addLocal`, `-1` being `none`. -/
def addLocal (name : String) : Emit ν (Option ℕ) := do
  let s ← get
  if uint8Max ≤ s.current.localCount then
    error "Too many local variables"
    return none
  else
    let slot := s.current.localCount
    modifyCurrent fun c => c.pushLocal { name, depth := c.scopeDepth }
    modifyFunction fun f => { f with
      localVariables := f.localVariables ++ [{
        name
        scope := s.curScope.head?
        slot
        bytecodeDeclareStart := s.current.iseq.wordCount }] }
    return some slot

/-- `addFakeLocal` -/
def addFakeLocal (popOnScopeEnd : Bool) : Emit ν Unit := do
  let s ← get
  assert (0 < s.current.scopeDepth)
  if uint8Max ≤ s.current.localCount then error "Too many local variables"
  else modifyCurrent fun c => c.pushLocal { name := "_", depth := c.scopeDepth, popOnScopeEnd }

/-- `declareVariable`, `-1` being `none`. -/
def declareVariable (name : String) : Emit ν (Option ℕ) := do
  let c := (← get).current
  if c.scopeDepth = 0 then
    return some (← identifierConstant name)
  else if (c.locals.reverse.takeWhile fun l => c.scopeDepth ≤ l.depth).any (·.name == name) then
    error ("Variable with name '" ++ name ++ "' already defined in this scope.")
    return none
  else
    let index ← addLocal name
    match index with
    | some slot =>
      modifyFunction fun f => { f with
        localsTable := (name, slot) :: f.localsTable.filter (·.1 ≠ name) }
    | none => pure ()
    return index

/-- `defineVariable` -/
def defineVariable (arg : ℕ) : Emit ν Unit := do
  let c := (← get).current
  if c.scopeDepth = 0 then
    emitOp .opDefineGlobal [arg]
  else
    modifyCurrent fun c => { c with
      locals := c.locals.modify arg fun l => { l with depth := c.scopeDepth } }

/-- `namedVariable` -/
def namedVariable (name : String) (getSet : VarOp) : Emit ν Unit := do
  let s ← get
  match s.current.resolveLocal name with
  | some slot =>
    let varNameSlot ← identifierConstant name
    emitOp (if getSet = .set then .opSetLocal else .opGetLocal) [slot, varNameSlot]
  | none =>
    let (current, enclosing, upvalue, overflow) :=
      Compiler.resolveUpvalue name s.current s.enclosing
    set { s with current, enclosing }
    if overflow then error "Too many closure variables in function."
    match upvalue with
    | some i =>
      let varNameSlot ← identifierConstant name
      emitOp (if getSet = .set then .opSetUpvalue else .opGetUpvalue) [i, varNameSlot]
    | none =>
      let arg ← identifierConstant name
      emitOp (if getSet = .set then .opSetGlobal else .opGetGlobal) [arg]

/-! ## Functions -/

/-- The name `initCompiler` gives a function. -/
def functionName (ftype : FunctionType) (classes : List String) (tok : String) : Option String :=
  match ftype with
  | .named => some tok
  | .init | .getter | .setter | .method =>
    some (String.intercalate "::" classes.reverse ++ "#" ++ tok)
  | .classMethod => some (String.intercalate "::" classes.reverse ++ "." ++ tok)
  | .anon | .block | .topLevel | .eval => none

/-- The compiler `initCompiler` sets up. -/
def freshCompiler (scopeDepth : ℕ) (ftype : FunctionType) (name : Option String) : Compiler ν :=
  let hasReceiver := ftype = .method ∨ ftype = .init ∨ ftype = .getter ∨ ftype = .setter ∨
    ftype = .classMethod
  let c : Compiler ν :=
    { function := { ftype, name, isBlock := decide (ftype = .block), hasReceiver }
      type := ftype
      scopeDepth }
  -- the first slot is always implicitly declared, unless in top-level (main)
  if ftype = .topLevel then c else c.pushLocal { name := "", depth := scopeDepth }

/-- `initCompiler` -/
def initCompiler (ftype : FunctionType) (tok : String) : Emit ν Unit := do
  let s ← get
  let name := functionName ftype s.currentClassOrModule tok
  set { s with
    current := freshCompiler s.current.scopeDepth ftype name
    enclosing := s.current :: s.enclosing }

/-- The function of a compiler whose code is complete. -/
def finishFunction [LoxNum ν] (opts : CompilerOpts) (c : Compiler ν) :
    Except Abort (ObjFunction ν) := do
  let (iseq, code) ← c.iseq.copyIseqToChunk opts
  return { c.function with
    iseq, code, localCount := c.localCountMax, upvaluesInfo := c.upvalues }

/-- `endCompiler`, for a function inside another; the id of the function. -/
def endCompiler [LoxNum ν] : Emit ν ℕ := do
  let s ← get
  let func ← finishFunction s.opts s.current
  match s.enclosing with
  | [] => throw .nullDeref
  | outer :: rest =>
    set { s with
      current := outer
      enclosing := rest
      functions := s.functions ++ [func] }
    return s.functions.length

end Emit

end Clox
