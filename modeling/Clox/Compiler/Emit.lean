import Clox.Compiler.State

/-! # Code generation

`emitNode` of `compiler.c` with the functions it calls, over the syntax trees
of `Node`. Functions that emit children in the middle of their own work
(`emitCall`, `emitFunction`) take the emission of the children as an argument,
so that the recursion stays with `emitNode`.

Emitting an array or map literal reverses its children in the tree
(`vec_reverse`). The one node that is emitted twice is the object of
`obj.name op= rval`; `flipped` says that the literals of the tree have been
reversed before.
-/

namespace Clox

namespace Emit

variable {ν : Type} [LoxNum ν]

/-! ## Expressions without children -/

/-- `emitBinaryOp` -/
def emitBinaryOp : BinaryTok → Emit ν Unit
  | .plus => emitOp .opAdd []
  | .minus => emitOp .opSubtract []
  | .star => emitOp .opMultiply []
  | .slash => emitOp .opDivide []
  | .percent => emitOp .opModulo []
  | .less => emitOp .opLess []
  | .lessEqual => emitOp .opLessEqual []
  | .greater => emitOp .opGreater []
  | .greaterEqual => emitOp .opGreaterEqual []
  | .equalEqual => emitOp .opEqual []
  | .bangEqual => emitOp .opNotEqual []
  | .pipe => emitOp .opBitor []
  | .amp => emitOp .opBitand []
  | .caret => emitOp .opBitxor []
  | .shovelL => emitOp .opShovelL []
  | .shovelR => emitOp .opShovelR []

/-- `numberLiteral`, the value. -/
def numberLiteral (numStr : String) : ν :=
  match numStr.toList with
  | '0' :: 'c' :: rest | '0' :: 'C' :: rest => LoxNum.strtol8 (String.ofList rest)
  | '0' :: 'b' :: rest | '0' :: 'B' :: rest => LoxNum.strtol2 (String.ofList rest)
  | _ => LoxNum.strtod numStr

/-- `isConstExprNodeCanEmbed` and `valueFromConstNode` (NaN tagging is on). -/
def constNode? : Node → Option (Value ν)
  | .literal (.number numStr) => some (.number (numberLiteral numStr))
  | .literal .true => some (.bool true)
  | .literal .false => some (.bool false)
  | .literal .nil => some .nil
  | _ => none

/-- The values of children that are all constants. -/
def constNodes? : List Node → Option (List (Value ν))
  | [] => some []
  | n :: rest =>
    match constNode? n, constNodes? rest with
    | some v, some vs => some (v :: vs)
    | _, _ => none

/-- The map constant of a `MAP_EXPR`; its keys are no heap objects. -/
def mapConstant (entries : List (Value ν × Value ν)) : List (Value ν) → List (Value ν × Value ν)
  | key :: val :: rest => mapConstant (Value.tableSet (fun _ _ => false) key val entries) rest
  | _ => entries

/-- `LITERAL_EXPR` -/
def emitLiteral : Literal → Emit ν Unit
  | .number numStr => emitNumber (numberLiteral numStr)
  | .regex str => do emitOp .opRegex [← identifierConstant str]
  | .string str isStatic => do
    emitOp .opString [← identifierConstant str, if isStatic then 1 else 0]
  | .true => emitOp .opTrue []
  | .false => emitOp .opFalse []
  | .nil => emitOp .opNil []

/-! ## Calls -/

/-- `emitCall`: the id of the call info, unless there was an error. `emitLhs` emits the left side,
of a `PROP_ACCESS_EXPR` its children only. -/
def emitCall (nameTok : String) (lhs : Node) (args : List Node) (emitLhs emitArgs : Emit ν Unit) :
    Emit ν (Option ℕ) := do
  let nArgs := args.length
  if 8 < nArgs then
    error ("too many arguments given to function (" ++ toString nArgs ++ "), maximum 8")
    return none
  else
    let kwargNames := args.filterMap fun arg =>
      match arg with
      | .kwargInCall name _ => some name
      | _ => none
    let splats := args.filter fun arg =>
      match arg with
      | .splat _ => true
      | _ => false
    let callInfo : CallInfo :=
      { nameTok
        argc := args.length + 1 - kwargNames.length - splats.length
        numKwargs := kwargNames.length
        usesSplat := !splats.isEmpty
        kwargNames }
    emitLhs
    let methodNameArg ← match lhs with
      | .propAccess _ name => some <$> identifierConstant name
      | _ => pure none
    emitArgs
    let id := (← get).callInfos.length
    modify fun s => { s with callInfos := s.callInfos ++ [callInfo] }
    let callInfoConstSlot ← makeConstant (.internal id)
    match methodNameArg with
    | some methodNameArg => emitOp .opInvoke [methodNameArg, nArgs, callInfoConstSlot]
    | none => emitOp .opCall [nArgs, callInfoConstSlot]
    return some id

/-! ## Functions and classes -/

/-- Declare and define a parameter; the slot as a `uint8_t`. -/
def declareParam (name : String) : Emit ν ℕ := do
  let localSlot := (← declareVariable name).getD uint8Max
  defineVariable localSlot
  return localSlot

/-- The first loop over the parameters: the regular ones. -/
def declareRegularParams : List Node → Emit ν Unit
  | [] => return ()
  | .param .regular name _ :: rest => do
    let _ ← declareParam name
    modifyFunction fun f => { f with arity := f.arity + 1 }
    declareRegularParams rest
  | _ :: rest => declareRegularParams rest

/-- `PARAM_NODE_DEFAULT_ARG` -/
def emitDefaultArg (name : String) (emitDefault : Emit ν Unit) : Emit ν Unit := do
  let localSlot ← declareParam name
  modifyFunction fun f => { f with numDefaultArgs := f.numDefaultArgs + 1 }
  let insnBefore := (← currentIseq).tail
  emitDefault
  emitOp .opSetLocal [localSlot, ← identifierConstant name]
  emitOp .opPop []
  let seq ← currentIseq
  let insnAfter ← deref seq.tail
  let codeDiff := seq.iseqInsnWordDiff (insnBefore.map (·.addr)) insnAfter.addr
  modifyFunction fun f => { f with
    params := f.params ++ [{ kind := .defaultArg, name, defaultArgIPOffset := some codeDiff }] }

/-- `PARAM_NODE_KWARG` -/
def emitKwarg (numParams : ℕ) (name : String) (emitDefault : Emit ν Unit) : Emit ν Unit := do
  let localSlot ← declareParam name
  emitOp .opCheckKeyword [localSlot, numParams + 1]
  modifyFunction fun f => { f with numKwargs := f.numKwargs + 1 }
  let ifJumpStart ← emitJump .opJumpIfTrue
  emitDefault
  emitOp .opSetLocal [localSlot, ← identifierConstant name]
  emitOp .opPop []
  patchJump ifJumpStart none
  modifyFunction fun f => { f with params := f.params ++ [{ kind := .kwarg, name }] }

/-- The other parameters of the second loop; regular ones were handled in the first. -/
def emitOtherParam (kind : ParamKind) (name : String) : Emit ν Unit := do
  if kind = .splat then
    let _ ← declareParam name
    modifyFunction fun f => { f with hasRestArg := true }
  else if kind = .block then
    let _ ← declareParam name
    modifyFunction fun f => { f with hasBlockArg := true }
  modifyFunction fun f => { f with params := f.params ++ [{ kind, name }] }

def isKwargParam : Node → Bool
  | .param .kwarg _ _ => true
  | _ => false

/-- `emitFunction`, up to its last switch: the id of the function. -/
def emitFunctionCode (name : String) (ftype : FunctionType) (params : List Node)
    (emitParams emitBody : Emit ν Unit) : Emit ν ℕ := do
  initCompiler ftype name
  pushScope .function
  declareRegularParams params
  emitParams
  if params.any isKwargParam then addFakeLocal true
  let oldBreakBlock := (← get).breakBlock
  if ftype = .block then modify fun s => { s with breakBlock := true }
  let oldLoopType := (← get).curLoopType
  modify fun s => { s with curLoopType := .block }
  emitBody
  modify fun s => { s with curLoopType := oldLoopType }
  if ftype = .block then modify fun s => { s with breakBlock := oldBreakBlock }
  popScope .function
  let upvalues := (← get).current.upvalues
  let id ← endCompiler
  if ftype ≠ .block then
    -- save the chunk as a constant in the parent (now current) chunk
    emitOp .opClosure [← makeConstant (.function id)]
    forM upvalues fun upvalue => do
      let _ ← emitInsn (if upvalue.isLocal then 1 else 0) [] false
      let _ ← emitInsn upvalue.index [] false
  return id

/-- `emitFunction` -/
def emitFunction (name : String) (ftype : FunctionType) (params : List Node)
    (emitParams emitBody : Emit ν Unit) : Emit ν ℕ := do
  let id ← emitFunctionCode name ftype params emitParams emitBody
  let s ← get
  match ftype with
  | .topLevel | .block | .anon => return id
  | _ =>
    if (s.currentClassOrModule.isEmpty && !s.inINBlock) || ftype = .named then
      namedVariable name .set
      emitOp .opPop []
    else
      match ftype with
      | .method | .init => emitOp .opMethod [← identifierConstant name]
      | .classMethod => emitOp .opClassMethod [← identifierConstant name]
      | .getter => emitOp .opGetter [← identifierConstant name]
      | .setter => emitOp .opSetter [← identifierConstant name]
      | _ => throw .unreachable
    return id

/-- The function type a node kind is emitted with. -/
def functionType : FunctionKind → String → FunctionType
  | .function, _ => .named
  | .method, name => if name = "init" then .init else .method
  | .classMethod, _ => .classMethod
  | .getter, _ => .getter
  | .setter, _ => .setter
  | .anon, _ => .anon

/-- The message for a method kind outside a class, module or `in` body. -/
def outsideClassMessage : FunctionKind → Option String
  | .method =>
    some "Methods can only be declared in classes and modules. Maybe forgot keyword 'fun'?"
  | .classMethod => some "Static methods can only be declared in classes and modules."
  | .getter => some "Getter methods can only be declared in classes and modules"
  | .setter => some "Setter methods can only be declared in classes and modules"
  | .function | .anon => none

/-- `emitClass` -/
def emitClass (name : String) (superClass : Option String) (emitBody : Emit ν Unit) :
    Emit ν Unit := do
  let nameConstant ← identifierConstant name
  let enclosing := (← get).currentClassOrModule
  modify fun s => { s with currentClassOrModule := name :: enclosing }
  pushScope .klass
  match superClass with
  | some superName =>
    namedVariable superName .get
    emitOp .opSubclass [nameConstant]
  | none => emitOp .opClass [nameConstant]
  addFakeLocal false
  emitBody
  popScope .klass
  emitOp .opPopCref []
  modify fun s => { s with currentClassOrModule := enclosing }

/-- `emitModule` -/
def emitModule (name : String) (emitBody : Emit ν Unit) : Emit ν Unit := do
  let nameConstant ← identifierConstant name
  let enclosing := (← get).currentClassOrModule
  modify fun s => { s with currentClassOrModule := name :: enclosing }
  emitOp .opModule [nameConstant]
  pushScope .module
  emitBody
  popScope .module
  emitOp .opPopCref []
  modify fun s => { s with currentClassOrModule := enclosing }

/-- `emitIn` -/
def emitIn (emitExpr emitBody : Emit ν Unit) : Emit ν Unit := do
  let oldIn := (← get).inINBlock
  emitExpr
  emitOp .opIn []
  modify fun s => { s with inINBlock := true }
  pushScope .in
  emitBody
  popScope .in
  emitOp .opPop []
  modify fun s => { s with inINBlock := oldIn }

/-! ## Statements -/

/-- `VAR_STMT`, after the values are on the stack: one variable. `slotIdx` is its place in the
array that is unpacked, if one is. -/
def emitVarDecl (name : String) (slotIdx : Option ℕ) : Emit ν Bool := do
  match ← declareVariable name with
  | none => return false
  | some arg =>
    match (← get).current.scopeDepth == 0, slotIdx with
    | true, none => emitOp .opDefineGlobal [arg]
    | true, some i => emitOp .opUnpackDefineGlobal [arg, i]
    | false, none => emitOp .opSetLocal [arg, ← identifierConstant name]
    | false, some i => emitOp .opUnpackSetLocal [arg, i, ← identifierConstant name]
    return true

/-- The variables of a `VAR_STMT`; stops after the first that is already declared. -/
def emitVarDecls : List String → Option ℕ → Emit ν Unit
  | [], _ => return ()
  | name :: rest, slotIdx => do
    if ← emitVarDecl name slotIdx then emitVarDecls rest (slotIdx.map (· + 1))

/-- `VAR_STMT` -/
def emitVar (name : String) (more : List String) (emitInit : Option (Emit ν Unit)) :
    Emit ν Unit := do
  match emitInit with
  | none =>
    emitOp .opNil []
    emitVarDecls [name] none
  | some emitInit =>
    emitInit
    if more.isEmpty then emitVarDecls [name] none
    else
      -- a slot for the array
      if 0 < (← get).current.scopeDepth then addFakeLocal true
      emitVarDecls (name :: more) (some 0)

/-- `IF_STMT` -/
def emitIf (emitCond emitThen : Emit ν Unit) (emitElse : Option (Emit ν Unit)) : Emit ν Unit := do
  emitCond
  let ifJumpStart ← emitJump .opJumpIfFalse
  pushScope .if
  emitThen
  match emitElse with
  | none => patchJump ifJumpStart none
  | some emitElse =>
    let elseJump ← emitJump .opJump
    patchJump ifJumpStart none
    emitElse
    patchJump elseJump none
  popScope .if

/-- The body of a loop, with the loop type and local count it sets. -/
def emitLoopBody (loopType : LoopType) (emitBody : Emit ν Unit) : Emit ν Unit := do
  let oldLoopLocalCount := (← get).loopLocalCount
  modify fun s => { s with loopLocalCount := s.current.localCount }
  emitBody
  modify fun s => { s with loopLocalCount := oldLoopLocalCount, curLoopType := loopType }

/-- `WHILE_STMT` -/
def emitWhile (emitCond emitBody : Emit ν Unit) : Emit ν Unit := do
  let s ← get
  let tail := s.current.iseq.tail
  let loopStart : ℤ := s.current.iseq.wordCount + 2
  set { s with breakBlock := false, loopStart }
  emitCond
  let seq ← currentIseq
  -- beginning of conditional
  let loopLabel := match tail with
    | some last => (seq.next last.addr).map (·.addr)
    | none => seq.tail.map (·.addr)
  let whileJumpStart ← emitJump .opJumpIfFalse
  updateInsn whileJumpStart (fun i => { i with isLabel := true }) addr_label
  let oldLoopType := (← get).curLoopType
  modify fun s => { s with curLoopType := .while }
  pushScope .while
  emitLoopBody oldLoopType emitBody
  updateInsn (← deref loopLabel) (fun i => { i with jumpTo := some whileJumpStart })
    (addr_jumpTo whileJumpStart)
  emitLoop (← get).loopStart
  patchJump whileJumpStart none
  patchBreaks whileJumpStart (← deref (← currentIseq).tail).addr true
  modify fun s' => { s' with loopStart := s.loopStart, breakBlock := s.breakBlock }
  popScope .while

/-- `FOR_STMT` -/
def emitFor (emitInit : Option (Emit ν Unit)) (emitTest : Option (Emit ν Unit))
    (emitIncr : Option (Emit ν Unit)) (emitBody : Emit ν Unit) : Emit ν Unit := do
  pushScope .for
  emitInit.getD (pure ())
  let s ← get
  let beforeTest : ℤ := s.current.iseq.wordCount + 2
  set { s with loopStart := beforeTest }
  emitTest.getD (emitOp .opTrue [])
  let forJump ← emitJump .opJumpIfFalse
  let lastLoopType := (← get).curLoopType
  modify fun s => { s with curLoopType := .for }
  emitLoopBody lastLoopType emitBody
  emitIncr.getD (pure ())
  emitLoop beforeTest
  patchJump forJump none
  patchBreaks forJump (← deref (← currentIseq).tail).addr true
  modify fun s' => { s' with loopStart := s.loopStart, breakBlock := s.breakBlock }
  popScope .for

/-- The slots of the variables of a `FOREACH_STMT`, as `uint8_t`. -/
def declareVarSlots : List String → Emit ν (List ℕ)
  | [] => return []
  | name :: rest => do
    let varSlot := (← declareVariable name).getD uint8Max
    return varSlot :: (← declareVarSlots rest)

/-- The stores into the variables of a `FOREACH_STMT`. -/
def emitForeachSets (numVars : ℕ) : List (String × ℕ) → ℕ → Emit ν Unit
  | [], _ => return ()
  | (name, slotNum) :: rest, slotIdx => do
    let nameIdx ← identifierConstant name
    if 1 < numVars then emitOp .opUnpackSetLocal [slotNum, slotIdx, nameIdx]
    else emitOp .opSetLocal [slotNum, nameIdx]
    emitForeachSets numVars rest (slotIdx + 1)

/-- `n` times `OP_POP`. -/
def emitPops : ℕ → Emit ν Unit
  | 0 => return ()
  | n + 1 => do
    emitOp .opPop []
    emitPops n

/-- `FOREACH_STMT` -/
def emitForeach (vars : List String) (emitIter emitBody : Emit ν Unit) : Emit ν Unit := do
  pushScope .foreach
  let numVars := vars.length
  -- don't overwrite the iterator with the variables
  addFakeLocal true
  if 1 < numVars then addFakeLocal true
  let slots ← declareVarSlots vars
  emitIter
  emitOp .opIter []
  let beforeIterNext : ℤ := (← currentIseq).wordCount + 2
  emitOp .opIterNext []
  let iterDone ← emitJump .opJumpIfFalsePeek
  emitForeachSets numVars (vars.zip slots) 0
  let beforeForeach := (← deref (← currentIseq).tail).addr
  let lastLoopType := (← get).curLoopType
  modify fun s => { s with curLoopType := .foreach }
  emitLoopBody lastLoopType emitBody
  let afterForeach := (← deref (← currentIseq).tail).addr
  patchContinuesBetween beforeForeach afterForeach
  -- pop the iterator values, and the array they were unpacked from
  emitPops (if numVars = 1 then 1 else if 1 < numVars then numVars + 1 else 0)
  emitLoop beforeIterNext
  popScope .foreach
  patchJump iterDone none
  emitOp .opPop []
  patchBreaks beforeForeach (← deref (← currentIseq).tail).addr false
  emitOp .opPop []

/-- `BREAK_STMT` -/
def emitBreakStmt : Emit ν Unit := do
  let s ← get
  match s.curLoopType with
  | .none => error "'break' can only be used in loops ('while', 'for', 'foreach' loops) and blocks"
  | .block => emitOp .opBlockBreak []
  | _ =>
    -- emitBreak: patched later
    emitOp .opBreak [0, s.current.localCount - s.loopLocalCount]

/-- `CONTINUE_STMT` -/
def emitContinueStmt : Emit ν Unit := do
  let s ← get
  match s.curLoopType with
  | .none =>
    error "'continue' can only be used in loops ('while', 'for', 'foreach' loops) and blocks"
  | .block =>
    -- the chunk is written only when the function ends, so its count is 0
    emitOp .opNil []
    emitOp .opPop []
    emitOp .opBlockContinue []
  | .foreach =>
    let jump ← emitJump .opJump
    updateInsn jump
      (fun i => { i with
        flContinue := true
        extra := s.current.localCount - s.loopLocalCount })
      fun _ => rfl
  | .while | .for => emitLoop s.loopStart

/-- `RETURN_STMT` -/
def emitReturnStmt (emitExpr : Option (Emit ν Unit)) : Emit ν Unit := do
  match emitExpr with
  | some emitExpr =>
    -- always return instance in init function
    if (← get).current.type = .init then emitOp .opGetThis []
    else emitExpr
    if (← get).breakBlock then
      assert ((← get).current.type = .block)
      emitOp .opBlockReturn []
    else emitOp .opReturn []
  | none =>
    if (← get).breakBlock then
      emitOp .opNil []
      emitOp .opBlockReturn []
    else if (← get).current.type = .block then emitOp .opBlockContinue []
    else emitReturn

/-- The class name of a catch row, from the constant's last name to its first. -/
def catchClassName : List String → String
  | [] => ""
  | [name] => name
  | [name, pre] => pre ++ "::" ++ name
  | name :: pre :: rest => pre ++ "::" ++ name ++ catchClassName (pre :: rest)

def patchJumps (jumps : List Addr) : Emit ν Unit :=
  forM jumps fun jump => patchJump jump none

def isCatchOrElse : Node → Bool
  | .catchStmt _ _ _ | .tryElse _ => true
  | _ => false

/-- A catch clause; whether the next clause needs a jump past it. -/
def emitCatch (ifrom ito : ℕ) (className : List String) (var : Option String)
    (emitBlock : Emit ν Unit) (jumpOver : Bool) : Emit ν (List Addr) := do
  let seq ← currentIseq
  let (seq, catchTblRowIdx) := seq.iseqAddCatchRow
    { ifrom, ito, itarget := seq.wordCount, catchVal := .string (catchClassName className) }
  modifyIseq fun _ => seq
  pushScope .try
  match var with
  | some varName =>
    emitOp .opGetThrown [← makeConstant (.number (LoxNum.ofNat catchTblRowIdx))]
    let _ ← declareVariable varName
    namedVariable varName .set
  | none => pure ()
  emitBlock
  let jumps ← if jumpOver then (fun jump => [jump]) <$> emitJump .opJump else pure []
  popScope .try
  return jumps

/-- An ensure clause. -/
def emitEnsure (ifrom ito : ℕ) (emitBlock : Emit ν Unit) : Emit ν Unit := do
  let seq ← currentIseq
  let (seq, catchTblRowIdx) := seq.iseqAddCatchRow
    { ifrom, ito, itarget := seq.wordCount, isEnsure := true }
  modifyIseq fun _ => seq
  let rethrowIfArg ← makeConstant (.number (LoxNum.ofNat catchTblRowIdx))
  pushScope .try
  emitBlock
  emitOp .opRethrowIfErr [rethrowIfArg]
  popScope .try

def isEnsureNode : Node → Bool
  | .ensure _ => true
  | _ => false

/-- A node kind that stands only below another. -/
def unknownNode {α : Type} : Emit ν α := throw .unreachable

/-! ## Nodes -/

mutual

/-- `emitNode` -/
def emitNode (flipped : Bool) (n : Node) : Emit ν Unit := do
  if (← get).current.hadError then return
  match n with
  | .stmtList children => emitChildren flipped children
  | .grouping expr => emitNode flipped expr
  | .exprStmt expr =>
    emitNode flipped expr
    emitOp .opPop []
  | .binary tok lhs rhs =>
    emitNode flipped lhs
    emitNode flipped rhs
    emitBinaryOp tok
  | .binaryAssign tok name rhs =>
    namedVariable name .get
    emitNode flipped rhs
    emitBinaryOp tok
    namedVariable name .set
  | .logical tok lhs rhs =>
    emitNode flipped lhs
    let skipRhsJump ← emitJump (if tok = .and then .opJumpIfFalsePeek else .opJumpIfTruePeek)
    emitNode flipped rhs
    emitOp (if tok = .and then .opAnd else .opOr) []
    let tail := (← deref (← currentIseq).tail).addr
    patchJumpTo skipRhsJump (← insnOffset skipRhsJump tail) tail false
  | .unary tok expr =>
    emitNode flipped expr
    emitOp (if tok = .minus then .opNegate else .opNot) []
  | .literal lit => emitLiteral lit
  | .array children =>
    if uint8Max ≤ children.length then error "Too many elements in array literal"
    else
      match constNodes? children with
      | some els => emitOp .opDuparray [← makeConstant (.array els)]
      | none =>
        if flipped then emitChildren flipped children else emitChildrenRev flipped children
        emitOp .opArray [children.length]
  | .map children =>
    assert (children.length % 2 = 0)
    if uint8Max ≤ children.length then error "Too many key-value pairs in map literal"
    else
      match constNodes? children with
      | some els => emitOp .opDupmap [← makeConstant (.map (mapConstant [] els))]
      | none =>
        if flipped then emitChildren flipped children else emitChildrenRev flipped children
        emitOp .opMap [children.length]
  | .indexGet obj index =>
    emitNode flipped obj
    emitNode flipped index
    emitOp .opIndexGet []
  | .indexSet obj index rval =>
    emitNode flipped obj
    emitNode flipped index
    emitNode flipped rval
    emitOp .opIndexSet []
  | .variable name => namedVariable name .get
  | .constant name => emitOp .opGetConst [← identifierConstant name]
  | .constantLookup under name =>
    match under with
    | some under => emitNode flipped under
    | none => emitOp .opNil []
    emitOp .opGetConstUnder [← identifierConstant name]
  | .assign name rval =>
    emitNode flipped rval
    namedVariable name .set
  | .assignConstant name rval =>
    emitNode flipped rval
    emitOp .opSetConst [← identifierConstant name]
  | .call nameTok lhs args =>
    let _ ← emitCall nameTok lhs args
      (match lhs with
        | .propAccess obj _ => emitNode flipped obj
        | lhs => emitNode flipped lhs)
      (emitChildren flipped args)
  | .callBlock nameTok lhs args params body =>
    let cinfo ← emitCall nameTok lhs args
      (match lhs with
        | .propAccess obj _ => emitNode flipped obj
        | lhs => emitNode flipped lhs)
      (emitChildren flipped args)
    let block ← emitFunction "" .block params (emitParams flipped params.length params)
      (emitNode flipped body)
    let id ← deref cinfo
    modify fun s => { s with
      callInfos := s.callInfos.modify id fun c => { c with blockFunction := some block } }
  | .toBlock expr =>
    emitNode flipped expr
    emitOp .opToBlock []
  | .propAccess obj name =>
    emitNode flipped obj
    emitOp .opPropGet [← identifierConstant name]
  | .propSet obj name rval =>
    emitNode flipped obj
    emitNode flipped rval
    emitOp .opPropSet [← identifierConstant name]
  | .propSetBinop tok obj name rval =>
    -- the object, and then the property access, with the object once more
    emitNode false obj
    unless (← get).current.hadError do
      emitNode true obj
      emitOp .opPropGet [← identifierConstant name]
    emitNode flipped rval
    emitBinaryOp tok
    emitOp .opPropSet [← identifierConstant name]
  | .this => emitOp .opGetThis []
  | .super name => emitOp .opGetSuper [← identifierConstant name]
  | .splat expr =>
    emitNode flipped expr
    emitOp .opSplatArray []
  | .kwargInCall _ expr => emitNode flipped expr
  | .print expr =>
    emitNode flipped expr
    emitOp .opPrint []
  | .var name more init =>
    emitVar name more <| match init with
      | some init => some (emitNode flipped init)
      | none => none
  | .block children =>
    pushScope .block
    emitChildren flipped children
    popScope .block
  | .ifStmt cond thenBranch elseBranch =>
    emitIf (emitNode flipped cond) (emitNode flipped thenBranch) <| match elseBranch with
      | some elseBranch => some (emitNode flipped elseBranch)
      | none => none
  | .whileStmt cond body => emitWhile (emitNode flipped cond) (emitNode flipped body)
  | .forStmt init test incr body =>
    emitFor
      (match init with
        | some init => some (emitNode flipped init)
        | none => none)
      (match test with
        | some test => some (emitNode flipped test)
        | none => none)
      (match incr with
        | some incr => some (emitNode flipped incr)
        | none => none)
      (emitNode flipped body)
  | .foreachStmt vars iter body =>
    emitForeach vars (emitNode flipped iter) (emitNode flipped body)
  | .continueStmt => emitContinueStmt
  | .breakStmt => emitBreakStmt
  | .param _ _ _ => unknownNode
  | .function kind name params body =>
    let s ← get
    match outsideClassMessage kind, s.currentClassOrModule.isEmpty && !s.inINBlock with
    | some msg, true => error msg
    | _, _ =>
      let _ ← emitFunction name (functionType kind name) params
        (emitParams flipped params.length params) (emitNode flipped body)
  | .returnStmt expr =>
    emitReturnStmt <| match expr with
      | some expr => some (emitNode flipped expr)
      | none => none
  | .classStmt name superClass body => emitClass name superClass (emitNode flipped body)
  | .moduleStmt name body => emitModule name (emitNode flipped body)
  | .inStmt expr body => emitIn (emitNode flipped expr) (emitNode flipped body)
  | .tryStmt block clauses =>
    let ifrom := (← currentIseq).wordCount
    emitNode flipped block
    let skipJumpToEnd := clauses.length = 1 && clauses.all isEnsureNode
    let jumpToEnd ← if skipJumpToEnd then pure none else some <$> emitJump .opJump
    let ito := (← currentIseq).wordCount
    let jumps ← emitClauses flipped ifrom ito jumpToEnd jumpToEnd.toList clauses
    unless clauses.isEmpty do patchJumps jumps
  | .catchStmt _ _ _ => unknownNode
  | .tryElse _ => unknownNode
  | .ensure _ => unknownNode
  | .throw expr =>
    emitNode flipped expr
    emitOp .opThrow []

/-- `emitChildren` -/
def emitChildren (flipped : Bool) : List Node → Emit ν Unit
  | [] => return ()
  | n :: rest => do
    emitNode flipped n
    emitChildren flipped rest

/-- `emitChildren` after `vec_reverse`. -/
def emitChildrenRev (flipped : Bool) : List Node → Emit ν Unit
  | [] => return ()
  | n :: rest => do
    emitChildrenRev flipped rest
    emitNode flipped n

/-- The second loop of `emitFunction` over the parameters. -/
def emitParams (flipped : Bool) (numParams : ℕ) : List Node → Emit ν Unit
  | [] => return ()
  | .param .defaultArg name [default] :: rest => do
    emitDefaultArg name (emitNode flipped default)
    emitParams flipped numParams rest
  | .param .kwarg name children :: rest => do
    emitKwarg numParams name (emitChildren flipped children)
    emitParams flipped numParams rest
  | .param kind name _ :: rest => do
    emitOtherParam kind name
    emitParams flipped numParams rest
  | _ :: _ => unknownNode

/-- The clauses of a `TRY_STMT`; the jumps to the end that are still to be patched. -/
def emitClauses (flipped : Bool) (ifrom ito : ℕ) (jumpToEnd : Option Addr) (jumps : List Addr) :
    List Node → Emit ν (List Addr)
  | [] => return jumps
  | .catchStmt className var block :: rest => do
    let more ← emitCatch ifrom ito className var (emitNode flipped block)
      (rest.head?.any isCatchOrElse)
    emitClauses flipped ifrom ito jumpToEnd (jumps ++ more) rest
  | .tryElse block :: rest => do
    match jumpToEnd with
    | none => throw .assertFailed
    | some jump =>
      patchJump jump none
      pushScope .try
      emitNode flipped block
      popScope .try
      emitClauses flipped ifrom ito none jumps.tail rest
  | .ensure block :: rest => do
    patchJumps jumps
    emitEnsure ifrom ito (emitNode flipped block)
    emitClauses flipped ifrom ito jumpToEnd [] rest
  | _ :: _ => unknownNode

end

end Emit

/-! ## Programs -/

/-- What a compilation leaves behind. -/
structure Compiled (ν : Type) where
  main : ObjFunction ν
  functions : List (ObjFunction ν)
  callInfos : List CallInfo

section

variable {ν : Type} [LoxNum ν]

/-- `compile_node` up to the call of `copyIseqToChunk`: the state with the code of the program. -/
def emitProgram (opts : CompilerOpts) (program : Node) : Except Abort (CompState ν) := do
  let init : CompState ν := { opts, current := Emit.freshCompiler 0 .topLevel none }
  let (_, s) ← (do
    Emit.emitNode false program
    Emit.emitOp .opLeave [] : Emit ν Unit).run init
  return s

/-- `compile_node`; `none` where it reports `COMPILE_ERR_SEMANTICS`. -/
def compileNode (opts : CompilerOpts) (program : Node) : Except Abort (Option (Compiled ν)) := do
  let s ← emitProgram opts program
  let main ← Emit.finishFunction opts s.current
  if s.current.hadError then return none
  else return some { main, functions := s.functions, callInfos := s.callInfos }

end

end Clox
