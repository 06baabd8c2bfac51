import Clox.Vm.Value

/-! # Arrays and their blocks

`Array#each`, `map`, `select`, `reject`, `find` and `reduce`. Lox code never comes back to
`yieldFromC`: whatever ends the call throws, and the `setjmp` of `SETUP_BLOCK` in `lxArrayEach`
is where it goes on. A native function just returns. What falling off the end hands over is
`lastValue`, which is the code's own matter, and so is which frame executes the opcode that ends
the call.
-/

namespace Clox.ArrayBlocks

variable {ν E : Type}

/-- What `lxArrayEach` finds in `th->lastErrorThrown`, by its class. -/
inductive Thrown (ν E : Type) where
  | breakBlock
  | continueBlock (ret : Value ν)
  | returnBlock (ret : Value ν)
  | typeErr (msg : String)
  | other (err : E)

/-- The arguments of the calls of the callable so far. -/
abbrev Calls (ν : Type) := List (List (Value ν))

/-- What the native methods do: the calls they make, and the value or the error. -/
abbrev Run (ν E : Type) := ExceptT (Thrown ν E) (StateM (Calls ν))

/-- How a call of Lox code ends. -/
inductive Ending (ν E : Type) where
  | fallsOff (ret : Value ν)
  | continues (ret : Value ν)
  | returns (ret : Value ν)
  | breaks
  | throws (err : E)

/-- A body or a function may do something else at each call, so it is given the calls before. -/
inductive Code (ν E : Type) where
  | lox (body : Calls ν → List (Value ν) → Ending ν E)
  | native (function : Calls ν → List (Value ν) → Except E (Value ν))

inductive Callable (ν E : Type) where
  | closure (body : Calls ν → List (Value ν) → Ending ν E)
  | nativeFunction (function : Calls ν → List (Value ν) → Except E (Value ν))
  /-- The receiver is part of the code. -/
  | boundMethod (callable : Code ν E)
  /-- Called for a new instance; a Lox `init` ends with `return this`. -/
  | klass (init : Code ν E)

def Callable.code : Callable ν E → Code ν E
  | closure body => .lox body
  | nativeFunction function => .native function
  | boundMethod callable => callable
  | klass init => init

/-- What the frame of `each` has in its `callInfo`. -/
inductive Block (ν E : Type) where
  /-- `blockFunction` -/
  | literal (body : Calls ν → List (Value ν) → Ending ν E)
  /-- `blockInstance`, made by `&f`. -/
  | given (blockInstance : Value ν) (callable : Callable ν E)

def Block.isLiteral : Block ν E → Bool
  | literal _ => true
  | given _ _ => false

def Block.code : Block ν E → Code ν E
  | literal body => .lox body
  | given _ callable => callable.code

/-! ## Calling the block -/

/-- `OP_BLOCK_CONTINUE`, `OP_BLOCK_BREAK`, and `return`: `OP_BLOCK_RETURN` in a block, else
`OP_RETURN`, which continues the block as long as `v_blockStack` is not empty. -/
def Ending.thrown (isBlock : Bool) : Ending ν E → Thrown ν E
  -- `emitReturn`: `OP_BLOCK_CONTINUE` at the end of a block, `OP_RETURN` at that of a function
  | fallsOff ret => .continueBlock ret
  | continues ret => .continueBlock ret
  | returns ret => if isBlock then .returnBlock ret else .continueBlock ret
  | breaks => .breakBlock
  | throws err => .other err

/-- The arguments that arrive: `callCallable` pushes the block behind them, unless the last one is
a block, and a native function does not count the block. -/
def Block.passed (isABlock : Value ν → Bool) (block : Block ν E) (args : List (Value ν)) :
    List (Value ν) :=
  match block, block.code with
  | .literal _, _ => args
  | .given blockInstance _, .lox _ =>
    if args.getLast?.any isABlock then args else args ++ [blockInstance]
  | .given _ _, .native _ => if args.getLast?.any isABlock then args.dropLast else args

/-- The call begins. -/
def enter (args : List (Value ν)) : Run ν E (Calls ν) := do
  let calls ← get
  set (calls ++ [args])
  return calls

/-- `yieldFromC` -/
def yieldFromC (isABlock : Value ν → Bool) (block : Block ν E) (args : List (Value ν)) :
    Run ν E (Value ν) := do
  let args := block.passed isABlock args
  let calls ← enter args
  match block.code with
  | .lox body => throw ((body calls args).thrown block.isLiteral)
  | .native function =>
    match function calls args with
    | .ok value => return value
    | .error err => throw (.other err)

/-! ## The loop of each -/

/-- `IS_NIL` -/
def isNil : Value ν → Bool
  | .nil => true
  | _ => false

/-- `BlockIterFunc`: the element, what the block returned, and `*blockIterRet`. The flag is
`ITER_FLAG_STOP`. -/
abbrev BlockIterFunc (ν E : Type) :=
  (el ret blockIterRet : Value ν) → Except (Thrown ν E) (Value ν × Bool)

/-- What the callers of `each` set in their `CallInfo`. -/
structure CallInfo (ν E : Type) where
  blockIterFunc : Option (BlockIterFunc ν E) := none
  /-- `blockArgsExtra` points to what `blockIterRet` points to. -/
  blockArgsNumExtra : ℕ := 0

/-- How the `for` in `lxArrayEach` is left. -/
inductive ForEnd (ν E : Type) where
  | ended
  /-- Back at the `setjmp`; `iterStart` and `el` are `volatile`. -/
  | jumped (iterStart : ℕ) (el : Value ν) (err : Thrown ν E)

/-- `VALARRAY_FOREACH_START`, over the elements from `iterStart` on. -/
def foreach (isABlock : Value ν → Bool) (block : Block ν E) (extra : List (Value ν)) :
    (els : List (Value ν)) → (iterStart : ℕ) → Calls ν → ForEnd ν E × Calls ν
  | [], _, calls => (.ended, calls)
  | el :: els, iterStart, calls =>
    if el.isUndef then (.ended, calls)
    else
      match yieldFromC isABlock block (el :: extra) calls with
      -- a native function, whose value is not looked at
      | (.ok _, calls) => foreach isABlock block extra els (iterStart + 1) calls
      | (.error err, calls) => (.jumped (iterStart + 1) el err, calls)

/-- Behind the `setjmp`, with `TAG_RAISE`: the value that `each` returns, if it does, and
`*blockIterRet`. -/
def CallInfo.afterJump (cinfo : CallInfo ν E) (el blockIterRet : Value ν) :
    Thrown ν E → Except (Thrown ν E) (Option (Value ν) × Value ν)
  | .breakBlock => .ok (some .nil, blockIterRet)
  | .continueBlock ret =>
    match cinfo.blockIterFunc with
    | some fn => do
      let (blockIterRet, stop) ← fn el ret blockIterRet
      return (if stop then some .nil else none, blockIterRet)
    | none => .ok (none, blockIterRet)
  | .returnBlock ret =>
    match cinfo.blockIterFunc with
    | some fn => do
      let (blockIterRet, stop) ← fn el ret blockIterRet
      return (if stop then some .nil else none, blockIterRet)
    | none => .ok (some ret, blockIterRet)
  | err => .error err

/-- Back to the head of the loop, unless `each` returns or throws. -/
def goOn (loop : Value ν → Run ν E (Value ν × Value ν)) :
    Except (Thrown ν E) (Option (Value ν) × Value ν) → Run ν E (Value ν × Value ν)
  | .ok (none, blockIterRet) => loop blockIterRet
  | .ok (some value, blockIterRet) => return (value, blockIterRet)
  | .error err => throw err

section Loop

variable (isABlock : Value ν → Bool) (block : Block ν E)

theorem foreach_jumped {extra els : List (Value ν)} {iterStart i : ℕ} {calls calls' : Calls ν}
    {el : Value ν} {err : Thrown ν E}
    (h : foreach isABlock block extra els iterStart calls = (.jumped i el err, calls')) :
    iterStart < i ∧ i ≤ iterStart + els.length := by
  induction els generalizing iterStart calls with
  | nil => simp [foreach] at h
  | cons e els ih =>
    rw [foreach] at h
    split at h
    · simp at h
    · split at h
      · have hi := ih h
        rw [List.length_cons]
        omega
      · simp only [Prod.mk.injEq, ForEnd.jumped.injEq] at h
        rw [List.length_cons]
        omega

/-- The `while (true)` of `lxArrayEach`: what it returns, and `*blockIterRet`. -/
def eachLoop (cinfo : CallInfo ν E) (ary : List (Value ν)) (iterStart : ℕ)
    (blockIterRet : Value ν) : Run ν E (Value ν × Value ν) := fun calls =>
  if iterStart = ary.length then (.ok (.array ary, blockIterRet), calls)
  else
    match _h : foreach isABlock block (List.replicate cinfo.blockArgsNumExtra blockIterRet)
        (ary.drop iterStart) iterStart calls with
    | (.ended, calls) => (.ok (.array ary, blockIterRet), calls)
    | (.jumped i el err, calls) =>
      goOn (fun blockIterRet => eachLoop cinfo ary i blockIterRet)
        (cinfo.afterJump el blockIterRet err) calls
termination_by ary.length - iterStart
decreasing_by
  have hi := foreach_jumped isABlock block _h
  rw [List.length_drop] at hi
  omega

/-! ## The methods -/

def lxArrayEach (ary : List (Value ν)) : Run ν E (Value ν) := do
  let (res, _) ← eachLoop isABlock block {} ary 0 .nil
  return res

/-- `arrayPush` -/
def arrayPush (value : Value ν) : Value ν → Value ν
  | .array els => .array (els ++ [value])
  | ary => ary

def mapIter : BlockIterFunc ν E := fun _ ret blockIterRet => .ok (arrayPush ret blockIterRet, false)

def lxArrayMap (ary : List (Value ν)) : Run ν E (Value ν) := do
  let (res, ret) ← eachLoop isABlock block { blockIterFunc := some mapIter } ary 0 (.array [])
  return if isNil res then .nil else ret

def selectIter : BlockIterFunc ν E := fun el ret blockIterRet =>
  .ok (if ret.isTruthy then arrayPush el blockIterRet else blockIterRet, false)

def lxArraySelect (ary : List (Value ν)) : Run ν E (Value ν) := do
  let (res, ret) ← eachLoop isABlock block { blockIterFunc := some selectIter } ary 0 (.array [])
  return if isNil res then res else ret

def rejectIter : BlockIterFunc ν E := fun el ret blockIterRet =>
  .ok (if !ret.isTruthy then arrayPush el blockIterRet else blockIterRet, false)

def lxArrayReject (ary : List (Value ν)) : Run ν E (Value ν) := do
  let (res, ret) ← eachLoop isABlock block { blockIterFunc := some rejectIter } ary 0 (.array [])
  return if isNil res then res else ret

def findIter : BlockIterFunc ν E := fun el ret blockIterRet =>
  .ok (if ret.isTruthy then (el, true) else (blockIterRet, false))

def lxArrayFind (ary : List (Value ν)) : Run ν E (Value ν) := do
  let (_, ret) ← eachLoop isABlock block { blockIterFunc := some findIter } ary 0 .undef
  return if ret.isUndef then .nil else ret

def reduceIter : BlockIterFunc ν E := fun el ret _ =>
  -- the element is tested, not `ret`
  if !el.isNumber then .error (.typeErr "Return value from reduce() must be a number")
  else .ok (ret, false)

def lxArrayReduce (ary : List (Value ν)) (init : Value ν) : Run ν E (Value ν) := do
  let (res, ret) ← eachLoop isABlock block
    { blockIterFunc := some reduceIter, blockArgsNumExtra := 1 } ary 0 init
  return if isNil res then res else ret

end Loop

/-! ## As functions

What the methods are for: a call of the block is an action that gives a value or leaves the
iteration, and the methods are the list functions over such actions.
-/

/-- What a call is worth to its caller. -/
def Ending.value : Ending ν E → Except (Thrown ν E) (Value ν)
  | fallsOff ret => .ok ret
  | continues ret => .ok ret
  | returns ret => .ok ret
  | breaks => .error .breakBlock
  | throws err => .error (.other err)

/-- A call of the block as a function. -/
def Block.apply (isABlock : Value ν → Bool) (block : Block ν E) (args : List (Value ν)) :
    Run ν E (Value ν) := do
  let args := block.passed isABlock args
  let calls ← enter args
  match block.code with
  | .lox body => ofExcept (body calls args).value
  | .native function => ofExcept ((function calls args).mapError .other)

/-- What `each` makes of a call: `return` in the code of a literal block leaves the iteration. -/
def Ending.visited (isBlock : Bool) : Ending ν E → Except (Thrown ν E) PUnit
  | fallsOff _ => .ok ⟨⟩
  | continues _ => .ok ⟨⟩
  | returns ret => if isBlock then .error (.returnBlock ret) else .ok ⟨⟩
  | breaks => .error .breakBlock
  | throws err => .error (.other err)

/-- A call of the block for its effects. -/
def Block.visit (isABlock : Value ν → Bool) (block : Block ν E) (args : List (Value ν)) :
    Run ν E PUnit := do
  let args := block.passed isABlock args
  let calls ← enter args
  match block.code with
  | .lox body => ofExcept ((body calls args).visited block.isLiteral)
  | .native function => discard <| ofExcept ((function calls args).mapError .other)

/-- `break` yields nil. -/
def orNil (run : Run ν E (Value ν)) : Run ν E (Value ν) :=
  tryCatch run fun
    | .breakBlock => return .nil
    | err => throw err

/-- And `return` yields its value. -/
def orReturned (run : Run ν E (Value ν)) : Run ν E (Value ν) :=
  tryCatch run fun
    | .breakBlock => return .nil
    | .returnBlock ret => return ret
    | err => throw err

section Catch

variable {α β : Type} {run : Run ν E α} {next : α → Run ν E β} {calls calls' : Calls ν}
  {handler : Thrown ν E → Run ν E β}

theorem tryCatch_bind_ok {a : α} (h : run calls = (.ok a, calls')) :
    tryCatch (run >>= next) handler calls = tryCatch (next a) handler calls' := by
  show ((ExceptT.tryCatch (ExceptT.bind run next) handler : Run ν E β) calls) = _
  simp only [ExceptT.tryCatch, ExceptT.bind, ExceptT.mk, bind, StateT.bind]
  rw [h]
  rfl

theorem tryCatch_bind_error {err : Thrown ν E} (h : run calls = (.error err, calls')) :
    tryCatch (run >>= next) handler calls = handler err calls' := by
  show ((ExceptT.tryCatch (ExceptT.bind run next) handler : Run ν E β) calls) = _
  simp only [ExceptT.tryCatch, ExceptT.bind, ExceptT.mk, bind, StateT.bind]
  rw [h]
  rfl

theorem map_congr_calls (f : α → β) (run' : Run ν E α) (h : run calls = run' calls') :
    (f <$> run) calls = (f <$> run') calls' := by
  show ((ExceptT.map f run : Run ν E β) calls) = (ExceptT.map f run' : Run ν E β) calls'
  simp only [ExceptT.map, ExceptT.mk, bind, StateT.bind]
  rw [h]

theorem bind_of_ok (next : α → Run ν E β) {a : α} (h : run calls = (.ok a, calls')) :
    (run >>= next) calls = next a calls' := by
  show ((ExceptT.bind run next : Run ν E β) calls) = _
  simp only [ExceptT.bind, ExceptT.mk, bind, StateT.bind]
  rw [h]
  rfl

theorem bind_of_error (next : α → Run ν E β) {err : Thrown ν E}
    (h : run calls = (.error err, calls')) : (run >>= next) calls = (.error err, calls') := by
  show ((ExceptT.bind run next : Run ν E β) calls) = _
  simp only [ExceptT.bind, ExceptT.mk, bind, StateT.bind]
  rw [h]
  rfl

end Catch

section Step

variable {isABlock : Value ν → Bool} {block : Block ν E}
  {body : Calls ν → List (Value ν) → Ending ν E} {args : List (Value ν)} {calls : Calls ν}

theorem enter_calls (args : List (Value ν)) (calls : Calls ν) :
    (enter args : Run ν E (Calls ν)) calls = (.ok calls, calls ++ [args]) := rfl

variable (isABlock args calls) in
theorem yieldFromC_lox (hcode : block.code = .lox body) :
    yieldFromC isABlock block args calls =
      (.error ((body calls (block.passed isABlock args)).thrown block.isLiteral),
        calls ++ [block.passed isABlock args]) := by
  unfold yieldFromC
  rw [hcode]
  rfl

theorem yieldFromC_native {function : Calls ν → List (Value ν) → Except E (Value ν)}
    (hcode : block.code = .native function) :
    yieldFromC isABlock block args calls =
      ((function calls (block.passed isABlock args)).mapError .other,
        calls ++ [block.passed isABlock args]) := by
  unfold yieldFromC
  rw [hcode]
  refine (bind_of_ok _ (enter_calls _ calls)).trans ?_
  dsimp only
  cases function calls (block.passed isABlock args) with
  | ok value => rfl
  | error err => rfl

theorem ofExcept_calls {α : Type} (x : Except (Thrown ν E) α) :
    (ofExcept x : Run ν E α) calls = (x, calls) := by
  cases x with
  | ok v => rfl
  | error err => rfl

variable (isABlock args calls) in
theorem apply_lox (hcode : block.code = .lox body) :
    block.apply isABlock args calls =
      ((body calls (block.passed isABlock args)).value, calls ++ [block.passed isABlock args]) := by
  unfold Block.apply
  rw [hcode]
  exact ofExcept_calls _

/-- What the loop of `each` makes of the end of a call. -/
def visited : Except (Thrown ν E) (Value ν) → Except (Thrown ν E) PUnit
  | .ok _ => .ok ⟨⟩
  | .error (.continueBlock _) => .ok ⟨⟩
  | .error err => .error err

theorem visit_of_call {calls' : Calls ν} {ended : Except (Thrown ν E) (Value ν)}
    (hcall : yieldFromC isABlock block args calls = (ended, calls')) :
    block.visit isABlock args calls = (visited ended, calls') := by
  rcases hcode : block.code with body | function
  · rw [yieldFromC_lox isABlock args calls hcode] at hcall
    cases hcall
    unfold Block.visit
    rw [hcode]
    refine (ofExcept_calls _).trans ?_
    congr 1
    cases hending : body calls (block.passed isABlock args) with
    | returns ret => cases block.isLiteral <;> rfl
    | fallsOff ret => rfl
    | continues ret => rfl
    | breaks => rfl
    | throws err => rfl
  · rw [yieldFromC_native hcode] at hcall
    cases hcall
    unfold Block.visit
    rw [hcode]
    refine (bind_of_ok _ (enter_calls _ calls)).trans ?_
    dsimp only
    cases function calls (block.passed isABlock args) with
    | ok value => rfl
    | error err => rfl

variable {cinfo : CallInfo ν E} {ary els : List (Value ν)} {el ret value : Value ν}
  {iterStart : ℕ}

theorem eachLoop_end (hdrop : ary.drop iterStart = []) :
    eachLoop isABlock block cinfo ary iterStart ret calls = (.ok (.array ary, ret), calls) := by
  rw [eachLoop]
  split
  · rfl
  · split
    · rename_i heq
      rw [hdrop] at heq
      cases heq
      rfl
    · rename_i heq
      rw [hdrop] at heq
      cases heq

variable (cinfo ret) in
/-- A call that throws. -/
theorem eachLoop_jumped {err : Thrown ν E} {calls' : Calls ν}
    (hdrop : ary.drop iterStart = el :: els) (hdef : el.isUndef = false)
    (hcall : yieldFromC isABlock block (el :: List.replicate cinfo.blockArgsNumExtra ret) calls =
      (.error err, calls')) :
    eachLoop isABlock block cinfo ary iterStart ret calls =
      goOn (eachLoop isABlock block cinfo ary (iterStart + 1)) (cinfo.afterJump el ret err)
        calls' := by
  have hne : iterStart ≠ ary.length := by
    rintro rfl
    rw [List.drop_length] at hdrop
    cases hdrop
  have hfor : foreach isABlock block (List.replicate cinfo.blockArgsNumExtra ret)
      (ary.drop iterStart) iterStart calls = (.jumped (iterStart + 1) el err, calls') := by
    rw [hdrop, foreach, hdef, if_neg Bool.false_ne_true, hcall]
  rw [eachLoop, if_neg hne]
  split
  · rename_i heq
    rw [hfor] at heq
    cases heq
  · rename_i heq
    rw [hfor] at heq
    cases heq
    rfl

variable (cinfo ret) in
/-- A call that comes back, of a native function. -/
theorem eachLoop_returned {calls' : Calls ν}
    (hdrop : ary.drop iterStart = el :: els) (hdef : el.isUndef = false)
    (hcall : yieldFromC isABlock block (el :: List.replicate cinfo.blockArgsNumExtra ret) calls =
      (.ok value, calls')) :
    eachLoop isABlock block cinfo ary iterStart ret calls =
      eachLoop isABlock block cinfo ary (iterStart + 1) ret calls' := by
  have hrest : ary.drop (iterStart + 1) = els := by
    rw [← List.tail_drop, hdrop, List.tail_cons]
  have hlt : iterStart < ary.length := by
    by_contra hge
    rw [List.drop_eq_nil_of_le (Nat.le_of_not_lt hge)] at hdrop
    cases hdrop
  have hfor : foreach isABlock block (List.replicate cinfo.blockArgsNumExtra ret)
      (ary.drop iterStart) iterStart calls =
      foreach isABlock block (List.replicate cinfo.blockArgsNumExtra ret)
        (ary.drop (iterStart + 1)) (iterStart + 1) calls' := by
    rw [hrest, hdrop, foreach, hdef, if_neg Bool.false_ne_true, hcall]
  rw [eachLoop, if_neg (Nat.ne_of_lt hlt)]
  by_cases hend : iterStart + 1 = ary.length
  · -- the `for` ends, and so would the `while`
    rw [eachLoop, if_pos hend]
    split
    · rename_i heq
      rw [hfor, hend, List.drop_length] at heq
      cases heq
      rfl
    · rename_i heq
      rw [hfor, hend, List.drop_length] at heq
      cases heq
  · rw [eachLoop, if_neg hend]
    split
    · rename_i heq
      rw [hfor] at heq
      rw [heq]
    · rename_i heq
      rw [hfor] at heq
      rw [heq]

/-! ## The collecting methods -/

/-- What `map` and the others return, of what `each` returned and `*blockIterRet`. -/
def collected (p : Value ν × Value ν) : Value ν := if isNil p.1 then .nil else p.2

theorem afterJump_value {fn : BlockIterFunc ν E} (hfn : cinfo.blockIterFunc = some fn)
    {ending : Ending ν E} {isBlock : Bool} (hvalue : ending.value = .ok value) {acc : Value ν}
    {stop : Bool} (hnext : fn el value ret = .ok (acc, stop)) :
    cinfo.afterJump el ret (ending.thrown isBlock) =
      .ok (if stop then some .nil else none, acc) := by
  have hcontinue : cinfo.afterJump el ret (.continueBlock value) =
      .ok (if stop then some .nil else none, acc) := by
    simp only [CallInfo.afterJump, hfn, hnext]
    rfl
  have hreturn : cinfo.afterJump el ret (.returnBlock value) =
      .ok (if stop then some .nil else none, acc) := by
    simp only [CallInfo.afterJump, hfn, hnext]
    rfl
  cases ending with
  | fallsOff v =>
    cases hvalue
    exact hcontinue
  | continues v =>
    cases hvalue
    exact hcontinue
  | returns v =>
    cases hvalue
    cases isBlock with
    | true => exact hreturn
    | false => exact hcontinue
  | breaks => cases hvalue
  | throws err => cases hvalue

variable (cinfo el ret) in
theorem afterJump_error {ending : Ending ν E} (isBlock : Bool) {err : Thrown ν E}
    (hvalue : ending.value = .error err) :
    err = .breakBlock ∧ cinfo.afterJump el ret (ending.thrown isBlock) = .ok (some .nil, ret) ∨
      ∃ e, err = .other e ∧ cinfo.afterJump el ret (ending.thrown isBlock) = .error (.other e) := by
  cases ending with
  | breaks =>
    cases hvalue
    exact .inl ⟨rfl, rfl⟩
  | throws e =>
    cases hvalue
    exact .inr ⟨e, rfl, rfl⟩
  | fallsOff v => cases hvalue
  | continues v => cases hvalue
  | returns v => cases hvalue

/-- Where the callback keeps up a value, from element to element, the loop is a fold. -/
theorem eachLoop_eq_foldlM (fn : BlockIterFunc ν E) {g : Value ν → Value ν → Value ν → Value ν}
    (hcode : block.code = .lox body) (hfn : cinfo.blockIterFunc = some fn)
    (hg : ∀ el ∈ els, ∀ value ret, fn el value ret = .ok (g el value ret, false))
    (hdef : ∀ el ∈ els, el.isUndef = false) (hdrop : ary.drop iterStart = els) :
    (collected <$> eachLoop isABlock block cinfo ary iterStart ret) calls =
      orNil (els.foldlM (fun ret el => do
        let value ← block.apply isABlock (el :: List.replicate cinfo.blockArgsNumExtra ret)
        return g el value ret) ret) calls := by
  induction els generalizing iterStart ret calls with
  | nil => exact map_congr_calls collected (return (.array ary, ret)) (eachLoop_end hdrop)
  | cons el els ih =>
    have hrest : ary.drop (iterStart + 1) = els := by
      rw [← List.tail_drop, hdrop, List.tail_cons]
    have hloop := eachLoop_jumped cinfo ret hdrop (hdef el List.mem_cons_self)
      (yieldFromC_lox isABlock (el :: List.replicate cinfo.blockArgsNumExtra ret) calls hcode)
    have happly := apply_lox isABlock (el :: List.replicate cinfo.blockArgsNumExtra ret) calls hcode
    generalize block.passed isABlock (el :: List.replicate cinfo.blockArgsNumExtra ret) = args
      at hloop happly
    rw [List.foldlM_cons, orNil]
    cases hvalue : (body calls args).value with
    | ok value =>
      rw [hvalue] at happly
      have hstep := bind_of_ok (fun value => (return g el value ret : Run ν E _)) happly
      rw [afterJump_value hfn hvalue (hg el List.mem_cons_self value ret)] at hloop
      rw [tryCatch_bind_ok hstep]
      exact (map_congr_calls collected _ hloop).trans
        (ih (fun e he => hg e (List.mem_cons_of_mem el he))
          (fun e he => hdef e (List.mem_cons_of_mem el he)) hrest)
    | error err =>
      rw [hvalue] at happly
      have hstep := bind_of_error (fun value => (return g el value ret : Run ν E _)) happly
      rw [tryCatch_bind_error hstep]
      rcases afterJump_error cinfo el ret block.isLiteral hvalue with ⟨rfl, hjump⟩ | ⟨e, rfl, hjump⟩
      · rw [hjump] at hloop
        exact map_congr_calls collected (return (.nil, ret)) hloop
      · rw [hjump] at hloop
        exact map_congr_calls collected (throw (.other e)) hloop

/-! ## Each -/

theorem eachLoop_eq_forM (hdef : ∀ el ∈ els, el.isUndef = false)
    (hdrop : ary.drop iterStart = els) :
    (Prod.fst <$> eachLoop isABlock block {} ary iterStart ret) calls =
      orReturned (do
        forM els fun el => block.visit isABlock [el]
        return Value.array ary) calls := by
  induction els generalizing iterStart calls with
  | nil => exact map_congr_calls Prod.fst (return (Value.array ary, ret)) (eachLoop_end hdrop)
  | cons el els ih =>
    have hrest : ary.drop (iterStart + 1) = els := by
      rw [← List.tail_drop, hdrop, List.tail_cons]
    have hdef' : ∀ e ∈ els, e.isUndef = false := fun e he => hdef e (List.mem_cons_of_mem el he)
    rw [List.forM_cons, bind_assoc, orReturned]
    rcases hcall : yieldFromC isABlock block [el] calls with ⟨err | value, calls'⟩
    · have hloop := eachLoop_jumped {} ret hdrop (hdef el List.mem_cons_self) hcall
      have hvisit := visit_of_call hcall
      cases err with
      | continueBlock v =>
        rw [tryCatch_bind_ok hvisit]
        exact (map_congr_calls Prod.fst _ hloop).trans (ih hdef' hrest)
      | breakBlock =>
        rw [tryCatch_bind_error hvisit]
        exact map_congr_calls Prod.fst (return (Value.nil, ret)) hloop
      | returnBlock v =>
        rw [tryCatch_bind_error hvisit]
        exact map_congr_calls Prod.fst (return (v, ret)) hloop
      | typeErr msg =>
        rw [tryCatch_bind_error hvisit]
        exact map_congr_calls Prod.fst (throw (.typeErr msg)) hloop
      | other e =>
        rw [tryCatch_bind_error hvisit]
        exact map_congr_calls Prod.fst (throw (.other e)) hloop
    · have hloop := eachLoop_returned {} ret hdrop (hdef el List.mem_cons_self)
        hcall
      rw [tryCatch_bind_ok (visit_of_call hcall)]
      exact (map_congr_calls Prod.fst _ hloop).trans (ih hdef' hrest)

theorem lxArrayEach_eq (hdef : ∀ el ∈ ary, el.isUndef = false) :
    lxArrayEach isABlock block ary = orReturned (do
      forM ary fun el => block.visit isABlock [el]
      return Value.array ary) := by
  funext calls
  exact eachLoop_eq_forM hdef rfl

/-! ## Map, select, reject, find and reduce -/

theorem foldlM_push {α : Type} (f : α → Run ν E (Value ν)) (l : List α) (acc : List (Value ν)) :
    l.foldlM (fun ret a => do
      let value ← f a
      return arrayPush value ret) (Value.array acc) =
      (fun values => Value.array (acc ++ values)) <$> l.mapM f := by
  induction l generalizing acc with
  | nil => simp
  | cons a l ih =>
    simp only [List.foldlM_cons, List.mapM_cons, bind_assoc, pure_bind, map_bind]
    congr 1
    funext value
    refine (ih (acc ++ [value])).trans ?_
    simp

theorem foldlM_pushIf {α : Type} (f : α → Run ν E (Option (Value ν))) (l : List α)
    (acc : List (Value ν)) :
    l.foldlM (fun ret a => do
      let value ← f a
      return (value.elim ret fun v => arrayPush v ret)) (Value.array acc) =
      (fun values => Value.array (acc ++ values)) <$> l.filterMapM f := by
  induction l generalizing acc with
  | nil => simp
  | cons a l ih =>
    simp only [List.foldlM_cons, List.filterMapM_cons, bind_assoc, pure_bind, map_bind]
    congr 1
    funext value
    cases value with
    | none => exact ih acc
    | some v =>
      refine (ih (acc ++ [v])).trans ?_
      simp

theorem collected_eq (run : Run ν E (Value ν × Value ν)) :
    (do
      let (res, ret) ← run
      return if isNil res then res else ret) = collected <$> run := by
  rw [map_eq_pure_bind]
  congr 1
  funext p
  rcases p with ⟨res, ret⟩
  cases res <;> rfl

theorem lxArrayMap_eq (hcode : block.code = .lox body) (hdef : ∀ el ∈ ary, el.isUndef = false) :
    lxArrayMap isABlock block ary =
      orNil (Value.array <$> ary.mapM fun el => block.apply isABlock [el]) := by
  have hloop : lxArrayMap isABlock block ary = collected <$>
      eachLoop isABlock block { blockIterFunc := some mapIter } ary 0 (.array []) := by
    rw [map_eq_pure_bind]
    rfl
  rw [hloop]
  funext calls
  rw [eachLoop_eq_foldlM mapIter (g := fun _ value ret => arrayPush value ret) hcode rfl
    (fun _ _ _ _ => rfl) hdef rfl]
  exact congrArg (orNil · calls) (foldlM_push (fun el => block.apply isABlock [el]) ary [])

/-- `select` and `reject` keep the elements whose value passes the test. -/
theorem collect_eq_filterMapM {fn : BlockIterFunc ν E} (keeps : Value ν → Bool)
    (hfn : ∀ el value ret,
      fn el value ret = .ok (if keeps value then arrayPush el ret else ret, false))
    (hcode : block.code = .lox body) (hdef : ∀ el ∈ ary, el.isUndef = false) :
    (do
      let (res, ret) ← eachLoop isABlock block { blockIterFunc := some fn } ary 0 (.array [])
      return if isNil res then res else ret) =
      orNil (Value.array <$> ary.filterMapM fun el => do
        return if keeps (← block.apply isABlock [el]) then some el else none) := by
  rw [collected_eq]
  funext calls
  rw [eachLoop_eq_foldlM fn (g := fun el value ret => if keeps value then arrayPush el ret else ret)
    hcode rfl (fun el _ value ret => hfn el value ret) hdef rfl]
  refine congrArg (orNil · calls) (Eq.trans ?_ (foldlM_pushIf (fun el => do
    return if keeps (← block.apply isABlock [el]) then some el else none) ary []))
  congr 1
  funext ret el
  rw [bind_assoc]
  congr 1
  funext value
  by_cases h : keeps value = true
  · simp [h]
  · simp [h]

theorem lxArraySelect_eq (hcode : block.code = .lox body)
    (hdef : ∀ el ∈ ary, el.isUndef = false) :
    lxArraySelect isABlock block ary =
      orNil (Value.array <$> ary.filterMapM fun el => do
        return if (← block.apply isABlock [el]).isTruthy then some el else none) :=
  collect_eq_filterMapM Value.isTruthy (fun _ _ _ => rfl) hcode hdef

theorem lxArrayReject_eq (hcode : block.code = .lox body)
    (hdef : ∀ el ∈ ary, el.isUndef = false) :
    lxArrayReject isABlock block ary =
      orNil (Value.array <$> ary.filterMapM fun el => do
        return if !(← block.apply isABlock [el]).isTruthy then some el else none) :=
  collect_eq_filterMapM (fun value => !value.isTruthy) (fun _ _ _ => rfl) hcode hdef

theorem lxArrayReduce_eq (hcode : block.code = .lox body)
    (hdef : ∀ el ∈ ary, el.isUndef = false) (hnum : ∀ el ∈ ary, el.isNumber = true)
    (init : Value ν) :
    lxArrayReduce isABlock block ary init =
      orNil (ary.foldlM (fun acc el => block.apply isABlock [el, acc]) init) := by
  unfold lxArrayReduce
  rw [collected_eq]
  funext calls
  have hfn : ∀ el ∈ ary, ∀ value ret,
      reduceIter (E := E) el value ret = .ok (value, false) := by
    intro el hel value ret
    rw [reduceIter, hnum el hel]
    rfl
  rw [eachLoop_eq_foldlM reduceIter (g := fun _ value _ => value) hcode rfl hfn hdef rfl]
  refine congrArg (orNil · calls) ?_
  congr 1
  funext acc el
  exact bind_pure _

theorem eachLoop_eq_findM? (hcode : block.code = .lox body)
    (hdef : ∀ el ∈ els, el.isUndef = false) (hdrop : ary.drop iterStart = els) :
    ((fun p => if Value.isUndef p.2 then Value.nil else p.2) <$> eachLoop isABlock block
      { blockIterFunc := some findIter } ary iterStart .undef) calls =
      orNil ((·.getD .nil) <$> els.findM? fun el =>
        Value.isTruthy <$> block.apply isABlock [el]) calls := by
  induction els generalizing iterStart calls with
  | nil => exact map_congr_calls _ (return (Value.array ary, Value.undef)) (eachLoop_end hdrop)
  | cons el els ih =>
    have hrest : ary.drop (iterStart + 1) = els := by
      rw [← List.tail_drop, hdrop, List.tail_cons]
    have hloop := eachLoop_jumped { blockIterFunc := some findIter } .undef
      hdrop (hdef el List.mem_cons_self)
      (yieldFromC_lox isABlock [el] calls hcode)
    have happly := apply_lox isABlock [el] calls hcode
    generalize block.passed isABlock [el] = args at hloop happly
    rw [List.findM?, map_bind, orNil]
    cases hvalue : (body calls args).value with
    | ok value =>
      rw [hvalue] at happly
      have htest : (Value.isTruthy <$> block.apply isABlock [el]) calls =
          (.ok value.isTruthy, calls ++ [args]) :=
        map_congr_calls Value.isTruthy (return value) happly
      rw [tryCatch_bind_ok htest]
      cases htruthy : value.isTruthy with
      | true =>
        have hnext : findIter (E := E) el value .undef = .ok (el, true) := by
          rw [findIter, htruthy]
          rfl
        rw [afterJump_value rfl hvalue hnext] at hloop
        refine (map_congr_calls _ (return (Value.nil, el)) hloop).trans ?_
        show (Except.ok (if el.isUndef = true then Value.nil else el), calls ++ [args]) = _
        rw [hdef el List.mem_cons_self]
        rfl
      | false =>
        have hnext : findIter (E := E) el value .undef = .ok (.undef, false) := by
          rw [findIter, htruthy]
          rfl
        rw [afterJump_value rfl hvalue hnext] at hloop
        exact (map_congr_calls _ _ hloop).trans
          (ih (fun e he => hdef e (List.mem_cons_of_mem el he)) hrest)
    | error err =>
      rw [hvalue] at happly
      have htest : (Value.isTruthy <$> block.apply isABlock [el]) calls =
          (.error err, calls ++ [args]) :=
        map_congr_calls Value.isTruthy (throw err) happly
      rw [tryCatch_bind_error htest]
      rcases afterJump_error { blockIterFunc := some findIter } el .undef block.isLiteral
        hvalue with ⟨rfl, hjump⟩ | ⟨e, rfl, hjump⟩
      · rw [hjump] at hloop
        exact map_congr_calls _ (return (Value.nil, Value.undef)) hloop
      · rw [hjump] at hloop
        exact map_congr_calls _ (throw (.other e)) hloop

theorem lxArrayFind_eq (hcode : block.code = .lox body) (hdef : ∀ el ∈ ary, el.isUndef = false) :
    lxArrayFind isABlock block ary =
      orNil ((·.getD .nil) <$> ary.findM? fun el =>
        Value.isTruthy <$> block.apply isABlock [el]) := by
  have hloop : lxArrayFind isABlock block ary =
      (fun p => if Value.isUndef p.2 then Value.nil else p.2) <$> eachLoop isABlock block
        { blockIterFunc := some findIter } ary 0 .undef := by
    rw [map_eq_pure_bind]
    rfl
  rw [hloop]
  funext calls
  exact eachLoop_eq_findM? hcode hdef rfl

end Step

/-- Each method is the list function it is named after. A native function is fine for `each` only,
and the `return` of a literal block leaves `each`. -/
theorem arrayMethods_eq (isABlock : Value ν → Bool) (block : Block ν E) (ary : List (Value ν))
    (hdef : ∀ el ∈ ary, el.isUndef = false) :
    lxArrayEach isABlock block ary = orReturned (do
      forM ary fun el => block.visit isABlock [el]
      return Value.array ary) ∧
    ∀ body, block.code = .lox body →
      lxArrayMap isABlock block ary =
        orNil (Value.array <$> ary.mapM fun el => block.apply isABlock [el]) ∧
      lxArraySelect isABlock block ary =
        orNil (Value.array <$> ary.filterMapM fun el => do
          return if (← block.apply isABlock [el]).isTruthy then some el else none) ∧
      lxArrayReject isABlock block ary =
        orNil (Value.array <$> ary.filterMapM fun el => do
          return if !(← block.apply isABlock [el]).isTruthy then some el else none) ∧
      lxArrayFind isABlock block ary =
        orNil ((·.getD .nil) <$> ary.findM? fun el =>
          Value.isTruthy <$> block.apply isABlock [el]) ∧
      ((∀ el ∈ ary, el.isNumber = true) → ∀ init,
        lxArrayReduce isABlock block ary init =
          orNil (ary.foldlM (fun acc el => block.apply isABlock [el, acc]) init)) := by
  refine ⟨lxArrayEach_eq hdef, fun body hcode => ?_⟩
  refine ⟨lxArrayMap_eq hcode hdef, lxArraySelect_eq hcode hdef, lxArrayReject_eq hcode hdef,
    lxArrayFind_eq hcode hdef, ?_⟩
  intro hnum init
  exact lxArrayReduce_eq hcode hdef hnum init

/-- A block that computes a function: one call for each element, in order. -/
theorem lxArrayMap_of_function {isABlock : Value ν → Bool} {block : Block ν E}
    {body : Calls ν → List (Value ν) → Ending ν E} {f : List (Value ν) → Value ν}
    {ary : List (Value ν)} (hcode : block.code = .lox body)
    (hdef : ∀ el ∈ ary, el.isUndef = false)
    (hbody : ∀ calls args, (body calls args).value = .ok (f args)) (calls : Calls ν) :
    lxArrayMap isABlock block ary calls =
      (.ok (.array (ary.map fun el => f (block.passed isABlock [el]))),
        calls ++ ary.map fun el => block.passed isABlock [el]) := by
  have hmap : ∀ (els : List (Value ν)) (calls : Calls ν),
      (els.mapM fun el => block.apply isABlock [el]) calls =
        (.ok (els.map fun el => f (block.passed isABlock [el])),
          calls ++ els.map fun el => block.passed isABlock [el]) := by
    intro els
    induction els with
    | nil => exact fun calls => congrArg (Prod.mk _) (List.append_nil calls).symm
    | cons el els ih =>
      intro calls
      have happly := apply_lox isABlock [el] calls hcode
      rw [hbody] at happly
      rw [List.mapM_cons, bind_of_ok _ happly, bind_of_ok _ (ih _), List.append_assoc]
      rfl
  rw [lxArrayMap_eq hcode hdef, orNil, map_eq_pure_bind, tryCatch_bind_ok (hmap ary calls)]
  rfl

/-- `fun add(el, last) { return last + el; }` -/
def add : Calls ℤ → List (Value ℤ) → Ending ℤ Empty
  | _, .number el :: .number last :: _ => .returns (.number (last + el))
  | _, _ => .breaks

/-- `[1, 2, 3].reduce(0, &add)`, with `&add` as the object 0; and `map(&add)` breaks, as there is
one number only. -/
theorem add_arrayMethods :
    lxArrayReduce (fun _ => false) (.given (.obj 0) (.closure add))
        [.number 1, .number 2, .number 3] (.number 0) [] =
      (.ok (.number 6), [[.number 1, .number 0, .obj 0], [.number 2, .number 1, .obj 0],
        [.number 3, .number 3, .obj 0]]) ∧
    lxArrayMap (fun _ => false) (.given (.obj 0) (.closure add))
        [.number 1, .number 2, .number 3] [] = (.ok .nil, [[.number 1, .obj 0]]) := by
  have hdef : ∀ el ∈ [Value.number (1 : ℤ), .number 2, .number 3], el.isUndef = false := by
    simp [Value.isUndef]
  have heq := (arrayMethods_eq (fun _ => false) (.given (.obj 0) (.closure add)) _ hdef).2 add rfl
  constructor
  · rw [heq.2.2.2.2 (by simp [Value.isNumber])]
    rfl
  · rw [heq.1]
    rfl

/-- A literal block that returns what it is given ends `each` at the first element; `map` drops the
value of a native function; and a function given with `&` is given the block too. -/
theorem endings_differ :
    lxArrayEach (ν := ℤ) (E := Empty) (fun _ => false)
        (.literal fun _ args => .returns (args.headD .nil)) [.number 1, .number 2] [] =
      (.ok (.number 1), [[.number 1]]) ∧
    lxArrayMap (ν := ℤ) (E := Empty) (fun _ => false)
        (.given (.obj 0) (.nativeFunction fun _ args => .ok (args.headD .nil))) [.number 1] [] =
      (.ok (.array []), [[.number 1]]) ∧
    lxArrayMap (ν := ℤ) (E := Empty) (fun _ => false)
        (.given (.obj 0) (.closure fun _ args => .returns (args.headD .nil))) [.number 1] [] =
      (.ok (.array [.number 1]), [[.number 1, .obj 0]]) := by
  refine ⟨?_, ?_, ?_⟩
  · rw [lxArrayEach_eq (by simp [Value.isUndef])]
    rfl
  · have hcall : yieldFromC (E := Empty) (fun _ => false)
        (.given (.obj 0) (.nativeFunction fun _ args => .ok (args.headD .nil)))
        [Value.number (1 : ℤ)] [] = (.ok (.number 1), [[.number 1]]) := rfl
    have hdrop : [Value.number (1 : ℤ)].drop 0 = [.number 1] := rfl
    have hloop := eachLoop_returned { blockIterFunc := some mapIter } (.array []) hdrop rfl hcall
    exact bind_of_ok _ (hloop.trans (eachLoop_end rfl))
  · rw [lxArrayMap_eq rfl (by simp [Value.isUndef])]
    rfl

end Clox.ArrayBlocks
