import Mathlib.Data.List.Basic
import Mathlib.Logic.Function.Basic

/-! # The `CallInfo` of a call site

A call instruction has a `CallInfo` among the constants of its function. `doCallCallable` writes the
block that a call was given into it, and reads it again in the same and in later executions of the
instruction. A program cannot tell this from a `CallInfo` of its own for every execution as long as
the block last given at a call site is that of the execution which asks for it.
-/

namespace Clox.CallSites

variable {V : Type}

/-! ## Calls -/

/-- What the compiler puts into a `CallInfo`; `blockFunction` is the block written at the call. -/
structure CallInfo where
  kwargNames : List String
  blockFunction : Option ℕ
deriving DecidableEq, Repr

structure Function where
  arity : ℕ
  numDefaultArgs : ℕ
  /-- The names of the keyword parameters. -/
  kwargs : List String
  hasRestArg : Bool
  hasBlockArg : Bool
deriving DecidableEq, Repr

/-- What is called in the end. -/
inductive Target where
  | closure (isBlock : Bool) (func : Function)
  | native (id : ℕ)
deriving DecidableEq, Repr

inductive Callable (V : Type) where
  | target (t : Target)
  /-- With its initializer, if there is one. -/
  | class (init : Option Target)
  | boundMethod (receiver : V) (t : Target)
deriving DecidableEq, Repr

/-- A value on the operand stack when the callee begins. -/
inductive Slot (V : Type) where
  | val (v : V)
  | nil
  | undef
  | newInstance
  | restArray (els : List (Slot V))
  /-- `newBlock` of a closure of the function. -/
  | newBlock (blockFunction : ℕ)
  | kwargsMap (entries : List (String × Slot V))

inductive Error where
  /-- `checkFunctionArity` -/
  | arity
  | noInit
  | segfault
deriving DecidableEq, Repr

/-- How the callee begins. -/
inductive Entry (V : Type) where
  /-- The operands from the callable or receiver on, the number of them that are in the frame, and the
  default parameters whose code is skipped. -/
  | closure (func : Function) (operands : List (Slot V)) (frameSize : ℕ) (numDefaultArgsUnused : ℕ)
  | native (id : ℕ) (args : List (Slot V))

/-- A call as far as its `CallInfo` goes: the arguments, `callInfo->blockInstance` and the variable
`blockInstance`. -/
structure Handed (V : Type) where
  args : List V
  callBlock : Option V
  blockInstance : Option V
deriving DecidableEq

section Call

variable (isBlock : V → Bool)

/-- The value on top of the stack, and whether it is a block: `base` is the callable or the
receiver. -/
def topIsBlock (base : V) (args : List V) : Bool := isBlock (args.getLast?.getD base)

/-- The call is given a block as its last argument. -/
def gives (args : List V) : Option V := args.getLast?.filter isBlock

/-- The first lines of `doCallCallable`; `block` is `callInfo->blockInstance`, where there is a
`CallInfo`. -/
def takeBlock (callInfo : Option CallInfo) (base : V) (args : List V) (block : Option V) :
    Handed V :=
  if callInfo.isNone then ⟨args, none, none⟩
  else
    match (gives isBlock args).or block with
    | some b =>
      if topIsBlock isBlock base args then ⟨args, some b, gives isBlock args⟩
      else ⟨args ++ [b], some b, some b⟩
    | none => ⟨args, none, none⟩

/-- `checkFunctionArity` -/
def checkFunctionArity (func : Function) (argCount : ℕ) : Bool :=
  let arityMax := if func.hasRestArg then 20
    else func.arity + func.numDefaultArgs + func.kwargs.length + (if func.hasBlockArg then 1 else 0)
  decide (func.arity ≤ argCount ∧ argCount ≤ arityMax)

/-- The keyword arguments are taken from the stack, the last one first. -/
def popKwargs (kwargs : List String) (operands : List (Slot V)) (kwargNames : List String) :
    List (Slot V) × List (String × Slot V) :=
  kwargNames.reverse.foldl (fun acc name =>
    kwargs.foldl (fun acc kwname =>
      if kwname = name then (acc.1.dropLast, (kwname, acc.1.getLast?.getD .nil) :: acc.2)
      else acc) acc) (operands, [])

/-- The part of `doCallCallable` behind the branches, up to `vm_run`. -/
def enterClosure (callInfo : Option CallInfo) (func : Function) (self : Slot V) (h : Handed V) :
    Except Error (Entry V) :=
  let args := h.args.map Slot.val
  let given := h.blockInstance.isSome
  -- the block is taken from the stack in front of keyword arguments and of defaults
  let kwargsCall := decide (func.kwargs ≠ []) && callInfo.isSome
  let popped := given && (kwargsCall || decide (0 < func.numDefaultArgs))
  let args := if popped then args.dropLast else args
  let argCount := if popped then h.args.length - 1 else h.args.length
  let (args, kwargsMap) := if kwargsCall
    then popKwargs func.kwargs args ((callInfo.map CallInfo.kwargNames).getD [])
    else (args, [])
  let numDefaultArgsUsed := func.arity + func.numDefaultArgs - argCount
  let args := args ++ List.replicate numDefaultArgsUsed .nil
  let numRestArgs := argCount - (func.arity + func.numDefaultArgs)
  let (args, argCount) := if func.hasRestArg
    then (args.take (args.length - numRestArgs) ++ [.restArray (args.drop (args.length - numRestArgs))],
      argCount - numRestArgs + 1)
    else (args, argCount)
  let args := if kwargsCall
    then args ++ func.kwargs.map fun name => (kwargsMap.lookup name).getD .undef
    else args
  let notGiven := if kwargsCall
    then func.kwargs.countP fun name => (kwargsMap.lookup name).isNone
    else 0
  match (if func.hasBlockArg && !given then
      match callInfo with
      | none => Except.error Error.segfault
      | some info => .ok [(info.blockFunction.map Slot.newBlock).getD .nil]
    else if popped then .ok (h.blockInstance.map Slot.val).toList
    else .ok []) with
  | .error e => .error e
  | .ok block =>
    let operands := self :: (args ++ block ++
      (if func.kwargs = [] then [] else if kwargsCall then [.kwargsMap kwargsMap] else [.nil]))
    let frameSize := argCount + block.length + numDefaultArgsUsed + 1 +
      (if func.kwargs = [] then 0 else notGiven + 1)
    .ok (.closure func operands frameSize (func.numDefaultArgs - numDefaultArgsUsed))

/-- `captureNativeError`: the block is not an argument of the native function. -/
def captureNativeError (id : ℕ) (args : List (Slot V)) (h : Handed V) : Entry V :=
  .native id (if h.callBlock.isSome then args.dropLast else args)

def enterTarget (callInfo : Option CallInfo) (self : Slot V) (isMethod : Bool) (h : Handed V) :
    Target → Except Error (Entry V)
  | .closure isBlock func =>
    if isBlock || h.callBlock.isSome || checkFunctionArity func h.args.length
    then enterClosure callInfo func self h
    else .error .arity
  | .native id =>
    let args := h.args.map Slot.val
    .ok (captureNativeError id (if isMethod then self :: args else args) h)

/-- What `doCallCallable` hands on, and how the callee begins. -/
def doCallCallable (callInfo : Option CallInfo) (base : V) (isMethod : Bool) (args : List V)
    (block : Option V) : Callable V → Handed V × Except Error (Entry V)
  | .target t =>
    let h := takeBlock isBlock callInfo base args block
    (h, enterTarget callInfo (.val base) isMethod h t)
  | .class init =>
    let h := takeBlock isBlock callInfo base args block
    match init with
    | some t => (h, enterTarget callInfo .newInstance true h t)
    | none => (h, .error .noInit)
  | .boundMethod receiver t =>
    let h := takeBlock isBlock callInfo base args block
    -- it calls itself, with the receiver in the place of the bound method
    let h := takeBlock isBlock callInfo receiver h.args h.callBlock
    (h, enterTarget callInfo (.val receiver) true h t)

end Call

section Call

variable {isBlock : V → Bool} {callInfo : Option CallInfo} {base : V} {isMethod : Bool}
  {args : List V} {block block' : Option V} {callable : Callable V}

theorem callBlock_takeBlock (hinfo : callInfo.isSome) :
    (takeBlock isBlock callInfo base args block).callBlock = (gives isBlock args).or block := by
  unfold takeBlock
  rw [if_neg (by simp [Option.isSome_iff_ne_none.mp hinfo])]
  cases (gives isBlock args).or block with
  | none => rfl
  | some b =>
    simp only
    split <;> rfl

/-- Looking for the block once more, with another receiver, changes nothing. -/
theorem gives_takeBlock (hinfo : callInfo.isSome) :
    (gives isBlock (takeBlock isBlock callInfo base args block).args).or
      ((gives isBlock args).or block) = (gives isBlock args).or block := by
  unfold takeBlock
  rw [if_neg (by simp [Option.isSome_iff_ne_none.mp hinfo])]
  cases hor : (gives isBlock args).or block with
  | none =>
    rw [Option.or_eq_none_iff] at hor
    simp [hor.1]
  | some b =>
    simp only
    split
    · rw [← hor, ← Option.or_assoc, Option.or_self]
    · -- the block was pushed: it is what the call would now be given
      unfold gives
      rw [List.getLast?_append, List.getLast?_singleton, Option.some_or, Option.filter_some]
      split <;> rfl

/-- The `CallInfo` keeps the block of the call, or the one it had. -/
theorem callBlock_doCallCallable (hinfo : callInfo.isSome) :
    (doCallCallable isBlock callInfo base isMethod args block callable).1.callBlock =
      (gives isBlock args).or block := by
  cases callable with
  | target t => exact callBlock_takeBlock hinfo
  | «class» init =>
    cases init with
    | none => exact callBlock_takeBlock hinfo
    | some t => exact callBlock_takeBlock hinfo
  | boundMethod receiver t =>
    show (takeBlock isBlock callInfo receiver _ _).callBlock = _
    rw [callBlock_takeBlock hinfo, callBlock_takeBlock hinfo, gives_takeBlock hinfo]

theorem takeBlock_congr (h : callInfo.isSome →
    (gives isBlock args).or block = (gives isBlock args).or block') :
    takeBlock isBlock callInfo base args block = takeBlock isBlock callInfo base args block' := by
  unfold takeBlock
  cases callInfo with
  | none => rfl
  | some info => rw [h rfl]

/-- What a call does depends on the block in the `CallInfo` only if it is not given one. -/
theorem doCallCallable_eq_iff (base : V) (isMethod : Bool) (callable : Callable V) :
    doCallCallable isBlock callInfo base isMethod args block callable =
      doCallCallable isBlock callInfo base isMethod args block' callable ↔
      (callInfo.isSome → (gives isBlock args).isSome ∨ block = block') := by
  constructor
  · intro heq hinfo
    have hblock := congrArg (fun res => res.1.callBlock) heq
    simp only [callBlock_doCallCallable hinfo] at hblock
    cases hgives : gives isBlock args with
    | some b => exact .inl rfl
    | none =>
      rw [hgives, Option.none_or, Option.none_or] at hblock
      exact .inr hblock
  · intro h
    have htake : takeBlock isBlock callInfo base args block =
        takeBlock isBlock callInfo base args block' := by
      refine takeBlock_congr fun hinfo => ?_
      rcases h hinfo with hgives | hblock
      · obtain ⟨b, hb⟩ := Option.isSome_iff_exists.mp hgives
        rw [hb, Option.some_or, Option.some_or]
      · rw [hblock]
    cases callable with
    | target t => simp only [doCallCallable, htake]
    | «class» init => simp only [doCallCallable, htake]
    | boundMethod receiver t => simp only [doCallCallable, htake]

end Call

/-! ## The machine -/

/-- An execution of a call. A native function that calls with a `CallInfo` of its own has no call
site. -/
structure Exec where
  number : ℕ
  site : Option ℕ
deriving DecidableEq, Repr

structure Frame where
  exec : Exec
  /-- None where it is NULL. -/
  callInfo : Option CallInfo
deriving DecidableEq, Repr

/-- A block that a call was given. -/
structure Gift (V : Type) where
  exec : Exec
  block : V
deriving DecidableEq, Repr

/-- Where a `CallInfo` is: in the constants, or made for one execution. -/
inductive Ref where
  | site (s : ℕ)
  | exec (x : Exec)
deriving DecidableEq, Repr

structure State (V : Type) where
  /-- The field `blockInstance`. -/
  blockInstance : Ref → Option V
  /-- The last one first. -/
  frames : List Frame
  /-- The number of executions so far. -/
  execs : ℕ
  /-- The blocks that calls were given so far, the last one first. -/
  given : List (Gift V)

inductive Event (V : Type) where
  /-- `OP_CALL` or `OP_INVOKE` -/
  | call (site : ℕ) (base : V) (isMethod : Bool) (args : List V) (callable : Callable V)
  /-- A native function calls with a `CallInfo` of its own, or with none. -/
  | callNative (callInfo : Option (CallInfo × Option V)) (base : V) (isMethod : Bool)
    (args : List V) (callable : Callable V)
  /-- A native function hands on the `CallInfo` of its frame, as `lxObjectSend` does. -/
  | send (base : V) (args : List V) (callable : Callable V)
  /-- `callInfo` of a frame is read: by `yield`, `blockGiven` and the methods that take a block. -/
  | read (depth : ℕ)
  /-- A frame is left, by a return or on the way to a handler. -/
  | popFrame

/-- What the program gets to see of an event. -/
inductive Observation (V : Type) where
  | entered (h : Handed V) (entry : Except Error (Entry V))
  | seen (callInfo : Option (Option ℕ × Option V))
  | popped
  | impossible

/-- Whether the `CallInfo` of a call site is the constant, or a copy of it in each execution. -/
inductive Mode where
  | shared
  | copied
deriving DecidableEq, Repr

def Exec.ref : Mode → Exec → Ref
  | .shared, ⟨_, some s⟩ => .site s
  | _, x => .exec x

section Machine

variable (isBlock : V → Bool) (sites : ℕ → CallInfo)

/-- An execution with a `CallInfo` of its own begins. -/
def State.newCallInfo (mode : Mode) (s : State V) (block : Option V) : State V where
  blockInstance := Function.update s.blockInstance (Exec.ref mode ⟨s.execs, none⟩) block
  frames := s.frames
  execs := s.execs + 1
  given := (block.map (Gift.mk ⟨s.execs, none⟩)).toList ++ s.given

/-- `doCallCallable` in the execution of `f`. -/
def State.enter (mode : Mode) (s : State V) (f : Frame) (base : V) (isMethod : Bool)
    (args : List V) (callable : Callable V) : Observation V × State V :=
  let (h, entry) := doCallCallable isBlock f.callInfo base isMethod args
    (s.blockInstance (f.exec.ref mode)) callable
  (.entered h entry,
    { blockInstance := if f.callInfo.isSome
        then Function.update s.blockInstance (f.exec.ref mode) h.callBlock
        else s.blockInstance
      frames := if entry.toOption.isSome then f :: s.frames else s.frames
      execs := s.execs
      given := if f.callInfo.isSome
        then ((gives isBlock args).map (Gift.mk f.exec)).toList ++ s.given
        else s.given })

def State.step (mode : Mode) (s : State V) : Event V → Observation V × State V
  | .call site base isMethod args callable =>
    let s' := { s with execs := s.execs + 1 }
    s'.enter isBlock mode ⟨⟨s.execs, some site⟩, some (sites site)⟩ base isMethod args callable
  | .callNative callInfo base isMethod args callable =>
    (s.newCallInfo mode (callInfo.bind Prod.snd)).enter isBlock mode
      ⟨⟨s.execs, none⟩, callInfo.map Prod.fst⟩ base isMethod args callable
  | .send base args callable =>
    match s.frames with
    | f :: _ => s.enter isBlock mode f base true args callable
    | [] => (.impossible, s)
  | .read depth =>
    match s.frames[depth]? with
    | some f =>
      (.seen (f.callInfo.map fun info => (info.blockFunction, s.blockInstance (f.exec.ref mode))), s)
    | none => (.impossible, s)
  | .popFrame =>
    match s.frames with
    | _ :: frames => (.popped, { s with frames })
    | [] => (.impossible, s)

/-- No call was made yet. -/
def State.start : State V := ⟨fun _ => none, [], 0, []⟩

/-- A program decides on what it has seen so far. -/
abbrev Program (V : Type) := List (Observation V) → Event V

/-- What the first `n` events let the program see, and the state after them. -/
def run (mode : Mode) (p : Program V) : ℕ → List (Observation V) × State V
  | 0 => ([], State.start)
  | n + 1 =>
    let (seen, s) := run mode p n
    let (o, s) := s.step isBlock sites mode (p seen)
    (seen ++ [o], s)

end Machine

/-! ## The block of an execution -/

namespace State

/-- The block that a call was last given at the site. -/
def siteBlock (s : State V) (site : ℕ) : Option V :=
  (s.given.find? fun g => g.exec.site = some site).map Gift.block

/-- The block that the call was last given in the execution. -/
def execBlock (s : State V) (x : Exec) : Option V :=
  (s.given.find? fun g => g.exec = x).map Gift.block

/-- The block last given at the call site of the execution is its own one. -/
def Own (s : State V) (x : Exec) : Prop :=
  ∀ site, x.site = some site → s.siteBlock site = s.execBlock x

/-- A call that is not given a block, or a reader of the `CallInfo`, finds that of the execution. -/
def Ok (isBlock : V → Bool) (s : State V) : Event V → Prop
  | .call site _ _ args _ => (gives isBlock args).isSome ∨ s.siteBlock site = none
  | .callNative .. => True
  | .send _ args _ => ∀ f ∈ s.frames.head?, f.callInfo.isSome →
    (gives isBlock args).isSome ∨ s.Own f.exec
  | .read depth => ∀ f ∈ s.frames[depth]?, f.callInfo.isSome → s.Own f.exec
  | .popFrame => True

end State

/-! ## What the fields `blockInstance` hold -/

section Inv

variable {isBlock : V → Bool} {sites : ℕ → CallInfo} {mode : Mode} {s t : State V} {f : Frame}
  {x : Exec} {e : Event V} {base : V} {isMethod : Bool} {args : List V} {callable : Callable V}

/-- A `CallInfo` holds the block that was last given where it is used. -/
structure Inv (mode : Mode) (s : State V) : Prop where
  block : ∀ r, s.blockInstance r = (s.given.find? fun g => g.exec.ref mode = r).map Gift.block
  given_lt : ∀ g ∈ s.given, g.exec.number < s.execs
  frames_lt : ∀ f ∈ s.frames, f.exec.number < s.execs

theorem ref_eq_exec {y : Exec} (h : y.ref mode = .exec x) : y = x := by
  obtain ⟨n, site⟩ := y
  cases mode with
  | shared =>
    cases site with
    | none => exact Ref.exec.inj h
    | some σ => cases h
  | copied => exact Ref.exec.inj h

theorem ref_copied (x : Exec) : x.ref .copied = .exec x := rfl

theorem ref_none (n : ℕ) : Exec.ref mode ⟨n, none⟩ = .exec ⟨n, none⟩ := by
  cases mode <;> rfl

theorem start_inv : Inv mode (State.start : State V) where
  block r := rfl
  given_lt g hg := by cases hg
  frames_lt f hf := by cases hf

theorem Inv.more_execs (h : Inv mode s) : Inv mode { s with execs := s.execs + 1 } where
  block := h.block
  given_lt g hg := Nat.lt_succ_of_lt (h.given_lt g hg)
  frames_lt f hf := Nat.lt_succ_of_lt (h.frames_lt f hf)

/-- A block is given, or the `CallInfo` stays as it is. -/
theorem Inv.give (h : Inv mode s) (hx : x.number < s.execs) (b : Option V) :
    Inv mode { s with
      blockInstance :=
        Function.update s.blockInstance (x.ref mode) (b.or (s.blockInstance (x.ref mode)))
      given := (b.map (Gift.mk x)).toList ++ s.given } where
  block r := by
    cases b with
    | none =>
      rw [Option.none_or, Function.update_eq_self]
      exact h.block r
    | some b =>
      show Function.update s.blockInstance (x.ref mode) (some b) r = _
      by_cases hr : r = x.ref mode
      · subst hr
        rw [Function.update_self]
        simp
      · have hne : ¬ x.ref mode = r := fun h => hr h.symm
        rw [Function.update_of_ne hr, h.block r]
        simp [hne]
  given_lt g hg := by
    rcases List.mem_append.mp hg with hnew | hold
    · cases b with
      | none => cases hnew
      | some b =>
        rw [List.mem_singleton.mp hnew]
        exact hx
    · exact h.given_lt g hold
  frames_lt := h.frames_lt

theorem Inv.enter (h : Inv mode s) (hf : f.exec.number < s.execs) :
    Inv mode (s.enter isBlock mode f base isMethod args callable).2 := by
  have hframes : ∀ entry : Except Error (Entry V), ∀ g ∈ (if entry.toOption.isSome then f :: s.frames
      else s.frames), g.exec.number < s.execs := by
    intro entry g hg
    split at hg
    · rcases List.mem_cons.mp hg with rfl | hg
      · exact hf
      · exact h.frames_lt g hg
    · exact h.frames_lt g hg
  unfold State.enter
  cases hinfo : f.callInfo with
  | none => exact ⟨h.block, h.given_lt, hframes _⟩
  | some info =>
    have hgive := h.give hf (gives isBlock args)
    have hblock : (doCallCallable isBlock (some info) base isMethod args
        (s.blockInstance (f.exec.ref mode)) callable).1.callBlock =
        (gives isBlock args).or (s.blockInstance (f.exec.ref mode)) :=
      callBlock_doCallCallable rfl
    simp only [Option.isSome_some, if_true, hblock]
    exact ⟨hgive.block, hgive.given_lt, hframes _⟩

theorem Inv.newCallInfo (h : Inv mode s) (block : Option V) : Inv mode (s.newCallInfo mode block) := by
  have hnew : s.blockInstance (Exec.ref mode ⟨s.execs, none⟩) = none := by
    rw [h.block, Option.map_eq_none_iff, List.find?_eq_none]
    intro g hg heq
    rw [ref_none, decide_eq_true_eq] at heq
    have hlt := h.given_lt g hg
    rw [ref_eq_exec heq] at hlt
    exact absurd hlt (Nat.lt_irrefl _)
  have hgive := h.more_execs.give (x := ⟨s.execs, none⟩) (Nat.lt_succ_self _) block
  rw [hnew, Option.or_none] at hgive
  exact hgive

theorem Inv.step (h : Inv mode s) : Inv mode (s.step isBlock sites mode e).2 := by
  cases e with
  | call site base isMethod args callable => exact h.more_execs.enter (Nat.lt_succ_self _)
  | callNative callInfo base isMethod args callable =>
    exact (h.newCallInfo _).enter (Nat.lt_succ_self _)
  | send base args callable =>
    unfold State.step
    cases hframes : s.frames with
    | nil => exact h
    | cons f frames => exact h.enter (h.frames_lt f (by rw [hframes]; exact List.mem_cons_self))
  | read depth =>
    simp only [State.step]
    cases s.frames[depth]? <;> exact h
  | popFrame =>
    unfold State.step
    cases hframes : s.frames with
    | nil => exact h
    | cons f frames =>
      refine ⟨h.block, h.given_lt, fun g hg => h.frames_lt g ?_⟩
      rw [hframes]
      exact List.mem_cons_of_mem _ hg

/-- The two machines have made the same calls. -/
structure Agree (s t : State V) : Prop where
  frames : s.frames = t.frames
  execs : s.execs = t.execs
  given : s.given = t.given

/-- The constant has the block that a copy would have if the last one given at the site is that of
the execution. -/
theorem block_eq_iff (hs : Inv .shared s) (ht : Inv .copied t) (h : Agree s t) (x : Exec) :
    s.blockInstance (x.ref .shared) = t.blockInstance (x.ref .copied) ↔ s.Own x := by
  have hcopy : t.blockInstance (x.ref .copied) = s.execBlock x := by
    rw [ht.block, ← h.given]
    unfold State.execBlock
    congr 2
    funext g
    rw [ref_copied, ref_copied, Bool.eq_iff_iff, decide_eq_true_eq, decide_eq_true_eq]
    exact ⟨Ref.exec.inj, congrArg Ref.exec⟩
  rw [hcopy, hs.block]
  obtain ⟨n, site⟩ := x
  cases site with
  | none =>
    refine iff_of_true ?_ fun σ hσ => by cases hσ
    unfold State.execBlock
    congr 2
    funext g
    rw [Bool.eq_iff_iff, decide_eq_true_eq, decide_eq_true_eq]
    refine ⟨ref_eq_exec, fun hg => ?_⟩
    rw [hg]
  | some σ =>
    have hsite : (s.given.find? fun g => g.exec.ref .shared = Exec.ref .shared ⟨n, some σ⟩).map
        Gift.block = s.siteBlock σ := by
      unfold State.siteBlock
      congr 2
      funext g
      rw [Bool.eq_iff_iff, decide_eq_true_eq, decide_eq_true_eq]
      obtain ⟨⟨m, site⟩, b⟩ := g
      cases site with
      | none => exact iff_of_false (fun h => by cases h) fun h => by cases h
      | some τ => exact ⟨fun h => congrArg some (Ref.site.inj h), fun h => by cases h; rfl⟩
    rw [hsite]
    constructor
    · intro heq τ hτ
      cases hτ
      exact heq
    · intro hown
      exact hown σ rfl

theorem enter_eq_iff (hs : Inv .shared s) (ht : Inv .copied t) (h : Agree s t) :
    (s.enter isBlock .shared f base isMethod args callable).1 =
      (t.enter isBlock .copied f base isMethod args callable).1 ↔
      (f.callInfo.isSome → (gives isBlock args).isSome ∨ s.Own f.exec) := by
  rw [← block_eq_iff hs ht h, ← doCallCallable_eq_iff base isMethod callable]
  unfold State.enter
  constructor
  · intro heq
    obtain ⟨hhanded, hentry⟩ := Observation.entered.inj heq
    exact Prod.ext hhanded hentry
  · intro heq
    rw [heq]

theorem Agree.enter (h : Agree s t) (heq : (s.enter isBlock .shared f base isMethod args callable).1 =
    (t.enter isBlock .copied f base isMethod args callable).1) :
    Agree (s.enter isBlock .shared f base isMethod args callable).2
      (t.enter isBlock .copied f base isMethod args callable).2 := by
  have hentry : (doCallCallable isBlock f.callInfo base isMethod args
      (s.blockInstance (f.exec.ref .shared)) callable).2 =
      (doCallCallable isBlock f.callInfo base isMethod args
        (t.blockInstance (f.exec.ref .copied)) callable).2 := (Observation.entered.inj heq).2
  unfold State.enter
  refine ⟨?_, h.execs, ?_⟩
  · simp only
    rw [hentry, h.frames]
  · simp only
    rw [h.given]

/-- The execution that begins has not been given a block yet. -/
theorem Inv.own_new (h : Inv mode s) (site : ℕ) :
    State.Own { s with execs := s.execs + 1 } ⟨s.execs, some site⟩ ↔ s.siteBlock site = none := by
  have hnone : s.execBlock ⟨s.execs, some site⟩ = none := by
    unfold State.execBlock
    rw [Option.map_eq_none_iff, List.find?_eq_none]
    intro g hg heq
    have hlt := h.given_lt g hg
    rw [of_decide_eq_true heq] at hlt
    exact absurd hlt (Nat.lt_irrefl _)
  constructor
  · intro hown
    exact (hown site rfl).trans hnone
  · intro hsite σ hσ
    cases hσ
    exact hsite.trans hnone.symm

/-- An event shows the same in both machines exactly if the condition holds, and then they go on in
the same way. -/
theorem step_eq_iff (hs : Inv .shared s) (ht : Inv .copied t) (h : Agree s t) :
    ((s.step isBlock sites .shared e).1 = (t.step isBlock sites .copied e).1 ↔ s.Ok isBlock e) ∧
      ((s.step isBlock sites .shared e).1 = (t.step isBlock sites .copied e).1 →
        Agree (s.step isBlock sites .shared e).2 (t.step isBlock sites .copied e).2) := by
  cases e with
  | call site base isMethod args callable =>
    have hmore : Agree { s with execs := s.execs + 1 } { t with execs := s.execs + 1 } :=
      ⟨h.frames, rfl, h.given⟩
    have ht' : Inv .copied { t with execs := s.execs + 1 } := h.execs ▸ ht.more_execs
    simp only [State.step, ← h.execs]
    refine ⟨(enter_eq_iff hs.more_execs ht' hmore).trans ?_, hmore.enter⟩
    rw [hs.own_new site]
    exact forall_prop_of_true rfl
  | callNative callInfo base isMethod args callable =>
    have hmore : Agree (s.newCallInfo .shared (callInfo.bind Prod.snd))
        (t.newCallInfo .copied (callInfo.bind Prod.snd)) := by
      refine ⟨h.frames, congrArg (· + 1) h.execs, ?_⟩
      simp only [State.newCallInfo, h.execs, h.given]
    simp only [State.step, ← h.execs]
    refine ⟨(enter_eq_iff (hs.newCallInfo _) (ht.newCallInfo _) hmore).trans ?_, hmore.enter⟩
    refine iff_of_true (fun _ => .inr fun σ hσ => ?_) trivial
    cases hσ
  | send base args callable =>
    unfold State.step State.Ok
    rw [← h.frames]
    cases s.frames with
    | nil =>
      refine ⟨iff_of_true rfl fun f hf => ?_, fun _ => h⟩
      cases hf
    | cons f frames =>
      refine ⟨(enter_eq_iff hs ht h).trans ?_, h.enter⟩
      constructor
      · intro hok f' hf'
        cases hf'
        exact hok
      · intro hok
        exact hok f rfl
  | read depth =>
    simp only [State.step, State.Ok, ← h.frames]
    cases s.frames[depth]? with
    | none =>
      refine ⟨iff_of_true rfl fun f hf => ?_, fun _ => h⟩
      cases hf
    | some f =>
      refine ⟨?_, fun _ => h⟩
      simp only
      have hblock := block_eq_iff hs ht h f.exec
      cases hinfo : f.callInfo with
      | none =>
        refine iff_of_true rfl fun f' hf' hsome => ?_
        rw [← Option.mem_some_iff.mp hf', hinfo] at hsome
        cases hsome
      | some info =>
        constructor
        · intro heq f' hf' _
          cases hf'
          have hsame := Option.some.inj (Observation.seen.inj heq)
          exact hblock.mp (Prod.mk.inj hsame).2
        · intro hown
          have hsame := hblock.mpr (hown f rfl (by rw [hinfo]; rfl))
          simp only [Option.map_some, hsame]
  | popFrame =>
    unfold State.step
    rw [← h.frames]
    cases s.frames with
    | nil => exact ⟨iff_of_true rfl trivial, fun _ => h⟩
    | cons f frames => exact ⟨iff_of_true rfl trivial, fun _ => ⟨rfl, h.execs, h.given⟩⟩

end Inv

/-! ## Runs -/

section Runs

variable {isBlock : V → Bool} {sites : ℕ → CallInfo}

theorem run_inv (mode : Mode) (p : Program V) (n : ℕ) :
    Inv mode (run isBlock sites mode p n).2 := by
  induction n with
  | zero => exact start_inv
  | succ n ih => exact ih.step

theorem seen_succ (mode : Mode) (p : Program V) (n : ℕ) :
    (run isBlock sites mode p (n + 1)).1 = (run isBlock sites mode p n).1 ++
      [((run isBlock sites mode p n).2.step isBlock sites mode
        (p (run isBlock sites mode p n).1)).1] := rfl

/-- The machines agree as long as the program has seen the same. -/
theorem run_agree (p : Program V) (n : ℕ)
    (h : (run isBlock sites .shared p n).1 = (run isBlock sites .copied p n).1) :
    Agree (run isBlock sites .shared p n).2 (run isBlock sites .copied p n).2 := by
  induction n with
  | zero => exact ⟨rfl, rfl, rfl⟩
  | succ n ih =>
    rw [seen_succ, seen_succ] at h
    obtain ⟨hseen, ho⟩ := List.append_inj' h rfl
    rw [← hseen] at ho
    have hnext := (step_eq_iff (run_inv .shared p n) (run_inv .copied p n) (ih hseen)).2
      (List.singleton_inj.mp ho)
    show Agree ((run isBlock sites .shared p n).2.step isBlock sites .shared _).2
      ((run isBlock sites .copied p n).2.step isBlock sites .copied _).2
    rw [← hseen]
    exact hnext

/-- A program sees the same as with a `CallInfo` for every execution exactly if each call that is not
given a block, and each reader of a `CallInfo`, comes at a time when the block last given at the call
site was given in this execution, or none was. -/
theorem run_eq_iff (p : Program V) (n : ℕ) :
    (run isBlock sites .shared p n).1 = (run isBlock sites .copied p n).1 ↔
      ∀ k < n, (run isBlock sites .shared p k).2.Ok isBlock
        (p (run isBlock sites .shared p k).1) := by
  induction n with
  | zero => exact iff_of_true rfl fun k hk => absurd hk (Nat.not_lt_zero k)
  | succ n ih =>
    rw [seen_succ, seen_succ]
    have hstep : (run isBlock sites .shared p n).1 = (run isBlock sites .copied p n).1 →
        (((run isBlock sites .shared p n).2.step isBlock sites .shared
            (p (run isBlock sites .shared p n).1)).1 =
          ((run isBlock sites .copied p n).2.step isBlock sites .copied
            (p (run isBlock sites .shared p n).1)).1 ↔
          (run isBlock sites .shared p n).2.Ok isBlock (p (run isBlock sites .shared p n).1)) :=
      fun h => (step_eq_iff (run_inv .shared p n) (run_inv .copied p n) (run_agree p n h)).1
    constructor
    · intro h k hk
      obtain ⟨hseen, ho⟩ := List.append_inj' h rfl
      rw [← hseen] at ho
      rcases Nat.lt_succ_iff_lt_or_eq.mp hk with hlt | rfl
      · exact ih.mp hseen k hlt
      · exact (hstep hseen).mp (List.singleton_inj.mp ho)
    · intro hok
      have hseen := ih.mpr fun k hk => hok k (Nat.lt_succ_of_lt hk)
      have ho := (hstep hseen).mpr (hok n (Nat.lt_succ_self n))
      rw [← hseen, ho]

end Runs

/-- The arguments that a callee is handed. -/
def Observation.args? : Observation V → Option (List V)
  | .entered h _ => some h.args
  | _ => none

/-- A call site is used twice, with the block 9 the first time. -/
def twoCalls : Program ℕ := fun seen =>
  let f : Callable ℕ := .target (.closure false ⟨1, 0, [], false, false⟩)
  if seen.length = 0 then .call 0 1 false [9] f
  else if seen.length = 1 then .popFrame
  else .call 0 1 false [5] f

/-- The second call hands its function the block of the first one. -/
theorem twoCalls_block_left :
    ((run (· == 9) (fun _ => ⟨[], none⟩) .shared twoCalls 3).1.getLast?.bind
      Observation.args?) = some [5, 9] ∧
    ((run (· == 9) (fun _ => ⟨[], none⟩) .copied twoCalls 3).1.getLast?.bind
      Observation.args?) = some [5] ∧
    (run (· == 9) (fun _ => ⟨[], none⟩) .shared twoCalls 3).1 ≠
      (run (· == 9) (fun _ => ⟨[], none⟩) .copied twoCalls 3).1 := by
  refine ⟨by decide, by decide, fun heq => ?_⟩
  have hargs := congrArg (fun seen => seen.getLast?.bind Observation.args?) heq
  revert hargs
  decide

end Clox.CallSites
