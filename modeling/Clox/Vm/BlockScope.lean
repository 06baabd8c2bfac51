import Mathlib.Data.List.Basic

/-! # The variables of blocks

The closure of a block is made when it is yielded, from the frame that
`getOuterClosureFrame` finds. Of the frames stands here what this depends on;
each has a closure, as a native frame has that of the frame below it, with its
`slots`. The call that a block is written at gives it to its callee in a
`CallInfo`; native functions hand it on. With the block goes where it is
written, which the code does not know.
-/

namespace Clox.BlockScope

structure Upvalue where
  isLocal : Bool
  index : ℕ
deriving DecidableEq, Repr

/-- Where the variables of a frame are: its `slots`, and the upvalues of its closure. -/
structure Scope where
  slots : ℕ
  upvalues : List ℕ
deriving DecidableEq, Repr

/-- A slot of the stack (an open upvalue for it is unique), or the upvalue of a closure. -/
inductive Var where
  | slot (addr : ℕ)
  | upvalue (id : Option ℕ)
deriving DecidableEq, Repr

structure Block where
  upvaluesInfo : List Upvalue
  /-- The scope of the frame it is written in. -/
  owner : Scope
deriving DecidableEq, Repr

structure CallFrame where
  isCCall : Bool
  scope : Scope
  /-- `callInfo->blockFunction` -/
  blockFunction : Option Block := none
deriving DecidableEq, Repr

/-- What an upvalue is in a scope. -/
def Scope.capture (scope : Scope) (info : Upvalue) : Var :=
  if info.isLocal then .slot (scope.slots + info.index) else .upvalue scope.upvalues[info.index]?

/-! ## Making the closure -/

/-- `fillClosureUpvalues` -/
def fillClosureUpvalues (block : Block) (frame : CallFrame) : List (Option Var) :=
  block.upvaluesInfo.map fun info => some (frame.scope.capture info)

def getOuterClosureFrame (frames : List CallFrame) : Option CallFrame := frames.tail.head?

/-- The native function `yield`: the block is that of the frame which called it. -/
def lxYield (frames : List CallFrame) : Option (Block × List (Option Var)) :=
  match frames.tail.head?, getOuterClosureFrame frames with
  | some frame, some outerFrame =>
    frame.blockFunction.map fun block => (block, fillClosureUpvalues block outerFrame)
  | _, _ => none

/-- Other native functions that yield: the block is theirs. -/
def yieldBlockCatch (frames : List CallFrame) : Option (Block × List (Option Var)) :=
  match frames.head?, getOuterClosureFrame frames with
  | some frame, some outerFrame =>
    frame.blockFunction.map fun block => (block, fillClosureUpvalues block outerFrame)
  | _, _ => none

/-- The closure is kept in the block entry of the native function, which is for its block. -/
def getCFrameBlockClosure (frames : List CallFrame) : Option (Block × List (Option Var)) :=
  yieldBlockCatch frames

/-- `doCallCallable` of a function with a block parameter, whose frame is the last: `newClosure` sets
no upvalue. -/
def blockArg (frames : List CallFrame) : Option (Block × List (Option Var)) :=
  match frames.head? with
  | some frame =>
    frame.blockFunction.map fun block => (block, block.upvaluesInfo.map fun _ => none)
  | none => none

/-- The places where closures of blocks are made. -/
inductive Place where
  | lxYield
  | yieldBlockCatch
  | getCFrameBlockClosure
  | blockArg
deriving DecidableEq, Repr

def Place.closure : Place → List CallFrame → Option (Block × List (Option Var))
  | lxYield => BlockScope.lxYield
  | yieldBlockCatch => BlockScope.yieldBlockCatch
  | getCFrameBlockClosure => BlockScope.getCFrameBlockClosure
  | blockArg => BlockScope.blockArg

/-! ## Runs -/

inductive Op where
  /-- A closure is called, by an opcode with the upvalues of the block written there, or by a native
  function that may hand on its block. -/
  | call (scope : Scope) (block : Option (List Upvalue)) (handOn : Bool)
  | callNative (block : Option (List Upvalue)) (handOn : Bool)
  | popFrame
deriving DecidableEq, Repr

/-- The block that a frame gives to its callee. -/
def CallFrame.gives (f : CallFrame) (block : Option (List Upvalue)) (handOn : Bool) : Option Block :=
  if f.isCCall then (if handOn then f.blockFunction else none)
  else block.map fun upvaluesInfo => { upvaluesInfo, owner := f.scope }

def step (frames : List CallFrame) : Op → Option (List CallFrame)
  | .call scope block handOn =>
    match frames with
    | f :: rest =>
      some ({ isCCall := false, scope, blockFunction := f.gives block handOn } :: f :: rest)
    | [] => none
  | .callNative block handOn =>
    match frames with
    | f :: rest =>
      some ({ isCCall := true, scope := f.scope, blockFunction := f.gives block handOn } ::
        f :: rest)
    | [] => none
  | .popFrame =>
    match frames with
    | _ :: f :: rest => some (f :: rest)
    | _ => none

inductive Run : List CallFrame → Prop
  | init (scope : Scope) : Run [{ isCCall := false, scope }]
  | step {frames frames' : List CallFrame} (op : Op) (h : Run frames)
      (hstep : step frames op = some frames') : Run frames'

/-! ## The right variables -/

/-- Each upvalue is the variable of the place where the block is written. -/
def Sees (block : Block) (upvalues : List (Option Var)) : Prop :=
  upvalues = block.upvaluesInfo.map fun info => some (block.owner.capture info)

/-- The scope has the variables that the block captures in that of its owner. -/
def SameVariables (block : Block) (scope : Scope) : Prop :=
  ∀ info ∈ block.upvaluesInfo,
    if info.isLocal then scope.slots = block.owner.slots
    else scope.upvalues[info.index]? = block.owner.upvalues[info.index]?

/-- A native function other than `yield` yields; `yield` is called where the captured variables are
the same; or there are none. -/
def Place.Sound (frames : List CallFrame) (block : Block) : Place → Prop
  | .lxYield => ∀ frame ∈ frames.tail.head?, SameVariables block frame.scope
  | .yieldBlockCatch | .getCFrameBlockClosure => True
  | .blockArg => block.upvaluesInfo = []

/-- A block is written in the frame below that of its callee, and a native frame has the scope of the
one below it. -/
def Wf : List CallFrame → Prop
  | [] => True
  | f :: rest =>
    (∀ block, f.blockFunction = some block → ∃ g ∈ rest.head?, block.owner = g.scope) ∧
      (f.isCCall = true → ∃ g ∈ rest.head?, f.scope = g.scope) ∧ Wf rest

section

variable {frames frames' rest : List CallFrame} {f : CallFrame} {block : Block}

/-- Who gives a block to its callee has the scope it is written in. -/
theorem Wf.gives (hwf : Wf (f :: rest)) {written : Option (List Upvalue)} {handOn : Bool}
    (h : f.gives written handOn = some block) : block.owner = f.scope := by
  rw [CallFrame.gives] at h
  split at h
  · next hnative =>
    split at h
    · obtain ⟨g, hg, howner⟩ := hwf.1 block h
      obtain ⟨g', hg', hscope⟩ := hwf.2.1 hnative
      obtain rfl : g = g' := Option.some.inj (hg.symm.trans hg')
      rw [howner, hscope]
    · cases h
  · obtain ⟨info, -, rfl⟩ := Option.map_eq_some_iff.mp h
    rfl

theorem Wf.step (hwf : Wf frames) {op : Op} (h : step frames op = some frames') : Wf frames' := by
  cases op with
  | call scope written handOn =>
    cases frames with
    | nil => cases h
    | cons f rest =>
      obtain rfl := Option.some.inj h
      refine ⟨?_, by simp, hwf⟩
      intro block hblock
      exact ⟨f, rfl, hwf.gives hblock⟩
  | callNative written handOn =>
    cases frames with
    | nil => cases h
    | cons f rest =>
      obtain rfl := Option.some.inj h
      refine ⟨?_, fun _ => ⟨f, rfl, rfl⟩, hwf⟩
      intro block hblock
      exact ⟨f, rfl, hwf.gives hblock⟩
  | popFrame =>
    rcases frames with _ | ⟨f, _ | ⟨g, rest⟩⟩
    · cases h
    · cases h
    · obtain rfl := Option.some.inj h
      exact hwf.2.2

theorem Run.wf (run : Run frames) : Wf frames := by
  induction run with
  | init scope => exact ⟨by simp, by simp, trivial⟩
  | step op _ hstep ih => exact ih.step hstep

/-- A closure filled from a frame sees the right variables if they are the same there. -/
theorem sees_fillClosureUpvalues_iff :
    Sees block (fillClosureUpvalues block f) ↔ SameVariables block f.scope := by
  rw [Sees, fillClosureUpvalues, List.map_inj_left, SameVariables]
  apply forall₂_congr
  intro info _
  rw [Option.some.injEq, Scope.capture, Scope.capture]
  split
  · rw [Var.slot.injEq, Nat.add_right_cancel_iff]
  · rw [Var.upvalue.injEq]

theorem SameVariables.of_owner {scope : Scope} (h : block.owner = scope) :
    SameVariables block scope := by
  intro info _
  rw [h]
  split
  · rfl
  · rfl

/-- In all runs the closure of a block sees the variables of the place it is written in if and only
if the place where it is made is sound for it. -/
theorem Run.sees_iff (run : Run frames) (place : Place) {upvalues : List (Option Var)}
    (h : place.closure frames = some (block, upvalues)) :
    Sees block upvalues ↔ place.Sound frames block := by
  have hwf := run.wf
  have hyield : yieldBlockCatch frames = some (block, upvalues) → (Sees block upvalues ↔ True) := by
    intro h
    rcases frames with _ | ⟨f, _ | ⟨g, rest⟩⟩
    · cases h
    · cases h
    · obtain ⟨b, hb, heq⟩ := Option.map_eq_some_iff.mp h
      obtain ⟨rfl, rfl⟩ := Prod.mk.inj heq
      obtain ⟨g', hg, howner⟩ := hwf.1 b hb
      obtain rfl := Option.some.inj hg
      rw [sees_fillClosureUpvalues_iff]
      exact iff_true_intro (SameVariables.of_owner howner)
  cases place with
  | yieldBlockCatch => exact hyield h
  | getCFrameBlockClosure => exact hyield h
  | lxYield =>
    rcases frames with _ | ⟨f, _ | ⟨g, rest⟩⟩
    · cases h
    · cases h
    · obtain ⟨b, hb, heq⟩ := Option.map_eq_some_iff.mp h
      obtain ⟨rfl, rfl⟩ := Prod.mk.inj heq
      rw [sees_fillClosureUpvalues_iff]
      constructor
      · intro hsame frame hframe
        obtain rfl := Option.some.inj hframe
        exact hsame
      · intro hsame
        exact hsame g rfl
  | blockArg =>
    rcases frames with _ | ⟨f, rest⟩
    · cases h
    · obtain ⟨b, hb, heq⟩ := Option.map_eq_some_iff.mp h
      obtain ⟨rfl, rfl⟩ := Prod.mk.inj heq
      rw [Sees, List.map_inj_left, Place.Sound, List.eq_nil_iff_forall_not_mem]
      apply forall_congr'
      intro info
      simp

end

/-- `fun f() { var i = 0; [1].map() -> (x) { i += x; }; }`: `map` calls `each`, which yields. -/
theorem nativeBlock_sees :
    Sees ⟨[⟨true, 1⟩], ⟨4, []⟩⟩ [some (.slot 5)] := by
  have called := (Run.init ⟨0, []⟩).step (.call ⟨4, []⟩ none false) rfl
  have mapCalled := called.step (.callNative (some [⟨true, 1⟩]) false) rfl
  have each := mapCalled.step (.callNative none true) rfl
  exact (each.sees_iff .getCFrameBlockClosure rfl).mpr trivial

/-- `fun g() { yield(); } fun f() { var i = 0; g() -> { i += 1; }; }`: the block adds to what is in
the slots of `g`. -/
theorem yieldInFunction_misses :
    ∃ frames block upvalues, Run frames ∧
      Place.lxYield.closure frames = some (block, upvalues) ∧ ¬ Sees block upvalues := by
  have called := (Run.init ⟨0, []⟩).step (.call ⟨4, []⟩ none false) rfl
  have yielder := called.step (.call ⟨6, []⟩ (some [⟨true, 1⟩]) false) rfl
  have yielding := yielder.step (.callNative none false) rfl
  refine ⟨_, ⟨[⟨true, 1⟩], ⟨4, []⟩⟩, [some (.slot 7)], yielding, rfl, ?_⟩
  rw [Sees]
  decide

end Clox.BlockScope
