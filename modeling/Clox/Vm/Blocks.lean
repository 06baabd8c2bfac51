import Mathlib.Data.List.Basic

/-! # Blocks and native protections

The two lists a thread keeps of the C functions an error may `longjmp` to:
`errInfo`, with an `ErrTagInfo` for each `setjmp`, and `v_blockStack`, with an
entry for each `SETUP_BLOCK`. Every throwable is an `Error`, and every tag is
for `lxErrClass` or for all classes, so `findErrTag` returns the last tag. The
frames of all execution contexts are one list. `BlockStackEntry.frame` is left
out: it is set and never used. The debugger's `VMEvalNoThrow` is not modelled.
-/

namespace Clox.Blocks

/-- What blocks use of a `CallFrame`. -/
structure CallFrame where
  isCCall : Bool := false
  isEval : Bool := false
  /-- The first frame of a script or `eval`. -/
  isContext : Bool := false
  /-- The callable of a block was called (`callInfo->isYield`, or `Block#yield`). -/
  isYield : Bool := false
deriving DecidableEq, Repr

/-- Which C function waits at the `setjmp`. -/
inductive Setjmp where
  /-- `SETUP_BLOCK` with the block entry. -/
  | block (bentry : ℕ)
  /-- `vm_protect` in `execStopRecursion`. -/
  | recursion
  /-- `vm_protect` in `loadScript`, `doVMEval` and `doVMBindingEval`. -/
  | context
deriving DecidableEq, Repr

structure ErrTagInfo where
  id : ℕ
  /-- The frame, by the number of frames up to it. -/
  frame : ℕ
  setjmp : Setjmp
deriving DecidableEq, Repr

/-- `einfo->bentry` -/
def ErrTagInfo.bentry (info : ErrTagInfo) : Option ℕ :=
  match info.setjmp with
  | .block b => some b
  | _ => none

structure Thread where
  /-- Innermost first. -/
  frames : List CallFrame
  /-- Last added first. -/
  errInfo : List ErrTagInfo := []
  /-- The entries, last pushed first. -/
  blockStack : List ℕ := []
  /-- The tags and block entries that `FREE` was called for. -/
  freedInfos : List ℕ := []
  freedEntries : List ℕ := []
  /-- How many tags and block entries were allocated. -/
  infos : ℕ := 0
  entries : ℕ := 0
deriving DecidableEq, Repr

namespace Thread

variable (th : Thread)

def addErrInfo (setjmp : Setjmp) : Thread :=
  { th with
    errInfo := ⟨th.infos, th.frames.length, setjmp⟩ :: th.errInfo
    infos := th.infos + 1 }

/-- `FREE` of the last tag. -/
def freeErrInfo : Thread :=
  match th.errInfo with
  | [] => th
  | info :: prev => { th with errInfo := prev, freedInfos := info.id :: th.freedInfos }

def popErrInfo : Thread := { th with errInfo := th.errInfo.tail }

/-- `SETUP_BLOCK`, up to the `setjmp`. -/
def setupBlock : Thread :=
  let th' := th.addErrInfo (.block th.entries)
  { th' with blockStack := th.entries :: th.blockStack, entries := th.entries + 1 }

/-- `FREE` of the last block entry. -/
def freeEntry : Thread :=
  match th.blockStack with
  | [] => th
  | e :: rest => { th with blockStack := rest, freedEntries := e :: th.freedEntries }

def popBlockEntry (bentry : ℕ) : Thread :=
  if th.blockStack.head? = some bentry then th.freeEntry else th

/-- `popBlockEntryUntil`: all entries if it is none of them. -/
def popBlockEntryUntil (bentry : ℕ) : Thread :=
  let above := th.blockStack.takeWhile (· != bentry)
  let left := (th.blockStack.dropWhile (· != bentry))
  { th with
    blockStack := left.tail
    freedEntries := left.head?.toList ++ (above.reverse ++ th.freedEntries) }

/-- `unwindErrInfo` of the frame number `depth`, with the list that is left of `errInfo`. -/
def unwindErrInfo (depth : ℕ) : List ErrTagInfo → Thread → Thread
  | [], th => th
  | info :: prev, th =>
    if info.frame = depth then
      let th' := match info.bentry with
        | some b => th.popBlockEntry b
        | none => th
      unwindErrInfo depth prev th'.freeErrInfo
    else th

def popFrame : Thread :=
  let th' := unwindErrInfo th.frames.length th.errInfo th
  { th' with frames := th.frames.tail }

/-- `popFrame` while there are more than `depth` frames. -/
def popFrames : ℕ → Thread → Thread
  | 0, th => th
  | n + 1, th => popFrames n th.popFrame

def popFramesTo (depth : ℕ) : Thread := popFrames (th.frames.length - depth) th

/-- `while (th->errInfo != info)`, with the list that is left of `errInfo`. -/
def freeInfosUntil (info : ErrTagInfo) : List ErrTagInfo → Thread → Thread
  | [], th => th
  | i :: prev, th => if i = info then th else freeInfosUntil info prev th.freeErrInfo

def unwindJumpRecover (info : ErrTagInfo) : Thread :=
  let th' := th.popFramesTo info.frame
  freeInfosUntil info th'.errInfo th'

/-- `pop_EC`: the frame is dropped without `popFrame`. -/
def popContext : Thread := { th with frames := th.frames.tail }

end Thread

/-- Where the flow goes on after an error. -/
inductive Landing where
  /-- At the `SETUP_BLOCK`, which ends the iteration. -/
  | block (bentry : ℕ)
  /-- Behind `execStopRecursion`. -/
  | recursion
  /-- At a catch table, or the end of the program: where the frames were searched. -/
  | search
deriving DecidableEq, Repr

/-- `throwError`, with what the C functions it jumps to do: `SETUP_BLOCK` and `execStopRecursion` go
on in their native function, a script or `eval` is left and the error thrown again. Without
protections `findThrowJumpLoc` pops frames down to the number `search`. -/
def throwErr (search : ℕ) : List ErrTagInfo → Thread → Landing × Thread
  | [], th => (.search, th.popFramesTo search)
  | info :: prev, th =>
    match info.setjmp with
    | .block b => (.block b, ((th.popBlockEntryUntil b).unwindJumpRecover info).popErrInfo)
    | .recursion => (.recursion, (th.unwindJumpRecover info).popErrInfo)
    | .context => throwErr search prev (th.unwindJumpRecover info).popContext.popErrInfo

/-- What `OP_RETURN` comes to. -/
inductive Return (V : Type) where
  /-- The value is pushed for the caller. -/
  | returned (value : V) (th : Thread)
  /-- The value was thrown as that of a `continue`. -/
  | continued (value : V) (landing : Landing) (th : Thread)

/-- `OP_RETURN` with the value on top of the stack. -/
def opReturn {V : Type} (search : ℕ) (value : V) (th : Thread) : Return V :=
  if (th.frames.head?.map (·.isEval)) ≠ some true ∧ th.blockStack ≠ [] then
    let r := throwErr search th.errInfo th
    .continued value r.1 r.2
  else .returned value th.popFrame

def Return.thread {V : Type} : Return V → Thread
  | returned _ th => th
  | continued _ _ th => th

/-! ## Steps -/

inductive Op where
  /-- A closure is called, by an opcode or a native function. -/
  | call
  | callNative
  /-- A native function sets up its block and calls its closure. -/
  | yield
  /-- A native function calls the native function given as its block; it sets the block up first, or
  has done so in an iteration before. -/
  | yieldNative (setup : Bool)
  /-- `execStopRecursion` calls its function, and has returned from it. -/
  | protect
  | protectEnd
  /-- A native function runs a script, or a string (`isEval`), which comes to its end. -/
  | load (isEval : Bool)
  | leave
  | nativeReturn
  | opReturn (search : ℕ)
  | throw (search : ℕ)
deriving DecidableEq, Repr

namespace Thread

/-- One step; `none` where it is not possible. -/
def step (th : Thread) : Op → Option Thread
  | .call =>
    if th.frames.isEmpty then none else some { th with frames := {} :: th.frames }
  | .callNative =>
    if th.frames.isEmpty then none
    else some { th with frames := { isCCall := true } :: th.frames }
  | .yield =>
    if (th.frames.head?.map (·.isCCall)) = some true then
      some { th.setupBlock with frames := { isYield := true } :: th.frames }
    else none
  | .yieldNative setup =>
    if (th.frames.head?.map (·.isCCall)) = some true then
      let th' := if setup then th.setupBlock else th
      some { th' with frames := { isCCall := true, isYield := true } :: th.frames }
    else none
  | .protect =>
    if (th.frames.head?.map (·.isCCall)) = some true then some (th.addErrInfo .recursion)
    else none
  | .protectEnd =>
    match th.errInfo with
    | info :: _ =>
      if info.setjmp = .recursion ∧ info.frame = th.frames.length then some th.freeErrInfo
      else none
    | [] => none
  | .load isEval =>
    if (th.frames.head?.map (·.isCCall)) = some true then
      let th' := { th with frames := { isEval, isContext := true } :: th.frames }
      some (th'.addErrInfo .context)
    else none
  | .leave =>
    if (th.frames.head?.map (·.isContext)) = some true then some th.freeErrInfo.popContext
    else none
  | .nativeReturn =>
    if (th.frames.head?.map (·.isCCall)) = some true then some th.popFrame else none
  | .opReturn search =>
    match th.frames with
    | f :: _ :: _ => if f.isCCall then none else some (Blocks.opReturn search () th).thread
    | _ => none
  | .throw search => some (throwErr search th.errInfo th).2

end Thread

end Clox.Blocks
