import Mathlib.Logic.Function.Basic
import Mathlib.Data.List.Basic

/-! # Throwing errors

`throwError` of `vm.c` with the call frames, the catch tables and the native
protections (`ErrTagInfo`) it searches. The frames of all execution contexts
are one list: every context but the first is set up under a `vm_protect` for
all errors (`loadScript`, `doVMEval`), so that `findThrowJumpLoc` never leaves
the current one. `cCallJumpBuf` is left out: `captureNativeError` sets it only
while `inCCall` is 0, and its callers have pushed the native frame before.
-/

namespace Clox.Throw

abbrev ClassId := ℕ

/-- `findConstantUnder` for the classes of catch clauses, and `IS_SUBCLASS`. -/
structure Classes where
  findConstantUnder : Option ClassId → String → Option ClassId
  isSubclass : ClassId → ClassId → Bool

/-- An error instance. -/
structure Err where
  id : ℕ
  klass : ClassId
deriving DecidableEq, Repr

/-- `struct CatchTable`: a row of a chunk's catch table. -/
structure CatchTable where
  ifrom : ℕ
  ito : ℕ
  itarget : ℕ
  catchVal : String := ""
  isEnsure : Bool := false
  isEnsureRunning : Bool := false
  lastThrownValue : Option Err := none
deriving DecidableEq, Repr

/-- What throwing uses of a `CallFrame`. A native frame has the closure and the `ip` of its
caller. -/
structure CallFrame where
  isCCall : Bool
  /-- The chunk of the closure's function. -/
  chunk : ℕ
  /-- `ip - chunk->code` -/
  ip : ℕ
  start : ℕ
  klass : Option ClassId := none
deriving DecidableEq, Repr

/-- `ErrTagInfo`; a `NULL` class accepts every error. -/
structure ErrTagInfo where
  errClass : Option ClassId
  /-- The frame, by the number of frames up to it. -/
  frame : ℕ
deriving DecidableEq, Repr

/-- What popping frames changes of a `LxThread`, with the catch tables. -/
structure Thread where
  /-- Last added first. -/
  errInfo : List ErrTagInfo := []
  crefStack : List ClassId := []
  /-- The catch table of each chunk. -/
  tables : ℕ → List CatchTable

structure State where
  /-- Innermost first. -/
  frames : List CallFrame
  thread : Thread
  lastErrorThrown : Option Err := none

/-- Where an error is handled: at row `i` of the frame's catch table, or at the native protection
of the frame that has `below` others under it. -/
inductive Handler where
  | row (frame i : ℕ)
  | protection (frame below : ℕ)
deriving DecidableEq, Repr

def Handler.frame : Handler → ℕ
  | row frame _ => frame
  | protection frame _ => frame

/-- What `throwError` jumps to; without a handler to the end of the program. -/
structure Outcome where
  handler : Option Handler
  state : State

/-! ## Frames -/

namespace Thread

/-- `popFrame` of the frame `f`, the frame number `depth`. -/
def popFrame (th : Thread) (f : CallFrame) (depth : ℕ) : Thread :=
  { th with
    errInfo := th.errInfo.dropWhile (·.frame == depth)
    crefStack := if f.klass.isSome then th.crefStack.tail else th.crefStack }

def modifyRow (th : Thread) (chunk i : ℕ) (g : CatchTable → CatchTable) : Thread :=
  { th with tables := Function.update th.tables chunk ((th.tables chunk).modify i g) }

/-- Set `isEnsureRunning` of a row. -/
def setEnsureRunning (th : Thread) (chunk i : ℕ) (b : Bool) : Thread :=
  th.modifyRow chunk i fun row => { row with isEnsureRunning := b }

theorem tables_modifyRow (th : Thread) (c j : ℕ) (g : CatchTable → CatchTable) :
    (th.modifyRow c j g).tables c = (th.tables c).modify j g :=
  Function.update_self ..

theorem tables_modifyRow_of_ne (th : Thread) {c c' : ℕ} (j : ℕ) (g : CatchTable → CatchTable)
    (h : c' ≠ c) : (th.modifyRow c j g).tables c' = th.tables c' :=
  Function.update_of_ne h ..

end Thread

/-- `while (getFrame()->isCCall) popFrame();` -/
def popCCalls : List CallFrame → Thread → List CallFrame × Thread
  | [], th => ([], th)
  | f :: rest, th =>
    if f.isCCall then popCCalls rest (th.popFrame f (rest.length + 1)) else (f :: rest, th)

/-- Pop frames down to the frame number `depth`. -/
def unwindTo (depth : ℕ) : List CallFrame → Thread → List CallFrame × Thread
  | [], th => ([], th)
  | f :: rest, th =>
    if rest.length + 1 = depth then (f :: rest, th)
    else unwindTo depth rest (th.popFrame f (rest.length + 1))

/-! ## The search -/

section

variable (cls : Classes)

namespace CatchTable

/-- The clause is for a class above `klass`. -/
def accepts (cref : Option ClassId) (klass : ClassId) (row : CatchTable) : Bool :=
  match cls.findConstantUnder cref row.catchVal with
  | some k => cls.isSubclass klass k
  | none => false

def guards (off : ℕ) (row : CatchTable) : Bool := decide (row.ifrom < off) && decide (off ≤ row.ito)

end CatchTable

/-- The first catch clause that guards the offset and accepts the class. -/
def findCatchRow (cref : Option ClassId) (klass : ClassId) (off : ℕ) (rows : List CatchTable) :
    Option ℕ :=
  rows.findIdx? fun row => !row.isEnsure && row.accepts cls cref klass && row.guards off

/-- `ensureRow` at the end of the table. -/
def findEnsureRow (rows : List CatchTable) : Option ℕ := (rows.findIdxs (·.isEnsure)).getLast?

def isEnsureRunning (rows : List CatchTable) (i : ℕ) : Bool := (rows[i]?).any (·.isEnsureRunning)

/-- `findThrowJumpLoc` from the offset `currentIpOff` of the first frame: the row, if one is found,
with the frames and the thread that are left. -/
def findThrowJumpLoc (klass : ClassId) :
    ℕ → List CallFrame → Thread → Option ℕ × List CallFrame × Thread
  | _, [], th => (none, [], th)
  | currentIpOff, f :: rest, th =>
    let rows := th.tables f.chunk
    let next (th : Thread) : Option ℕ × List CallFrame × Thread :=
      if rest.isEmpty then (none, [f], th)
      else findThrowJumpLoc klass f.start rest (th.popFrame f (rest.length + 1))
    match findCatchRow cls th.crefStack.head? klass currentIpOff rows with
    | some i => (some i, popCCalls (f :: rest) th)
    | none =>
      match findEnsureRow rows with
      | some i =>
        if isEnsureRunning rows i then next (th.setEnsureRunning f.chunk i false)
        else
          let r := popCCalls (f :: rest) th
          (some i, r.1, r.2.setEnsureRunning f.chunk i true)
      | none => next th

def ErrTagInfo.accepts (klass : ClassId) (info : ErrTagInfo) : Bool :=
  match info.errClass with
  | some k => cls.isSubclass klass k
  | none => true

/-- `findErrTag`: the protection, and how many are under it. -/
def findErrTag (klass : ClassId) : List ErrTagInfo → Option (ErrTagInfo × ℕ)
  | [] => none
  | info :: prev => if info.accepts cls klass then some (info, prev.length) else findErrTag klass prev

/-- Go on at row `i` of the first frame. -/
def resumeAt (err : Err) (i : ℕ) : List CallFrame → Thread → State
  | [], th => { frames := [], thread := th, lastErrorThrown := some err }
  | f :: rest, th =>
    let ip := (((th.tables f.chunk)[i]?).map (·.itarget)).getD f.ip
    { frames := { f with ip } :: rest
      thread := th.modifyRow f.chunk i fun row => { row with lastThrownValue := some err }
      lastErrorThrown := some err }

/-- `throwError`, up to the code a `longjmp` to a protection starts with (`unwindJumpRecover`). -/
def throwErr (err : Err) (st : State) : Outcome :=
  match findErrTag cls err.klass st.thread.errInfo with
  | some (info, below) =>
    let r := unwindTo info.frame st.frames st.thread
    let errInfo := r.2.errInfo.drop (r.2.errInfo.length - (below + 1))
    { handler := some (.protection info.frame below)
      state := {
        frames := r.1
        thread := { r.2 with errInfo }
        lastErrorThrown := some err } }
  | none =>
    let currentIpOff := (st.frames.head?.map (·.ip)).getD 0
    let r := findThrowJumpLoc cls err.klass currentIpOff st.frames st.thread
    match r.1 with
    | some i => { handler := some (.row r.2.1.length i), state := resumeAt err i r.2.1 r.2.2 }
    | none =>
      { handler := none
        state := { frames := r.2.1, thread := r.2.2, lastErrorThrown := some err } }

end

/-! ## The other steps -/

/-- The states of a thread: what pushes and pops frames and protections, and throws. -/
inductive Built (cls : Classes) : State → Prop
  | main (chunk : ℕ) (tables : ℕ → List CatchTable) :
      Built cls ⟨[{ isCCall := false, chunk, ip := 0, start := 0 }], { tables }, none⟩
  /-- An opcode moves on in its chunk. -/
  | run {f : CallFrame} {rest : List CallFrame} {th : Thread} {e : Option Err} (ip : ℕ)
      (hf : f.isCCall = false) (h : Built cls ⟨f :: rest, th, e⟩) :
      Built cls ⟨{ f with ip } :: rest, th, e⟩
  /-- `doCallCallable` of a closure; its first opcode is at `ip`. -/
  | call {f : CallFrame} {rest : List CallFrame} {th : Thread} {e : Option Err} (chunk ip : ℕ)
      (klass : Option ClassId) (hstart : 2 ≤ f.ip) (h : Built cls ⟨f :: rest, th, e⟩) :
      Built cls ⟨{ isCCall := false, chunk, ip, start := f.ip - 2, klass } :: f :: rest,
        { th with crefStack := klass.toList ++ th.crefStack }, e⟩
  /-- `pushNativeFrame` -/
  | callNative {f : CallFrame} {rest : List CallFrame} {th : Thread} {e : Option Err}
      (klass : Option ClassId) (h : Built cls ⟨f :: rest, th, e⟩) :
      Built cls ⟨{ isCCall := true, chunk := f.chunk, ip := f.ip, start := 0, klass } :: f :: rest,
        { th with crefStack := klass.toList ++ th.crefStack }, e⟩
  /-- A script or `eval` is run in a context of its own. -/
  | load {f : CallFrame} {rest : List CallFrame} {th : Thread} {e : Option Err} (chunk : ℕ)
      (h : Built cls ⟨f :: rest, th, e⟩) :
      Built cls ⟨{ isCCall := false, chunk, ip := 0, start := 0 } :: f :: rest,
        { th with errInfo := ⟨none, rest.length + 2⟩ :: th.errInfo }, e⟩
  | popFrame {f g : CallFrame} {rest : List CallFrame} {th : Thread} {e : Option Err}
      (h : Built cls ⟨f :: g :: rest, th, e⟩) :
      Built cls ⟨g :: rest, th.popFrame f (rest.length + 2), e⟩
  /-- `addErrInfo` -/
  | addErrInfo {f : CallFrame} {rest : List CallFrame} {th : Thread} {e : Option Err}
      (errClass : Option ClassId) (h : Built cls ⟨f :: rest, th, e⟩) :
      Built cls ⟨f :: rest, { th with errInfo := ⟨errClass, rest.length + 1⟩ :: th.errInfo }, e⟩
  | popErrInfo {f : CallFrame} {rest : List CallFrame} {th : Thread} {e : Option Err}
      (h : Built cls ⟨f :: rest, th, e⟩) :
      Built cls ⟨f :: rest, { th with errInfo := th.errInfo.tail }, e⟩
  /-- `unsetErrInfo` -/
  | unsetErrInfo {f : CallFrame} {rest : List CallFrame} {th : Thread} {e : Option Err}
      (h : Built cls ⟨f :: rest, th, e⟩) :
      Built cls ⟨f :: rest, { th with errInfo := th.errInfo.tail }, none⟩
  /-- A class body is entered or left. -/
  | cref {f : CallFrame} {rest : List CallFrame} {th : Thread} {e : Option Err}
      (crefStack : List ClassId) (h : Built cls ⟨f :: rest, th, e⟩) :
      Built cls ⟨f :: rest, { th with crefStack }, e⟩
  /-- Chunks are added, and ensure blocks start and end. -/
  | chunks {f : CallFrame} {rest : List CallFrame} {th : Thread} {e : Option Err}
      (tables : ℕ → List CatchTable) (h : Built cls ⟨f :: rest, th, e⟩) :
      Built cls ⟨f :: rest, { th with tables }, e⟩
  | throw {st : State} (err : Err) (hhandler : (throwErr cls err st).handler ≠ none)
      (h : Built cls st) : Built cls (throwErr cls err st).state

end Clox.Throw
