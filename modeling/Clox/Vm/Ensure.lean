import Clox.Vm.Dispatch

/-! # Runs of try statements

The steps of a thread that enter and leave tries with an ensure block, with a
monitor that counts how often each entry had its block run. What the VM does
is in `TryState.vm`; the monitor only watches: a try is entered where its code
begins, its ensure block starts when the flow gets to it or `throwError` jumps
to it, and ends at `OP_RETHROW_IF_ERR`.
-/

namespace Clox.Throw

/-- An entry of a try with an ensure block that has not been left. -/
structure OpenTry where
  chunk : ℕ
  /-- The ensure row of the try. -/
  row : ℕ
  /-- How often the ensure block was started. -/
  runs : ℕ := 0
  /-- The block was started by an error. -/
  thrown : Bool := false
deriving DecidableEq, Repr

/-- The block was run, and not for an error that is still to be thrown again. -/
def OpenTry.Done (e : OpenTry) : Prop := e.runs = 1 ∧ e.thrown = false

instance (e : OpenTry) : Decidable e.Done := inferInstanceAs (Decidable (_ ∧ _))

structure Monitor where
  /-- The open entries of each frame, innermost first. -/
  tries : List (List OpenTry)
  /-- The entries that were left. -/
  closed : List OpenTry := []
  /-- No ensure block was started without an entry, or ended as if started in another way. -/
  sound : Bool := true

namespace Monitor

variable (mon : Monitor)

/-- The first `k` frames are popped. -/
def closeFrames (k : ℕ) : Monitor :=
  { mon with tries := mon.tries.drop k, closed := mon.closed ++ (mon.tries.take k).flatten }

/-- The first `n` tries of the first frame are left. -/
def closeTries (n : ℕ) : Monitor :=
  match mon.tries with
  | [] => mon
  | E :: rest => { mon with tries := E.drop n :: rest, closed := mon.closed ++ E.take n }

/-- The ensure block of row `i` is started, in the first frame; the tries inside it are left. -/
def startEnsure (i : ℕ) (thrown : Bool) : Monitor :=
  match mon.tries with
  | [] => { mon with sound := false }
  | E :: rest =>
    match E.dropWhile (·.row != i) with
    | [] => { mon with sound := false }
    | e :: post =>
      { mon with
        tries := ({ e with runs := e.runs + 1, thrown } :: post) :: rest
        closed := mon.closed ++ E.takeWhile (·.row != i) }

/-- An ensure block that was started by an error, or not, ends. -/
def checkEnd (ok : Bool) : Monitor := { mon with sound := mon.sound && ok }

end Monitor

structure TryState where
  vm : State
  mon : Monitor

/-- What a thread does between one opcode and the next. -/
inductive TryOp where
  /-- An opcode that neither throws nor enters or leaves a try. -/
  | run (ip : ℕ)
  | call (chunk ip : ℕ) (klass : Option ClassId)
  | callNative (klass : Option ClassId)
  | load (chunk : ℕ)
  /-- `OP_RETURN`, or a native function returns. -/
  | return
  | addErrInfo (errClass : Option ClassId)
  | popErrInfo
  | unsetErrInfo
  | cref (crefStack : List ClassId)
  /-- The beginning of the try with the ensure row `i`. -/
  | enterTry (i : ℕ)
  /-- The flow gets to the ensure block of the innermost try, from its body or a clause. -/
  | reachEnsure
  /-- `OP_RETHROW_IF_ERR`; a clause that takes the error is outside of `n` tries of its frame. -/
  | rethrowIfErr (n : ℕ)
  /-- `break` or `continue` jumps out of the `n` innermost tries. -/
  | leaveTries (n : ℕ)
  /-- An error is thrown; a clause that takes it is outside of `n` tries of its frame. -/
  | throw (err : Err) (n : ℕ)
deriving Repr

namespace TryState

variable (cls : Classes)

/-- The row is an ensure row of the first frame. -/
def State.isEnsureRow (st : State) (i : ℕ) : Bool :=
  match st.frames with
  | [] => false
  | f :: _ => ((st.thread.tables f.chunk)[i]?).any (·.isEnsure)

/-- `throwError`. Without a handler the program ends. -/
def throw (err : Err) (n : ℕ) (s : TryState) : TryState :=
  let out := throwErr cls err s.vm
  match out.handler with
  | none =>
    { vm := { out.state with frames := [] }, mon := s.mon.closeFrames s.vm.frames.length }
  | some (.protection frame _) =>
    { vm := out.state, mon := s.mon.closeFrames (s.vm.frames.length - frame) }
  | some (.row frame i) =>
    let mon := s.mon.closeFrames (s.vm.frames.length - frame)
    { vm := out.state
      mon := if State.isEnsureRow out.state i then mon.startEnsure i true else mon.closeTries n }

/-- `OP_RETHROW_IF_ERR` of the row: the error that is thrown again. -/
def rethrown (st : State) (i : ℕ) : Option Err :=
  match st.frames with
  | [] => none
  | f :: _ => if isEnsureRunning (st.thread.tables f.chunk) i then st.lastErrorThrown else none

/-- One step; `none` where it is not possible. -/
def step (s : TryState) : TryOp → Option TryState
  | .run ip =>
    match s.vm.frames with
    | f :: rest =>
      if f.isCCall then none
      else some { s with vm := { s.vm with frames := { f with ip } :: rest } }
    | [] => none
  | .call chunk ip klass =>
    match s.vm.frames with
    | f :: rest =>
      if 2 ≤ f.ip then
        some {
          vm := { s.vm with
            frames := { isCCall := false, chunk, ip, start := f.ip - 2, klass } :: f :: rest
            thread := { s.vm.thread with
              crefStack := klass.toList ++ s.vm.thread.crefStack } }
          mon := { s.mon with tries := [] :: s.mon.tries } }
      else none
    | [] => none
  | .callNative klass =>
    match s.vm.frames with
    | f :: rest =>
      some {
        vm := { s.vm with
          frames := { isCCall := true, chunk := f.chunk, ip := f.ip, start := 0, klass } :: f :: rest
          thread := { s.vm.thread with
            crefStack := klass.toList ++ s.vm.thread.crefStack } }
        mon := { s.mon with tries := [] :: s.mon.tries } }
    | [] => none
  | .load chunk =>
    match s.vm.frames with
    | f :: rest =>
      some {
        vm := { s.vm with
          frames := { isCCall := false, chunk, ip := 0, start := 0 } :: f :: rest
          thread := { s.vm.thread with
            errInfo := ⟨none, rest.length + 2⟩ :: s.vm.thread.errInfo } }
        mon := { s.mon with tries := [] :: s.mon.tries } }
    | [] => none
  | .return =>
    match s.vm.frames with
    | f :: g :: rest =>
      some {
        vm := { s.vm with
          frames := g :: rest
          thread := s.vm.thread.popFrame f (rest.length + 2) }
        mon := s.mon.closeFrames 1 }
    | _ => none
  | .addErrInfo errClass =>
    some { s with vm := { s.vm with thread := { s.vm.thread with
      errInfo := ⟨errClass, s.vm.frames.length⟩ :: s.vm.thread.errInfo } } }
  | .popErrInfo =>
    some { s with vm := { s.vm with thread := { s.vm.thread with
      errInfo := s.vm.thread.errInfo.tail } } }
  | .unsetErrInfo =>
    some { s with vm := { s.vm with
      thread := { s.vm.thread with errInfo := s.vm.thread.errInfo.tail }
      lastErrorThrown := none } }
  | .cref crefStack =>
    some { s with vm := { s.vm with thread := { s.vm.thread with crefStack } } }
  | .enterTry i =>
    match s.vm.frames, s.mon.tries with
    | f :: _, E :: rest =>
      if f.isCCall = false ∧ State.isEnsureRow s.vm i then
        some { s with mon := { s.mon with tries := ({ chunk := f.chunk, row := i } :: E) :: rest } }
      else none
    | _, _ => none
  | .reachEnsure =>
    match s.mon.tries with
    | (e :: _) :: _ =>
      -- the block comes behind the body and the clauses, it was not run before
      if e.runs = 0 then some { s with mon := s.mon.startEnsure e.row false } else none
    | _ => none
  | .rethrowIfErr n =>
    match s.mon.tries with
    | (e :: _) :: _ =>
      if e.runs = 0 then none
      else
        match rethrown s.vm e.row with
        | some err => some (throw cls err n { s with mon := s.mon.checkEnd e.thrown })
        | none => some { s with mon := (s.mon.checkEnd !e.thrown).closeTries 1 }
    | _ => none
  | .leaveTries n =>
    match s.mon.tries with
    | E :: _ => if n ≤ E.length then some { s with mon := s.mon.closeTries n } else none
    | [] => none
  | .throw err n => some (throw cls err n s)

/-- The start of a script. -/
def initial (chunk : ℕ) (tables : ℕ → List CatchTable) : TryState where
  vm := ⟨[{ isCCall := false, chunk, ip := 0, start := 0 }], { tables }, none⟩
  mon := { tries := [[]] }

end TryState

/-! ## What is asked for -/

/-- Every entry that was left had its ensure block run once, no other was run more often, and no
block was affected by another entry. -/
structure EnsureOnce (s : TryState) : Prop where
  closed : ∀ e ∈ s.mon.closed, e.runs = 1
  tries : ∀ e ∈ s.mon.tries.flatten, e.runs ≤ 1
  sound : s.mon.sound = true

/-! ## The condition -/

section

variable (cls : Classes)

/-- The search of an error from the offset `off` finds, in each frame, what the open tries ask for:
a clause that takes it is outside of tries that are done; an ensure block it jumps to is that of the
innermost try that is not done, which is waiting for it; a frame it leaves has only tries that are
done, or the one whose block is running for the error before. -/
def SearchMeets (klass : ClassId) (n : ℕ) :
    ℕ → List CallFrame → Thread → List (List OpenTry) → Prop
  | _, [], _, _ => True
  | off, f :: rest, th, tries =>
    let rows := th.tables f.chunk
    let landed := ((f :: rest).dropWhile (·.isCCall)).length
    let E := (tries.drop (rest.length + 1 - landed)).headD []
    match findCatchRow cls th.crefStack.head? klass off rows with
    | some _ => ∀ e ∈ E.take n, e.Done
    | none =>
      let passed := tries.headD []
      match findEnsureRow rows with
      | some i =>
        if isEnsureRunning rows i then
          f.isCCall = false ∧ (∀ e ∈ passed, e.Done ∨ (e.row = i ∧ e.runs = 1)) ∧
            (∃ e ∈ passed, e.row = i ∧ e.thrown) ∧
            SearchMeets klass n f.start rest (th.pass f (rest.length + 1)) tries.tail
        else
          (∀ e ∈ E.takeWhile (·.row != i), e.Done) ∧
            ∃ e post, E.dropWhile (·.row != i) = e :: post ∧ e.runs = 0
      | none =>
        (∀ e ∈ passed, e.Done) ∧
          SearchMeets klass n f.start rest (th.pass f (rest.length + 1)) tries.tail

/-- An error is thrown: the tries above a native protection that takes it are done, or the search
of the frames finds what the open tries ask for. -/
def ThrowMeets (err : Err) (n : ℕ) (s : TryState) : Prop :=
  match findErrTag cls err.klass s.vm.thread.errInfo with
  | some (info, _) =>
    ∀ e ∈ (s.mon.tries.take (s.vm.frames.length - info.frame)).flatten, e.Done
  | none =>
    SearchMeets cls err.klass n ((s.vm.frames.head?.map (·.ip)).getD 0) s.vm.frames s.vm.thread
      s.mon.tries

/-- A step that leaves no try whose ensure block is still to be run, or is running for an error,
but by an error that finds its way, and that enters no try whose block is marked as running. -/
def Meets (s : TryState) : TryOp → Prop
  | .enterTry i => ∀ f, s.vm.frames.head? = some f →
      isEnsureRunning (s.vm.thread.tables f.chunk) i = false
  | .return => ∀ e ∈ s.mon.tries.headD [], e.Done
  | .leaveTries n => ∀ e ∈ (s.mon.tries.headD []).take n, e.Done
  | .unsetErrInfo => ∀ e ∈ s.mon.tries.flatten, e.thrown = false
  | .throw err n => ThrowMeets cls err n s
  | .rethrowIfErr n => ∀ e E rest err, s.mon.tries = (e :: E) :: rest →
      TryState.rethrown s.vm e.row = some err → ThrowMeets cls err n s
  | .run _ | .call .. | .callNative _ | .load _ | .addErrInfo _ | .popErrInfo | .cref _
  | .reachEnsure => True

/-- A run from the start of a script, with ensure blocks not marked as running, each step of which
meets `P`. -/
inductive Run (P : TryState → TryOp → Prop) : TryState → Prop
  | init (chunk : ℕ) (tables : ℕ → List CatchTable)
      (hidle : ∀ c i, isEnsureRunning (tables c) i = false) : Run P (.initial chunk tables)
  | step {s s' : TryState} (op : TryOp) (hs : Run P s) (hop : P s op)
      (h : s.step cls op = some s') : Run P s'

end

end Clox.Throw
