import Clox.Lib.Interleaving
import Mathlib.Data.Int.Notation

/-! # Threads, the VM lock and Lox mutexes

Any number of threads, each at some statement of `acquireGVL`, `releaseGVL`, `lockMutex`, in the
VM, or outside of it. A statement that touches the words of the VM lock is one step. So is what
stands between `pthread_mutex_lock(&mutex->lock)` and the unlock or the wait that ends it.

A thread is a number, which is its `tid` too, and so is a mutex. The main thread is `0`.
-/

namespace Clox.Threads

open Interleaving

/-! ## The data -/

structure LxMutex where
  owner : Option ℕ
  cond : Condvar ℕ
  waiting : ℕ

def setupMutex : LxMutex := ⟨none, .empty, 0⟩

inductive ThreadStatus
  | stopped
  | ready
  | running
  | zombie
deriving DecidableEq

structure LxThread where
  status : ThreadStatus
  created : Bool -- by `pthread_create`
  mutexCounter : ℤ
  interrupted : Bool -- `INTERRUPT_GENERAL`
  lockedMutexes : List ℕ

/-- `LxThreadSetup` -/
def threadSetup : LxThread := ⟨.stopped, false, 0, false, []⟩

structure Vm where
  gvLock : Option ℕ -- the thread that holds the pthread mutex
  gvlCond : Condvar ℕ
  gvLockStatus : ℕ
  gvlWaiters : ℕ
  curThread : Option ℕ
  gvlOwner : Option ℕ
  threads : ℕ → LxThread
  mutexes : ℕ → LxMutex
  exiting : Option ℕ -- the thread in `terminateThreads`
  aborted : Bool -- an assertion failed, or a null pointer was followed

def mainThread : ℕ := 0

namespace Vm

def updThread (vm : Vm) (t : ℕ) (f : LxThread → LxThread) : Vm :=
  { vm with threads := Function.update vm.threads t (f (vm.threads t)) }

def updMutex (vm : Vm) (m : ℕ) (f : LxMutex → LxMutex) : Vm :=
  { vm with mutexes := Function.update vm.mutexes m (f (vm.mutexes m)) }

def abort (vm : Vm) : Vm := { vm with aborted := true }

end Vm

/-! ## Where a thread is

A statement is named by what it writes or tests.
-/

inductive AcquireGVL
  | lock
  | check
  | skip -- unlock and return
  | test
  | wait
  | waiting
  | status
  | current
  | owner
  | unlock

inductive ReleaseGVL
  | lock
  | check
  | skip
  | status
  | owner
  | current
  | unlock
  | signal

/-- What a thread does when `releaseGVL` has returned. -/
inductive Outside
  | syscall
  | create (u : ℕ) -- `pthread_create`
  | exit -- `pthread_exit`

/-- From the loop of `lockMutex` on; from `unlock` to `endOwner` with the `thStored` of the
blocking region. -/
inductive LockMutex
  | loop
  | thread -- `THREAD()`
  | threadLock
  | threadFind
  | threadUnlock
  | stored
  | unlock (thStored : Option ℕ)
  | current (thStored : Option ℕ)
  | owner (thStored : Option ℕ)
  | status (thStored : Option ℕ)
  | lockFunc (thStored : Option ℕ)
  | waiting (thStored : Option ℕ)
  | endLock (thStored : Option ℕ)
  | endCurrent (thStored : Option ℕ)
  | endOwner (thStored : Option ℕ)
  | retest

inductive Pc
  | unborn
  | vm
  | outside
  | creating (u : ℕ)
  | exited
  | acquiring (a : AcquireGVL)
  | releasing (r : ReleaseGVL) (next : Outside)
  | locking (m : ℕ) (th : Option ℕ) (a : LockMutex)
  | locked (m : ℕ) -- `lockMutex` returns
  | forcing (th : ℕ) -- `forceUnlockMutexes`
  | interrupting (th : ℕ) -- `threadInterrupt`

/-- What a thread in the VM goes on to. -/
inductive Op
  | release -- a system call, a switch of threads, `Thread.schedule`, `joinThread`
  | newThread (u : ℕ)
  | lock (m : ℕ)
  | unlock (m : ℕ) (wakes : ℕ)
  | stopVM
  | terminate (u : ℕ)
  | checkInts

inductive Choice
  | go
  | spurious -- the wait of a condition variable returns without a signal
  | wakes (w : ℕ) -- the signal wakes `w`
  | op (o : Op)

/-! ## `acquireGVL` -/

def acquireGVL (t : ℕ) (c : Choice) (vm : Vm) : AcquireGVL → Option (Pc × Vm)
  | .lock =>
    if vm.gvLock = none then some (.acquiring .check, { vm with gvLock := some t }) else none
  | .check =>
    -- `th` is `vm.curThread`, which has to be the thread itself
    if vm.curThread = some t ∧ 0 < (vm.threads t).mutexCounter ∧ vm.gvlOwner = some t then
      some (.acquiring .skip, vm)
    else if vm.curThread = some t ∧ vm.gvlOwner = some t then
      some (.acquiring .skip, vm)
    else
      some (.acquiring .test, { vm with gvlWaiters := vm.gvlWaiters + 1 })
  | .skip => some (.vm, { vm with gvLock := none })
  | .test =>
    if 0 < vm.gvLockStatus then some (.acquiring .wait, vm) else some (.acquiring .status, vm)
  | .wait =>
    some (.acquiring .waiting, { vm with gvLock := none, gvlCond := vm.gvlCond.wait t })
  | .waiting =>
    match c with
    | .spurious =>
      (vm.gvlCond.wake t).map fun q => (.acquiring .waiting, { vm with gvlCond := q })
    | _ =>
      if vm.gvLock = none then
        (vm.gvlCond.resume t).map fun q =>
          (.acquiring .test, { vm with gvLock := some t, gvlCond := q })
      else none
  | .status =>
    some (.acquiring .current, { vm with gvlWaiters := vm.gvlWaiters - 1, gvLockStatus := 1 })
  | .current =>
    if (vm.threads t).status = .zombie then
      some (.acquiring .owner, { vm with curThread := some t }.abort)
    else
      some (.acquiring .owner, { vm with curThread := some t })
  | .owner => some (.acquiring .unlock, { vm with gvlOwner := some t })
  | .unlock => some (.vm, { vm with gvLock := none })

/-! ## `releaseGVL` -/

def goOutside (t : ℕ) (vm : Vm) : Outside → Pc × Vm
  | .syscall => (.outside, vm)
  | .create u => (.creating u, vm)
  | .exit => (.exited, vm.updThread t fun th => { th with status := .zombie })

def releaseGVL (t : ℕ) (c : Choice) (vm : Vm) (next : Outside) : ReleaseGVL → Option (Pc × Vm)
  | .lock =>
    if vm.gvLock = none then some (.releasing .check next, { vm with gvLock := some t }) else none
  | .check =>
    match vm.curThread with
    | none => some (.releasing .skip next, vm)
    | some th =>
      if vm.gvlOwner ≠ some th then some (.releasing .skip next, vm)
      else if 0 < (vm.threads th).mutexCounter ∧ vm.gvlOwner = some th ∧ th = t then
        some (.releasing .skip next, vm)
      else some (.releasing .status next, vm)
  | .skip => some (goOutside t { vm with gvLock := none } next)
  | .status => some (.releasing .owner next, { vm with gvLockStatus := 0 })
  | .owner => some (.releasing .current next, { vm with gvlOwner := none })
  | .current => some (.releasing .unlock next, { vm with curThread := none })
  | .unlock => some (.releasing .signal next, { vm with gvLock := none })
  | .signal =>
    match c with
    | .wakes w => (vm.gvlCond.signal w).map fun q => goOutside t { vm with gvlCond := q } next
    | _ => none

/-! ## Lox mutexes -/

/-- `mutex->owner = th`, and in the books of `th` -/
def takeMutex (vm : Vm) (m th : ℕ) : Vm :=
  (vm.updMutex m fun mutex => { mutex with owner := some th }).updThread th fun thread =>
    { thread with
      mutexCounter := thread.mutexCounter + 1
      lockedMutexes := thread.lockedMutexes ++ [m] }

/-- The part of `lockMutex` before its loop, with `th` for `vm.curThread`. -/
def lockMutex (vm : Vm) (m : ℕ) : Pc × Vm :=
  match (vm.mutexes m).owner, vm.curThread with
  | none, none => (.vm, vm.abort)
  | none, some th =>
    if (vm.mutexes m).waiting = 0 then (.locked m, takeMutex vm m th) else (.vm, vm.abort)
  | some _, th => (.locking m th .loop, vm)

/-- The loop of `lockMutex`, with `GVL_UNLOCK_BEGIN`, `lockFunc` and `GVL_UNLOCK_END`. -/
def lockMutexLoop (t : ℕ) (c : Choice) (vm : Vm) (m : ℕ) (th : Option ℕ) :
    LockMutex → Option (Pc × Vm)
  | .loop =>
    if (vm.mutexes m).owner = th then some (.locked m, vm) else some (.locking m th .thread, vm)
  | .thread =>
    if vm.curThread = none then some (.locking m th .threadLock, vm)
    else some (.locking m th .stored, vm)
  | .threadLock =>
    if vm.gvLock = none then some (.locking m th .threadFind, { vm with gvLock := some t })
    else none
  | .threadFind => some (.locking m th .threadUnlock, { vm with curThread := some t })
  | .threadUnlock => some (.locking m th .stored, { vm with gvLock := none })
  | .stored => some (.locking m th (.unlock vm.curThread), vm)
  -- whoever holds it
  | .unlock thStored => some (.locking m th (.current thStored), { vm with gvLock := none })
  | .current thStored => some (.locking m th (.owner thStored), { vm with curThread := none })
  | .owner thStored => some (.locking m th (.status thStored), { vm with gvlOwner := none })
  | .status thStored => some (.locking m th (.lockFunc thStored), { vm with gvLockStatus := 0 })
  | .lockFunc thStored =>
    some (.locking m th (.waiting thStored), vm.updMutex m fun mutex =>
      { mutex with waiting := mutex.waiting + 1, cond := mutex.cond.wait t })
  | .waiting thStored =>
    match c with
    | .spurious =>
      ((vm.mutexes m).cond.wake t).map fun q =>
        (.locking m th (.waiting thStored), vm.updMutex m fun mutex => { mutex with cond := q })
    | _ =>
      ((vm.mutexes m).cond.resume t).map fun q =>
        let vm := vm.updMutex m fun mutex =>
          { mutex with waiting := mutex.waiting - 1, cond := q }
        match th with
        | none => (.locking m th (.endLock thStored), vm.abort)
        | some u => (.locking m th (.endLock thStored), takeMutex vm m u)
  | .endLock thStored =>
    if vm.gvLock = none then
      some (.locking m th (.endCurrent thStored), { vm with gvLock := some t })
    else none
  | .endCurrent thStored =>
    some (.locking m th (.endOwner thStored), { vm with curThread := thStored })
  | .endOwner thStored =>
    match thStored with
    | none => some (.locking m th .retest, vm.abort)
    | some u => some (.locking m th .retest, { vm with gvlOwner := some u })
  | .retest =>
    if (vm.mutexes m).owner = th then some (.locked m, vm) else some (.locking m th .loop, vm)

/-- `vec_remove(&th->lockedMutexes, mutex)`, `th->mutexCounter--` -/
def dropMutex (vm : Vm) (m th : ℕ) : Vm :=
  vm.updThread th fun thread =>
    { thread with
      mutexCounter := thread.mutexCounter - 1
      lockedMutexes := thread.lockedMutexes.erase m }

def threadForceUnlockMutex (vm : Vm) (th m w : ℕ) : Option Vm :=
  if (vm.mutexes m).owner ≠ some th then some vm.abort
  else if 0 < (vm.mutexes m).waiting then
    ((vm.mutexes m).cond.signal w).map fun q =>
      dropMutex (vm.updMutex m fun mutex => { mutex with owner := none, cond := q }) m th
  else some (dropMutex (vm.updMutex m fun mutex => { mutex with owner := none }) m th)

def unlockMutex (vm : Vm) (m w : ℕ) : Option Vm :=
  match vm.curThread with
  | none => some vm.abort
  | some th => threadForceUnlockMutex vm th m w

/-! ## The beginning and the end of a thread -/

/-- `lxNewThread` up to `releaseGVL`; the record of a thread that does not exist is as
`LxThreadSetup` leaves it. -/
def newThread (vm : Vm) (u : ℕ) : Option (Pc × Vm) :=
  if (vm.threads u).status = .stopped then
    some (.releasing .lock (.create u), vm.updThread u fun th => { th with status := .ready })
  else none

/-- `runCallableInNewThread` behind `acquireGVL` -/
def startThread (t : ℕ) (vm : Vm) : Pc × Vm :=
  if vm.curThread = some t ∧ vm.gvlOwner = some t then
    if vm.exiting = none then (.vm, vm.updThread t fun th => { th with status := .running })
    else (.releasing .lock .exit, vm)
  else (.vm, vm.abort)

def exitingThread (vm : Vm) (th : ℕ) : Vm :=
  vm.updThread th fun thread => { thread with status := .zombie, lockedMutexes := [] }

def stopVM (t : ℕ) (vm : Vm) : Pc × Vm :=
  match vm.curThread with
  | none => (.vm, vm.abort)
  | some th =>
    if th = mainThread then (.vm, { vm with exiting := some t })
    else
      -- `forceUnlockMutexes` finds the list empty: `exitingThread` has thrown it away
      (.releasing .lock .exit,
        (exitingThread vm th).updThread th fun thread => { thread with mutexCounter := 0 })

/-- One thread of the loop in `terminateThreads`, with the beginning of `forceUnlockMutexes`. -/
def terminateThread (t : ℕ) (vm : Vm) (u : ℕ) : Option (Pc × Vm) :=
  if vm.exiting = some t ∧ u ≠ mainThread ∧ (vm.threads u).created ∧
      (vm.threads u).status ≠ .zombie then
    if (vm.threads u).mutexCounter = 0 then some (.interrupting u, vm) else some (.forcing u, vm)
  else none

def forceUnlockMutexes (c : Choice) (vm : Vm) (th : ℕ) : Option (Pc × Vm) :=
  match (vm.threads th).lockedMutexes, c with
  | [], _ => some (.interrupting th, vm)
  | m :: _, .wakes w => (threadForceUnlockMutex vm th m w).map fun vm => (.forcing th, vm)
  | _ :: _, _ => none

/-- With the flag of an exit interrupt set. -/
def threadExecuteInterrupts (vm : Vm) (th : ℕ) : Pc × Vm :=
  if vm.curThread ≠ some th ∨ th = mainThread then (.vm, vm.abort)
  else if vm.gvlOwner = some th then (.releasing .lock .exit, vm)
  else (.releasing .signal .exit, vm)

def threadInterrupt (vm : Vm) (th : ℕ) : Pc × Vm :=
  let vm := vm.updThread th fun thread => { thread with interrupted := true }
  if vm.curThread ≠ some th then (.releasing .lock .syscall, vm)
  else threadExecuteInterrupts vm th

def vmCheckInts (t : ℕ) (vm : Vm) : Pc × Vm :=
  if (vm.threads t).interrupted then threadExecuteInterrupts vm t else (.vm, vm)

/-! ## The machine -/

def call (t : ℕ) (vm : Vm) : Op → Option (Pc × Vm)
  | .release => some (.releasing .lock .syscall, vm)
  | .newThread u => newThread vm u
  | .lock m => some (lockMutex vm m)
  | .unlock m w => (unlockMutex vm m w).map fun vm => (.vm, vm)
  | .stopVM => some (stopVM t vm)
  | .terminate u => terminateThread t vm u
  | .checkInts => some (vmCheckInts t vm)

/-- The next statement of `t`. -/
def exec (t : ℕ) (c : Choice) (l : Pc) (vm : Vm) : Option (Pc × Vm) :=
  if vm.aborted then none
  else
    match l with
    | .unborn => if (vm.threads t).created then some (.acquiring .lock, vm) else none
    | .vm =>
      if (vm.threads t).status = .ready then some (startThread t vm)
      else
        match c with
        | .op o => call t vm o
        | _ => none
    | .outside => some (.acquiring .lock, vm)
    | .creating u =>
      some (.acquiring .lock, vm.updThread u fun th => { th with created := true })
    | .exited => none
    | .acquiring a => acquireGVL t c vm a
    | .releasing r next => releaseGVL t c vm next r
    | .locking m th a => lockMutexLoop t c vm m th a
    | .locked _ => some (.vm, vm)
    | .forcing u => forceUnlockMutexes c vm u
    | .interrupting u => some (threadInterrupt vm u)

abbrev State := Config ℕ Vm Pc

abbrev Event := ℕ × Choice

abbrev step : State → Event → Option State := Config.step exec

/-- As `initMainThread` leaves it. -/
def initial : State where
  shared :=
    { gvLock := none
      gvlCond := .empty
      gvLockStatus := 1
      gvlWaiters := 0
      curThread := some mainThread
      gvlOwner := some mainThread
      threads := Function.update (fun _ => threadSetup) mainThread
        { threadSetup with status := .running, created := true }
      mutexes := fun _ => setupMutex
      exiting := none
      aborted := false }
  pc := Function.update (fun _ => .unborn) mainThread .vm

/-! Parts of schedules. -/

def goes (t n : ℕ) : List Event := .replicate n (t, .go)

/-- `t` does `o` and what follows up to the end of `releaseGVL`; `w` is woken. -/
def releases (t : ℕ) (o : Op) (w : ℕ) : List Event := (t, .op o) :: goes t 6 ++ [(t, .wakes w)]

/-- `t` creates `u`, which runs up to its callable. -/
def creates (t u : ℕ) : List Event := releases t (.newThread u) t ++ goes t 1 ++ goes u 9

end Clox.Threads
