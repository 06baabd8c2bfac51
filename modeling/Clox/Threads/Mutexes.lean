import Clox.Threads.Exclusion
import Mathlib.Data.List.Nodup

/-! # Lox mutexes

Who owns a mutex is written down twice, in the mutex and in the list of the owner. The books
agree as long as no wait for a mutex returns while the mutex is owned, no thread ends with a
mutex locked, and `vm.curThread` is the thread that calls `lock`. A wake-up is lost only where a
thread begins to wait for a mutex that is free already.
-/

namespace Clox.Threads

open Interleaving

/-! ## Statements that do not touch mutexes -/

/-- In `lockMutex`, or about to return from it. -/
def Pc.onMutex : Pc → Bool
  | locking _ _ _ | locked _ => true
  | _ => false

structure SameBooks (v v' : Vm) : Prop where
  mutexes : v'.mutexes = v.mutexes
  locked : ∀ t, (v'.threads t).lockedMutexes = (v.threads t).lockedMutexes
  counter : ∀ t, (v'.threads t).mutexCounter = (v.threads t).mutexCounter

section SameBooks

variable {t : ℕ} {c : Choice} {v v' : Vm} {l' : Pc}

theorem SameBooks.of_eq (hmutexes : v'.mutexes = v.mutexes) (hthreads : v'.threads = v.threads) :
    SameBooks v v' :=
  ⟨hmutexes, fun _ => by rw [hthreads], fun _ => by rw [hthreads]⟩

theorem SameBooks.updThread (v : Vm) (u : ℕ) (f : LxThread → LxThread)
    (hlocked : ∀ th, (f th).lockedMutexes = th.lockedMutexes)
    (hcounter : ∀ th, (f th).mutexCounter = th.mutexCounter) : SameBooks v (v.updThread u f) := by
  refine ⟨rfl, fun t => ?_, fun t => ?_⟩
  · by_cases h : t = u
    · subst h
      simp [Vm.updThread, hlocked]
    · simp [Vm.updThread, h]
  · by_cases h : t = u
    · subst h
      simp [Vm.updThread, hcounter]
    · simp [Vm.updThread, h]

theorem SameBooks.trans {w : Vm} (h₁ : SameBooks v v') (h₂ : SameBooks v' w) : SameBooks v w where
  mutexes := h₂.mutexes.trans h₁.mutexes
  locked t := (h₂.locked t).trans (h₁.locked t)
  counter t := (h₂.counter t).trans (h₁.counter t)

theorem acquireGVL_books {a : AcquireGVL} (hexec : acquireGVL t c v a = some (l', v')) :
    SameBooks v v' ∧ l'.onMutex = false := by
  cases a with
  | lock | test =>
    simp only [acquireGVL] at hexec
    split at hexec <;> cases hexec <;> exact ⟨.of_eq rfl rfl, rfl⟩
  | check =>
    simp only [acquireGVL] at hexec
    split at hexec
    · cases hexec
      exact ⟨.of_eq rfl rfl, rfl⟩
    · split at hexec <;> cases hexec <;> exact ⟨.of_eq rfl rfl, rfl⟩
  | skip | wait | status | owner | unlock =>
    cases hexec
    exact ⟨.of_eq rfl rfl, rfl⟩
  | waiting =>
    simp only [acquireGVL] at hexec
    split at hexec
    · obtain ⟨q, -, hq⟩ := Option.map_eq_some_iff.mp hexec
      cases hq
      exact ⟨.of_eq rfl rfl, rfl⟩
    · split at hexec
      · obtain ⟨q, -, hq⟩ := Option.map_eq_some_iff.mp hexec
        cases hq
        exact ⟨.of_eq rfl rfl, rfl⟩
      · cases hexec
  | current =>
    simp only [acquireGVL] at hexec
    split at hexec <;> cases hexec <;> exact ⟨.of_eq rfl rfl, rfl⟩

theorem goOutside_books (t : ℕ) (v : Vm) (next : Outside) :
    SameBooks v (goOutside t v next).2 ∧ (goOutside t v next).1.onMutex = false := by
  cases next with
  | exit =>
    exact ⟨SameBooks.updThread v t (fun th => { th with status := .zombie }) (fun _ => rfl)
      fun _ => rfl, rfl⟩
  | _ => exact ⟨.of_eq rfl rfl, rfl⟩

theorem releaseGVL_books {r : ReleaseGVL} {next : Outside}
    (hexec : releaseGVL t c v next r = some (l', v')) : SameBooks v v' ∧ l'.onMutex = false := by
  cases r with
  | lock =>
    simp only [releaseGVL] at hexec
    split at hexec <;> cases hexec
    exact ⟨.of_eq rfl rfl, rfl⟩
  | check =>
    simp only [releaseGVL] at hexec
    split at hexec
    · cases hexec
      exact ⟨.of_eq rfl rfl, rfl⟩
    · split at hexec
      · cases hexec
        exact ⟨.of_eq rfl rfl, rfl⟩
      · split at hexec <;> cases hexec <;> exact ⟨.of_eq rfl rfl, rfl⟩
  | skip =>
    have hbooks := goOutside_books t { v with gvLock := none } next
    rw [Option.some.inj hexec] at hbooks
    exact ⟨(SameBooks.of_eq rfl rfl : SameBooks v { v with gvLock := none }).trans hbooks.1, hbooks.2⟩
  | status | owner | current | unlock =>
    cases hexec
    exact ⟨.of_eq rfl rfl, rfl⟩
  | signal =>
    simp only [releaseGVL] at hexec
    split at hexec
    · obtain ⟨q, -, hq⟩ := Option.map_eq_some_iff.mp hexec
      have hbooks := goOutside_books t { v with gvlCond := q } next
      rw [hq] at hbooks
      exact ⟨(SameBooks.of_eq rfl rfl : SameBooks v { v with gvlCond := q }).trans hbooks.1, hbooks.2⟩
    · cases hexec

theorem threadExecuteInterrupts_books (v : Vm) (th : ℕ) :
    SameBooks v (threadExecuteInterrupts v th).2 ∧
      (threadExecuteInterrupts v th).1.onMutex = false := by
  unfold threadExecuteInterrupts
  split
  · exact ⟨.of_eq rfl rfl, rfl⟩
  · split <;> exact ⟨.of_eq rfl rfl, rfl⟩

theorem threadInterrupt_books (v : Vm) (th : ℕ) :
    SameBooks v (threadInterrupt v th).2 ∧ (threadInterrupt v th).1.onMutex = false := by
  have hflag : SameBooks v (v.updThread th fun thread => { thread with interrupted := true }) :=
    .updThread v th _ (fun _ => rfl) fun _ => rfl
  unfold threadInterrupt
  dsimp only
  split
  · exact ⟨hflag, rfl⟩
  · obtain ⟨hbooks, hl'⟩ := threadExecuteInterrupts_books
      (v.updThread th fun thread => { thread with interrupted := true }) th
    exact ⟨hflag.trans hbooks, hl'⟩

theorem startThread_books (t : ℕ) (v : Vm) :
    SameBooks v (startThread t v).2 ∧ (startThread t v).1.onMutex = false := by
  unfold startThread
  split
  · split
    · exact ⟨SameBooks.updThread v t (fun th => { th with status := .running }) (fun _ => rfl)
        fun _ => rfl, rfl⟩
    · exact ⟨.of_eq rfl rfl, rfl⟩
  · exact ⟨.of_eq rfl rfl, rfl⟩

end SameBooks

/-! ## The books -/

section Write

variable (v : Vm) (m th : ℕ)

theorem takeMutex_owner (k : ℕ) :
    ((takeMutex v m th).mutexes k).owner = if k = m then some th else (v.mutexes k).owner := by
  by_cases h : k = m
  · subst h
    simp [takeMutex, Vm.updMutex, Vm.updThread]
  · simp [takeMutex, Vm.updMutex, Vm.updThread, h]

theorem takeMutex_locked (u : ℕ) :
    ((takeMutex v m th).threads u).lockedMutexes =
      (v.threads u).lockedMutexes ++ if u = th then [m] else [] := by
  by_cases h : u = th
  · subst h
    simp [takeMutex, Vm.updMutex, Vm.updThread]
  · simp [takeMutex, Vm.updMutex, Vm.updThread, h]

theorem takeMutex_counter (u : ℕ) :
    ((takeMutex v m th).threads u).mutexCounter =
      (v.threads u).mutexCounter + if u = th then 1 else 0 := by
  by_cases h : u = th
  · subst h
    simp [takeMutex, Vm.updMutex, Vm.updThread]
  · simp [takeMutex, Vm.updMutex, Vm.updThread, h]

theorem dropMutex_locked (u : ℕ) :
    ((dropMutex v m th).threads u).lockedMutexes =
      if u = th then (v.threads u).lockedMutexes.erase m else (v.threads u).lockedMutexes := by
  by_cases h : u = th
  · subst h
    simp [dropMutex, Vm.updThread]
  · simp [dropMutex, Vm.updThread, h]

theorem dropMutex_counter (u : ℕ) :
    ((dropMutex v m th).threads u).mutexCounter =
      (v.threads u).mutexCounter - if u = th then 1 else 0 := by
  by_cases h : u = th
  · subst h
    simp [dropMutex, Vm.updThread]
  · simp [dropMutex, Vm.updThread, h]

end Write

/-- Who owns a mutex is the one thread that has it in its list, once. -/
structure Booked (v : Vm) : Prop where
  owner : ∀ m t, (v.mutexes m).owner = some t ↔ m ∈ (v.threads t).lockedMutexes
  nodup : ∀ t, (v.threads t).lockedMutexes.Nodup
  counter : ∀ t, (v.threads t).mutexCounter = (v.threads t).lockedMutexes.length

namespace Booked

variable {v v' : Vm} {m t u : ℕ}

theorem unique (hb : Booked v) (ht : m ∈ (v.threads t).lockedMutexes)
    (hu : m ∈ (v.threads u).lockedMutexes) : t = u :=
  Option.some.inj (((hb.owner m t).mpr ht).symm.trans ((hb.owner m u).mpr hu))

theorem congr (hb : Booked v) (howner : ∀ m, (v'.mutexes m).owner = (v.mutexes m).owner)
    (hlocked : ∀ t, (v'.threads t).lockedMutexes = (v.threads t).lockedMutexes)
    (hcounter : ∀ t, (v'.threads t).mutexCounter = (v.threads t).mutexCounter) : Booked v' := by
  constructor
  · intro m t
    rw [howner, hlocked]
    exact hb.owner m t
  · intro t
    rw [hlocked]
    exact hb.nodup t
  · intro t
    rw [hcounter, hlocked]
    exact hb.counter t

theorem of_sameBooks (hb : Booked v) (h : SameBooks v v') : Booked v' :=
  hb.congr (fun m => by rw [h.mutexes]) h.locked h.counter

/-- Only what is not written in the books changes in a mutex. -/
theorem updMutex (hb : Booked v) {f : LxMutex → LxMutex}
    (hf : ∀ mutex, (f mutex).owner = mutex.owner) : Booked (v.updMutex m f) := by
  refine hb.congr (fun k => ?_) (fun _ => rfl) fun _ => rfl
  by_cases h : k = m
  · subst h
    simp [Vm.updMutex, hf]
  · simp [Vm.updMutex, h]

theorem take (hb : Booked v) (hfree : (v.mutexes m).owner = none) (t : ℕ) :
    Booked (takeMutex v m t) := by
  have hnot : ∀ u, m ∉ (v.threads u).lockedMutexes := by
    intro u hu
    have howner := (hb.owner m u).mpr hu
    rw [hfree] at howner
    cases howner
  constructor
  · intro k u
    rw [takeMutex_owner, takeMutex_locked]
    have hk := hb.owner k u
    by_cases hkm : k = m
    · subst hkm
      have hku := hnot u
      by_cases hut : u = t
      · simp [hut]
      · simp [hut, hku, Ne.symm hut]
    · by_cases hut : u = t <;> simp_all
  · intro u
    rw [takeMutex_locked]
    by_cases hut : u = t
    · rw [if_pos hut]
      exact List.nodup_append.mpr ⟨hb.nodup u, List.nodup_singleton m, fun k hk j hj => by
        rw [List.mem_singleton.mp hj]
        rintro rfl
        exact hnot u hk⟩
    · simpa [hut] using hb.nodup u
  · intro u
    have hcounter := hb.counter u
    rw [takeMutex_counter, takeMutex_locked]
    by_cases hut : u = t <;> simp [hut] <;> simp_all

/-- The owner gives the mutex up. -/
theorem drop (hb : Booked v) {f : LxMutex → LxMutex} (hf : ∀ mutex, (f mutex).owner = none)
    (howner : (v.mutexes m).owner = some t) : Booked (dropMutex (v.updMutex m f) m t) := by
  have hmem := (hb.owner m t).mp howner
  have howner' : ∀ k, ((dropMutex (v.updMutex m f) m t).mutexes k).owner =
      if k = m then none else (v.mutexes k).owner := by
    intro k
    by_cases hkm : k = m
    · subst hkm
      simp [dropMutex, Vm.updMutex, Vm.updThread, hf]
    · simp [dropMutex, Vm.updMutex, Vm.updThread, hkm]
  have hlocked : ∀ u, ((v.updMutex m f).threads u).lockedMutexes = (v.threads u).lockedMutexes :=
    fun _ => rfl
  constructor
  · intro k u
    rw [howner', dropMutex_locked, hlocked]
    by_cases hkm : k = m
    · subst hkm
      by_cases hut : u = t
      · subst hut
        simp [(hb.nodup u).not_mem_erase]
      · have hnot : k ∉ (v.threads u).lockedMutexes := fun hu => hut (hb.unique hu hmem)
        simp [hut, hnot]
    · by_cases hut : u = t
      · subst hut
        rw [if_neg hkm, if_pos rfl, List.mem_erase_of_ne hkm]
        exact hb.owner k u
      · rw [if_neg hkm, if_neg hut]
        exact hb.owner k u
  · intro u
    rw [dropMutex_locked, hlocked]
    split
    · exact (hb.nodup u).erase m
    · exact hb.nodup u
  · intro u
    have hcounter : ((v.updMutex m f).threads u).mutexCounter =
        (v.threads u).lockedMutexes.length := hb.counter u
    rw [dropMutex_counter, dropMutex_locked, hlocked, hcounter]
    by_cases hut : u = t
    · subst hut
      have hlength := List.length_erase_add_one hmem
      rw [if_pos rfl, if_pos rfl]
      omega
    · simp [hut]

theorem forceUnlock {th w : ℕ} (hb : Booked v) (hexec : threadForceUnlockMutex v th m w = some v') :
    Booked v' := by
  unfold threadForceUnlockMutex at hexec
  split at hexec
  · cases hexec
    exact hb.of_sameBooks (.of_eq rfl rfl)
  · rename_i howner
    have howner : (v.mutexes m).owner = some th := not_not.mp howner
    split at hexec
    · obtain ⟨q, -, rfl⟩ := Option.map_eq_some_iff.mp hexec
      exact hb.drop (fun _ => rfl) howner
    · cases hexec
      exact hb.drop (fun _ => rfl) howner

end Booked

/-! ## What keeps the books -/

namespace Pc

/-- The mutex the wait for which returns. -/
def resumes : Pc → Choice → Option ℕ
  | locking _ _ (.waiting _), .spurious => none
  | locking m _ (.waiting _), _ => some m
  | _, _ => none

def locks : Pc → Choice → Bool
  | vm, .op (.lock _) => true
  | _, _ => false

def stops : Pc → Choice → Bool
  | vm, .op .stopVM => true
  | _, _ => false

end Pc

/-- A wait for a mutex returns when the mutex has no owner, `lock` is called by the thread that
`vm.curThread` is, and no thread but the main one ends with a mutex locked. -/
def KeepsBooks (s : State) (e : Event) (_ : State) : Prop :=
  (∀ m ∈ (s.pc e.1).resumes e.2, (s.shared.mutexes m).owner = none) ∧
    ((s.pc e.1).locks e.2 = true → s.shared.curThread = some e.1) ∧
    ((s.pc e.1).stops e.2 = true → ∀ th ∈ s.shared.curThread,
      th ≠ mainThread → (s.shared.threads th).lockedMutexes = [])

/-- Whoever returns from `lock` is the owner. -/
def ReturnsOwner (_ : State) (e : Event) (s' : State) : Prop :=
  ∀ m, s'.pc e.1 = .locked m → (s'.shared.mutexes m).owner = some e.1

/-- In `lockMutex` the `th` of a thread is the thread itself. -/
def OwnThread (t : ℕ) : Pc → Prop
  | .locking _ th _ => th = some t
  | _ => True

/-- What holds behind a statement of `t`. -/
structure KeptBooks (t : ℕ) (l' : Pc) (v' : Vm) : Prop where
  booked : Booked v'
  own : OwnThread t l'
  returns : ∀ m, l' = .locked m → (v'.mutexes m).owner = some t

section KeptBooks

variable {t : ℕ} {c : Choice} {v v' : Vm} {l' : Pc}

theorem KeptBooks.quiet (hb : Booked v) (h : SameBooks v v' ∧ l'.onMutex = false) :
    KeptBooks t l' v' := by
  obtain ⟨hsame, hl'⟩ := h
  refine ⟨hb.of_sameBooks hsame, ?_, ?_⟩
  · cases l' with
    | locking m th a => cases hl'
    | _ => trivial
  · rintro m rfl
    cases hl'

theorem lockMutex_keptBooks {m : ℕ} (hb : Booked v) (hcur : v.curThread = some t) :
    KeptBooks t (lockMutex v m).1 (lockMutex v m).2 := by
  unfold lockMutex
  rw [hcur]
  cases howner : (v.mutexes m).owner with
  | none =>
    dsimp only
    split
    · refine ⟨hb.take howner t, trivial, fun k hk => ?_⟩
      cases hk
      rw [takeMutex_owner, if_pos rfl]
    · exact .quiet hb ⟨.of_eq rfl rfl, rfl⟩
  | some u => exact ⟨hb, rfl, by simp⟩

theorem lockMutexLoop_keptBooks {m : ℕ} {th : Option ℕ} {a : LockMutex} (hb : Booked v)
    (hown : th = some t) (hfree : ∀ k ∈ (Pc.locking m th a).resumes c, (v.mutexes k).owner = none)
    (hexec : lockMutexLoop t c v m th a = some (l', v')) : KeptBooks t l' v' := by
  subst hown
  cases a with
  | loop | retest =>
    simp only [lockMutexLoop] at hexec
    split at hexec
    · rename_i howner
      cases hexec
      exact ⟨hb, trivial, fun k hk => by cases hk; exact howner⟩
    · cases hexec
      exact ⟨hb, rfl, by simp⟩
  | thread | threadLock | endLock =>
    simp only [lockMutexLoop] at hexec
    split at hexec <;> cases hexec
    all_goals exact ⟨hb.of_sameBooks (.of_eq rfl rfl), rfl, by simp⟩
  | threadFind | threadUnlock | stored | unlock | current | owner | status | endCurrent =>
    cases hexec
    exact ⟨hb.of_sameBooks (.of_eq rfl rfl), rfl, by simp⟩
  | lockFunc thStored =>
    cases hexec
    exact ⟨hb.updMutex fun _ => rfl, rfl, by simp⟩
  | waiting thStored =>
    simp only [lockMutexLoop] at hexec
    split at hexec
    · obtain ⟨q, -, hq⟩ := Option.map_eq_some_iff.mp hexec
      cases hq
      exact ⟨hb.updMutex fun _ => rfl, rfl, by simp⟩
    · rename_i hspurious
      obtain ⟨q, -, hq⟩ := Option.map_eq_some_iff.mp hexec
      cases hq
      have hnone : (v.mutexes m).owner = none := by
        refine hfree m ?_
        cases c <;> simp_all [Pc.resumes]
      have hb' : Booked (v.updMutex m fun mutex =>
          { mutex with waiting := mutex.waiting - 1, cond := q }) := hb.updMutex fun _ => rfl
      exact ⟨hb'.take (by simp [Vm.updMutex, hnone]) t, rfl, by simp⟩
  | endOwner thStored =>
    cases thStored <;> cases hexec <;> exact ⟨hb.of_sameBooks (.of_eq rfl rfl), rfl, by simp⟩

theorem stopVM_keptBooks (hb : Booked v)
    (hempty : ∀ th ∈ v.curThread, th ≠ mainThread → (v.threads th).lockedMutexes = []) :
    KeptBooks t (stopVM t v).1 (stopVM t v).2 := by
  unfold stopVM
  cases hcur : v.curThread with
  | none => exact .quiet hb ⟨.of_eq rfl rfl, rfl⟩
  | some th =>
    dsimp only
    split
    · exact .quiet hb ⟨.of_eq rfl rfl, rfl⟩
    · rename_i hmain
      have hnil := hempty th hcur hmain
      have hzero := hb.counter th
      rw [hnil] at hzero
      refine .quiet hb ⟨⟨rfl, fun u => ?_, fun u => ?_⟩, rfl⟩
      · by_cases hu : u = th
        · subst hu
          simp [exitingThread, Vm.updThread, hnil]
        · simp [exitingThread, Vm.updThread, hu]
      · by_cases hu : u = th
        · subst hu
          simpa [exitingThread, Vm.updThread] using hzero.symm
        · simp [exitingThread, Vm.updThread, hu]

theorem call_keptBooks {o : Op} (hb : Booked v)
    (hcur : Pc.vm.locks (.op o) = true → v.curThread = some t)
    (hempty : Pc.vm.stops (.op o) = true → ∀ th ∈ v.curThread,
      th ≠ mainThread → (v.threads th).lockedMutexes = [])
    (hexec : call t v o = some (l', v')) : KeptBooks t l' v' := by
  cases o with
  | release =>
    cases hexec
    exact .quiet hb ⟨.of_eq rfl rfl, rfl⟩
  | newThread u =>
    simp only [call, newThread] at hexec
    split at hexec <;> cases hexec
    exact .quiet hb ⟨.updThread v u _ (fun _ => rfl) fun _ => rfl, rfl⟩
  | lock m =>
    have hkept := lockMutex_keptBooks (m := m) hb (hcur rfl)
    rwa [Option.some.inj hexec] at hkept
  | unlock m w =>
    obtain ⟨v₁, hv₁, heq⟩ := Option.map_eq_some_iff.mp hexec
    cases heq
    unfold unlockMutex at hv₁
    split at hv₁
    · cases hv₁
      exact .quiet hb ⟨.of_eq rfl rfl, rfl⟩
    · exact ⟨hb.forceUnlock hv₁, trivial, by simp⟩
  | stopVM =>
    have hkept := stopVM_keptBooks (t := t) hb (hempty rfl)
    rwa [Option.some.inj hexec] at hkept
  | terminate u =>
    simp only [call, terminateThread] at hexec
    split at hexec
    · split at hexec <;> cases hexec <;> exact .quiet hb ⟨.of_eq rfl rfl, rfl⟩
    · cases hexec
  | checkInts =>
    simp only [call, vmCheckInts, Option.some.injEq] at hexec
    split at hexec
    · have hbooks := threadExecuteInterrupts_books v t
      rw [hexec] at hbooks
      exact .quiet hb hbooks
    · cases hexec
      exact .quiet hb ⟨.of_eq rfl rfl, rfl⟩

theorem exec_keptBooks {l : Pc} (hb : Booked v) (hown : OwnThread t l)
    (hfree : ∀ m ∈ l.resumes c, (v.mutexes m).owner = none)
    (hcur : l.locks c = true → v.curThread = some t)
    (hempty : l.stops c = true → ∀ th ∈ v.curThread,
      th ≠ mainThread → (v.threads th).lockedMutexes = [])
    (hexec : exec t c l v = some (l', v')) : KeptBooks t l' v' := by
  have hrun : v.aborted = false := by
    by_contra hne
    simp [exec, hne] at hexec
  simp only [exec, hrun, Bool.false_eq_true, if_false] at hexec
  cases l with
  | unborn =>
    simp only at hexec
    split at hexec
    · cases hexec
      exact .quiet hb ⟨.of_eq rfl rfl, rfl⟩
    · cases hexec
  | vm =>
    simp only at hexec
    split at hexec
    · have hbooks := startThread_books t v
      rw [Option.some.inj hexec] at hbooks
      exact .quiet hb hbooks
    · split at hexec
      · exact call_keptBooks hb hcur hempty hexec
      · cases hexec
  | outside | locked =>
    cases hexec
    exact .quiet hb ⟨.of_eq rfl rfl, rfl⟩
  | creating u =>
    cases hexec
    exact .quiet hb ⟨.updThread v u _ (fun _ => rfl) fun _ => rfl, rfl⟩
  | exited => cases hexec
  | acquiring a => exact .quiet hb (acquireGVL_books hexec)
  | releasing r next => exact .quiet hb (releaseGVL_books hexec)
  | locking m th a => exact lockMutexLoop_keptBooks hb hown hfree hexec
  | forcing u =>
    have hexec : forceUnlockMutexes c v u = some (l', v') := hexec
    unfold forceUnlockMutexes at hexec
    split at hexec
    · cases hexec
      exact .quiet hb ⟨.of_eq rfl rfl, rfl⟩
    · obtain ⟨v₁, hv₁, heq⟩ := Option.map_eq_some_iff.mp hexec
      cases heq
      exact ⟨hb.forceUnlock hv₁, trivial, by simp⟩
    · cases hexec
  | interrupting u =>
    have hbooks := threadInterrupt_books v u
    rw [Option.some.inj hexec] at hbooks
    exact .quiet hb hbooks

end KeptBooks

/-- Between the statements of a run. -/
structure BooksInv (s : State) : Prop where
  booked : Booked s.shared
  own : ∀ t, OwnThread t (s.pc t)

theorem BooksInv.step {s s' : State} {e : Event} (hs : BooksInv s) (he : KeepsBooks s e s')
    (hstep : step s e = some s') : BooksInv s' ∧ ReturnsOwner s e s' := by
  obtain ⟨t, c⟩ := e
  obtain ⟨l', v', hexec, rfl⟩ := Config.step_eq_some.mp hstep
  have hkept := exec_keptBooks hs.booked (hs.own t) he.1 he.2.1 he.2.2 hexec
  refine ⟨⟨hkept.booked, fun u => ?_⟩, fun m hm => hkept.returns m (by simpa using hm)⟩
  by_cases hu : u = t
  · subst hu
    simpa using hkept.own
  · simpa [hu] using hs.own u

theorem initial_booksInv : BooksInv initial := by
  have hlocked : ∀ t, (initial.shared.threads t).lockedMutexes = [] ∧
      (initial.shared.threads t).mutexCounter = 0 := by
    intro t
    by_cases ht : t = mainThread <;> simp [initial, threadSetup, ht]
  refine ⟨⟨fun m t => ?_, fun t => ?_, fun t => ?_⟩, fun t => ?_⟩
  · rw [(hlocked t).1]
    simp [initial, setupMutex]
  · rw [(hlocked t).1]
    exact List.nodup_nil
  · rw [(hlocked t).1, (hlocked t).2]
    rfl
  · by_cases ht : t = mainThread <;> simp [initial, ht, OwnThread]

/-- As long as the steps keep the books: a mutex is owned by one thread at most, it is in the
list of its owner, once, and in no other; the counter of a thread is the length of its list; and
who returns from `lock` is the owner. -/
theorem booked_of_keepsBooks (es : List Event) (hes : Each step KeepsBooks initial es) :
    Always step (fun s => Booked s.shared) initial es ∧ Each step ReturnsOwner initial es := by
  constructor
  · refine always_of_each (fun _ hs => BooksInv.booked hs) ?_ initial_booksInv hes
    exact fun _ _ _ hs he hstep => (BooksInv.step hs he hstep).1
  · refine each_of_each ?_ ?_ initial_booksInv hes
    · exact fun _ _ _ hs he hstep => (BooksInv.step hs he hstep).2
    · exact fun _ _ _ hs he hstep => (BooksInv.step hs he hstep).1

instance (s : State) (e : Event) (s' : State) : Decidable (KeepsBooks s e s') :=
  inferInstanceAs (Decidable ((∀ m ∈ _, _) ∧ (_ → _) ∧ (_ → ∀ th ∈ _, _ → _)))

/-- Two threads lock a mutex one after the other. -/
def lockInTurn : List Event :=
  [(0, .op (.lock 0)), (0, .go), (0, .op (.unlock 0 0))] ++ creates 0 1 ++
    [(1, .op (.lock 0)), (1, .go), (1, .op (.unlock 0 0))] ++ releases 1 .stopVM 0

theorem lockInTurn_booked : Always step (fun s => Booked s.shared) initial lockInTurn ∧
    Each step ReturnsOwner initial lockInTurn :=
  booked_of_keepsBooks lockInTurn (by decide +kernel)

/-- A thread that ends stays the owner of the mutex that it has locked. -/
theorem stopVM_leavesOwner : ¬ ∀ es, Always step (fun s => Booked s.shared) initial es ∧
    Each step ReturnsOwner initial es := by
  intro hall
  have hrun : ((run step initial (creates 0 1 ++ [(1, .op (.lock 0)), (1, .go)] ++
      releases 1 .stopVM 0)).map fun s =>
      ((s.shared.mutexes 0).owner, (s.shared.threads 1).lockedMutexes)) =
      some (some 1, []) := by decide
  obtain ⟨s, hs, heq⟩ := Option.map_eq_some_iff.mp hrun
  obtain ⟨howner, hlocked⟩ := Prod.mk.inj heq
  have hmem := (((hall _).1.end hs).owner 0 1).mp howner
  rw [hlocked] at hmem
  cases hmem

/-! ## Signals -/

/-- The mutex has no owner, a thread waits for it, and none has been woken. -/
structure LxMutex.SignalLost (mutex : LxMutex) : Prop where
  free : mutex.owner = none
  waiter : mutex.cond.blocked ≠ []
  unsignalled : mutex.cond.woken = []

def NoSignalLost (s : State) : Prop :=
  s.shared.aborted = false → ∀ m, ¬ (s.shared.mutexes m).SignalLost

/-- The mutex that the thread begins to wait for. -/
def Pc.waitsFor : Pc → Option ℕ
  | locking m _ (.lockFunc _) => some m
  | _ => none

/-- Who begins to wait for a mutex finds it owned, or with a waiter on its way to own it. -/
def WaitsForOwner (s : State) (e : Event) (_ : State) : Prop :=
  ∀ m ∈ (s.pc e.1).waitsFor,
    (s.shared.mutexes m).owner ≠ none ∨ (s.shared.mutexes m).cond.woken ≠ []

/-- `waiting` is the number of threads in the wait, and no signal is lost. -/
structure LxMutex.Signalled (mutex : LxMutex) : Prop where
  waiting : mutex.waiting = mutex.cond.count
  notLost : ¬ mutex.SignalLost

namespace LxMutex.Signalled

variable {mutex : LxMutex} {q : Condvar ℕ} {t : ℕ}

theorem owned (hwaiting : mutex.waiting = mutex.cond.count) (howner : mutex.owner ≠ none) :
    mutex.Signalled :=
  ⟨hwaiting, fun h => howner h.free⟩

theorem stirred (hwaiting : mutex.waiting = mutex.cond.count) (hwoken : mutex.cond.woken ≠ []) :
    mutex.Signalled :=
  ⟨hwaiting, fun h => hwoken h.unsignalled⟩

/-- The owner leaves, and signals if a thread waits. -/
theorem released (hwaiting : mutex.waiting = mutex.cond.count) (hq : mutex.cond.signal t = some q) :
    LxMutex.Signalled { mutex with owner := none, cond := q } := by
  refine ⟨hwaiting.trans (Condvar.count_signal hq).symm, fun h => ?_⟩
  exact Condvar.woken_of_signal hq h.waiter h.unsignalled

theorem unwaited (hwaiting : mutex.waiting = mutex.cond.count) (hzero : ¬ 0 < mutex.waiting) :
    LxMutex.Signalled { mutex with owner := none } := by
  refine ⟨hwaiting, fun h => h.waiter ?_⟩
  have hcount : mutex.cond.blocked.length + mutex.cond.woken.length = 0 := by
    rw [← Condvar.count, ← hwaiting]
    omega
  show mutex.cond.blocked = []
  exact List.eq_nil_of_length_eq_zero (by omega)

end LxMutex.Signalled

section Signals

variable {t : ℕ} {c : Choice} {v v' : Vm} {l l' : Pc}

theorem signalled_of_updMutex (m : ℕ) (f : LxMutex → LxMutex) (hv : ∀ k, (v.mutexes k).Signalled)
    (hf : (f (v.mutexes m)).Signalled) (hmutexes : v'.mutexes = (v.updMutex m f).mutexes) (k : ℕ) :
    (v'.mutexes k).Signalled := by
  rw [hmutexes]
  by_cases h : k = m
  · subst h
    simpa [Vm.updMutex] using hf
  · simpa [Vm.updMutex, h] using hv k

theorem threadForceUnlockMutex_signalled {th m w : ℕ} (hv : ∀ k, (v.mutexes k).Signalled)
    (hexec : threadForceUnlockMutex v th m w = some v') : ∀ k, (v'.mutexes k).Signalled := by
  have hwaiting := (hv m).waiting
  unfold threadForceUnlockMutex at hexec
  split at hexec
  · cases hexec
    exact hv
  · split at hexec
    · obtain ⟨q, hq, rfl⟩ := Option.map_eq_some_iff.mp hexec
      exact signalled_of_updMutex m (fun mutex => { mutex with owner := none, cond := q }) hv
        (.released hwaiting hq) rfl
    · rename_i hzero
      cases hexec
      exact signalled_of_updMutex m (fun mutex => { mutex with owner := none }) hv
        (.unwaited hwaiting hzero) rfl

theorem lockMutex_signalled (m : ℕ) (hv : ∀ k, (v.mutexes k).Signalled) :
    ∀ k, ((lockMutex v m).2.mutexes k).Signalled := by
  unfold lockMutex
  split
  · exact hv
  · split
    · exact signalled_of_updMutex m (fun mutex => { mutex with owner := some _ }) hv
        (.owned (hv m).waiting (by simp)) rfl
    · exact hv
  · exact hv

theorem lockMutexLoop_signalled {m : ℕ} {th : Option ℕ} {a : LockMutex}
    (hv : ∀ k, (v.mutexes k).Signalled)
    (hwaits : ∀ k ∈ (Pc.locking m th a).waitsFor,
      (v.mutexes k).owner ≠ none ∨ (v.mutexes k).cond.woken ≠ [])
    (hexec : lockMutexLoop t c v m th a = some (l', v')) (hrun : v'.aborted = false) :
    ∀ k, (v'.mutexes k).Signalled := by
  cases a with
  | loop | retest | thread | threadLock | endLock =>
    simp only [lockMutexLoop] at hexec
    split at hexec <;> cases hexec
    all_goals exact hv
  | threadFind | threadUnlock | stored | unlock | current | owner | status | endCurrent =>
    cases hexec
    exact hv
  | lockFunc thStored =>
    cases hexec
    have hwaiting := (hv m).waiting
    refine signalled_of_updMutex m _ hv ⟨?_, fun h => ?_⟩ rfl
    · rw [Condvar.count_wait, hwaiting]
    · rcases hwaits m rfl with howner | hwoken
      · exact howner h.free
      · exact hwoken h.unsignalled
  | waiting thStored =>
    have hwaiting := (hv m).waiting
    simp only [lockMutexLoop] at hexec
    split at hexec
    · obtain ⟨q, hq, heq⟩ := Option.map_eq_some_iff.mp hexec
      cases heq
      refine signalled_of_updMutex m (fun mutex => { mutex with cond := q }) hv
        (.stirred (hwaiting.trans (Condvar.count_wake hq).symm) ?_) rfl
      obtain ⟨-, rfl⟩ := Condvar.wake_eq_some.mp hq
      simp
    · obtain ⟨q, hq, heq⟩ := Option.map_eq_some_iff.mp hexec
      have hcount := Condvar.count_resume hq
      cases th with
      | none =>
        cases heq
        simp [Vm.abort] at hrun
      | some u =>
        cases heq
        refine signalled_of_updMutex m (fun mutex =>
          { mutex with owner := some u, waiting := mutex.waiting - 1, cond := q }) hv
          (.owned ?_ (by simp)) ?_
        · show (v.mutexes m).waiting - 1 = q.count
          omega
        · funext k
          by_cases h : k = m
          · subst h
            simp [takeMutex, Vm.updMutex, Vm.updThread]
          · simp [takeMutex, Vm.updMutex, Vm.updThread, h]
  | endOwner thStored => cases thStored <;> cases hexec <;> exact hv

theorem call_signalled {o : Op} (hv : ∀ k, (v.mutexes k).Signalled)
    (hexec : call t v o = some (l', v')) : ∀ k, (v'.mutexes k).Signalled := by
  cases o with
  | release =>
    cases hexec
    exact hv
  | newThread u =>
    simp only [call, newThread] at hexec
    split at hexec <;> cases hexec
    exact hv
  | lock m =>
    have hsignalled := lockMutex_signalled m hv
    rwa [Option.some.inj hexec] at hsignalled
  | unlock m w =>
    obtain ⟨v₁, hv₁, heq⟩ := Option.map_eq_some_iff.mp hexec
    cases heq
    unfold unlockMutex at hv₁
    split at hv₁
    · cases hv₁
      exact hv
    · exact threadForceUnlockMutex_signalled hv hv₁
  | stopVM =>
    simp only [call, stopVM] at hexec
    split at hexec
    · cases hexec
      exact hv
    · split at hexec <;> cases hexec <;> exact hv
  | terminate u =>
    simp only [call, terminateThread] at hexec
    split at hexec
    · split at hexec <;> cases hexec <;> exact hv
    · cases hexec
  | checkInts =>
    simp only [call, vmCheckInts, Option.some.injEq] at hexec
    split at hexec
    · have hbooks := threadExecuteInterrupts_books v t
      rw [hexec] at hbooks
      rwa [hbooks.1.mutexes]
    · cases hexec
      exact hv

theorem exec_signalled (hv : ∀ k, (v.mutexes k).Signalled)
    (hwaits : ∀ k ∈ l.waitsFor, (v.mutexes k).owner ≠ none ∨ (v.mutexes k).cond.woken ≠ [])
    (hexec : exec t c l v = some (l', v')) (hrun' : v'.aborted = false) :
    ∀ k, (v'.mutexes k).Signalled := by
  have hrun : v.aborted = false := by
    by_contra hne
    simp [exec, hne] at hexec
  simp only [exec, hrun, Bool.false_eq_true, if_false] at hexec
  cases l with
  | unborn =>
    simp only at hexec
    split at hexec
    · cases hexec
      exact hv
    · cases hexec
  | vm =>
    simp only at hexec
    split at hexec
    · have hbooks := startThread_books t v
      rw [Option.some.inj hexec] at hbooks
      rwa [hbooks.1.mutexes]
    · split at hexec
      · exact call_signalled hv hexec
      · cases hexec
  | outside | locked | creating =>
    cases hexec
    exact hv
  | exited => cases hexec
  | acquiring a => rwa [(acquireGVL_books hexec).1.mutexes]
  | releasing r next => rwa [(releaseGVL_books hexec).1.mutexes]
  | locking m th a => exact lockMutexLoop_signalled hv hwaits hexec hrun'
  | forcing u =>
    have hexec : forceUnlockMutexes c v u = some (l', v') := hexec
    unfold forceUnlockMutexes at hexec
    split at hexec
    · cases hexec
      exact hv
    · obtain ⟨v₁, hv₁, heq⟩ := Option.map_eq_some_iff.mp hexec
      cases heq
      exact threadForceUnlockMutex_signalled hv hv₁
    · cases hexec
  | interrupting u =>
    have hbooks := threadInterrupt_books v u
    rw [Option.some.inj hexec] at hbooks
    rwa [hbooks.1.mutexes]

end Signals

/-- Unless the process is dead. -/
def SignalledInv (s : State) : Prop :=
  s.shared.aborted = false → ∀ m, (s.shared.mutexes m).Signalled

theorem step_signalledInv {s s' : State} {e : Event} (hs : SignalledInv s)
    (he : WaitsForOwner s e s') (hstep : step s e = some s') : SignalledInv s' := by
  obtain ⟨t, c⟩ := e
  obtain ⟨l', v', hexec, rfl⟩ := Config.step_eq_some.mp hstep
  have hrun : s.shared.aborted = false := by
    by_contra hne
    simp [exec, hne] at hexec
  exact exec_signalled (hs hrun) he hexec

/-- To begin to wait for a mutex that is free, with no waiter on its way, is to lose a signal. -/
theorem waitsForOwner_of_noSignalLost {s s' : State} {e : Event} (hs' : NoSignalLost s')
    (hstep : step s e = some s') : WaitsForOwner s e s' := by
  obtain ⟨t, c⟩ := e
  obtain ⟨l', v', hexec, rfl⟩ := Config.step_eq_some.mp hstep
  have hrun : s.shared.aborted = false := by
    by_contra hne
    simp [exec, hne] at hexec
  simp only [exec, hrun, Bool.false_eq_true, if_false] at hexec
  intro m hm
  cases hl : s.pc t with
  | locking k th a =>
    cases a with
    | lockFunc thStored =>
      rw [hl] at hm hexec
      cases hm
      cases hexec
      have hnot := hs' hrun m
      by_contra hlost
      simp only [not_or, not_not] at hlost
      refine hnot ⟨?_, ?_, ?_⟩
      · simpa [Vm.updMutex] using hlost.1
      · simp [Vm.updMutex, Condvar.wait]
      · simpa [Vm.updMutex, Condvar.wait] using hlost.2
    | _ =>
      rw [hl] at hm
      cases hm
  | _ =>
    rw [hl] at hm
    cases hm

/-- No signal is lost in a run exactly if whoever begins to wait for a mutex finds it owned, or
with a waiter on its way to own it. -/
theorem noSignalLost_iff (es : List Event) :
    Always step NoSignalLost initial es ↔ Each step WaitsForOwner initial es := by
  have hinv : ∀ s, SignalledInv s → NoSignalLost s := fun _ hs hrun m => (hs hrun m).notLost
  have hinitial : SignalledInv initial := fun _ _ => ⟨rfl, fun h => h.waiter rfl⟩
  refine always_iff_each hinv ?_ ?_ hinitial
  · exact fun _ _ _ hs he hstep => step_signalledInv hs he hstep
  · exact fun _ _ _ _ hstep hs' => waitsForOwner_of_noSignalLost hs' hstep

/-- A thread has found a mutex owned and has not begun to wait for it when the owner is made to
unlock it. -/
theorem unlock_losesSignal : ¬ ∀ es, Always step NoSignalLost initial es := by
  intro hall
  have hrun : ((run step initial (contended ++ goes 0 7 ++
      [(0, .op .stopVM), (0, .op (.terminate 2)), (0, .wakes 0)] ++ goes 3 1)).map fun s =>
      (s.shared.aborted, (s.shared.mutexes 1).owner, (s.shared.mutexes 1).cond.blocked,
        (s.shared.mutexes 1).cond.woken)) = some (false, none, [3], []) := by decide
  obtain ⟨s, hs, heq⟩ := Option.map_eq_some_iff.mp hrun
  simp only [Prod.mk.injEq] at heq
  obtain ⟨hrunning, howner, hblocked, hwoken⟩ := heq
  exact (hall _).end hs hrunning 1 ⟨howner, by simp [hblocked], hwoken⟩

end Clox.Threads
