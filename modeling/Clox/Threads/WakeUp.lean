import Clox.Threads.Exclusion

/-! # Waiting for the VM lock

Who releases the VM lock signals, and who gives it up in a blocking region does not. A waiter is
safe as long as the status says that the lock is taken: whoever clears it by a release signals
behind it, and a thread that was woken goes through the release itself.
-/

namespace Clox.Threads

open Interleaving

namespace Pc

/-- About to wait on `GVLCond`. -/
@[simp]
def falling : Pc → Bool
  | acquiring a => match a with | .wait => true | _ => false
  | _ => false

/-- About to signal `GVLCond`. -/
@[simp]
def signalling : Pc → Bool
  | releasing r _ => match r with | .owner | .current | .unlock | .signal => true | _ => false
  | _ => false

/-- About to look at the status, or past the loop that does. -/
@[simp]
def entering : Pc → Bool
  | acquiring a =>
    match a with | .skip | .test | .status | .current | .owner | .unlock => true | _ => false
  | _ => false

/-- Will signal, or set the status, or wait with the status set. -/
@[simp]
def stirring : Pc → Bool
  | acquiring a => match a with | .test | .status => true | _ => false
  | l => l.signalling

/-- A region clears the status. -/
@[simp]
def clearsStatus : Pc → Bool
  | locking _ _ a => match a with | .status _ => true | _ => false
  | _ => false

theorem critical_of_falling {l : Pc} (h : l.falling = true) : l.critical = true := by
  cases l with
  | acquiring a => cases a <;> simp_all
  | _ => simp_all

end Pc

/-- The VM lock is free, nobody is in the VM or enters it, and a thread waits for a signal that
nobody has sent. -/
structure Stranded (s : State) : Prop where
  free : s.shared.gvLockStatus = 0
  nobody : ∀ t, (s.pc t).inside = false ∧ (s.pc t).entering = false
  waiter : s.shared.gvlCond.blocked ≠ []
  unsignalled : s.shared.gvlCond.woken = [] ∧ ∀ t, (s.pc t).signalling = false

/-- A region does not unlock the pthread mutex of another thread, and clears the status while
nobody waits on `GVLCond`, or is about to. -/
def LeavesNoWaiter (s : State) (e : Event) (_ : State) : Prop :=
  ((s.pc e.1).beginsRegion = true → s.shared.gvLock = none ∨ s.shared.gvLock = some e.1) ∧
    ((s.pc e.1).clearsStatus = true →
      s.shared.gvlCond.blocked = [] ∧ ∀ t ∈ s.shared.gvLock, (s.pc t).falling = false)

/-! ## The invariant -/

structure Wakeable (s : State) : Prop where
  locked : ∀ t, (s.pc t).critical = true → s.shared.gvLock = some t
  falling : ∀ t, (s.pc t).falling = true → 0 < s.shared.gvLockStatus
  stirring : s.shared.gvlCond.blocked ≠ [] →
    0 < s.shared.gvLockStatus ∨ s.shared.gvlCond.woken ≠ [] ∨ ∃ t, (s.pc t).stirring = true

namespace Wakeable

variable {s : State} {t u : ℕ} {c : Choice} {l' : Pc} {v' : Vm}

theorem not_stranded (hw : Wakeable s) : ¬ Stranded s := by
  intro hs
  rcases hw.stirring hs.waiter with hstatus | hwoken | ⟨t, ht⟩
  · exact absurd hs.free (Nat.pos_iff_ne_zero.mp hstatus)
  · exact hwoken hs.unsignalled.1
  · have hnobody := (hs.nobody t).2
    have hsignal := hs.unsignalled.2 t
    cases hl : s.pc t with
    | acquiring a => cases a <;> simp_all
    | releasing r next => cases r <;> simp_all
    | _ => simp_all

theorem update (hw : Wakeable s)
    (hlock : ∀ u, u ≠ t → s.shared.gvLock = some u → v'.gvLock = some u)
    (hcritical : l'.critical = true → v'.gvLock = some t)
    (hothers : (∃ u, u ≠ t ∧ (s.pc u).falling = true) → 0 < v'.gvLockStatus)
    (hfalling : l'.falling = true → 0 < v'.gvLockStatus)
    (hstirring : v'.gvlCond.blocked ≠ [] →
      0 < v'.gvLockStatus ∨ v'.gvlCond.woken ≠ [] ∨ l'.stirring = true ∨
        ∃ u, u ≠ t ∧ (s.pc u).stirring = true) :
    Wakeable ⟨v', Function.update s.pc t l'⟩ := by
  constructor
  · intro u hu
    by_cases hut : u = t
    · subst hut
      exact hcritical (by simpa using hu)
    · exact hlock u hut (hw.locked u (by simpa [hut] using hu))
  · intro u hu
    by_cases hut : u = t
    · subst hut
      exact hfalling (by simpa using hu)
    · exact hothers ⟨u, hut, by simpa [hut] using hu⟩
  · intro hblocked
    rcases hstirring hblocked with h | h | h | ⟨u, hut, hu⟩
    · exact .inl h
    · exact .inr (.inl h)
    · exact .inr (.inr ⟨t, by simpa using h⟩)
    · exact .inr (.inr ⟨u, by simpa [hut] using hu⟩)

/-- The status and the condition variable stay, and no waiter counts on the thread. -/
theorem quiet (hw : Wakeable s)
    (hlock : ∀ u, u ≠ t → s.shared.gvLock = some u → v'.gvLock = some u)
    (hstatus : v'.gvLockStatus = s.shared.gvLockStatus) (hcond : v'.gvlCond = s.shared.gvlCond)
    (hcritical : l'.critical = true → v'.gvLock = some t)
    (hfalling : l'.falling = true → 0 < s.shared.gvLockStatus)
    (hstirring : (s.pc t).stirring = true → l'.stirring = true ∨ 0 < s.shared.gvLockStatus) :
    Wakeable ⟨v', Function.update s.pc t l'⟩ := by
  refine hw.update hlock hcritical ?_ (by rwa [hstatus]) fun hblocked => ?_
  · rintro ⟨u, -, hu⟩
    rw [hstatus]
    exact hw.falling u hu
  · rw [hcond] at hblocked
    rw [hstatus, hcond]
    rcases hw.stirring hblocked with h | h | ⟨u, hu⟩
    · exact .inl h
    · exact .inr (.inl h)
    · by_cases hut : u = t
      · subst hut
        rcases hstirring hu with h | h
        · exact .inr (.inr (.inl h))
        · exact .inl h
      · exact .inr (.inr (.inr ⟨u, hut, hu⟩))

/-- The status is set behind the statement. -/
theorem taken (hw : Wakeable s)
    (hlock : ∀ u, u ≠ t → s.shared.gvLock = some u → v'.gvLock = some u)
    (hcritical : l'.critical = true → v'.gvLock = some t) (hstatus : 0 < v'.gvLockStatus) :
    Wakeable ⟨v', Function.update s.pc t l'⟩ :=
  hw.update hlock hcritical (fun _ => hstatus) (fun _ => hstatus) fun _ => .inl hstatus

/-- The status stays, and a waiter is on its way. -/
theorem rescued (hw : Wakeable s)
    (hlock : ∀ u, u ≠ t → s.shared.gvLock = some u → v'.gvLock = some u)
    (hcritical : l'.critical = true → v'.gvLock = some t)
    (hstatus : v'.gvLockStatus = s.shared.gvLockStatus) (hfalling : l'.falling = false)
    (hrescued : v'.gvlCond.blocked ≠ [] → v'.gvlCond.woken ≠ [] ∨ l'.stirring = true) :
    Wakeable ⟨v', Function.update s.pc t l'⟩ := by
  refine hw.update hlock hcritical ?_ (by rw [hfalling]; simp) fun hblocked => ?_
  · rintro ⟨u, -, hu⟩
    rw [hstatus]
    exact hw.falling u hu
  · rcases hrescued hblocked with h | h
    · exact .inr (.inl h)
    · exact .inr (.inr (.inl h))

theorem acquireGVL_wakeable {a : AcquireGVL} (hw : Wakeable s) (hl : s.pc t = .acquiring a)
    (hexec : acquireGVL t c s.shared a = some (l', v')) :
    Wakeable ⟨v', Function.update s.pc t l'⟩ := by
  have hlocked := hw.locked t
  have hfalling := hw.falling t
  cases a with
  | lock =>
    obtain ⟨hnone, rfl, rfl⟩ : s.shared.gvLock = none ∧ Pc.acquiring .check = l' ∧ _ = v' := by
      simpa [acquireGVL, and_assoc] using hexec
    exact hw.quiet (by simp [hnone]) rfl rfl (by simp) (by simp) (by simp [hl])
  | check =>
    have hlock := hlocked (by simp [hl])
    have hplace : (l' = .acquiring .skip ∨ l' = .acquiring .test) ∧
        v'.gvLock = s.shared.gvLock ∧ v'.gvLockStatus = s.shared.gvLockStatus ∧
        v'.gvlCond = s.shared.gvlCond := by
      simp only [acquireGVL] at hexec
      split at hexec
      · cases hexec
        simp
      · split at hexec <;> cases hexec <;> simp
    obtain ⟨hl', hsame, hstatus, hcond⟩ := hplace
    refine hw.quiet (fun u _ hu => hsame.trans hu) hstatus hcond (fun _ => hsame.trans hlock) ?_
      (by simp [hl])
    rcases hl' with rfl | rfl <;> simp
  | skip =>
    cases hexec
    exact hw.quiet (not_other (hlocked (by simp [hl]))) rfl rfl (by simp) (by simp) (by simp [hl])
  | test =>
    have hlock := hlocked (by simp [hl])
    simp only [acquireGVL] at hexec
    split at hexec
    · rename_i hstatus
      cases hexec
      exact hw.quiet (fun u _ hu => hu) rfl rfl (fun _ => hlock) (fun _ => hstatus)
        (fun _ => .inr hstatus)
    · cases hexec
      exact hw.quiet (fun u _ hu => hu) rfl rfl (fun _ => hlock) (by simp) (by simp)
  | wait =>
    cases hexec
    have hstatus := hfalling (by simp [hl])
    exact hw.taken (not_other (hlocked (by simp [hl]))) (by simp) hstatus
  | waiting =>
    simp only [acquireGVL] at hexec
    split at hexec
    · obtain ⟨q, hq, heq⟩ := Option.map_eq_some_iff.mp hexec
      cases heq
      obtain ⟨-, rfl⟩ := Condvar.wake_eq_some.mp hq
      exact hw.rescued (fun u _ hu => hu) (by simp) rfl rfl (by simp)
    · split at hexec
      · rename_i hnone
        obtain ⟨q, -, heq⟩ := Option.map_eq_some_iff.mp hexec
        cases heq
        exact hw.rescued (by simp [hnone]) (by simp) rfl rfl (by simp)
      · cases hexec
  | status =>
    cases hexec
    exact hw.taken (fun u _ hu => hu) (fun _ => hlocked (by simp [hl])) Nat.one_pos
  | current =>
    have hlock := hlocked (by simp [hl])
    have hplace : l' = .acquiring .owner ∧ v'.gvLock = s.shared.gvLock ∧
        v'.gvLockStatus = s.shared.gvLockStatus ∧ v'.gvlCond = s.shared.gvlCond := by
      simp only [acquireGVL] at hexec
      split at hexec <;> cases hexec <;> exact ⟨rfl, rfl, rfl, rfl⟩
    obtain ⟨rfl, hsame, hstatus, hcond⟩ := hplace
    exact hw.quiet (fun u _ hu => hsame.trans hu) hstatus hcond (fun _ => hsame.trans hlock)
      (by simp) (by simp [hl])
  | owner =>
    cases hexec
    have hlock := hlocked (by simp [hl])
    exact hw.quiet (fun u _ hu => hu) rfl rfl (fun _ => hlock) (by simp) (by simp [hl])
  | unlock =>
    cases hexec
    exact hw.quiet (not_other (hlocked (by simp [hl]))) rfl rfl (by simp) (by simp) (by simp [hl])

theorem goOutside_calm (next : Outside) (v : Vm) :
    (goOutside t v next).1.critical = false ∧ (goOutside t v next).1.falling = false ∧
      (goOutside t v next).2.gvLock = v.gvLock ∧
      (goOutside t v next).2.gvLockStatus = v.gvLockStatus ∧
      (goOutside t v next).2.gvlCond = v.gvlCond := by
  cases next <;> exact ⟨rfl, rfl, rfl, rfl, rfl⟩

theorem releaseGVL_wakeable {r : ReleaseGVL} {next : Outside} (hw : Wakeable s)
    (hl : s.pc t = .releasing r next) (hexec : releaseGVL t c s.shared next r = some (l', v')) :
    Wakeable ⟨v', Function.update s.pc t l'⟩ := by
  have hlocked := hw.locked t
  cases r with
  | lock =>
    obtain ⟨hnone, rfl, rfl⟩ : s.shared.gvLock = none ∧ Pc.releasing .check next = l' ∧ _ = v' := by
      simpa [releaseGVL, and_assoc] using hexec
    exact hw.quiet (by simp [hnone]) rfl rfl (by simp) (by simp) (by simp [hl])
  | check =>
    have hlock := hlocked (by simp [hl])
    have hplace : (l' = .releasing .skip next ∨ l' = .releasing .status next) ∧ v' = s.shared := by
      simp only [releaseGVL] at hexec
      split at hexec
      · cases hexec
        simp
      · split at hexec
        · cases hexec
          simp
        · split at hexec <;> cases hexec <;> simp
    obtain ⟨hl', rfl⟩ := hplace
    refine hw.quiet (fun u _ hu => hu) rfl rfl (fun _ => hlock) ?_ (by simp [hl])
    rcases hl' with rfl | rfl <;> simp
  | skip =>
    obtain ⟨hcritical, hfalling, hlock, hstatus, hcond⟩ :=
      goOutside_calm (t := t) next { s.shared with gvLock := none }
    rw [Option.some.inj hexec] at hcritical hfalling hlock hstatus hcond
    exact hw.quiet (not_other (hlocked (by simp [hl]))) hstatus hcond (by rw [hcritical]; simp)
      (by rw [hfalling]; simp) (by simp [hl])
  | status =>
    cases hexec
    have hlock := hlocked (by simp [hl])
    refine hw.update (fun u _ hu => hu) (fun _ => hlock) ?_ (by simp) (by simp)
    rintro ⟨u, hut, hu⟩
    -- who is about to wait holds the pthread mutex too
    exact absurd (lock_unique (hw.locked u (Pc.critical_of_falling hu)) hlock) hut
  | owner =>
    cases hexec
    exact hw.quiet (fun u _ hu => hu) rfl rfl (fun _ => hlocked (by simp [hl])) (by simp) (by simp)
  | current =>
    cases hexec
    exact hw.quiet (fun u _ hu => hu) rfl rfl (fun _ => hlocked (by simp [hl])) (by simp) (by simp)
  | unlock =>
    cases hexec
    exact hw.quiet (not_other (hlocked (by simp [hl]))) rfl rfl (by simp) (by simp) (by simp)
  | signal =>
    simp only [releaseGVL] at hexec
    split at hexec
    · obtain ⟨q, hq, heq⟩ := Option.map_eq_some_iff.mp hexec
      obtain ⟨hcritical, hfalling, hlock, hstatus, hcond⟩ :=
        goOutside_calm (t := t) next { s.shared with gvlCond := q }
      rw [heq] at hcritical hfalling hlock hstatus hcond
      refine hw.rescued (fun u _ hu => hlock.trans hu) (by rw [hcritical]; simp) hstatus hfalling ?_
      rw [hcond]
      exact fun hblocked => .inl (Condvar.woken_of_signal hq hblocked)
    · cases hexec

theorem lockMutexLoop_wakeable {m : ℕ} {th : Option ℕ} {a : LockMutex} (hw : Wakeable s)
    (hl : s.pc t = .locking m th a)
    (hbegins : (s.pc t).beginsRegion = true → s.shared.gvLock = none ∨ s.shared.gvLock = some t)
    (hclears : (s.pc t).clearsStatus = true →
      s.shared.gvlCond.blocked = [] ∧ ∀ u ∈ s.shared.gvLock, (s.pc u).falling = false)
    (hexec : lockMutexLoop t c s.shared m th a = some (l', v')) :
    Wakeable ⟨v', Function.update s.pc t l'⟩ := by
  have hlocked := hw.locked t
  cases a with
  | loop | retest =>
    simp only [lockMutexLoop] at hexec
    split at hexec <;> cases hexec
    all_goals
      exact hw.quiet (fun u _ hu => hu) rfl rfl (by simp) (by simp) (by simp [hl])
  | thread =>
    simp only [lockMutexLoop] at hexec
    split at hexec <;> cases hexec
    all_goals
      exact hw.quiet (fun u _ hu => hu) rfl rfl (by simp) (by simp) (by simp [hl])
  | threadLock | endLock =>
    simp only [lockMutexLoop] at hexec
    split at hexec
    · rename_i hnone
      cases hexec
      exact hw.quiet (by simp [hnone]) rfl rfl (by simp) (by simp) (by simp [hl])
    · cases hexec
  | threadFind | endCurrent =>
    cases hexec
    exact hw.quiet (fun u _ hu => hu) rfl rfl (fun _ => hlocked (by simp [hl])) (by simp)
      (by simp [hl])
  | threadUnlock =>
    cases hexec
    exact hw.quiet (not_other (hlocked (by simp [hl]))) rfl rfl (by simp) (by simp) (by simp [hl])
  | stored | current | owner =>
    cases hexec
    exact hw.quiet (fun u _ hu => hu) rfl rfl (by simp) (by simp) (by simp [hl])
  | unlock thStored =>
    cases hexec
    refine hw.quiet (fun u hne hu => ?_) rfl rfl (by simp) (by simp) (by simp [hl])
    rcases hbegins (by simp [hl]) with hnone | hself
    · simp [hnone] at hu
    · exact absurd (lock_unique hu hself) hne
  | status thStored =>
    cases hexec
    obtain ⟨hblocked, hfalling⟩ := hclears (by simp [hl])
    refine hw.update (fun u _ hu => hu) (by simp) ?_ (by simp) fun h => absurd hblocked h
    rintro ⟨u, -, hu⟩
    have hlock := hw.locked u (Pc.critical_of_falling hu)
    rw [hfalling u hlock] at hu
    cases hu
  | lockFunc thStored =>
    cases hexec
    exact hw.quiet (fun u _ hu => hu) rfl rfl (by simp) (by simp) (by simp [hl])
  | waiting thStored =>
    have hplace : l'.critical = false ∧ l'.falling = false ∧ v'.gvLock = s.shared.gvLock ∧
        v'.gvLockStatus = s.shared.gvLockStatus ∧ v'.gvlCond = s.shared.gvlCond := by
      simp only [lockMutexLoop] at hexec
      split at hexec
      · obtain ⟨q, -, hq⟩ := Option.map_eq_some_iff.mp hexec
        cases hq
        exact ⟨rfl, rfl, rfl, rfl, rfl⟩
      · obtain ⟨q, -, hq⟩ := Option.map_eq_some_iff.mp hexec
        cases th <;> cases hq <;> exact ⟨rfl, rfl, rfl, rfl, rfl⟩
    obtain ⟨hcritical, hfalling, hlock, hstatus, hcond⟩ := hplace
    exact hw.quiet (fun u _ hu => hlock.trans hu) hstatus hcond (by rw [hcritical]; simp)
      (by rw [hfalling]; simp) (by simp [hl])
  | endOwner thStored =>
    have hplace : l' = .locking m th .retest ∧ v'.gvLock = s.shared.gvLock ∧
        v'.gvLockStatus = s.shared.gvLockStatus ∧ v'.gvlCond = s.shared.gvlCond := by
      cases thStored <;> cases hexec <;> exact ⟨rfl, rfl, rfl, rfl⟩
    obtain ⟨rfl, hlock, hstatus, hcond⟩ := hplace
    exact hw.quiet (fun u _ hu => hlock.trans hu) hstatus hcond (by simp) (by simp) (by simp [hl])

end Wakeable

/-- Neither the status nor `GVLCond` nor the pthread mutex is touched. -/
structure Calm (v : Vm) (l' : Pc) (v' : Vm) : Prop where
  critical : l'.critical = false
  falling : l'.falling = false
  gvLock : v'.gvLock = v.gvLock
  gvLockStatus : v'.gvLockStatus = v.gvLockStatus
  gvlCond : v'.gvlCond = v.gvlCond

section Calm

variable {s : State} {t u : ℕ} {c : Choice} {v v' : Vm} {l' : Pc}

theorem Calm.wakeable (hw : Wakeable s) (hc : Calm s.shared l' v')
    (hl : (s.pc t).stirring = false) : Wakeable ⟨v', Function.update s.pc t l'⟩ :=
  hw.quiet (fun _ _ hu => hc.gvLock.trans hu) hc.gvLockStatus hc.gvlCond
    (by rw [hc.critical]; simp) (by rw [hc.falling]; simp) (by rw [hl]; simp)

theorem threadForceUnlockMutex_cond {th m w : ℕ}
    (hexec : threadForceUnlockMutex v th m w = some v') : v'.gvlCond = v.gvlCond := by
  unfold threadForceUnlockMutex at hexec
  split at hexec
  · cases hexec
    rfl
  · split at hexec
    · obtain ⟨q, -, rfl⟩ := Option.map_eq_some_iff.mp hexec
      rfl
    · cases hexec
      rfl

theorem threadExecuteInterrupts_calm (v : Vm) (th : ℕ) :
    Calm v (threadExecuteInterrupts v th).1 (threadExecuteInterrupts v th).2 := by
  unfold threadExecuteInterrupts
  split
  · constructor <;> rfl
  · split <;> constructor <;> rfl

theorem call_calm {o : Op} (hexec : call t v o = some (l', v')) : Calm v l' v' := by
  cases o with
  | release =>
    cases hexec
    constructor <;> rfl
  | newThread u =>
    simp only [call, newThread] at hexec
    split at hexec
    · cases hexec
      constructor <;> rfl
    · cases hexec
  | lock m =>
    simp only [call, lockMutex, Option.some.injEq] at hexec
    split at hexec
    · cases hexec
      constructor <;> rfl
    · split at hexec <;> cases hexec <;> constructor <;> rfl
    · cases hexec
      constructor <;> rfl
  | unlock m w =>
    obtain ⟨v₁, hv₁, heq⟩ := Option.map_eq_some_iff.mp hexec
    cases heq
    have hwords := unlockMutex_words hv₁
    refine ⟨rfl, rfl, hwords.gvLock, hwords.gvLockStatus, ?_⟩
    unfold unlockMutex at hv₁
    split at hv₁
    · cases hv₁
      rfl
    · exact threadForceUnlockMutex_cond hv₁
  | stopVM =>
    simp only [call, stopVM, Option.some.injEq] at hexec
    split at hexec
    · cases hexec
      constructor <;> rfl
    · split at hexec <;> cases hexec <;> constructor <;> rfl
  | terminate u =>
    simp only [call, terminateThread] at hexec
    split at hexec
    · split at hexec <;> cases hexec <;> constructor <;> rfl
    · cases hexec
  | checkInts =>
    simp only [call, vmCheckInts, Option.some.injEq] at hexec
    split at hexec
    · have hcalm := threadExecuteInterrupts_calm v t
      rwa [hexec] at hcalm
    · cases hexec
      constructor <;> rfl

theorem startThread_calm (t : ℕ) (v : Vm) : Calm v (startThread t v).1 (startThread t v).2 := by
  unfold startThread
  split
  · split <;> constructor <;> rfl
  · constructor <;> rfl

theorem forceUnlockMutexes_calm {th : ℕ} (hexec : forceUnlockMutexes c v th = some (l', v')) :
    Calm v l' v' := by
  unfold forceUnlockMutexes at hexec
  split at hexec
  · cases hexec
    constructor <;> rfl
  · obtain ⟨v₁, hv₁, heq⟩ := Option.map_eq_some_iff.mp hexec
    cases heq
    have hwords := threadForceUnlockMutex_words hv₁
    exact ⟨rfl, rfl, hwords.gvLock, hwords.gvLockStatus, threadForceUnlockMutex_cond hv₁⟩
  · cases hexec

theorem threadInterrupt_calm (v : Vm) (th : ℕ) :
    Calm v (threadInterrupt v th).1 (threadInterrupt v th).2 := by
  unfold threadInterrupt
  dsimp only
  split
  · constructor <;> rfl
  · obtain ⟨h₁, h₂, h₃, h₄, h₅⟩ := threadExecuteInterrupts_calm
      (v.updThread th fun thread => { thread with interrupted := true }) th
    exact ⟨h₁, h₂, h₃, h₄, h₅⟩

end Calm

/-! ## Runs -/

theorem step_wakeable {s s' : State} {e : Event} (hw : Wakeable s) (hregion : LeavesNoWaiter s e s')
    (hstep : step s e = some s') : Wakeable s' := by
  obtain ⟨t, c⟩ := e
  obtain ⟨l', v', hexec, rfl⟩ := Config.step_eq_some.mp hstep
  have hrun : s.shared.aborted = false := by
    by_contra hne
    simp [exec, hne] at hexec
  simp only [exec, hrun, Bool.false_eq_true, if_false] at hexec
  cases hl : s.pc t with
  | unborn =>
    rw [hl] at hexec
    simp only at hexec
    split at hexec
    · cases hexec
      exact Calm.wakeable hw ⟨rfl, rfl, rfl, rfl, rfl⟩ (by rw [hl]; rfl)
    · cases hexec
  | vm =>
    rw [hl] at hexec
    simp only at hexec
    split at hexec
    · have hcalm := startThread_calm t s.shared
      rw [Option.some.inj hexec] at hcalm
      exact hcalm.wakeable hw (by rw [hl]; rfl)
    · split at hexec
      · exact (call_calm hexec).wakeable hw (by rw [hl]; rfl)
      · cases hexec
  | outside | creating | locked =>
    rw [hl] at hexec
    cases hexec
    exact Calm.wakeable hw ⟨rfl, rfl, rfl, rfl, rfl⟩ (by rw [hl]; rfl)
  | exited =>
    rw [hl] at hexec
    cases hexec
  | acquiring a =>
    rw [hl] at hexec
    exact hw.acquireGVL_wakeable hl hexec
  | releasing r next =>
    rw [hl] at hexec
    exact hw.releaseGVL_wakeable hl hexec
  | locking m th a =>
    rw [hl] at hexec
    exact hw.lockMutexLoop_wakeable hl hregion.1 hregion.2 hexec
  | forcing u =>
    rw [hl] at hexec
    exact (forceUnlockMutexes_calm hexec).wakeable hw (by rw [hl]; rfl)
  | interrupting u =>
    rw [hl] at hexec
    have hcalm := threadInterrupt_calm s.shared u
    rw [Option.some.inj hexec] at hcalm
    exact hcalm.wakeable hw (by rw [hl]; rfl)

theorem initial_wakeable : Wakeable initial := by
  constructor
  · intro t ht
    by_cases hmain : t = mainThread <;> simp [initial, hmain] at ht
  · intro t ht
    by_cases hmain : t = mainThread <;> simp [initial, hmain] at ht
  · intro hblocked
    exact absurd rfl hblocked

/-- Whoever leaves regions, and whoever else is in the VM then: as long as no region unlocks the
pthread mutex of another thread, or clears the status while a thread waits on `GVLCond` or is
about to, no thread is left waiting for the VM lock. -/
theorem not_stranded_of_leavesNoWaiter (es : List Event)
    (hes : Each step LeavesNoWaiter initial es) : Always step (fun s => ¬ Stranded s) initial es := by
  refine always_of_each (fun _ hw => hw.not_stranded) ?_ initial_wakeable hes
  exact fun _ _ _ hw hregion hstep => step_wakeable hw hregion hstep

instance (s : State) (e : Event) (s' : State) : Decidable (LeavesNoWaiter s e s') :=
  inferInstanceAs (Decidable ((_ → _ ∨ _) ∧ (_ → _ ∧ _)))

theorem twoWaiters_notStranded : Always step (fun s => ¬ Stranded s) initial twoWaiters :=
  not_stranded_of_leavesNoWaiter twoWaiters (by decide +kernel)

/-- The main thread waits for the VM lock while another thread takes a mutex whose owner has
ended. -/
def mainWaits : List Event :=
  creates 0 1 ++ [(1, .op (.lock 0)), (1, .go)] ++ releases 1 .stopVM 0 ++ goes 0 7 ++
    creates 0 2 ++ [(2, .op (.lock 0))] ++ goes 0 4 ++ goes 2 8

theorem region_strands : ¬ ∀ es, Always step (fun s => ¬ Stranded s) initial es := by
  intro hall
  have hrun : ((run step initial mainWaits).map fun s =>
      (s.shared.gvLockStatus, s.shared.gvlCond.blocked, s.shared.gvlCond.woken,
        [0, 1, 2].all fun t =>
          !(s.pc t).inside && !(s.pc t).entering && !(s.pc t).signalling)) =
      some (0, [0], [], true) := by decide
  obtain ⟨s, hs, heq⟩ := Option.map_eq_some_iff.mp hrun
  simp only [Prod.mk.injEq] at heq
  obtain ⟨hstatus, hblocked, hwoken, hplaces⟩ := heq
  have hplace : ∀ t, (s.pc t).inside = false ∧ (s.pc t).entering = false ∧
      (s.pc t).signalling = false := by
    intro t
    by_cases ht : t ∈ [0, 1, 2]
    · simpa [and_assoc] using List.all_eq_true.mp hplaces t ht
    · have hles : ∀ e ∈ mainWaits, e.1 ∈ [0, 1, 2] := by decide
      have hnot : ∀ e ∈ mainWaits, e.1 ≠ t := by
        rintro e he rfl
        exact ht (hles e he)
      have hpc : s.pc t = .unborn := by
        have hmain : t ≠ mainThread := by
          rintro rfl
          exact ht List.mem_cons_self
        rw [Config.run_pc hs hnot]
        simp [initial, hmain]
      rw [hpc]
      exact ⟨rfl, rfl, rfl⟩
  refine (hall _).end hs ⟨hstatus, fun t => ⟨(hplace t).1, (hplace t).2.1⟩, ?_, hwoken,
    fun t => (hplace t).2.2⟩
  rw [hblocked]
  simp

end Clox.Threads
