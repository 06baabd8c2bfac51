import Clox.Threads.Machine

/-! # One thread in the VM

As long as no blocking region is left, the VM lock is a lock. The proof outline names, for each
place in the code, what the words of the lock are there; its auxiliary variable is the thread
the lock belongs to.
-/

namespace Clox.Threads

open Interleaving

namespace LockMutex

/-- Before the blocking region or behind it. -/
@[simp]
def inside : LockMutex → Bool
  | loop | thread | threadLock | threadFind | threadUnlock | stored | unlock _ | retest => true
  | _ => false

/-- In the region the lock is given up by one word after the other. -/
@[simp]
def leaving : LockMutex → Bool
  | current _ | owner _ | status _ => true
  | _ => false

/-- What is not executed unless a region is left, or the VM lock was lost. -/
@[simp]
def foreign : LockMutex → Bool
  | threadLock | threadFind | threadUnlock | endCurrent _ | endOwner _ | retest => true
  | _ => false

end LockMutex

namespace Pc

/-- Past its acquire and before its release. -/
@[simp]
def inside : Pc → Bool
  | vm | locked _ | forcing _ | interrupting _ => true
  | locking _ _ a => a.inside
  | _ => false

/-- Holds the pthread mutex. -/
@[simp]
def critical : Pc → Bool
  | acquiring a => match a with | .lock | .waiting => false | _ => true
  | releasing r _ => match r with | .lock | .signal => false | _ => true
  | locking _ _ a =>
    match a with | .threadFind | .threadUnlock | .endCurrent _ | .endOwner _ => true | _ => false
  | _ => false

/-- The VM lock is the thread's. -/
@[simp]
def engaged : Pc → Bool
  | acquiring a => match a with | .skip | .current | .owner | .unlock => true | _ => false
  | releasing r _ => match r with | .lock | .check | .status => true | _ => false
  | locking _ _ a => a.inside || a.leaving
  | l => l.inside

/-- The VM lock may be the thread's: then it has not been released because of a Lox mutex. -/
@[simp]
def idle : Pc → Bool
  | outside | creating _ | exited => true
  | acquiring a => match a with | .lock | .check => true | _ => false
  | releasing r _ => match r with | .skip => true | _ => false
  | _ => false

/-- The thread has the VM lock, and not all words say so. -/
@[simp]
def unsettled : Pc → Bool
  | acquiring a => match a with | .current | .owner => true | _ => false
  | locking _ _ a => match a with | .owner _ | .status _ => true | _ => false
  | _ => false

/-- Nobody has the VM lock. -/
@[simp]
def free : Pc → Bool
  | acquiring a => match a with | .status => true | _ => false
  | releasing r _ => match r with | .owner | .current | .unlock => true | _ => false
  | _ => false

/-- The status says that the VM lock is free, and the thread is still named as the owner. -/
@[simp]
def stale : Pc → Bool
  | releasing .owner _ => true
  | _ => false

/-- The region has cleared the owner, and not the status. -/
@[simp]
def ownerless : Pc → Bool
  | locking _ _ (.status _) => true
  | _ => false

/-- Between two statements that touch the VM lock, with the VM lock. -/
@[simp]
def rests : Pc → Bool
  | vm | locked _ | forcing _ | interrupting _ => true
  | locking _ _ a => match a with | .loop => true | _ => false
  | releasing r _ => match r with | .lock => true | _ => false
  | _ => false

@[simp]
def foreign : Pc → Bool
  | locking _ _ a => a.foreign
  | _ => false

/-- `GVL_UNLOCK_BEGIN` unlocks the pthread mutex. -/
@[simp]
def beginsRegion : Pc → Bool
  | locking _ _ (.unlock _) => true
  | _ => false

/-- `GVL_UNLOCK_END` locks it. -/
@[simp]
def endsRegion : Pc → Bool
  | locking _ _ (.endLock _) => true
  | _ => false

variable {l : Pc}

theorem critical_of_free (h : l.free = true) : l.critical = true := by
  cases l with
  | acquiring a => cases a <;> simp_all [free, critical]
  | releasing r => cases r <;> simp_all [free, critical]
  | _ => simp_all [free]

end Pc

/-- At most one thread is in the VM, and the words of the VM lock name it. -/
structure Exclusive (s : State) : Prop where
  one : ∀ t u, (s.pc t).inside = true → (s.pc u).inside = true → t = u
  named : ∀ t, (s.pc t).inside = true →
    s.shared.gvLockStatus = 1 ∧ s.shared.curThread = some t ∧ s.shared.gvlOwner = some t

/-- No region is left, and none is entered while a thread holds the pthread mutex that the
region unlocks. -/
def LeavesNoRegion (s : State) (e : Event) (_ : State) : Prop :=
  (s.pc e.1).endsRegion = false ∧
    ((s.pc e.1).beginsRegion = true → s.shared.gvLock = none)

/-! ## The proof outline -/

/-- What `t` relies on at `l`, with `h` for the thread that has the VM lock. -/
structure Outline (h : Option ℕ) (t : ℕ) (l : Pc) (v : Vm) : Prop where
  critical : l.critical = true → v.gvLock = some t
  engaged : l.engaged = true → h = some t
  owner : l.stale = false → v.gvlOwner = some t → h = some t
  holder : h = some t → l.engaged = true ∨ l.idle = true
  status : h = some t → v.gvLockStatus = 1
  named : h = some t → l.unsettled = false → v.curThread = some t ∧ v.gvlOwner = some t
  current : l = .acquiring .owner → v.curThread = some t
  ownerless : l.ownerless = true → v.gvlOwner ≠ some t
  free : l.free = true → h = none
  notForeign : l.foreign = false

namespace Outline

variable {h h' : Option ℕ} {t u : ℕ} {l k : Pc} {v v' : Vm}

/-- The words stay, and the pthread mutex is not taken from the thread. -/
theorem frame (ho : Outline h u k v) (hlock : v.gvLock = some u → v'.gvLock = some u)
    (hstatus : v'.gvLockStatus = v.gvLockStatus) (hcur : v'.curThread = v.curThread)
    (howner : v'.gvlOwner = v.gvlOwner) : Outline h u k v' where
  critical hk := hlock (ho.critical hk)
  engaged := ho.engaged
  owner hk hv := ho.owner hk (howner ▸ hv)
  holder := ho.holder
  status hh := hstatus ▸ ho.status hh
  named hh hk := by rw [hcur, howner]; exact ho.named hh hk
  current hk := hcur ▸ ho.current hk
  ownerless hk := howner ▸ ho.ownerless hk
  free := ho.free
  notForeign := ho.notForeign

/-- The words change, and the thread does not have the VM lock. -/
theorem bystander (ho : Outline h u k v) (hne : h ≠ some u) (hne' : h' ≠ some u)
    (hlock : v.gvLock = some u → v'.gvLock = some u)
    (howner : v'.gvlOwner = some u → v.gvlOwner = some u)
    (hfree : k.free = true → h' = none) : Outline h' u k v' where
  critical hk := hlock (ho.critical hk)
  engaged hk := absurd (ho.engaged hk) hne
  owner hk hv := absurd (ho.owner hk (howner hv)) hne
  holder hh := absurd hh hne'
  status hh := absurd hh hne'
  named hh := absurd hh hne'
  current hk := absurd (ho.engaged (by simp [hk, Pc.engaged])) hne
  ownerless hk hv := ho.ownerless hk (howner hv)
  free := hfree
  notForeign := ho.notForeign

end Outline

/-- The outline holds behind the statement of `t`, and what other threads rely on is left. -/
def Keeps (h : Option ℕ) (t : ℕ) (v : Vm) (l' : Pc) (v' : Vm) : Prop :=
  ∃ h', Outline h' t l' v' ∧ ∀ u, u ≠ t → ∀ k, Outline h u k v → Outline h' u k v'

section Keeps

variable {h : Option ℕ} {t u : ℕ} {c : Choice} {l l' : Pc} {v v' : Vm}

theorem Keeps.frame (ho : Outline h t l' v')
    (hlock : ∀ u, u ≠ t → v.gvLock = some u → v'.gvLock = some u)
    (hstatus : v'.gvLockStatus = v.gvLockStatus) (hcur : v'.curThread = v.curThread)
    (howner : v'.gvlOwner = v.gvlOwner) : Keeps h t v l' v' :=
  ⟨h, ho, fun u hu _ hk => hk.frame (hlock u hu) hstatus hcur howner⟩

/-- The words stay, and what the thread relies on is the same. -/
theorem Keeps.move (ho : Outline h t l v) (hcritical : l'.critical = true → v'.gvLock = some t)
    (hengaged : l'.engaged = l.engaged) (hidle : l'.idle = l.idle) (hstale : l'.stale = l.stale)
    (hunsettled : l'.unsettled = l.unsettled) (hcurrent : l' ≠ .acquiring .owner)
    (hownerless : l'.ownerless = false)
    (hfree : l'.free = true → h = none) (hforeign : l'.foreign = false)
    (hlock : ∀ u, u ≠ t → v.gvLock = some u → v'.gvLock = some u)
    (hstatus : v'.gvLockStatus = v.gvLockStatus) (hcur : v'.curThread = v.curThread)
    (howner : v'.gvlOwner = v.gvlOwner) : Keeps h t v l' v' := by
  refine .frame ⟨hcritical, ?_, ?_, ?_, ?_, ?_, fun hl => absurd hl hcurrent, fun hl => absurd hl (by rw [hownerless]; simp),
    hfree, hforeign⟩ hlock hstatus hcur howner
  · rw [hengaged]
    exact ho.engaged
  · rw [hstale, howner]
    exact ho.owner
  · rw [hengaged, hidle]
    exact ho.holder
  · rw [hstatus]
    exact ho.status
  · rw [hunsettled, hcur, howner]
    exact ho.named

theorem lock_unique {w : Option ℕ} (hu : w = some u) (ht : w = some t) : u = t :=
  Option.some.inj (hu.symm.trans ht)

theorem not_other {w : Option ℕ} {p : ℕ → Prop} (ht : w = some t) :
    ∀ u, u ≠ t → w = some u → p u :=
  fun _ hne hu => absurd (lock_unique hu ht) hne

theorem acquireGVL_keeps {a : AcquireGVL} (ho : Outline h t (.acquiring a) v)
    (hheld : h ≠ none → v.gvLockStatus = 1)
    (hexec : acquireGVL t c v a = some (l', v')) : Keeps h t v l' v' := by
  cases a with
  | lock =>
    obtain ⟨hnone, rfl, rfl⟩ : v.gvLock = none ∧ Pc.acquiring .check = l' ∧ _ = v' := by
      simpa [acquireGVL, and_assoc] using hexec
    exact .move ho (by simp) rfl rfl rfl rfl (by simp) rfl (by simp) rfl
      (fun u _ hu => by simp [hnone] at hu) rfl rfl rfl
  | check =>
    have hlock := ho.critical rfl
    simp only [acquireGVL] at hexec
    split at hexec
    · rename_i hself
      cases hexec
      have hh := ho.owner rfl hself.2.2
      refine .frame ?_ (fun u _ hu => hu) rfl rfl rfl
      constructor <;> simp_all [ho.status hh]
    · split at hexec
      · rename_i hself
        cases hexec
        have hh := ho.owner rfl hself.2
        refine .frame ?_ (fun u _ hu => hu) rfl rfl rfl
        constructor <;> simp_all [ho.status hh]
      · rename_i hself
        cases hexec
        have hh : h ≠ some t := fun hh => hself (ho.named hh rfl)
        have howner : v.gvlOwner ≠ some t := fun hw => hh (ho.owner rfl hw)
        refine .frame ?_ (fun u _ hu => hu) rfl rfl rfl
        constructor <;> simp_all
  | skip =>
    cases hexec
    exact .move ho (by simp) rfl rfl rfl rfl (by simp) rfl (by simp) rfl
      (not_other (ho.critical rfl)) rfl rfl rfl
  | test =>
    simp only [acquireGVL] at hexec
    split at hexec
    · cases hexec
      exact .move ho (fun _ => ho.critical rfl) rfl rfl rfl rfl (by simp) rfl (by simp) rfl
        (fun u _ hu => hu) rfl rfl rfl
    · rename_i hstatus
      cases hexec
      -- whoever had the VM lock would have set the status
      have hh : h = none := by
        by_contra hne
        exact hstatus (by simp [hheld hne])
      exact .move ho (fun _ => ho.critical rfl) rfl rfl rfl rfl (by simp) rfl (fun _ => hh) rfl
        (fun u _ hu => hu) rfl rfl rfl
  | wait =>
    cases hexec
    exact .move ho (by simp) rfl rfl rfl rfl (by simp) rfl (by simp) rfl
      (not_other (ho.critical rfl)) rfl rfl rfl
  | waiting =>
    simp only [acquireGVL] at hexec
    split at hexec
    · obtain ⟨q, -, hq⟩ := Option.map_eq_some_iff.mp hexec
      cases hq
      exact .move ho (by simp) rfl rfl rfl rfl (by simp) rfl (by simp) rfl (fun u _ hu => hu) rfl rfl rfl
    · split at hexec
      · rename_i hnone
        obtain ⟨q, -, hq⟩ := Option.map_eq_some_iff.mp hexec
        cases hq
        exact .move ho (by simp) rfl rfl rfl rfl (by simp) rfl (by simp) rfl
          (fun u _ hu => by simp [hnone] at hu) rfl rfl rfl
      · cases hexec
  | status =>
    cases hexec
    have hlock := ho.critical rfl
    have hh := ho.free rfl
    refine ⟨some t, ?_, fun u hu k hk => ?_⟩
    · constructor <;> simp_all
    · refine hk.bystander (by simp [hh]) (by simpa using hu.symm) id id fun hfree => ?_
      exact absurd (lock_unique (hk.critical (Pc.critical_of_free hfree)) hlock) hu
  | current =>
    have hlock := ho.critical rfl
    have hh := ho.engaged rfl
    have hexec : some (Pc.acquiring .owner, { v with
        curThread := some t
        aborted := v.aborted || decide ((v.threads t).status = .zombie) }) = some (l', v') := by
      simp only [acquireGVL, Vm.abort] at hexec
      split at hexec <;> simp_all
    cases hexec
    refine ⟨h, ?_, fun u hu k hk => ?_⟩
    · constructor <;> simp_all [ho.status hh]
    · exact hk.bystander (by simpa [hh] using hu.symm) (by simpa [hh] using hu.symm) id id hk.free
  | owner =>
    cases hexec
    have hlock := ho.critical rfl
    have hh := ho.engaged rfl
    refine ⟨h, ?_, fun u hu k hk => ?_⟩
    · constructor <;> simp_all [ho.status hh, ho.current rfl]
    · exact hk.bystander (by simpa [hh] using hu.symm) (by simpa [hh] using hu.symm) id
        (fun hw => absurd (Option.some.inj hw).symm hu) hk.free
  | unlock =>
    cases hexec
    exact .move ho (by simp) rfl rfl rfl rfl (by simp) rfl (by simp) rfl
      (not_other (ho.critical rfl)) rfl rfl rfl

theorem goOutside_keeps {r : ReleaseGVL} {next : Outside} (ho : Outline h t (.releasing r next) v)
    (hplace : r = .skip ∨ r = .signal) {w : Option ℕ} {q : Condvar ℕ}
    (hlock : ∀ u, u ≠ t → v.gvLock = some u → w = some u)
    (hgo : goOutside t { v with gvLock := w, gvlCond := q } next = (l', v')) :
    Keeps h t v l' v' := by
  have hholder := ho.holder
  have hstatus := ho.status
  have hnamed : h = some t → v.curThread = some t ∧ v.gvlOwner = some t := by
    rcases hplace with rfl | rfl <;> exact fun hh => ho.named hh rfl
  have howner : v.gvlOwner = some t → h = some t := by
    rcases hplace with rfl | rfl <;> exact ho.owner rfl
  cases next <;> cases hgo
  all_goals
    refine .frame ?_ hlock rfl rfl rfl
    constructor <;> simp_all [Vm.updThread]

theorem releaseGVL_keeps {r : ReleaseGVL} {next : Outside} (ho : Outline h t (.releasing r next) v)
    (hexec : releaseGVL t c v next r = some (l', v')) : Keeps h t v l' v' := by
  cases r with
  | lock =>
    obtain ⟨hnone, rfl, rfl⟩ : v.gvLock = none ∧ Pc.releasing .check next = l' ∧ _ = v' := by
      simpa [releaseGVL, and_assoc] using hexec
    exact .move ho (by simp) rfl rfl rfl rfl (by simp) rfl (by simp) rfl
      (fun u _ hu => by simp [hnone] at hu) rfl rfl rfl
  | check =>
    have hlock := ho.critical rfl
    have hh := ho.engaged rfl
    obtain ⟨hcur, howner⟩ := ho.named hh rfl
    simp only [releaseGVL, hcur, howner, ne_eq, not_true, if_false] at hexec
    split at hexec
    · cases hexec
      refine .frame ?_ (fun u _ hu => hu) rfl rfl rfl
      constructor <;> simp_all [ho.status hh]
    · cases hexec
      exact .move ho (fun _ => hlock) rfl rfl rfl rfl (by simp) rfl (by simp) rfl
        (fun u _ hu => hu) rfl rfl rfl
  | skip =>
    exact goOutside_keeps ho (.inl rfl) (not_other (ho.critical rfl)) (Option.some.inj hexec)
  | status =>
    cases hexec
    have hlock := ho.critical rfl
    have hh := ho.engaged rfl
    refine ⟨none, ?_, fun u hu k hk => ?_⟩
    · constructor <;> simp_all
    · exact hk.bystander (by simpa [hh] using hu.symm) (by simp) id id fun _ => rfl
  | owner =>
    cases hexec
    have hlock := ho.critical rfl
    have hh := ho.free rfl
    refine ⟨h, ?_, fun u hu k hk => ?_⟩
    · constructor <;> simp_all
    · exact hk.bystander (by simp [hh]) (by simp [hh]) id (by simp) hk.free
  | current =>
    cases hexec
    have hlock := ho.critical rfl
    have hh := ho.free rfl
    have howner := ho.owner rfl
    refine ⟨h, ?_, fun u hu k hk => ?_⟩
    · constructor <;> simp_all
    · exact hk.bystander (by simp [hh]) (by simp [hh]) id id hk.free
  | unlock =>
    cases hexec
    exact .move ho (by simp) rfl rfl rfl rfl (by simp) rfl (by simp) rfl
      (not_other (ho.critical rfl)) rfl rfl rfl
  | signal =>
    simp only [releaseGVL] at hexec
    split at hexec
    · obtain ⟨q, -, hq⟩ := Option.map_eq_some_iff.mp hexec
      exact goOutside_keeps ho (.inr rfl) (fun u _ hu => hu) hq
    · cases hexec

/-! Statements that leave the words of the VM lock alone. -/

structure SameWords (v v' : Vm) : Prop where
  gvLock : v'.gvLock = v.gvLock
  gvLockStatus : v'.gvLockStatus = v.gvLockStatus
  curThread : v'.curThread = v.curThread
  gvlOwner : v'.gvlOwner = v.gvlOwner

theorem SameWords.refl (v : Vm) : SameWords v v := ⟨rfl, rfl, rfl, rfl⟩

theorem SameWords.trans {w : Vm} (h₁ : SameWords v v') (h₂ : SameWords v' w) : SameWords v w where
  gvLock := h₂.gvLock.trans h₁.gvLock
  gvLockStatus := h₂.gvLockStatus.trans h₁.gvLockStatus
  curThread := h₂.curThread.trans h₁.curThread
  gvlOwner := h₂.gvlOwner.trans h₁.gvlOwner

theorem Keeps.rest (ho : Outline h t l v) (hl : l.rests = true) (hl' : l'.rests = true)
    (hsame : SameWords v v') : Keeps h t v l' v' := by
  have hplace : ∀ {k : Pc}, k.rests = true → k.critical = false ∧ k.engaged = true ∧
      k.idle = false ∧ k.stale = false ∧ k.unsettled = false ∧ k ≠ .acquiring .owner ∧
      k.ownerless = false ∧ k.free = false ∧ k.foreign = false := by
    intro k hk
    cases k with
    | locking m th a => cases a <;> simp_all
    | releasing r next => cases r <;> simp_all
    | _ => simp_all
  obtain ⟨-, h₁, h₂, h₃, h₄, -⟩ := hplace hl
  obtain ⟨h₀', h₁', h₂', h₃', h₄', h₅', h₆', h₇', h₈'⟩ := hplace hl'
  exact .move ho (by rw [h₀']; simp) (h₁'.trans h₁.symm) (h₂'.trans h₂.symm) (h₃'.trans h₃.symm)
    (h₄'.trans h₄.symm) h₅' h₆' (by rw [h₇']; simp) h₈' (fun u _ hu => hsame.gvLock.trans hu)
    hsame.gvLockStatus hsame.curThread hsame.gvlOwner

theorem takeMutex_words (v : Vm) (m th : ℕ) : SameWords v (takeMutex v m th) :=
  ⟨rfl, rfl, rfl, rfl⟩

theorem lockMutex_rests (v : Vm) (m : ℕ) :
    (lockMutex v m).1.rests = true ∧ SameWords v (lockMutex v m).2 := by
  unfold lockMutex
  split
  · exact ⟨rfl, rfl, rfl, rfl, rfl⟩
  · split
    · exact ⟨rfl, takeMutex_words v m _⟩
    · exact ⟨rfl, rfl, rfl, rfl, rfl⟩
  · exact ⟨rfl, .refl v⟩

theorem threadForceUnlockMutex_words {th m w : ℕ}
    (hexec : threadForceUnlockMutex v th m w = some v') : SameWords v v' := by
  unfold threadForceUnlockMutex at hexec
  split at hexec
  · cases hexec
    exact ⟨rfl, rfl, rfl, rfl⟩
  · split at hexec
    · obtain ⟨q, -, rfl⟩ := Option.map_eq_some_iff.mp hexec
      exact ⟨rfl, rfl, rfl, rfl⟩
    · cases hexec
      exact ⟨rfl, rfl, rfl, rfl⟩

theorem unlockMutex_words {m w : ℕ} (hexec : unlockMutex v m w = some v') : SameWords v v' := by
  unfold unlockMutex at hexec
  split at hexec
  · cases hexec
    exact ⟨rfl, rfl, rfl, rfl⟩
  · exact threadForceUnlockMutex_words hexec

/-- The thread that is named as the owner releases the VM lock before it exits. -/
theorem threadExecuteInterrupts_rests (th : ℕ)
    (hnamed : v.curThread = some th → v.gvlOwner = some th) :
    (threadExecuteInterrupts v th).1.rests = true ∧
      SameWords v (threadExecuteInterrupts v th).2 := by
  unfold threadExecuteInterrupts
  split
  · exact ⟨rfl, rfl, rfl, rfl, rfl⟩
  · rename_i hself
    have hcur : v.curThread = some th := by
      by_contra hne
      exact hself (.inl hne)
    rw [if_pos (hnamed hcur)]
    exact ⟨rfl, .refl v⟩

theorem call_rests {o : Op} (hcur : v.curThread = some t) (howner : v.gvlOwner = some t)
    (hexec : call t v o = some (l', v')) : l'.rests = true ∧ SameWords v v' := by
  cases o with
  | release =>
    cases hexec
    exact ⟨rfl, .refl v⟩
  | newThread u =>
    simp only [call, newThread] at hexec
    split at hexec
    · cases hexec
      exact ⟨rfl, rfl, rfl, rfl, rfl⟩
    · cases hexec
  | lock m =>
    have hrests := lockMutex_rests v m
    simp only [call, Option.some.injEq] at hexec
    rwa [hexec] at hrests
  | unlock m w =>
    obtain ⟨w, hw, heq⟩ := Option.map_eq_some_iff.mp hexec
    cases heq
    exact ⟨rfl, unlockMutex_words hw⟩
  | stopVM =>
    simp only [call, stopVM] at hexec
    split at hexec
    · rename_i hnone
      simp [hcur] at hnone
    · split at hexec <;> cases hexec <;> exact ⟨rfl, rfl, rfl, rfl, rfl⟩
  | terminate u =>
    simp only [call, terminateThread] at hexec
    split at hexec
    · split at hexec <;> cases hexec <;> exact ⟨rfl, .refl v⟩
    · cases hexec
  | checkInts =>
    simp only [call, vmCheckInts, Option.some.injEq] at hexec
    split at hexec
    · have hrests := threadExecuteInterrupts_rests (v := v) t fun _ => howner
      rwa [hexec] at hrests
    · cases hexec
      exact ⟨rfl, .refl v⟩

theorem lockMutexLoop_keeps {m : ℕ} {th : Option ℕ} {a : LockMutex}
    (ho : Outline h t (.locking m th a) v)
    (hends : (Pc.locking m th a).endsRegion = false)
    (hbegins : (Pc.locking m th a).beginsRegion = true → v.gvLock = none)
    (hexec : lockMutexLoop t c v m th a = some (l', v')) : Keeps h t v l' v' := by
  cases a with
  | loop =>
    simp only [lockMutexLoop] at hexec
    split at hexec
    · cases hexec
      exact .move ho (by simp) rfl rfl rfl rfl (by simp) rfl (by simp) rfl (fun u _ hu => hu) rfl rfl rfl
    · cases hexec
      exact .move ho (by simp) rfl rfl rfl rfl (by simp) rfl (by simp) rfl (fun u _ hu => hu) rfl rfl rfl
  | thread =>
    obtain ⟨hcur, -⟩ := ho.named (ho.engaged rfl) rfl
    simp only [lockMutexLoop, hcur, reduceCtorEq, if_false] at hexec
    cases hexec
    exact .move ho (by simp) rfl rfl rfl rfl (by simp) rfl (by simp) rfl (fun u _ hu => hu) rfl rfl rfl
  | stored =>
    cases hexec
    exact .move ho (by simp) rfl rfl rfl rfl (by simp) rfl (by simp) rfl (fun u _ hu => hu) rfl rfl rfl
  | unlock thStored =>
    cases hexec
    have hnone := hbegins rfl
    exact .move ho (by simp) rfl rfl rfl rfl (by simp) rfl (by simp) rfl
      (fun u _ hu => by simp [hnone] at hu) rfl rfl rfl
  | current thStored =>
    cases hexec
    have hh := ho.engaged rfl
    refine ⟨h, ?_, fun u hu k hk => ?_⟩
    · constructor <;> simp_all [ho.status hh]
    · exact hk.bystander (by simpa [hh] using hu.symm) (by simpa [hh] using hu.symm) id id hk.free
  | owner thStored =>
    cases hexec
    have hh := ho.engaged rfl
    refine ⟨h, ?_, fun u hu k hk => ?_⟩
    · constructor <;> simp_all [ho.status hh]
    · exact hk.bystander (by simpa [hh] using hu.symm) (by simpa [hh] using hu.symm) id (by simp)
        hk.free
  | status thStored =>
    cases hexec
    have hh := ho.engaged rfl
    have howner := ho.ownerless rfl
    refine ⟨none, ?_, fun u hu k hk => ?_⟩
    · constructor <;> simp_all
    · exact hk.bystander (by simpa [hh] using hu.symm) (by simp) id id fun _ => rfl
  | lockFunc thStored =>
    cases hexec
    exact .move ho (by simp) rfl rfl rfl rfl (by simp) rfl (by simp) rfl (fun u _ hu => hu) rfl rfl rfl
  | waiting thStored =>
    have hplace : ∃ a, l' = .locking m th a ∧ (a = .waiting thStored ∨ a = .endLock thStored) ∧
        SameWords v v' := by
      simp only [lockMutexLoop] at hexec
      split at hexec
      · obtain ⟨q, -, hq⟩ := Option.map_eq_some_iff.mp hexec
        cases hq
        exact ⟨_, rfl, .inl rfl, rfl, rfl, rfl, rfl⟩
      · obtain ⟨q, -, hq⟩ := Option.map_eq_some_iff.mp hexec
        cases th <;> cases hq <;> exact ⟨_, rfl, .inr rfl, rfl, rfl, rfl, rfl⟩
    obtain ⟨a, rfl, rfl | rfl, hsame⟩ := hplace
    all_goals
      exact .move ho (by simp) rfl rfl rfl rfl (by simp) rfl (by simp) rfl
        (fun u _ hu => hsame.gvLock.trans hu) hsame.gvLockStatus hsame.curThread hsame.gvlOwner
  | endLock thStored => simp at hends
  | threadLock | threadFind | threadUnlock => simpa using ho.notForeign
  | endCurrent thStored | endOwner thStored => simpa using ho.notForeign
  | retest => simpa using ho.notForeign

theorem forceUnlockMutexes_rests {th : ℕ} (hexec : forceUnlockMutexes c v th = some (l', v')) :
    l'.rests = true ∧ SameWords v v' := by
  unfold forceUnlockMutexes at hexec
  split at hexec
  · cases hexec
    exact ⟨rfl, .refl v⟩
  · obtain ⟨w, hw, heq⟩ := Option.map_eq_some_iff.mp hexec
    cases heq
    exact ⟨rfl, threadForceUnlockMutex_words hw⟩
  · cases hexec

theorem threadInterrupt_rests (th : ℕ) (hnamed : v.curThread = some th → v.gvlOwner = some th) :
    (threadInterrupt v th).1.rests = true ∧ SameWords v (threadInterrupt v th).2 := by
  have hwords : ∀ f, SameWords v (v.updThread th f) := fun _ => ⟨rfl, rfl, rfl, rfl⟩
  unfold threadInterrupt
  dsimp only
  split
  · exact ⟨rfl, rfl, rfl, rfl, rfl⟩
  · obtain ⟨hrests, hsame⟩ := threadExecuteInterrupts_rests (v := v.updThread th _) th hnamed
    exact ⟨hrests, (hwords _).trans hsame⟩

theorem startThread_rests (hcur : v.curThread = some t) (howner : v.gvlOwner = some t) :
    (startThread t v).1.rests = true ∧ SameWords v (startThread t v).2 := by
  unfold startThread
  rw [if_pos ⟨hcur, howner⟩]
  split
  · exact ⟨rfl, rfl, rfl, rfl, rfl⟩
  · exact ⟨rfl, .refl v⟩

theorem exec_keeps (ho : Outline h t l v) (hheld : h ≠ none → v.gvLockStatus = 1)
    (hends : l.endsRegion = false) (hbegins : l.beginsRegion = true → v.gvLock = none)
    (hexec : exec t c l v = some (l', v')) : Keeps h t v l' v' := by
  have hrun : v.aborted = false := by
    by_contra hne
    simp [exec, hne] at hexec
  simp only [exec, hrun, Bool.false_eq_true, if_false] at hexec
  cases l with
  | unborn =>
    simp only at hexec
    split at hexec
    · cases hexec
      refine .frame ?_ (fun u _ hu => hu) rfl rfl rfl
      have howner := ho.owner rfl
      have hholder := ho.holder
      constructor <;> simp_all
    · cases hexec
  | vm =>
    obtain ⟨hcur, howner⟩ := ho.named (ho.engaged rfl) rfl
    simp only at hexec
    split at hexec
    · have hrests := startThread_rests hcur howner
      rw [Option.some.inj hexec] at hrests
      exact .rest ho rfl hrests.1 hrests.2
    · split at hexec
      · obtain ⟨hl', hsame⟩ := call_rests hcur howner hexec
        exact .rest ho rfl hl' hsame
      · cases hexec
  | outside =>
    cases hexec
    exact .move ho (by simp) rfl rfl rfl rfl (by simp) rfl (by simp) rfl (fun u _ hu => hu) rfl rfl rfl
  | creating u =>
    cases hexec
    exact .move ho (by simp) rfl rfl rfl rfl (by simp) rfl (by simp) rfl (fun u _ hu => hu) rfl rfl rfl
  | exited => cases hexec
  | acquiring a => exact acquireGVL_keeps ho hheld hexec
  | releasing r next => exact releaseGVL_keeps ho hexec
  | locking m th a => exact lockMutexLoop_keeps ho hends hbegins hexec
  | locked m =>
    cases hexec
    exact .rest ho rfl rfl (.refl v)
  | forcing u =>
    obtain ⟨hl', hsame⟩ := forceUnlockMutexes_rests hexec
    exact .rest ho rfl hl' hsame
  | interrupting u =>
    obtain ⟨hcur, howner⟩ := ho.named (ho.engaged rfl) rfl
    have hrests := threadInterrupt_rests (v := v) u fun hu => howner.trans (hcur.symm.trans hu)
    rw [Option.some.inj hexec] at hrests
    exact .rest ho rfl hrests.1 hrests.2

end Keeps

/-! ## Runs -/

theorem initial_outlined : Outlined Outline initial := by
  refine ⟨some mainThread, fun t => ?_⟩
  by_cases ht : t = mainThread
  · subst ht
    constructor <;> simp [initial]
  · constructor <;> simp [initial, ht, Ne.symm ht]

theorem step_outlined {s s' : State} {e : Event} (hs : Outlined Outline s)
    (hregion : LeavesNoRegion s e s') (hstep : step s e = some s') : Outlined Outline s' := by
  refine hs.step hstep fun h l v hall hexec => ?_
  refine exec_keeps (hall e.1) (fun hne => ?_) hregion.1 hregion.2 hexec
  obtain ⟨u, hu⟩ := Option.ne_none_iff_exists'.mp hne
  exact (hall u).status hu

theorem exclusive_of_outlined {s : State} (hs : Outlined Outline s) : Exclusive s := by
  obtain ⟨h, hall⟩ := hs
  have hplace : ∀ {l : Pc}, l.inside = true → l.engaged = true ∧ l.unsettled = false := by
    intro l hl
    cases l with
    | locking m th a => cases a <;> simp_all
    | _ => simp_all
  have hinside : ∀ t, (s.pc t).inside = true → h = some t := fun t ht =>
    (hall t).engaged (hplace ht).1
  constructor
  · intro t u ht hu
    exact lock_unique (hinside t ht) (hinside u hu)
  · intro t ht
    exact ⟨(hall t).status (hinside t ht), (hall t).named (hinside t ht) (hplace ht).2⟩

/-- As long as no blocking region is left, and none is entered while a thread holds the pthread
mutex: at any time at most one thread is in the VM, and the VM lock names it. -/
theorem exclusive_of_leavesNoRegion (es : List Event) (hes : Each step LeavesNoRegion initial es) :
    Always step Exclusive initial es := by
  refine always_of_each (fun _ hs => exclusive_of_outlined hs) ?_ initial_outlined hes
  exact fun _ _ _ hs hregion hstep => step_outlined hs hregion hstep

/-- A thread ends with a mutex locked, another one waits for the mutex in a blocking region with
one of its own locked, and a third one is about to wait for that. -/
def contended : List Event :=
  creates 0 1 ++ [(1, .op (.lock 0)), (1, .go)] ++ releases 1 .stopVM 0 ++ goes 0 7 ++
    creates 0 2 ++ [(2, .op (.lock 1)), (2, .go), (2, .op (.lock 0))] ++ goes 2 8 ++ goes 0 7 ++
    creates 0 3 ++ [(3, .op (.lock 1))] ++ goes 3 7

/-- The third one waits, and the main thread is in the VM. -/
def twoWaiters : List Event := contended ++ goes 3 1 ++ goes 0 7

instance (s : State) (e : Event) (s' : State) : Decidable (LeavesNoRegion s e s') :=
  inferInstanceAs (Decidable (_ ∧ (_ → _)))

theorem twoWaiters_exclusive : Always step Exclusive initial twoWaiters :=
  exclusive_of_leavesNoRegion twoWaiters (by decide +kernel)

/-- When the program ends, the second thread is made to unlock its mutex, and the third one is
back in the VM. -/
theorem region_entersVm : ¬ ∀ es, Always step Exclusive initial es := by
  intro hall
  have hrun : ((run step initial (twoWaiters ++
      [(0, .op .stopVM), (0, .op (.terminate 2)), (0, .wakes 3)] ++ goes 3 4)).map fun s =>
      ((s.pc 0).inside, (s.pc 3).inside)) = some (true, true) := by decide
  obtain ⟨s, hs, heq⟩ := Option.map_eq_some_iff.mp hrun
  obtain ⟨h₀, h₃⟩ := Prod.mk.inj heq
  exact absurd (((hall _).end hs).one 0 3 h₀ h₃) (by simp)

end Clox.Threads
