import Mathlib.Data.List.Basic
import Mathlib.Logic.Function.Basic

/-! # Interleaved threads

A transition function is run on a list of events; what holds of every state of a run follows
from what one step keeps. Threads that share a state are such a system: an event picks the
thread whose next statement is executed.
-/

namespace Interleaving

/-! ## Runs -/

section Runs

variable {σ ε : Type} (step : σ → ε → Option σ)

/-- `P` holds of every state of the run. -/
def Always (P : σ → Prop) : σ → List ε → Prop
  | s, [] => P s
  | s, e :: es => P s ∧ ∀ s', step s e = some s' → Always P s' es

/-- `Q` holds of every step of the run. -/
def Each (Q : σ → ε → σ → Prop) : σ → List ε → Prop
  | _, [] => True
  | s, e :: es => ∀ s', step s e = some s' → Q s e s' ∧ Each Q s' es

/-- The state at the end of the run, if every event of it can happen. -/
def run : σ → List ε → Option σ
  | s, [] => some s
  | s, e :: es => (step s e).bind fun s' => run s' es

instance decidableEach {Q : σ → ε → σ → Prop} [∀ s e s', Decidable (Q s e s')] :
    ∀ s es, Decidable (Each step Q s es)
  | _, [] => .isTrue trivial
  | s, e :: es =>
    match h : step s e with
    | none => .isTrue fun s' h' => by simp [h] at h'
    | some s' =>
      have : Decidable (Each step Q s' es) := decidableEach s' es
      decidable_of_iff (Q s e s' ∧ Each step Q s' es)
        ⟨fun hq s'' h' => by cases h.symm.trans h'; exact hq, fun hall => hall s' h⟩

variable {step} {P I : σ → Prop} {Q R : σ → ε → σ → Prop}

theorem always_of_each (hinv : ∀ s, I s → P s)
    (hstep : ∀ s e s', I s → Q s e s' → step s e = some s' → I s')
    {s : σ} {es : List ε} (hs : I s) (hes : Each step Q s es) : Always step P s es := by
  induction es generalizing s with
  | nil => exact hinv s hs
  | cons e es ih =>
    refine ⟨hinv s hs, fun s' h => ?_⟩
    obtain ⟨hq, hrest⟩ := hes s' h
    exact ih (hstep s e s' hs hq h) hrest

theorem each_of_each (hone : ∀ s e s', I s → Q s e s' → step s e = some s' → R s e s')
    (hstep : ∀ s e s', I s → Q s e s' → step s e = some s' → I s')
    {s : σ} {es : List ε} (hs : I s) (hes : Each step Q s es) : Each step R s es := by
  induction es generalizing s with
  | nil => trivial
  | cons e es ih =>
    intro s' h
    obtain ⟨hq, hrest⟩ := hes s' h
    exact ⟨hone s e s' hs hq h, ih (hstep s e s' hs hq h) hrest⟩

theorem each_true (s : σ) (es : List ε) : Each step (fun _ _ _ => True) s es := by
  induction es generalizing s with
  | nil => trivial
  | cons e es ih => exact fun s' _ => ⟨trivial, ih s'⟩

theorem Always.head {s : σ} {es : List ε} (h : Always step P s es) : P s := by
  cases es with
  | nil => exact h
  | cons e es => exact h.1

theorem Always.end {s s' : σ} {es : List ε} (h : Always step P s es)
    (hrun : run step s es = some s') : P s' := by
  induction es generalizing s with
  | nil =>
    cases hrun
    exact h
  | cons e es ih =>
    obtain ⟨t, ht, hrest⟩ := Option.bind_eq_some_iff.mp hrun
    exact ih (h.2 t ht) hrest

/-- A condition on the steps that is as strong as what is to hold of the states. -/
theorem always_iff_each (hinv : ∀ s, I s → P s)
    (hstep : ∀ s e s', I s → Q s e s' → step s e = some s' → I s')
    (hexact : ∀ s e s', I s → step s e = some s' → P s' → Q s e s')
    {s : σ} {es : List ε} (hs : I s) : Always step P s es ↔ Each step Q s es := by
  constructor
  · intro h
    induction es generalizing s with
    | nil => trivial
    | cons e es ih =>
      intro s' ht
      have hrest := h.2 s' ht
      have hq := hexact s e s' hs ht hrest.head
      exact ⟨hq, ih (hstep s e s' hs hq ht) hrest⟩
  · exact always_of_each hinv hstep hs

end Runs

/-! ## Threads -/

/-- The shared state, and where each thread is in its code. -/
structure Config (τ σ π : Type) where
  shared : σ
  pc : τ → π

section Threads

variable {τ σ π χ γ : Type} [DecidableEq τ] (exec : τ → χ → π → σ → Option (π × σ))

/-- Thread `e.1` executes its next statement; `e.2` is what the statement leaves open. -/
def Config.step (s : Config τ σ π) (e : τ × χ) : Option (Config τ σ π) :=
  (exec e.1 e.2 (s.pc e.1) s.shared).map fun r => ⟨r.2, Function.update s.pc e.1 r.1⟩

variable {exec} {s s' : Config τ σ π} {t u : τ} {c : χ}

theorem Config.step_eq_some :
    s.step exec (t, c) = some s' ↔
      ∃ l v, exec t c (s.pc t) s.shared = some (l, v) ∧ s' = ⟨v, Function.update s.pc t l⟩ := by
  rw [Config.step, Option.map_eq_some_iff]
  constructor
  · rintro ⟨⟨l, v⟩, hexec, hs⟩
    exact ⟨l, v, hexec, hs.symm⟩
  · rintro ⟨l, v, hexec, hs⟩
    exact ⟨(l, v), hexec, hs.symm⟩

theorem Config.run_pc {es : List (τ × χ)} (hrun : run (Config.step exec) s es = some s')
    (ht : ∀ e ∈ es, e.1 ≠ t) : s'.pc t = s.pc t := by
  induction es generalizing s with
  | nil =>
    cases hrun
    rfl
  | cons e es ih =>
    obtain ⟨s₁, hstep, hrest⟩ := Option.bind_eq_some_iff.mp hrun
    obtain ⟨l, v, -, rfl⟩ := Config.step_eq_some.mp hstep
    rw [ih hrest fun e he => ht e (List.mem_cons_of_mem _ he)]
    exact Function.update_of_ne (ht e List.mem_cons_self).symm _ _

/-- What each thread may rely on where it is, for some choice of the auxiliary state. -/
def Outlined (A : γ → τ → π → σ → Prop) (s : Config τ σ π) : Prop :=
  ∃ g, ∀ t, A g t (s.pc t) s.shared

/-- A step keeps a proof outline if the thread that makes it finds what it relies on behind the
statement, and takes from no other thread what that one relies on, wherever it is. -/
theorem Outlined.step {A : γ → τ → π → σ → Prop} (h : Outlined A s)
    (hstep : s.step exec (t, c) = some s')
    (hkeeps : ∀ g l v, (∀ u, A g u (s.pc u) s.shared) →
      exec t c (s.pc t) s.shared = some (l, v) →
      ∃ g', A g' t l v ∧ ∀ u, u ≠ t → ∀ k, A g u k s.shared → A g' u k v) : Outlined A s' := by
  obtain ⟨g, hg⟩ := h
  obtain ⟨l, v, hexec, rfl⟩ := Config.step_eq_some.mp hstep
  obtain ⟨g', hlocal, hframe⟩ := hkeeps g l v hg hexec
  refine ⟨g', fun u => ?_⟩
  by_cases hu : u = t
  · subst hu
    simpa using hlocal
  · simpa [hu] using hframe u hu _ (hg u)

end Threads

/-! ## Condition variables -/

/-- The threads in the wait of a condition variable: those that are asleep, and those that
were woken and have not yet returned from it. -/
structure Condvar (τ : Type) where
  blocked : List τ
  woken : List τ

namespace Condvar

variable {τ : Type} [DecidableEq τ]

def empty : Condvar τ := ⟨[], []⟩

def wait (q : Condvar τ) (t : τ) : Condvar τ := { q with blocked := t :: q.blocked }

/-- `t` wakes up. -/
def wake (q : Condvar τ) (t : τ) : Option (Condvar τ) :=
  if t ∈ q.blocked then some ⟨q.blocked.erase t, t :: q.woken⟩ else none

/-- A signal wakes a thread that is asleep, if there is one. -/
def signal (q : Condvar τ) (t : τ) : Option (Condvar τ) :=
  if q.blocked = [] then some q else q.wake t

/-- The wait of `t` returns. -/
def resume (q : Condvar τ) (t : τ) : Option (Condvar τ) :=
  if t ∈ q.woken then some { q with woken := q.woken.erase t } else none

variable {q q' : Condvar τ} {t : τ}

theorem wake_eq_some :
    q.wake t = some q' ↔ t ∈ q.blocked ∧ q' = ⟨q.blocked.erase t, t :: q.woken⟩ := by
  unfold wake
  split <;> simp_all [eq_comm]

theorem resume_eq_some :
    q.resume t = some q' ↔ t ∈ q.woken ∧ q' = { q with woken := q.woken.erase t } := by
  unfold resume
  split <;> simp_all [eq_comm]

/-- A signal that finds nobody asleep is lost. -/
theorem signal_cases (h : q.signal t = some q') :
    (q.blocked = [] ∧ q' = q) ∨ (t ∈ q.blocked ∧ q' = ⟨q.blocked.erase t, t :: q.woken⟩) := by
  unfold signal at h
  split at h
  · rename_i hempty
    exact .inl ⟨hempty, by simpa using h.symm⟩
  · exact .inr (wake_eq_some.mp h)

/-- The number of threads in the wait. -/
def count (q : Condvar τ) : ℕ := q.blocked.length + q.woken.length

omit [DecidableEq τ] in
theorem count_wait : (q.wait t).count = q.count + 1 := by
  simp only [count, wait, List.length_cons]
  omega

theorem count_wake (h : q.wake t = some q') : q'.count = q.count := by
  obtain ⟨hmem, rfl⟩ := wake_eq_some.mp h
  have hlength := List.length_erase_add_one hmem
  simp only [count, List.length_cons]
  omega

theorem count_signal (h : q.signal t = some q') : q'.count = q.count := by
  unfold signal at h
  split at h
  · cases h
    rfl
  · exact count_wake h

theorem count_resume (h : q.resume t = some q') : q'.count + 1 = q.count := by
  obtain ⟨hmem, rfl⟩ := resume_eq_some.mp h
  have hlength := List.length_erase_add_one hmem
  simp only [count]
  omega

/-- Of the threads asleep at a signal one is awake behind it. -/
theorem woken_of_signal (h : q.signal t = some q') (hblocked : q'.blocked ≠ []) :
    q'.woken ≠ [] := by
  rcases signal_cases h with ⟨hempty, rfl⟩ | ⟨-, rfl⟩
  · exact absurd hempty hblocked
  · simp

end Condvar

end Interleaving
