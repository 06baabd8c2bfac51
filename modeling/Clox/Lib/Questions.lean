import Mathlib.Data.Finite.Defs
import Mathlib.Data.Set.Finite.Basic
import Mathlib.Logic.Relation
import Mathlib.Order.WellFounded
import Mathlib.Order.RelClasses

/-! # Recursion by questions

A recursive function, seen from one of its calls: it asks for the answers to other calls, one after
the other, and what it asks may depend on the answers before. With a bound on the depth the
recursion is a computation; without one it ends exactly where no call comes to itself again.
-/

namespace Questions

/-- A computation that asks questions of `P`, which are answered by an `A`; it may stop with an
error. -/
inductive Ask (P A E α : Type) where
  | ret (a : α)
  | stop (e : E)
  | ask (p : P) (next : A → Ask P A E α)

variable {P A E α β : Type}

namespace Ask

def bind : Ask P A E α → (α → Ask P A E β) → Ask P A E β
  | ret a, f => f a
  | stop e, _ => .stop e
  | ask p next, f => .ask p fun a => (next a).bind f

instance : Monad (Ask P A E) where
  pure := .ret
  bind := Ask.bind

/-- The question itself. -/
def question (p : P) : Ask P A E A := .ask p .ret

/-- What comes of it when `f` answers; `none` where `f` has no answer. -/
def run (f : P → Option (Except E A)) : Ask P A E α → Option (Except E α)
  | ret a => some (.ok a)
  | stop e => some (.error e)
  | ask p next =>
    match f p with
    | none => none
    | some (.error e) => some (.error e)
    | some (.ok a) => (next a).run f

/-- The one after the other, as far as there are answers. -/
def andThen : Option (Except E α) → (α → Option (Except E β)) → Option (Except E β)
  | none, _ => none
  | some (.error e), _ => some (.error e)
  | some (.ok a), g => g a

theorem run_bind (f : P → Option (Except E A)) (t : Ask P A E α) (g : α → Ask P A E β) :
    (t >>= g).run f = andThen (t.run f) fun a => (g a).run f := by
  show (t.bind g).run f = _
  induction t with
  | ret a => rfl
  | stop e => rfl
  | ask p next ih =>
    rw [Ask.bind, run, run]
    cases f p with
    | none => rfl
    | some ans =>
      cases ans with
      | error e => rfl
      | ok a => exact ih a

theorem run_question (f : P → Option (Except E A)) (p : P) :
    (question p : Ask P A E A).run f = f p := by
  rw [question, run]
  cases f p with
  | none => rfl
  | some ans => cases ans <;> rfl

/-- `q` is asked where the answers are those of `f`. -/
inductive Asks (f : P → Except E A → Prop) : Ask P A E α → P → Prop where
  | here {p : P} {next : A → Ask P A E α} : Asks f (ask p next) p
  | later {p q : P} {next : A → Ask P A E α} {a : A} (answer : f p (.ok a))
      (rest : Asks f (next a) q) : Asks f (ask p next) q

/-- `q` is asked whatever the answers are. -/
inductive Always : Ask P A E α → P → Prop where
  | here {p : P} {next : A → Ask P A E α} : Always (ask p next) p
  | later {p q : P} {next : A → Ask P A E α} (rest : ∀ a, Always (next a) q) :
      Always (ask p next) q

/-- There is no error in it. -/
def NoStop : Ask P A E α → Prop
  | ret _ => True
  | stop _ => False
  | ask _ next => ∀ a, (next a).NoStop

/-- The questions of `S` are asked whatever the answers are, and no others. -/
structure Exactly (S : Set P) (t : Ask P A E α) : Prop where
  noStop : t.NoStop
  only : ∀ f q, Asks f t q → q ∈ S
  all : ∀ q ∈ S, Always t q

theorem NoStop.bind {t : Ask P A E α} {g : α → Ask P A E β} (h : t.NoStop)
    (hg : ∀ a, (g a).NoStop) : (t >>= g).NoStop := by
  show (t.bind g).NoStop
  induction t with
  | ret a => exact hg a
  | stop e => exact h
  | ask p next ih => exact fun a => ih a (h a)

theorem Asks.of_bind {f : P → Except E A → Prop} {t : Ask P A E α} {g : α → Ask P A E β} {q : P}
    (h : Asks f (t >>= g) q) : Asks f t q ∨ ∃ a, Asks f (g a) q := by
  change Asks f (t.bind g) q at h
  induction t with
  | ret a => exact .inr ⟨a, h⟩
  | stop e => cases h
  | ask p next ih =>
    rw [Ask.bind] at h
    cases h with
    | here => exact .inl .here
    | @later _ _ _ a answer rest =>
      rcases ih a rest with hnext | hg
      · exact .inl (.later answer hnext)
      · exact .inr hg

theorem Always.bind {t : Ask P A E α} {q : P} (h : Always t q) (g : α → Ask P A E β) :
    Always (t >>= g) q := by
  show Always (t.bind g) q
  induction h with
  | here => exact .here
  | later _ ih => exact .later ih

theorem Always.bind_right {t : Ask P A E α} {g : α → Ask P A E β} {q : P} (ht : t.NoStop)
    (h : ∀ a, Always (g a) q) : Always (t >>= g) q := by
  show Always (t.bind g) q
  induction t with
  | ret a => exact h a
  | stop e => exact ht.elim
  | ask p next ih => exact .later fun a => ih a (ht a)

theorem Exactly.pure (a : α) : Exactly ∅ (pure a : Ask P A E α) where
  noStop := trivial
  only f q h := by cases h
  all q hq := by cases hq

theorem Exactly.question (p : P) : Exactly {p} (question p : Ask P A E A) where
  noStop _ := trivial
  only f q h := by
    cases h with
    | here => exact rfl
    | later _ rest => cases rest
  all q hq := by
    cases hq
    exact .here

theorem Exactly.bind {S T : Set P} {t : Ask P A E α} {g : α → Ask P A E β} (h : Exactly S t)
    (hg : ∀ a, Exactly T (g a)) : Exactly (S ∪ T) (t >>= g) where
  noStop := h.noStop.bind fun a => (hg a).noStop
  only f q hq := by
    rcases hq.of_bind with ht | ⟨a, ha⟩
    · exact .inl (h.only f q ht)
    · exact .inr ((hg a).only f q ha)
  all q hq := by
    rcases hq with hS | hT
    · exact (h.all q hS).bind g
    · exact .bind_right h.noStop fun a => (hg a).all q hT

end Ask

open Ask

/-! ## The recursion -/

variable (body : P → Ask P A E A)

/-- The answer of the recursive function, with a depth of at most `n` calls. -/
def answer : ℕ → P → Option (Except E A)
  | 0, _ => none
  | n + 1, p => (body p).run (answer n)

def Answers (p : P) (r : Except E A) : Prop := ∃ n, answer body n p = some r

/-- The call for `p` comes to the one for `q`. -/
def Inside (q p : P) : Prop := Asks (Answers body) (body p) q

/-- It comes to its end. -/
def Ends (t : Ask P A E α) : Prop := ∃ n r, t.run (answer body n) = some r

section Mono

variable {f g : P → Option (Except E A)}

theorem run_mono (hfg : ∀ p r, f p = some r → g p = some r) {t : Ask P A E α} {r : Except E α}
    (h : t.run f = some r) : t.run g = some r := by
  induction t with
  | ret a => exact h
  | stop e => exact h
  | ask p next ih =>
    rw [Ask.run] at h ⊢
    cases hp : f p with
    | none =>
      rw [hp] at h
      cases h
    | some ans =>
      rw [hp] at h
      rw [hfg p ans hp]
      cases ans with
      | error e => exact h
      | ok a => exact ih a h

end Mono

variable {body}

theorem answer_mono {n k : ℕ} {p : P} {r : Except E A} (hle : n ≤ k)
    (h : answer body n p = some r) : answer body k p = some r := by
  induction n generalizing k p r with
  | zero => cases h
  | succ n ih =>
    cases k with
    | zero => omega
    | succ k => exact run_mono (fun q r' hq => ih (Nat.le_of_succ_le_succ hle) hq) h

theorem Answers.unique {p : P} {r r' : Except E A} (h : Answers body p r)
    (h' : Answers body p r') : r = r' := by
  rcases h with ⟨n, hn⟩
  rcases h' with ⟨k, hk⟩
  have hmax := answer_mono (Nat.le_max_left n k) hn
  rw [answer_mono (Nat.le_max_right n k) hk] at hmax
  exact (Option.some.inj hmax).symm

/-- A computation ends exactly if all that it asks is answered. -/
theorem ends_iff_asks (t : Ask P A E α) :
    Ends body t ↔ ∀ q, Asks (Answers body) t q → ∃ r, Answers body q r := by
  induction t with
  | ret a => exact iff_of_true ⟨0, _, rfl⟩ fun q h => by cases h
  | stop e => exact iff_of_true ⟨0, _, rfl⟩ fun q h => by cases h
  | ask p next ih =>
    constructor
    · rintro ⟨n, r, h⟩ q hq
      rw [Ask.run] at h
      cases hp : answer body n p with
      | none =>
        rw [hp] at h
        cases h
      | some ans =>
        rw [hp] at h
        cases hq with
        | here => exact ⟨ans, n, hp⟩
        | @later _ _ _ a hans rest =>
          cases Answers.unique hans ⟨n, hp⟩
          exact (ih a).mp ⟨n, r, h⟩ q rest
    · intro h
      rcases h p .here with ⟨ans, n, hn⟩
      cases ans with
      | error e => exact ⟨n, .error e, by rw [Ask.run, hn]⟩
      | ok a =>
        rcases (ih a).mpr fun q hq => h q (.later ⟨n, hn⟩ hq) with ⟨k, r, hk⟩
        refine ⟨max n k, r, ?_⟩
        rw [Ask.run, answer_mono (Nat.le_max_left n k) hn]
        exact run_mono (fun _ _ => answer_mono (Nat.le_max_right n k)) hk

theorem Ends.asks {t : Ask P A E α} (h : Ends body t) {q : P} (hq : Always t q)
    (hstop : ∀ p e, ¬ Answers body p (.error e)) : Asks (Answers body) t q := by
  induction hq with
  | here => exact .here
  | @later p q next rest ih =>
    rcases (ends_iff_asks _).mp h p .here with ⟨ans, hans⟩
    cases ans with
    | error e => exact absurd hans (hstop p e)
    | ok a =>
      refine .later hans (ih a ?_)
      rw [ends_iff_asks] at h ⊢
      exact fun q hq => h q (.later hans hq)

end Questions
