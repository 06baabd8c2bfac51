import Mathlib.Data.Nat.Notation

/-! # Commands

Programs on a state that can stop before their end, and Hoare triples about them. A triple says
what holds where the command returns and what holds where it stops.
-/

namespace Commands

/-- A command returns a value or stops for a reason; in both cases it leaves a state. -/
def Command (σ ε α : Type) : Type := σ → Except ε α × σ

namespace Command

variable {σ ε α β : Type}

instance : Monad (Command σ ε) where
  pure a := fun s => (.ok a, s)
  bind c f := fun s =>
    match c s with
    | (.ok a, t) => f a t
    | (.error e, t) => (.error e, t)

def get : Command σ ε σ := fun s => (.ok s, s)

def modify (f : σ → σ) : Command σ ε Unit := fun s => (.ok (), f s)

def stop (e : ε) : Command σ ε α := fun s => (.error e, s)

/-- The part of the state that `f` reads, if it is there. -/
def look (f : σ → Option α) (e : ε) : Command σ ε α := fun s =>
  match f s with
  | some a => (.ok a, s)
  | none => (.error e, s)

def times (c : Command σ ε Unit) : ℕ → Command σ ε Unit
  | 0 => pure ()
  | n + 1 => do
    c
    times c n

@[simp] theorem pure_apply (a : α) (s : σ) : (pure a : Command σ ε α) s = (.ok a, s) := rfl

@[simp] theorem get_apply (s : σ) : (get : Command σ ε σ) s = (.ok s, s) := rfl

@[simp] theorem modify_apply (f : σ → σ) (s : σ) :
    (modify f : Command σ ε Unit) s = (.ok (), f s) := rfl

@[simp] theorem stop_apply (e : ε) (s : σ) : (stop e : Command σ ε α) s = (.error e, s) := rfl

theorem bind_apply (c : Command σ ε α) (f : α → Command σ ε β) (s : σ) :
    (c >>= f) s = match c s with
      | (.ok a, t) => f a t
      | (.error e, t) => (.error e, t) := rfl

theorem bind_of_ok {c : Command σ ε α} {f : α → Command σ ε β} {s t : σ} {a : α}
    (h : c s = (.ok a, t)) : (c >>= f) s = f a t := by
  rw [bind_apply, h]

theorem bind_of_error {c : Command σ ε α} {f : α → Command σ ε β} {s t : σ} {e : ε}
    (h : c s = (.error e, t)) : (c >>= f) s = (.error e, t) := by
  rw [bind_apply, h]

theorem bind_eq_ok {c : Command σ ε α} {f : α → Command σ ε β} {s t : σ} {b : β} :
    (c >>= f) s = (.ok b, t) ↔ ∃ a u, c s = (.ok a, u) ∧ f a u = (.ok b, t) := by
  rw [bind_apply]
  constructor
  · intro h
    split at h
    · rename_i a u hc
      exact ⟨a, u, hc, h⟩
    · cases h
  · rintro ⟨a, u, hc, hf⟩
    rw [hc]
    exact hf

protected theorem bind_assoc {γ : Type} (c : Command σ ε α) (f : α → Command σ ε β)
    (g : β → Command σ ε γ) : c >>= f >>= g = c >>= fun a => f a >>= g := by
  funext s
  simp only [bind_apply]
  cases c s with
  | mk res t => cases res <;> rfl

theorem look_of_some {f : σ → Option α} {e : ε} {s : σ} {a : α} (h : f s = some a) :
    look f e s = (.ok a, s) := by
  rw [look, h]

theorem look_of_none {f : σ → Option α} {e : ε} {s : σ} (h : f s = none) :
    look f e s = (.error e, s) := by
  rw [look, h]

end Command

open Command

/-! ## Triples -/

section Triples

variable {σ ε α β : Type} {P P' : σ → Prop} {Q Q' : α → σ → Prop} {E E' : ε → σ → Prop}

/-- From a state of `P` the command returns as `Q` says or stops as `E` says. -/
def Triple (P : σ → Prop) (c : Command σ ε α) (Q : α → σ → Prop) (E : ε → σ → Prop) : Prop :=
  ∀ s, P s →
    match c s with
    | (.ok a, t) => Q a t
    | (.error e, t) => E e t

theorem Triple.pure {a : α} (h : ∀ s, P s → Q a s) : Triple P (pure a) Q E := h

theorem Triple.stop {e : ε} (h : ∀ s, P s → E e s) : Triple P (stop e) Q E := h

theorem Triple.get {Q : σ → σ → Prop} (h : ∀ s, P s → Q s s) : Triple P get Q E := h

theorem Triple.modify {f : σ → σ} {Q : Unit → σ → Prop} (h : ∀ s, P s → Q () (f s)) :
    Triple P (modify f) Q E := h

theorem Triple.look {f : σ → Option α} {e : ε} (hsome : ∀ s a, P s → f s = some a → Q a s)
    (hnone : ∀ s, P s → f s = none → E e s) : Triple P (look f e) Q E := by
  intro s hs
  cases h : f s with
  | none => simpa [Command.look, h] using hnone s hs h
  | some a => simpa [Command.look, h] using hsome s a hs h

theorem Triple.bind {c : Command σ ε α} {f : α → Command σ ε β} {R : β → σ → Prop}
    (hc : Triple P c Q E) (hf : ∀ a, Triple (Q a) (f a) R E) : Triple P (c >>= f) R E := by
  intro s hs
  have hcs := hc s hs
  rw [bind_apply]
  split at hcs
  · exact hf _ _ hcs
  · exact hcs

theorem Triple.weaken {c : Command σ ε α} (hc : Triple P c Q E) (hpre : ∀ s, P' s → P s)
    (hpost : ∀ a s, Q a s → Q' a s) (hstop : ∀ e s, E e s → E' e s) : Triple P' c Q' E' := by
  intro s hs
  have hcs := hc s (hpre s hs)
  split at hcs
  · exact hpost _ _ hcs
  · exact hstop _ _ hcs

theorem Triple.pre {c : Command σ ε α} (hc : Triple P c Q E) (hpre : ∀ s, P' s → P s) :
    Triple P' c Q E :=
  hc.weaken hpre (fun _ _ h => h) fun _ _ h => h

theorem Triple.post {c : Command σ ε α} (hc : Triple P c Q E) (hpost : ∀ a s, Q a s → Q' a s) :
    Triple P c Q' E :=
  hc.weaken (fun _ h => h) hpost fun _ _ h => h

/-- A command that does the one and the other. -/
theorem Triple.both {c : Command σ ε α} (hc : Triple P c Q E) (hc' : Triple P c Q' E') :
    Triple P c (fun a s => Q a s ∧ Q' a s) fun e s => E e s ∧ E' e s := by
  intro s hs
  have h := hc s hs
  have h' := hc' s hs
  split at h
  · rename_i heq
    rw [heq] at h'
    exact ⟨h, h'⟩
  · rename_i heq
    rw [heq] at h'
    exact ⟨h, h'⟩

/-- A part of the precondition that does not speak of the state. -/
theorem Triple.of_imp {p : Prop} {c : Command σ ε α} (hp : ∀ s, P s → p)
    (hc : p → Triple P c Q E) : Triple P c Q E :=
  fun s hs => hc (hp s hs) s hs

theorem Triple.given {p : Prop} {c : Command σ ε α} (hc : p → Triple P c Q E) :
    Triple (fun s => p ∧ P s) c Q E :=
  fun s hs => hc hs.1 s hs.2

/-- A command that does not return is the last one. -/
theorem Triple.ends {c : Command σ ε α} {f : α → Command σ ε β} {Q : β → σ → Prop}
    (hc : Triple P c (fun _ _ => False) E) : Triple P (c >>= f) Q E :=
  hc.bind fun _ _ h => h.elim

/-- What the first command returns is known. -/
theorem Triple.bind_known {R : σ → Prop} {c : Command σ ε α} {f : α → Command σ ε β} {x : α}
    {Q : β → σ → Prop} (hc : Triple P c (fun a s => a = x ∧ R s) E)
    (hf : Triple R (f x) Q E) : Triple P (c >>= f) Q E := by
  refine hc.bind fun a => Triple.given ?_
  rintro rfl
  exact hf

/-- The state at the beginning gets a name. -/
theorem Triple.start {c : Command σ ε α} (hc : ∀ t, P t → Triple (fun s => s = t) c Q E) :
    Triple P c Q E :=
  fun s hs => hc s hs s rfl

theorem Triple.of_exists {γ : Type} {R : γ → σ → Prop} {c : Command σ ε α}
    (hc : ∀ x, Triple (R x) c Q E) : Triple (fun s => ∃ x, R x s) c Q E :=
  fun s ⟨x, hs⟩ => hc x s hs

theorem Triple.ite {p : Prop} [Decidable p] {c d : Command σ ε α}
    (hc : p → Triple P c Q E) (hd : ¬ p → Triple P d Q E) :
    Triple P (if p then c else d) Q E := by
  by_cases h : p
  · simpa [h] using hc h
  · simpa [h] using hd h

theorem Triple.times {c : Command σ ε Unit} {n : ℕ} (hc : Triple P c (fun _ => P) E) :
    Triple P (times c n) (fun _ => P) E := by
  induction n with
  | zero => exact Triple.pure fun _ h => h
  | succ n ih => exact hc.bind fun _ => ih

theorem Triple.foldlM {γ : Type} {f : α → γ → Command σ ε α} {l : List γ} {a : α}
    (hf : ∀ a, ∀ x ∈ l, Triple (Q a) (f a x) Q E) : Triple (Q a) (l.foldlM f a) Q E := by
  induction l generalizing a with
  | nil => exact Triple.pure fun _ h => h
  | cons x l ih =>
    rw [List.foldlM_cons]
    exact (hf a x List.mem_cons_self).bind fun b =>
      ih fun c y hy => hf c y (List.mem_cons_of_mem _ hy)

/-! ## Commands that only read -/

variable {B : ε → Prop}

/-- The command leaves the state as it is, and stops for reasons of `B` only. -/
def Quiet (B : ε → Prop) (c : Command σ ε α) : Prop :=
  ∀ s, (c s).2 = s ∧ ∀ e, (c s).1 = .error e → B e

theorem Quiet.pure (a : α) : Quiet B (pure a : Command σ ε α) :=
  fun _ => ⟨rfl, fun _ h => by cases h⟩

theorem Quiet.stop {e : ε} (he : B e) : Quiet B (stop e : Command σ ε α) :=
  fun _ => ⟨rfl, fun _ h => by cases h; exact he⟩

theorem Quiet.get : Quiet B (get : Command σ ε σ) := fun _ => ⟨rfl, fun _ h => by cases h⟩

theorem Quiet.look {f : σ → Option α} {e : ε} (he : B e) : Quiet B (look f e) := by
  intro s
  cases h : f s with
  | none =>
    rw [look_of_none h]
    exact Quiet.stop he s
  | some a =>
    rw [look_of_some h]
    exact Quiet.pure a s

theorem Quiet.bind {c : Command σ ε α} {f : α → Command σ ε β} (hc : Quiet B c)
    (hf : ∀ a, Quiet B (f a)) : Quiet B (c >>= f) := by
  intro s
  have hcs := hc s
  rw [bind_apply]
  split
  · rename_i a t h
    rw [h] at hcs
    have ht : t = s := hcs.1
    rw [← ht]
    exact hf a t
  · rename_i e t h
    rw [h] at hcs
    exact ⟨hcs.1, fun e' he' => hcs.2 e' (by cases he'; rfl)⟩

theorem Quiet.ite {p : Prop} [Decidable p] {c d : Command σ ε α} (hc : Quiet B c)
    (hd : Quiet B d) : Quiet B (if p then c else d) := by
  split
  · exact hc
  · exact hd

theorem Quiet.triple {c : Command σ ε α} (hc : Quiet B c) (hP : ∀ s, P s → ∀ e, B e → E e s) :
    Triple P c (fun _ => P) E := by
  intro s hs
  have hcs := hc s
  split
  · rename_i a t h
    rw [h] at hcs
    have ht : t = s := hcs.1
    rw [ht]
    exact hs
  · rename_i e t h
    rw [h] at hcs
    have ht : t = s := hcs.1
    rw [ht]
    exact hP s hs e (hcs.2 e rfl)

/-- What the command left, for a triple that has the same to say of both ends. -/
theorem Triple.after {c : Command σ ε α} {R : σ → Prop} (hc : Triple P c (fun _ => R) fun _ => R)
    {s : σ} (hs : P s) : R (c s).2 := by
  have hcs := hc s hs
  split at hcs
  · rename_i h
    rw [h]
    exact hcs
  · rename_i h
    rw [h]
    exact hcs

end Triples

end Commands
