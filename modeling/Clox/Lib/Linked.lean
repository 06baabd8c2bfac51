import Mathlib.Data.List.Basic

/-! # Chains of pointers

Nodes linked by a `next` pointer that is followed until it is null: which
nodes a walk meets, how a loop searches them, and what it does to the walks
when a new node is spliced in behind another.
-/

variable {α β : Type}

/-- From the pointer `p`, following `next`, one meets the nodes of the list and then null. -/
inductive Linked (next : α → Option α) : Option α → List α → Prop where
  | nil : Linked next none []
  | cons {a : α} {l : List α} : Linked next (next a) l → Linked next (some a) (a :: l)

/-- From `p` one meets the nodes of the list and then `q`. -/
inductive Leads (next : α → Option α) : Option α → List α → Option α → Prop where
  | nil {p : Option α} : Leads next p [] p
  | cons {a : α} {l : List α} {q : Option α} : Leads next (next a) l q →
      Leads next (some a) (a :: l) q

namespace Leads

variable {next next' : α → Option α} {p q : Option α} {l l' : List α}

theorem linked (h : Leads next p l q) (h' : Linked next q l') : Linked next p (l ++ l') := by
  induction h with
  | nil => exact h'
  | cons _ ih => exact .cons (ih h')

theorem congr (h : Leads next p l q) (heq : ∀ a ∈ l, next' a = next a) : Leads next' p l q := by
  induction h with
  | nil => exact .nil
  | @cons a l q _ ih =>
    have ha := heq a (by simp)
    exact .cons (ha ▸ ih fun b hb => heq b (by simp [hb]))

/-- Where it leads is where one starts, or what a node that is met points at. -/
theorem last (h : Leads next p l q) : p = q ∨ ∃ a, next a = q := by
  induction h with
  | nil => exact .inl rfl
  | @cons a l q _ ih =>
    rcases ih with hp | ha
    · exact .inr ⟨a, hp⟩
    · exact .inr ha

end Leads

namespace Linked

variable {next next' : α → Option α} {p : Option α} {a i : α} {l l₁ l₂ : List α}

/-- `while (p) { if ((r = visit(p))) return r; p = next(p); } return NULL;` within `fuel` rounds;
`none` when they do not suffice. -/
def search (next : α → Option α) (visit : α → Option β) : ℕ → Option α → Option (Option β)
  | _, none => some none
  | 0, some _ => none
  | fuel + 1, some a =>
    match visit a with
    | some r => some (some r)
    | none => search next visit fuel (next a)

/-- `while (p && test(p)) { prev = p; p = next(p); }` within `fuel` rounds: `prev` and `p` behind
it; `none` when they do not suffice. -/
def advance (next : α → Option α) (test : α → Bool) :
    ℕ → Option α → Option α → Option (Option α × Option α)
  | _, prev, none => some (prev, none)
  | 0, _, some _ => none
  | fuel + 1, prev, some a =>
    if test a then advance next test fuel (some a) (next a) else some (prev, some a)

theorem unique (h₁ : Linked next p l₁) (h₂ : Linked next p l₂) : l₁ = l₂ := by
  induction h₁ generalizing l₂ with
  | nil => cases h₂; rfl
  | cons _ ih =>
    cases h₂ with
    | cons h => rw [ih h]

/-- The walk from a node that is met is the rest of the walk. -/
theorem rest (h : Linked next p (l₁ ++ a :: l₂)) : Linked next (some a) (a :: l₂) := by
  induction l₁ generalizing p with
  | nil =>
    cases h with
    | cons h => exact .cons h
  | cons b l₁ ih =>
    cases h with
    | cons h => exact ih h

theorem rest_next (h : Linked next p (l₁ ++ a :: l₂)) : Linked next (next a) l₂ := by
  cases h.rest with
  | cons h => exact h

/-- No node is met twice. -/
theorem nodup (h : Linked next p l) : l.Nodup := by
  induction h with
  | nil => exact List.nodup_nil
  | @cons a l h ih =>
    refine List.nodup_cons.mpr ⟨?_, ih⟩
    intro ha
    rcases List.append_of_mem ha with ⟨l₁, l₂, rfl⟩
    -- the walk from the second occurrence would be a proper part of itself
    have heq := unique (Linked.cons h) h.rest
    have hlen := congrArg List.length heq
    simp at hlen
    omega

/-- What holds of the first node and of every node pointed at holds of all that are met. -/
theorem forall_mem {P : α → Prop} (h : Linked next p l) (hp : ∀ a, p = some a → P a)
    (hnext : ∀ a b, next a = some b → P b) : ∀ a ∈ l, P a := by
  induction h with
  | nil => simp
  | @cons a l _ ih =>
    intro b hb
    rcases List.mem_cons.mp hb with rfl | hb
    · exact hp b rfl
    · exact ih (hnext a) b hb

/-- A walk depends on the pointers of its own nodes only. -/
theorem congr (h : Linked next p l) (heq : ∀ a ∈ l, next' a = next a) : Linked next' p l := by
  induction h with
  | nil => exact .nil
  | @cons a l _ ih =>
    have ha := heq a (by simp)
    exact .cons (ha ▸ ih fun b hb => heq b (by simp [hb]))

/-- A new node `i` spliced in behind `a`: the walks from elsewhere stay finite. -/
theorem splice (h : Linked next p l) (hi : i ∉ l) (hnew : next' i = next a)
    (ha : next' a = some i) (hother : ∀ b, b ≠ a → b ≠ i → next' b = next b) :
    ∃ l', Linked next' p l' := by
  classical
  induction h with
  | nil => exact ⟨[], .nil⟩
  | @cons b l _ ih =>
    have hbi : b ≠ i := by
      rintro rfl
      exact hi (by simp)
    rcases ih (fun hmem => hi (by simp [hmem])) with ⟨l', hl'⟩
    by_cases hba : b = a
    · subst hba
      have hrest : Linked next' (some i) (i :: l') := .cons (hnew ▸ hl')
      exact ⟨b :: i :: l', .cons (ha ▸ hrest)⟩
    · exact ⟨b :: l', .cons (hother b hba hbi ▸ hl')⟩

/-- The pointer to the rest of a walk that is split in two. -/
theorem split (h : Linked next p (l₁ ++ l₂)) : Leads next p l₁ l₂.head? ∧
    Linked next l₂.head? l₂ := by
  induction l₁ generalizing p with
  | nil =>
    cases h with
    | nil => exact ⟨.nil, .nil⟩
    | cons h => exact ⟨.nil, .cons h⟩
  | cons a l₁ ih =>
    cases h with
    | cons h => exact ⟨.cons (ih h).1, (ih h).2⟩

/-- A new node `i` linked in behind the first nodes, where there are any. -/
theorem insert (h : Linked next p (l₁ ++ l₂)) (hi : i ∉ l₁ ++ l₂) (hnew : next' i = l₂.head?)
    (hlast : ∀ a, l₁.getLast? = some a → next' a = some i)
    (hother : ∀ b, b ≠ i → l₁.getLast? ≠ some b → next' b = next b) :
    Linked next' (if l₁ = [] then some i else p) (l₁ ++ i :: l₂) := by
  have hnodup := h.nodup
  have hback : Linked next' (some i) (i :: l₂) := by
    refine .cons (hnew ▸ h.split.2.congr ?_)
    intro b hb
    refine hother b ?_ ?_
    · rintro rfl
      exact hi (by simp [hb])
    · intro hb'
      exact (List.nodup_append.mp hnodup).2.2 b (List.mem_of_getLast? hb') b hb rfl
  rcases List.eq_nil_or_concat l₁ with rfl | ⟨front, a, rfl⟩
  · exact hback
  rw [if_neg (by simp)]
  have hfront : Leads next' p front (some a) := by
    have hsplit : Linked next p (front ++ a :: l₂) := by simpa using h
    refine hsplit.split.1.congr ?_
    intro b hb
    refine hother b ?_ ?_
    · rintro rfl
      exact hi (by simp [hb])
    · intro hb'
      obtain rfl : a = b := by simpa using hb'
      simp only [List.concat_eq_append, List.append_assoc] at hnodup
      exact (List.nodup_append.mp hnodup).2.2 a hb a (by simp) rfl
  have ha := hlast a (by simp)
  simpa using hfront.linked (.cons (ha ▸ hback))

/-- The loop over a finite walk stops behind the first nodes that pass the test. -/
theorem advance_eq {fuel : ℕ} (h : Linked next p l) (test : α → Bool) (prev : Option α)
    (hfuel : l.length ≤ fuel) : advance next test fuel prev p =
      some ((l.takeWhile test).getLast?.or prev, (l.dropWhile test).head?) := by
  induction h generalizing fuel prev with
  | nil => cases fuel <;> rfl
  | @cons a l _ ih =>
    cases fuel with
    | zero => simp at hfuel
    | succ fuel =>
      have hlen : l.length ≤ fuel := by simpa using hfuel
      by_cases ha : test a = true
      · simp only [advance, if_pos ha, ih (some a) hlen, List.takeWhile_cons_of_pos ha,
          List.dropWhile_cons_of_pos ha, List.getLast?_cons]
        cases (l.takeWhile test).getLast? <;> rfl
      · simp [advance, ha]

/-- More rounds do not change where it stops. -/
theorem advance_mono {test : α → Bool} {fuel fuel' : ℕ} {prev : Option α}
    {r : Option α × Option α} (h : advance next test fuel prev p = some r) (hle : fuel ≤ fuel') :
    advance next test fuel' prev p = some r := by
  induction fuel generalizing p prev fuel' with
  | zero =>
    cases p with
    | none => cases fuel' <;> exact h
    | some a => cases h
  | succ fuel ih =>
    obtain ⟨k, rfl⟩ := Nat.exists_eq_add_of_le' (Nat.le_of_add_left_le hle)
    cases p with
    | none => exact h
    | some a =>
      simp only [advance] at h ⊢
      split
      · rename_i ha
        rw [if_pos ha] at h
        exact ih h (by omega)
      · rename_i ha
        rwa [if_neg ha] at h

/-- The loop over a finite walk returns the first node's answer. -/
theorem search_eq {visit : α → Option β} {fuel : ℕ} (h : Linked next p l)
    (hfuel : l.length ≤ fuel) : search next visit fuel p = some (l.findSome? visit) := by
  induction h generalizing fuel with
  | nil => cases fuel <;> rfl
  | @cons a l _ ih =>
    cases fuel with
    | zero => simp at hfuel
    | succ fuel =>
      have hlen : l.length ≤ fuel := by simpa using hfuel
      cases hv : visit a with
      | some r => simp [search, hv]
      | none => simp [search, hv, ih hlen]

/-- More rounds do not change an answer. -/
theorem search_mono {visit : α → Option β} {fuel fuel' : ℕ} {r : Option β}
    (h : search next visit fuel p = some r) (hle : fuel ≤ fuel') :
    search next visit fuel' p = some r := by
  induction fuel generalizing p fuel' with
  | zero =>
    cases p with
    | none => cases fuel' <;> exact h
    | some a => cases h
  | succ fuel ih =>
    obtain ⟨k, rfl⟩ := Nat.exists_eq_add_of_le' (Nat.le_of_add_left_le hle)
    cases p with
    | none => exact h
    | some a =>
      simp only [search] at h ⊢
      split
      · rename_i b hb
        rwa [hb] at h
      · rename_i hb
        rw [hb] at h
        exact ih h (by omega)

/-- An answer is the first node's answer, however many rounds it took. -/
theorem search_some_eq {visit : α → Option β} {fuel : ℕ} {r : Option β} (h : Linked next p l)
    (hs : search next visit fuel p = some r) : r = l.findSome? visit := by
  have hmore := search_mono hs (Nat.le_max_left fuel l.length)
  rw [h.search_eq (Nat.le_max_right ..)] at hmore
  exact (Option.some.inj hmore).symm

/-- Only the pointers of nodes without an answer are followed. -/
theorem search_congr {visit : α → Option β} {fuel : ℕ} {p : Option α}
    (heq : ∀ a, visit a = none → next a = next' a) :
    search next visit fuel p = search next' visit fuel p := by
  induction fuel generalizing p with
  | zero => cases p <;> rfl
  | succ fuel ih =>
    cases p with
    | none => rfl
    | some a =>
      simp only [search]
      split
      · rfl
      · rename_i ha
        rw [heq a ha, ih]

end Linked
