import Clox.Lib.Linked
import Clox.Lib.Trees

/-! # Doubly linked lists

Nodes with a `prev` and a `next` pointer, and pointers to the first and the
last one. `DoublyLinked` says which node stands where: the pointers of a node
are its neighbours in the list, whichever way the list is split at it. Adding
a node at the end and taking one out keep that.
-/

variable {α : Type}

/-- The nodes of the list are linked in its order, both ways. -/
structure DoublyLinked (prev next : α → Option α) (head tail : Option α) (l : List α) : Prop where
  nodup : l.Nodup
  head : head = l.head?
  tail : tail = l.getLast?
  next : ∀ l₁ a l₂, l = l₁ ++ a :: l₂ → next a = l₂.head?
  prev : ∀ l₁ a l₂, l = l₁ ++ a :: l₂ → prev a = l₁.getLast?

namespace DoublyLinked

variable {prev next prev' next' : α → Option α} {head tail : Option α} {a : α} {l l₁ l₂ : List α}

theorem nil : DoublyLinked prev next none none [] where
  nodup := List.nodup_nil
  head := rfl
  tail := rfl
  next l₁ a l₂ h := by
    cases l₁ <;> cases h
  prev l₁ a l₂ h := by
    cases l₁ <;> cases h

/-- Read the other way round. -/
theorem reverse (h : DoublyLinked prev next head tail l) :
    DoublyLinked next prev tail head l.reverse where
  nodup := List.nodup_reverse.mpr h.nodup
  head := by rw [List.head?_reverse, h.tail]
  tail := by rw [List.getLast?_reverse, h.head]
  next l₁ a l₂ heq := by
    have hsplit : l = l₂.reverse ++ a :: l₁.reverse := by
      have := congrArg List.reverse heq
      simpa using this
    rw [h.prev _ _ _ hsplit, List.getLast?_reverse]
  prev l₁ a l₂ heq := by
    have hsplit : l = l₂.reverse ++ a :: l₁.reverse := by
      have := congrArg List.reverse heq
      simpa using this
    rw [h.next _ _ _ hsplit, List.head?_reverse]

/-- Following `next` from the first node one meets the list. -/
theorem linked (h : DoublyLinked prev next head tail l) : Linked next head l := by
  have hall : ∀ l₂ l₁, l = l₁ ++ l₂ → Linked next l₂.head? l₂ := by
    intro l₂
    induction l₂ with
    | nil => exact fun _ _ => .nil
    | cons a l₂ ih =>
      intro l₁ heq
      have hrest := ih (l₁ ++ [a]) (by simpa using heq)
      rw [← h.next _ _ _ heq] at hrest
      exact .cons hrest
  rw [h.head]
  exact hall l [] rfl

theorem unique {l' : List α} (h : DoublyLinked prev next head tail l)
    (h' : DoublyLinked prev next head tail l') : l = l' :=
  h.linked.unique h'.linked

/-- Only the pointers of its own nodes matter. -/
theorem congr (h : DoublyLinked prev next head tail l) (hprev : ∀ a ∈ l, prev' a = prev a)
    (hnext : ∀ a ∈ l, next' a = next a) : DoublyLinked prev' next' head tail l where
  nodup := h.nodup
  head := h.head
  tail := h.tail
  next l₁ a l₂ heq := by
    rw [hnext a (by simp [heq])]
    exact h.next _ _ _ heq
  prev l₁ a l₂ heq := by
    rw [hprev a (by simp [heq])]
    exact h.prev _ _ _ heq

/-- A split of a concatenation splits one of the two parts. -/
theorem split_append {m₁ m₂ : List α} (h : l₁ ++ l₂ = m₁ ++ a :: m₂) :
    (∃ k, l₁ = m₁ ++ a :: k ∧ m₂ = k ++ l₂) ∨ ∃ k, l₂ = k ++ a :: m₂ ∧ m₁ = l₁ ++ k := by
  rcases List.append_eq_append_iff.mp h with ⟨k, hm, hl⟩ | ⟨k, hl, hm⟩
  · exact .inr ⟨k, hl, hm⟩
  · cases k with
    | nil => exact .inr ⟨[], by simpa using hm.symm, by simpa using hl.symm⟩
    | cons b k =>
      rw [List.cons_append, List.cons.injEq] at hm
      exact .inl ⟨k, by rw [hl, ← hm.1], hm.2⟩

/-- A node that is linked in behind the last one. -/
theorem append (h : DoublyLinked prev next head tail l) (ha : a ∉ l) (hnew : next' a = none)
    (hback : prev' a = tail) (hlast : ∀ b, tail = some b → next' b = some a)
    (hprev : ∀ b, b ≠ a → prev' b = prev b)
    (hnext : ∀ b, b ≠ a → tail ≠ some b → next' b = next b) :
    DoublyLinked prev' next' (if tail = none then some a else head) (some a) (l ++ [a]) where
  nodup := by
    rw [List.nodup_append]
    refine ⟨h.nodup, List.nodup_singleton a, ?_⟩
    intro b hb c hc
    rw [List.mem_singleton.mp hc]
    rintro rfl
    exact ha hb
  head := by
    rw [h.tail, h.head]
    cases l with
    | nil => rfl
    | cons b l => simp
  tail := by simp
  next l₁ b l₂ heq := by
    rcases split_append heq with ⟨k, hl, hk⟩ | ⟨k, hk, -⟩
    · have hmem : b ∈ l := by simp [hl]
      have hne : b ≠ a := fun hba => ha (hba ▸ hmem)
      cases k with
      | nil =>
        have htail : tail = some b := by
          rw [h.tail, hl]
          simp
        rw [hlast b htail, hk]
        rfl
      | cons c k =>
        have htail : tail ≠ some b := by
          intro htail
          rw [h.tail, hl, List.getLast?_append_cons] at htail
          have hlast : b ∈ c :: k := List.mem_of_getLast? (by simpa using htail)
          have hnodup := h.nodup
          rw [hl, List.nodup_append, List.nodup_cons] at hnodup
          exact hnodup.2.1.1 hlast
        rw [hnext b hne htail, h.next _ _ _ hl, hk]
        rfl
    · have hsingle : k = [] ∧ a = b ∧ l₂ = [] := by
        cases k with
        | nil => simpa using hk
        | cons c k => simp at hk
      rw [← hsingle.2.1, hsingle.2.2]
      exact hnew
  prev l₁ b l₂ heq := by
    rcases split_append heq with ⟨k, hl, hk⟩ | ⟨k, hk, hl₁⟩
    · have hmem : b ∈ l := by simp [hl]
      have hne : b ≠ a := fun hba => ha (hba ▸ hmem)
      rw [hprev b hne]
      exact h.prev _ _ _ hl
    · have hsingle : k = [] ∧ a = b ∧ l₂ = [] := by
        cases k with
        | nil => simpa using hk
        | cons c k => simp at hk
      rw [← hsingle.2.1, hback, h.tail, hl₁, hsingle.1, List.append_nil]

/-- The forward half of taking a node out. -/
theorem next_of_remove (h : DoublyLinked prev next head tail (l₁ ++ a :: l₂))
    (hlast : ∀ b, l₁.getLast? = some b → next' b = l₂.head?)
    (hnext : ∀ b, b ≠ a → l₁.getLast? ≠ some b → next' b = next b) :
    ∀ m₁ b m₂, l₁ ++ l₂ = m₁ ++ b :: m₂ → next' b = m₂.head? := by
  have hnodup := List.nodup_append.mp h.nodup
  have hback := List.nodup_cons.mp hnodup.2.1
  intro m₁ b m₂ heq
  rcases split_append heq with ⟨k, hl, hm⟩ | ⟨k, hl, hm⟩
  · have hba : b ≠ a := hnodup.2.2 b (by simp [hl]) a List.mem_cons_self
    cases k with
    | nil =>
      rw [hlast b (by simp [hl]), hm]
      rfl
    | cons c k =>
      have hnotlast : l₁.getLast? ≠ some b := by
        intro hb
        rw [hl, List.getLast?_append_cons] at hb
        have hmem : b ∈ c :: k := List.mem_of_getLast? (by simpa using hb)
        have hfront := hnodup.1
        rw [hl, List.nodup_append, List.nodup_cons] at hfront
        exact hfront.2.1.1 hmem
      have hsplit : l₁ ++ a :: l₂ = m₁ ++ b :: (c :: k ++ a :: l₂) := by simp [hl]
      rw [hnext b hba hnotlast, h.next _ _ _ hsplit, hm]
      rfl
  · have hmem : b ∈ l₂ := by simp [hl]
    have hba : b ≠ a := by
      rintro rfl
      exact hback.1 hmem
    have hnotlast : l₁.getLast? ≠ some b := by
      intro hb
      exact hnodup.2.2 b (List.mem_of_getLast? hb) b (List.mem_cons_of_mem _ hmem) rfl
    have hsplit : l₁ ++ a :: l₂ = (l₁ ++ a :: k) ++ b :: m₂ := by simp [hl]
    rw [hnext b hba hnotlast, h.next _ _ _ hsplit]

/-- A node that is taken out: its neighbours point at each other. -/
theorem remove (h : DoublyLinked prev next head tail (l₁ ++ a :: l₂))
    (hlast : ∀ b, l₁.getLast? = some b → next' b = l₂.head?)
    (hfirst : ∀ b, l₂.head? = some b → prev' b = l₁.getLast?)
    (hnext : ∀ b, b ≠ a → l₁.getLast? ≠ some b → next' b = next b)
    (hprev : ∀ b, b ≠ a → l₂.head? ≠ some b → prev' b = prev b) :
    DoublyLinked prev' next' (l₁ ++ l₂).head? (l₁ ++ l₂).getLast? (l₁ ++ l₂) where
  nodup := h.nodup.sublist (List.Sublist.append_left (List.sublist_cons_self a l₂) l₁)
  head := rfl
  tail := rfl
  next := next_of_remove h hlast hnext
  prev m₁ b m₂ heq := by
    -- the same list, read from its end
    have hreverse : DoublyLinked next prev tail head (l₂.reverse ++ a :: l₁.reverse) := by
      have := h.reverse
      simpa using this
    have hmirror : ∀ m₁ c m₂, l₂.reverse ++ l₁.reverse = m₁ ++ c :: m₂ → prev' c = m₂.head? :=
        next_of_remove hreverse
      (fun b hb => by
        rw [List.getLast?_reverse] at hb
        rw [List.head?_reverse]
        exact hfirst b hb)
      (fun b hba hb => by
        rw [List.getLast?_reverse] at hb
        exact hprev b hba hb)
    have := hmirror m₂.reverse b m₁.reverse (by
      have := congrArg List.reverse heq
      simpa using this)
    rwa [List.head?_reverse] at this

/-- Another node in the place of the last one. -/
theorem replaceLast (h : DoublyLinked prev next head tail (l ++ [a])) {b : α} (hb : b ∉ l)
    (hnew : next' b = none) (hback : prev' b = l.getLast?)
    (hlast : ∀ c, l.getLast? = some c → next' c = some b)
    (hprev : ∀ c ∈ l, prev' c = prev c)
    (hnext : ∀ c ∈ l, l.getLast? ≠ some c → next' c = next c) :
    DoublyLinked prev' next' (l ++ [b]).head? (some b) (l ++ [b]) where
  nodup := by
    refine List.nodup_append.mpr ⟨(List.nodup_append.mp h.nodup).1, List.nodup_singleton b, ?_⟩
    intro c hc d hd heq
    exact hb (List.mem_singleton.mp hd ▸ heq ▸ hc)
  head := rfl
  tail := by rw [List.getLast?_append_cons, List.getLast?_singleton]
  next l₁ c l₂ heq := by
    rcases split_append heq with ⟨k, hl, hk⟩ | ⟨k, hk, -⟩
    · cases k with
      | nil =>
        rw [hlast c (by rw [hl]; simp), hk]
        rfl
      | cons d k =>
        have hnot : l.getLast? ≠ some c := by
          intro hc
          rw [hl, List.getLast?_append_cons] at hc
          have hmem : c ∈ d :: k := List.mem_of_getLast? (by simpa using hc)
          have hnodup := (List.nodup_append.mp h.nodup).1
          rw [hl, List.nodup_append, List.nodup_cons] at hnodup
          exact hnodup.2.1.1 hmem
        have hsplit : l ++ [a] = l₁ ++ c :: (d :: k ++ [a]) := by simp [hl]
        rw [hnext c (by simp [hl]) hnot, h.next _ _ _ hsplit, hk]
        rfl
    · have hsingle : k = [] ∧ b = c ∧ l₂ = [] := by
        cases k with
        | nil => simpa using hk
        | cons d k => simp at hk
      rw [← hsingle.2.1, hsingle.2.2]
      exact hnew
  prev l₁ c l₂ heq := by
    rcases split_append heq with ⟨k, hl, hk⟩ | ⟨k, hk, hl₁⟩
    · have hsplit : l ++ [a] = l₁ ++ c :: (k ++ [a]) := by simp [hl]
      rw [hprev c (by simp [hl]), h.prev _ _ _ hsplit]
    · have hsingle : k = [] ∧ b = c ∧ l₂ = [] := by
        cases k with
        | nil => simpa using hk
        | cons d k => simp at hk
      rw [← hsingle.2.1, hback, hl₁, hsingle.1, List.append_nil]

theorem singleton {a : α} (hnext : next a = none) (hprev : prev a = none) :
    DoublyLinked prev next (some a) (some a) [a] := by
  have hsplit : ∀ l₁ b l₂, [a] = l₁ ++ b :: l₂ → l₁ = [] ∧ a = b ∧ l₂ = [] := by
    intro l₁ b l₂ heq
    cases l₁ with
    | nil => simpa using heq
    | cons c l₁ => simp at heq
  refine ⟨List.nodup_singleton a, rfl, rfl, ?_, ?_⟩
  · intro l₁ b l₂ heq
    rcases hsplit l₁ b l₂ heq with ⟨-, rfl, rfl⟩
    exact hnext
  · intro l₁ b l₂ heq
    rcases hsplit l₁ b l₂ heq with ⟨rfl, rfl, -⟩
    exact hprev

/-- What is met from the first node on is the list. -/
theorem reached_iff (h : DoublyLinked prev next head tail l) :
    (∃ b, head = some b ∧ Relation.ReflTransGen (fun c d => next c = some d) b a) ↔ a ∈ l := by
  constructor
  · rintro ⟨b, hb, hreach⟩
    induction hreach with
    | refl =>
      rw [h.head] at hb
      exact List.mem_of_mem_head? hb
    | tail _ hlast ih =>
      rcases List.append_of_mem ih with ⟨l₁, l₂, hl⟩
      rw [h.next _ _ _ hl] at hlast
      rw [hl]
      exact List.mem_append_right _ (List.mem_cons_of_mem _ (List.mem_of_mem_head? hlast))
  · -- by induction on what stands before the node
    have hall : ∀ l₂ l₁, l = l₁ ++ l₂ → ∀ b, l₂.head? = some b → a ∈ l₂ →
        Relation.ReflTransGen (fun c d => next c = some d) b a := by
      intro l₂
      induction l₂ with
      | nil =>
        intro l₁ _ b hb
        cases hb
      | cons c l₂ ih =>
        intro l₁ hl b hb ha
        cases hb
        rcases List.mem_cons.mp ha with rfl | ha
        · exact .refl
        · cases l₂ with
          | nil => cases ha
          | cons d l₂ =>
            have hstep : next c = some d := h.next _ _ _ hl
            exact .head hstep (ih (l₁ ++ [c]) (by simpa using hl) d rfl ha)
    intro ha
    cases l with
    | nil => cases ha
    | cons b l => exact ⟨b, h.head, hall (b :: l) [] rfl b rfl ha⟩

/-- No node is met again behind itself. -/
theorem not_next_self (h : DoublyLinked prev next head tail l) (ha : a ∈ l) :
    ¬ Relation.TransGen (fun c d => next c = some d) a a := by
  have hstep : ∀ c ∈ l, ∀ d, next c = some d → d ∈ l ∧ prev d = some c := by
    intro c hc d hd
    rcases List.append_of_mem hc with ⟨l₁, l₂, hl⟩
    have hnext := h.next _ _ _ hl
    rw [hd] at hnext
    rcases List.head?_eq_some_iff.mp hnext.symm with ⟨l₂', rfl⟩
    have hsplit : l = (l₁ ++ [c]) ++ d :: l₂' := by simpa using hl
    refine ⟨by simp [hl], ?_⟩
    rw [h.prev _ _ _ hsplit]
    simp
  rcases h.reached_iff.mpr ha with ⟨b, hb, hreach⟩
  have hfirst : prev b = none := by
    rw [h.head] at hb
    rcases List.head?_eq_some_iff.mp hb with ⟨l₂, hl⟩
    exact h.prev [] b l₂ hl
  have hb' : b ∈ l := List.mem_of_mem_head? (h.head ▸ hb)
  -- the steps stay in the list, where `prev` goes back
  let Step := fun c d => c ∈ l ∧ next c = some d
  have hinside : ∀ c, Relation.ReflTransGen (fun c d => next c = some d) b c →
      Relation.ReflTransGen Step b c ∧ c ∈ l := by
    intro c hc
    induction hc with
    | refl => exact ⟨.refl, hb'⟩
    | tail _ hlast ih => exact ⟨ih.1.tail ⟨ih.2, hlast⟩, (hstep _ ih.2 _ hlast).1⟩
  have hcycle : ∀ c, Relation.TransGen (fun c d => next c = some d) a c →
      Relation.TransGen Step a c ∧ c ∈ l := by
    intro c hc
    induction hc with
    | single hlast => exact ⟨.single ⟨ha, hlast⟩, (hstep _ ha _ hlast).1⟩
    | tail _ hlast ih => exact ⟨ih.1.tail ⟨ih.2, hlast⟩, (hstep _ ih.2 _ hlast).1⟩
  intro hself
  refine Trees.not_transGen_self ?_ ?_ (hinside a hreach).1 (hcycle a hself).1
  · rintro c d e ⟨hc, hce⟩ ⟨hd, hde⟩
    have hback := (hstep c hc e hce).2
    rw [(hstep d hd e hde).2] at hback
    exact (Option.some.inj hback).symm
  · rintro c ⟨hc, hcb⟩
    have hback := (hstep c hc b hcb).2
    rw [hfirst] at hback
    cases hback

end DoublyLinked
