import Mathlib.Data.Int.Notation
import Mathlib.Data.List.Pairwise
import Mathlib.Data.List.Perm.Basic

/-! # Sorting with a comparison function

A comparison function gives a number whose sign says how two elements stand to
each other. A sort is only bound to it where the comparison is consistent, that
is, where it comes from an order. Then what a sort promises about another
comparison is that the two agree in their signs.
-/

namespace Sorting

variable {α ε : Type} {cmp ord : α → α → ℤ} {l s : List α}

/-- The comparison orders the elements of `l`. -/
structure Consistent (cmp : α → α → ℤ) (l : List α) : Prop where
  antisymm : ∀ a ∈ l, ∀ b ∈ l, cmp a b < 0 ↔ 0 < cmp b a
  trans : ∀ a ∈ l, ∀ b ∈ l, ∀ c ∈ l, cmp a b ≤ 0 → cmp b c ≤ 0 → cmp a c ≤ 0

/-- In non-decreasing order. -/
def Ascending (cmp : α → α → ℤ) (s : List α) : Prop := s.Pairwise fun a b => cmp a b ≤ 0

/-- Two comparisons with the same signs. -/
def Agree (cmp ord : α → α → ℤ) (l : List α) : Prop :=
  ∀ a ∈ l, ∀ b ∈ l, (cmp a b < 0 ↔ ord a b < 0) ∧ (0 < cmp a b ↔ 0 < ord a b)

theorem Consistent.total (h : Consistent cmp l) {a b : α} (ha : a ∈ l) (hb : b ∈ l) :
    cmp a b ≤ 0 ∨ cmp b a ≤ 0 := by
  have := h.antisymm b hb a ha
  omega

theorem Agree.consistent (h : Agree cmp ord l) (hord : Consistent ord l) : Consistent cmp l where
  antisymm a ha b hb := by
    rw [(h a ha b hb).1, (h b hb a ha).2]
    exact hord.antisymm a ha b hb
  trans a ha b hb c hc hab hbc := by
    have hab' := (h a ha b hb).2
    have hbc' := (h b hb c hc).2
    have hac' := (h a ha c hc).2
    have := hord.trans a ha b hb c hc (by omega) (by omega)
    omega

theorem Agree.ascending (h : Agree cmp ord l) (hs : ∀ a ∈ s, a ∈ l) (hasc : Ascending cmp s) :
    Ascending ord s := by
  apply List.Pairwise.imp_of_mem _ hasc
  intro a b ha hb hle
  have := (h a (hs a ha) b (hs b hb)).2
  omega

/-- Elements that a total and transitive relation holds between can be brought into its order. -/
theorem exists_sorted (R : α → α → Prop) (l : List α) (htotal : ∀ a ∈ l, ∀ b ∈ l, R a b ∨ R b a)
    (htrans : ∀ a ∈ l, ∀ b ∈ l, ∀ c ∈ l, R a b → R b c → R a c) :
    ∃ s : List α, s.Perm l ∧ s.Pairwise R := by
  classical
  let le : {a // a ∈ l} → {a // a ∈ l} → Bool := fun a b => decide (R a.1 b.1)
  have hsorted : (l.attach.mergeSort le).Pairwise fun a b => le a b = true := by
    apply List.pairwise_mergeSort
    · intro a b c hab hbc
      have hac := htrans a.1 a.2 b.1 b.2 c.1 c.2 (of_decide_eq_true hab) (of_decide_eq_true hbc)
      exact decide_eq_true hac
    · intro a b
      rw [Bool.or_eq_true]
      exact (htotal a.1 a.2 b.1 b.2).imp decide_eq_true decide_eq_true
  refine ⟨(l.attach.mergeSort le).map Subtype.val, ?_, ?_⟩
  · have hperm := (List.mergeSort_perm l.attach le).map Subtype.val
    rwa [List.attach_map_subtype_val] at hperm
  · rw [List.pairwise_map]
    exact hsorted.imp of_decide_eq_true

theorem Consistent.exists_ascending (h : Consistent cmp l) :
    ∃ s : List α, s.Perm l ∧ Ascending cmp s :=
  exists_sorted (fun a b => cmp a b ≤ 0) l (fun _ ha _ hb => h.total ha hb) h.trans

/-- A list that `cmp` allows a sort to give. -/
def Sorted (cmp : α → α → ℤ) (l s : List α) : Prop :=
  s.Perm l ∧ (Consistent cmp l → Ascending cmp s)

theorem exists_sorted_of (cmp : α → α → ℤ) (l : List α) : ∃ s, Sorted cmp l s := by
  by_cases h : Consistent cmp l
  · rcases h.exists_ascending with ⟨s, hperm, hasc⟩
    exact ⟨s, hperm, fun _ => hasc⟩
  · exact ⟨l, .refl l, fun h' => absurd h' h⟩

/-- **What is sorted by one comparison is in the order of another exactly when** their signs agree.
Where the other has no difference the first has none either. -/
theorem ascending_iff_agree (hord : Consistent ord l)
    (hzero : ∀ a ∈ l, ∀ b ∈ l, ord a b = 0 → cmp a b = 0) :
    (∀ s, Sorted cmp l s → Ascending ord s) ↔ Agree cmp ord l := by
  constructor
  · intro h
    classical
    -- the order that `cmp` leaves, and where it leaves a choice the other way round
    let R : α → α → Prop := fun a b =>
      if Consistent cmp l then cmp a b < 0 ∨ cmp a b = 0 ∧ ord b a ≤ 0 else ord b a ≤ 0
    obtain ⟨s, hperm, hs⟩ : ∃ s : List α, s.Perm l ∧ s.Pairwise R := by
      apply exists_sorted R l
      · intro a ha b hb
        simp only [R]
        have htotal := hord.total ha hb
        split
        · rename_i hcmp
          have hab := hcmp.antisymm a ha b hb
          have hba := hcmp.antisymm b hb a ha
          omega
        · exact htotal.symm
      · intro a ha b hb c hc hab hbc
        simp only [R] at hab hbc ⊢
        have hcba := hord.trans c hc b hb a ha
        split at hab
        · rename_i hcmp
          rw [if_pos hcmp] at hbc ⊢
          have habc := hcmp.trans a ha b hb c hc
          have hcab := hcmp.trans c hc a ha b hb
          have hbca := hcmp.trans b hb c hc a ha
          have hab' := hcmp.antisymm a ha b hb
          have hba' := hcmp.antisymm b hb a ha
          have hbc' := hcmp.antisymm b hb c hc
          have hcb' := hcmp.antisymm c hc b hb
          have hac' := hcmp.antisymm a ha c hc
          have hca' := hcmp.antisymm c hc a ha
          omega
        · rename_i hcmp
          rw [if_neg hcmp] at hbc ⊢
          exact hcba hbc hab
    have hasc : Ascending ord s := by
      refine h s ⟨hperm, fun hcmp => hs.imp ?_⟩
      intro a b hab
      simp only [R, if_pos hcmp] at hab
      omega
    have hless : ∀ a ∈ l, ∀ b ∈ l, ord a b < 0 → Consistent cmp l ∧ cmp a b < 0 := by
      intro a ha b hb hlt
      have hgt := (hord.antisymm a ha b hb).mp hlt
      have hne : a ≠ b := by
        rintro rfl
        omega
      have hboth : s.Pairwise fun x y =>
          (R x y ∧ ord x y ≤ 0) ∨ R y x ∧ ord y x ≤ 0 := (hs.and hasc).imp .inl
      have : Std.Symm fun x y => (R x y ∧ ord x y ≤ 0) ∨ R y x ∧ ord y x ≤ 0 :=
        ⟨fun _ _ => Or.symm⟩
      rcases hboth.forall (hperm.mem_iff.mpr ha) (hperm.mem_iff.mpr hb) hne with
        ⟨hR, _⟩ | ⟨_, hle⟩
      · simp only [R] at hR
        split at hR
        · rename_i hcmp
          exact ⟨hcmp, by omega⟩
        · omega
      · omega
    intro a ha b hb
    have hab := hless a ha b hb
    have hba := hless b hb a ha
    have hz := hzero a ha b hb
    have hsign := hord.antisymm a ha b hb
    have hsign' := hord.antisymm b hb a ha
    rcases Int.lt_trichotomy (ord a b) 0 with hlt | heq | hgt
    · have := (hab hlt).2
      omega
    · have := hz heq
      omega
    · have hflip := hba (by omega)
      have := (hflip.1.antisymm b hb a ha).mp hflip.2
      omega
  · rintro hagree s ⟨hperm, hasc⟩
    exact hagree.ascending (fun a ha => hperm.mem_iff.mp ha) (hasc (hagree.consistent hord))

/-! ## Sorts whose comparison can fail -/

/-- How a sort ends: with the elements in order, or with an error of the comparison, which leaves
the memory with whatever is written there so far. -/
inductive Outcome (ε α : Type) where
  | done (s : List α)
  | thrown (e : ε) (left : List α)

/-- The number of a comparison that does not fail. -/
def value (compare : α → α → Except ε ℤ) (a b : α) : ℤ :=
  match compare a b with
  | .ok n => n
  | .error _ => 0

variable {compare : α → α → Except ε ℤ} {o : Outcome ε α}

/-- What is assumed of an end of a sort: the elements are in order where the comparison is
consistent, and only a comparison fails. -/
structure Allowed (compare : α → α → Except ε ℤ) (l : List α) (o : Outcome ε α) : Prop where
  done : (∀ a ∈ l, ∀ b ∈ l, ∃ n, compare a b = .ok n) →
    ∃ s, o = .done s ∧ Sorted (value compare) l s
  perm : ∀ s, o = .done s → s.Perm l
  thrown : ∀ e left, o = .thrown e left →
    left.length = l.length ∧ ∃ a ∈ l, ∃ b ∈ l, compare a b = .error e

def Correct (sort : (α → α → Except ε ℤ) → List α → Outcome ε α) : Prop :=
  ∀ compare l, Allowed compare l (sort compare l)

theorem Sorted.allowed {s : List α} (h : Sorted (value compare) l s) :
    Allowed compare l (.done s) := by
  refine ⟨fun _ => ⟨s, rfl, h⟩, ?_, ?_⟩
  · rintro s ⟨⟩
    exact h.1
  · rintro e left ⟨⟩

theorem exists_allowed (compare : α → α → Except ε ℤ) (l : List α) : ∃ o, Allowed compare l o := by
  by_cases hok : ∀ a ∈ l, ∀ b ∈ l, ∃ n, compare a b = .ok n
  · rcases exists_sorted_of (value compare) l with ⟨s, hs⟩
    exact ⟨.done s, hs.allowed⟩
  · obtain ⟨a, ha, b, hb, e, he⟩ : ∃ a ∈ l, ∃ b ∈ l, ∃ e, compare a b = .error e := by
      push Not at hok
      rcases hok with ⟨a, ha, b, hb, hnot⟩
      refine ⟨a, ha, b, hb, ?_⟩
      cases h : compare a b with
      | error e => exact ⟨e, rfl⟩
      | ok n => exact absurd h (hnot n)
    refine ⟨.thrown e l, fun h => absurd h hok, ?_, ?_⟩
    · rintro s ⟨⟩
    · rintro _ _ ⟨⟩
      exact ⟨rfl, a, ha, b, hb, he⟩

/-- A correct sort may end in any way that is allowed. -/
theorem exists_correct (h : Allowed compare l o) :
    ∃ sort : (α → α → Except ε ℤ) → List α → Outcome ε α, Correct sort ∧ sort compare l = o := by
  classical
  refine ⟨fun c l' => if c = compare ∧ l' = l then o else (exists_allowed c l').choose, ?_, ?_⟩
  · intro c l'
    dsimp only
    split
    · rename_i heq
      rw [heq.1, heq.2]
      exact h
    · exact (exists_allowed c l').choose_spec
  · exact if_pos ⟨rfl, rfl⟩

end Sorting
