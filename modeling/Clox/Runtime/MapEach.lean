import Clox.Runtime.Table
import Mathlib.Data.List.ReduceOption
import Mathlib.Data.List.Perm.Subperm

/-! # Map#each

`lxMapEach` walks over the slots of the table with an index that is advanced in the body of the
loop and once more by `TABLE_FOREACH_IDX`. A block that continues jumps back to the `setjmp` in
front of the loop, where the index is compared with the number of entries.
-/

namespace Clox

open Probing

variable {κ ν : Type}

/-- How a call of the block ends. -/
inductive BlockEnd
  | returns
  | continues
  deriving DecidableEq, Repr

/-- The calls of the block from the slot `startIdx` on, when `calls` were made before; `slots` are
the slots that are left. -/
def eachSlot (count : ℕ) (ends : ℕ → BlockEnd) :
    (startIdx calls : ℕ) → (slots : List (Option (κ × ν))) → List (κ × ν)
  | _, _, [] => []
  | startIdx, calls, none :: slots => eachSlot count ends (startIdx + 1) calls slots
  | startIdx, calls, some e :: slots =>
    e :: match ends calls, slots with
      -- `startIdx++` in the body and `(idx)++` of the macro
      | .returns, [] => []
      | .returns, _ :: slots => eachSlot count ends (startIdx + 2) (calls + 1) slots
      -- back in `while (true)`
      | .continues, slots =>
        if startIdx + 1 = count then [] else eachSlot count ends (startIdx + 1) (calls + 1) slots

/-- `lxMapEach`: the pairs that the block is called with. The call number `n` ends by `ends n`. -/
def lxMapEach (ends : ℕ → BlockEnd) (map : Table κ ν) : List (κ × ν) :=
  if 0 = map.count then [] else eachSlot map.count ends 0 0 map.entries

/-- What the loop needs of the slots behind an entry in slot `i`. -/
def Reached (count i : ℕ) (behind : List (Option (κ × ν))) : BlockEnd → Prop
  | .returns => behind.head?.join = none
  | .continues => i + 1 = count → behind.reduceOption = []

/-- If a call returns, the slot behind its entry is free; if it continues, the entry is not in the
slot before the one that has the number of entries as its index, unless it is the last. -/
def Walkable (count : ℕ) (ends : ℕ → BlockEnd) (startIdx calls : ℕ)
    (slots : List (Option (κ × ν))) : Prop :=
  ∀ j e, slots[j]? = some (some e) →
    Reached count (startIdx + j) (slots.drop (j + 1)) (ends (calls + items (slots.take j)))

section Walk

variable {count startIdx calls : ℕ} {ends : ℕ → BlockEnd} {slots : List (Option (κ × ν))}

theorem walkable_nil : Walkable (κ := κ) (ν := ν) count ends startIdx calls [] := nofun

theorem walkable_cons {o : Option (κ × ν)} :
    Walkable count ends startIdx calls (o :: slots) ↔
      (∀ e, o = some e → Reached count startIdx slots (ends calls)) ∧
        Walkable count ends (startIdx + 1) (calls + items [o]) slots := by
  have hshift : ∀ j, items ((o :: slots).take (j + 1)) = items [o] + items (slots.take j) :=
    fun j => (List.countP_append : List.countP _ ([o] ++ _) = _)
  constructor
  · intro h
    refine ⟨fun e he => h 0 e (by rw [he]; rfl), fun j e he => ?_⟩
    have hj := h (j + 1) e he
    rwa [hshift, ← Nat.add_assoc, ← Nat.add_assoc, Nat.add_right_comm startIdx] at hj
  · rintro ⟨hfirst, hrest⟩ j e he
    cases j with
    | zero => exact hfirst e (Option.some.inj he)
    | succ j =>
      have hj := hrest j e he
      rwa [Nat.add_assoc, Nat.add_comm 1, Nat.add_assoc, ← hshift] at hj

theorem eachSlot_sublist (count : ℕ) (ends : ℕ → BlockEnd) (startIdx calls : ℕ)
    (slots : List (Option (κ × ν))) :
    (eachSlot count ends startIdx calls slots).Sublist slots.reduceOption := by
  fun_induction eachSlot count ends startIdx calls slots with
  | case1 => exact List.Sublist.refl _
  | case2 startIdx calls slots ih => simpa using ih
  | case3 startIdx calls e slots ih =>
    rw [List.reduceOption_cons_of_some]
    refine List.Sublist.cons_cons e ?_
    cases hends : ends calls with
    | returns =>
      cases slots with
      | nil => exact List.Sublist.refl _
      | cons o slots =>
        simp only [hends] at ih
        exact ih.trans (List.Sublist.filterMap id (List.sublist_cons_self o slots))
    | continues =>
      simp only [hends] at ih
      show (if startIdx + 1 = count then _ else _ : List (κ × ν)).Sublist _
      split
      · exact List.nil_sublist _
      · exact ih

/-- Every entry gets its call exactly if the loop can walk over the slots. -/
theorem eachSlot_eq_iff (count : ℕ) (ends : ℕ → BlockEnd) (startIdx calls : ℕ)
    (slots : List (Option (κ × ν))) :
    eachSlot count ends startIdx calls slots = slots.reduceOption ↔
      Walkable count ends startIdx calls slots := by
  fun_induction eachSlot count ends startIdx calls slots with
  | case1 => exact iff_of_true rfl walkable_nil
  | case2 startIdx calls slots ih =>
    rw [walkable_cons, List.reduceOption_cons_of_none, ih]
    simp [items]
  | case3 startIdx calls e slots ih =>
    rw [walkable_cons, List.reduceOption_cons_of_some, List.cons.injEq]
    cases hends : ends calls with
    | returns =>
      cases slots with
      | nil => exact iff_of_true ⟨rfl, rfl⟩ ⟨fun _ _ => rfl, walkable_nil⟩
      | cons o slots =>
        simp only [hends, true_and] at ih ⊢
        rw [walkable_cons]
        cases o with
        | none => simpa [hends, Reached, items] using ih
        | some e' =>
          -- the slot behind `e` is skipped, and there is an entry in it
          refine iff_of_false (fun h => ?_) fun h => ?_
          · have hle := (eachSlot_sublist count ends (startIdx + 2) (calls + 1) slots).length_le
            have hlen := congrArg List.length h
            simp at hlen
            omega
          · simpa [hends, Reached] using h.1
    | continues =>
      simp only [hends, true_and] at ih ⊢
      by_cases hcount : startIdx + 1 = count
      · -- the loop ends, so there must be no further entry
        simp only [hcount, if_true, Option.some.injEq, forall_eq', Reached, forall_const]
        constructor
        · intro h
          refine ⟨h.symm, fun j e' he' => ?_⟩
          have hmem : e' ∈ slots.reduceOption :=
            List.reduceOption_mem_iff.mpr (List.mem_of_getElem? he')
          rw [← h] at hmem
          cases hmem
        · exact fun h => h.1.symm
      · simpa [hends, Reached, hcount, items] using ih

end Walk

/-- `Map#each` calls the block once with each entry exactly if the loop can walk over the slots,
whatever the layout of the table. -/
theorem lxMapEach_once_iff (ends : ℕ → BlockEnd) (map : Table κ ν) :
    (lxMapEach ends map).Perm map.entries.reduceOption ↔
      (map.count = 0 → map.entries.reduceOption = []) ∧
        (map.count ≠ 0 → Walkable map.count ends 0 0 map.entries) := by
  unfold lxMapEach
  by_cases hcount : map.count = 0
  · rw [if_pos hcount.symm]
    constructor
    · intro h
      exact ⟨fun _ => h.nil_eq.symm, fun h₀ => absurd hcount h₀⟩
    · rintro ⟨h, -⟩
      rw [h hcount]
  · have hsub := eachSlot_sublist map.count ends 0 0 map.entries
    have hiff := eachSlot_eq_iff map.count ends 0 0 map.entries
    rw [if_neg (Ne.symm hcount)]
    constructor
    · intro h
      exact ⟨fun h₀ => absurd h₀ hcount, fun _ => hiff.mp (hsub.eq_of_length h.length_eq)⟩
    · rintro ⟨-, h⟩
      rw [hiff.mpr (h hcount)]

/-- The map `{6: .., 0: ..}`, whose keys are in the slots 1 and 3, and a block literal, which
continues each time: the second entry is not visited. -/
theorem lxMapEach_misses_entry :
    ¬ ∀ (ops : List (TableOp Unit ℕ ℕ)) (results : List (TableResult ℕ))
        (tables : Unit → Table ℕ ℕ) (ends : ℕ → BlockEnd),
      runTables Nat.beq (· + 3) (fun _ => initTable) ops = some (results, tables) →
        (lxMapEach ends (tables ())).Perm (tables ()).entries.reduceOption := by
  intro h
  have hperm := h [.set () 6 60, .set () 0 0] _ _ (fun _ => .continues) rfl
  have hlen := hperm.length_eq
  revert hlen
  decide

end Clox
