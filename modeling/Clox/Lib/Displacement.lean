import Mathlib.Algebra.BigOperators.Group.Finset.Basic
import Clox.Lib.Probing

/-! # How far items are from home

In a ring of cells every item has a home, the cell at which searches for it start. The
displacement of the ring is the sum of the distances of its items from their homes: it is
what decreases when an item is taken out and put in again nearer to its home.
-/

namespace Probing

open Finset

/-- The steps from `h` to the cell `i`, in a ring of `n`. -/
def distance (n h i : ℕ) : ℕ := (i + (n - h % n)) % n

variable {α : Type} {n h i d : ℕ}

theorem slot_distance (hi : i < n) : slot n h (distance n h i) = i := by
  have hlt : h % n < n := Nat.mod_lt _ (by omega)
  have hsum : h % n + (i + (n - h % n)) = i + n := by omega
  rw [← slot_mod, slot, distance, Nat.add_mod_mod, hsum, Nat.add_mod_right, Nat.mod_eq_of_lt hi]

theorem distance_lt (hn : 0 < n) : distance n h i < n := Nat.mod_lt _ hn

theorem distance_slot (hd : d < n) : distance n h (slot n h d) = d := by
  have hn : 0 < n := by omega
  exact slot_inj (distance_lt hn) hd (slot_distance (slot_lt hn h d))

/-- Behind `h` the cells count up, in front of it they are a turn away. -/
theorem distance_eq (hh : h < n) (hi : i < n) :
    distance n h i = if h ≤ i then i - h else i + n - h := by
  unfold distance
  rw [Nat.mod_eq_of_lt hh]
  split
  · have hsum : i + (n - h) = i - h + n := by omega
    rw [hsum, Nat.add_mod_right, Nat.mod_eq_of_lt (by omega)]
  · have hsum : i + (n - h) = i + n - h := by omega
    rw [hsum, Nat.mod_eq_of_lt (by omega)]

/-- What a cell adds to the displacement. -/
def weight (home : α → ℕ) (n i : ℕ) : Option α → ℕ
  | none => 0
  | some a => distance n (home a) i

/-- The sum of the distances of all items from their homes. -/
def displacement (home : α → ℕ) (cells : List (Option α)) : ℕ :=
  ∑ i ∈ range cells.length, weight home cells.length i cells[i]?.join

variable (home : α → ℕ) {cells : List (Option α)} {a : α}

/-- A cell that changes changes its own part of the sum. -/
theorem displacement_set (hi : i < cells.length) (c : Option α) :
    displacement home (cells.set i c) + weight home cells.length i cells[i]?.join =
      displacement home cells + weight home cells.length i c := by
  unfold displacement
  have hmem : i ∈ range cells.length := mem_range.mpr hi
  have hrest : ∑ j ∈ (range cells.length).erase i,
        weight home cells.length j (cells.set i c)[j]?.join =
      ∑ j ∈ (range cells.length).erase i, weight home cells.length j cells[j]?.join := by
    refine sum_congr rfl ?_
    intro j hj
    rw [getElem?_set_of_ne (ne_of_mem_erase hj)]
  have hself : (cells.set i c)[i]?.join = c := by
    rw [List.getElem?_set_self hi, Option.join_some]
  rw [List.length_set, ← add_sum_erase _ _ hmem, hrest, hself,
    ← add_sum_erase _ (fun j => weight home cells.length j cells[j]?.join) hmem]
  omega

theorem displacement_clear (hi : cells[i]? = some (some a)) :
    displacement home (cells.set i none) + distance cells.length (home a) i =
      displacement home cells := by
  have hset := displacement_set home (List.getElem?_eq_some_iff.mp hi).1 none
  rw [hi] at hset
  exact hset

theorem displacement_put_le (hi : i < cells.length) :
    displacement home (cells.set i (some a)) ≤
      displacement home cells + distance cells.length (home a) i := by
  have hset := displacement_set home hi (some a)
  have hweight : weight home cells.length i (some a) = distance cells.length (home a) i := rfl
  omega

end Probing
