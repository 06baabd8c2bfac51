import Mathlib.Data.List.Basic

/-! # Copying one element after the other

A loop that writes to consecutive places of a list, where what it reads may depend on what it has
written: the source can be the list itself.
-/

namespace Copying

variable {α : Type}

/-- `for (; n > 0; k++, n--) l[i+k] = read(l, k);` -/
def copy (read : List α → ℕ → α) (i : ℕ) : (k n : ℕ) → List α → List α
  | _, 0, l => l
  | k, n + 1, l => copy read i (k + 1) n (l.set (i + k) (read l k))

/-- `l` with `f 0`, ..., `f (n - 1)` from `i` on. -/
def copied (f : ℕ → α) (i n : ℕ) (l : List α) : List α :=
  l.take i ++ (List.range n).map f ++ l.drop (i + n)

variable {read : List α → ℕ → α} {f : ℕ → α} {i k n : ℕ} {l : List α}

@[simp] theorem copied_zero (l : List α) : copied f i 0 l = l := by
  simp [copied]

theorem copied_succ (h : i + k < l.length) :
    (copied f i k l).set (i + k) (f k) = copied f i (k + 1) l := by
  have hlen : (l.take i ++ (List.range k).map f).length = i + k := by
    simp only [List.length_append, List.length_take, List.length_map, List.length_range]
    omega
  rw [copied, List.set_append_right _ _ (by omega), hlen, Nat.sub_self, List.drop_eq_getElem_cons h,
    List.set_cons_zero, copied, List.range_succ, List.map_append, ← Nat.add_assoc]
  simp

/-- Where each read gives what is to be copied, although the places before are written, the loop
copies. -/
theorem copy_eq (hread : ∀ j < n, read (copied f i j l) j = f j) (hroom : i + n ≤ l.length) :
    copy read i 0 n l = copied f i n l := by
  have hfrom : ∀ m k, k + m = n → copy read i k m (copied f i k l) = copied f i n l := by
    intro m
    induction m with
    | zero =>
      intro k hk
      rw [← hk]
      rfl
    | succ m ih =>
      intro k hk
      rw [copy, hread k (by omega), copied_succ (by omega)]
      exact ih (k + 1) (by omega)
  have hstart := hfrom n 0 (Nat.zero_add n)
  rwa [copied_zero] at hstart

/-- From another list. -/
theorem copy_other (hroom : i + n ≤ l.length) :
    copy (fun _ k => f k) i 0 n l = copied f i n l :=
  copy_eq (fun _ _ => rfl) hroom

theorem getElem?_copied (hroom : i + k ≤ l.length) (j : ℕ) :
    (copied f i k l)[j]? =
      if j < i then l[j]? else if j < i + k then some (f (j - i)) else l[j]? := by
  have hfront : (l.take i).length = i := List.length_take_of_le (by omega)
  rw [copied]
  by_cases hj : j < i
  · rw [if_pos hj, List.append_assoc, List.getElem?_append_left (by omega),
      List.getElem?_take_of_lt hj]
  · rw [if_neg hj]
    by_cases hk : j < i + k
    · have hlen : j - i < ((List.range k).map f).length := by
        simp only [List.length_map, List.length_range]
        omega
      rw [if_pos hk, List.append_assoc, List.getElem?_append_right (by omega), hfront,
        List.getElem?_append_left hlen, List.getElem?_map, List.getElem?_range (by omega)]
      rfl
    · have hlen : (l.take i ++ (List.range k).map f).length = i + k := by
        simp only [List.length_append, hfront, List.length_map, List.length_range]
      have hsum : i + k + (j - (i + k)) = j := by omega
      rw [if_neg hk, List.getElem?_append_right (by omega), hlen, List.getElem?_drop, hsum]

/-- From the list itself: behind `i` the elements before it are repeated. -/
theorem copy_self (d : α) (hroom : i + n ≤ l.length) :
    copy (fun l k => l.getD k d) i 0 n l = copied (fun k => l.getD (k % i) d) i n l := by
  apply copy_eq _ hroom
  intro j hj
  have hbound : i + j ≤ l.length := by omega
  simp only [List.getD_eq_getElem?_getD, getElem?_copied hbound]
  by_cases hji : j < i
  · rw [if_pos hji, Nat.mod_eq_of_lt hji]
  · rw [if_neg hji]
    by_cases hzero : i = 0
    · subst hzero
      rw [if_neg (by omega), Nat.mod_zero]
    · -- what is read was written `i` rounds ago
      rw [if_pos (by omega), Option.getD_some, ← Nat.mod_eq_sub_mod (by omega)]

end Copying
