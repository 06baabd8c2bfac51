import Mathlib.Data.List.Nodup
import Mathlib.Data.Nat.Bitwise
import Mathlib.Data.Nat.Find
import Mathlib.Data.Nat.ModEq

/-! # Linear probing

Cells in a ring, each empty or holding an item. A search starts at some cell and
stops at the first one that is empty or holds what is looked for (`Found`); it
ends whenever a cell is empty. The file says what filling and clearing a cell do
to searches, and when a search is not stopped on its way (`Reaches`).
-/

namespace Probing

variable {α : Type}

/-- The cell `d` steps behind `h`, in a ring of `n`. -/
def slot (n h d : ℕ) : ℕ := (h + d) % n

theorem slot_lt {n : ℕ} (hn : 0 < n) (h d : ℕ) : slot n h d < n := Nat.mod_lt _ hn

theorem slot_slot (n h d e : ℕ) : slot n (slot n h d) e = slot n h (d + e) := by
  rw [slot, slot, slot, Nat.mod_add_mod, Nat.add_assoc]

theorem slot_mod (n h d : ℕ) : slot n (h % n) d = slot n h d := Nat.mod_add_mod _ _ _

theorem slot_zero {n h : ℕ} (hh : h < n) : slot n h 0 = h := Nat.mod_eq_of_lt hh

/-- Every cell is reached within one turn. -/
theorem exists_slot {n i : ℕ} (h : ℕ) (hi : i < n) : ∃ d < n, slot n h d = i := by
  refine ⟨(i + (n - h % n)) % n, Nat.mod_lt _ (by omega), ?_⟩
  have hlt : h % n < n := Nat.mod_lt _ (by omega)
  rw [← slot_mod, slot, Nat.add_mod_mod]
  have hsum : h % n + (i + (n - h % n)) = i + n := by omega
  rw [hsum, Nat.add_mod_right, Nat.mod_eq_of_lt hi]

/-- Within one turn no cell is met twice. -/
theorem slot_inj {n h d e : ℕ} (hd : d < n) (he : e < n) (heq : slot n h d = slot n h e) :
    d = e := by
  have hmod : d ≡ e [MOD n] := Nat.ModEq.add_left_cancel' h heq
  rwa [Nat.ModEq, Nat.mod_eq_of_lt hd, Nat.mod_eq_of_lt he] at hmod

/-! ## Searching -/

/-- Probe the cells from `i` on, at most `fuel` of them; the ring is walked with a mask. -/
def search (stop : α → Bool) (cells : List (Option α)) : ℕ → ℕ → Option ℕ
  | 0, _ => none
  | fuel + 1, i =>
    match cells[i]? with
    | none => none
    | some none => some i
    | some (some a) =>
      if stop a then some i else search stop cells fuel ((i + 1) &&& (cells.length - 1))

/-- A search goes past the cell `i`. -/
def Passes (stop : α → Bool) (cells : List (Option α)) (i : ℕ) : Prop :=
  ∃ a, cells[i]? = some (some a) ∧ stop a = false

/-- A search from `h` stops at `i`. -/
def Found (stop : α → Bool) (cells : List (Option α)) (h i : ℕ) : Prop :=
  ∃ d, i = slot cells.length h d ∧ ¬ Passes stop cells i ∧
    ∀ e < d, Passes stop cells (slot cells.length h e)

variable {stop : α → Bool} {cells : List (Option α)} {h i j k : ℕ}

theorem Found.lt (hn : 0 < cells.length) (hf : Found stop cells h i) : i < cells.length := by
  obtain ⟨d, rfl, -⟩ := hf
  exact slot_lt hn h d

theorem Found.unique (hi : Found stop cells h i) (hj : Found stop cells h j) : i = j := by
  obtain ⟨d, rfl, hstop, hpass⟩ := hi
  obtain ⟨e, rfl, hstop', hpass'⟩ := hj
  rcases Nat.lt_trichotomy d e with hlt | rfl | hlt
  · exact absurd (hpass' d hlt) hstop
  · rfl
  · exact absurd (hpass e hlt) hstop'

theorem Found.congr {stop' : α → Bool} (hf : Found stop cells h i)
    (heq : ∀ a, stop' a = stop a) : Found stop' cells h i := by
  have : stop' = stop := funext heq
  exact this ▸ hf

/-- A search that meets an empty cell, or what it looks for, ends at it or before. -/
theorem exists_found_le {d : ℕ} (hstop : ¬ Passes stop cells (slot cells.length h d)) :
    ∃ e ≤ d, Found stop cells h (slot cells.length h e) ∧
      ∀ c < e, Passes stop cells (slot cells.length h c) := by
  classical
  have hex : ∃ e, ¬ Passes stop cells (slot cells.length h e) := ⟨d, hstop⟩
  have hpass : ∀ c < Nat.find hex, Passes stop cells (slot cells.length h c) := by
    intro c hc
    have := Nat.find_min hex hc
    rwa [not_not] at this
  exact ⟨Nat.find hex, Nat.find_min' hex hstop, ⟨_, rfl, Nat.find_spec hex, hpass⟩, hpass⟩

theorem exists_found (hk : cells[k]? = some none) : ∃ i, Found stop cells h i := by
  have hlt : k < cells.length := (List.getElem?_eq_some_iff.mp hk).1
  obtain ⟨d, -, hd⟩ := exists_slot h hlt
  have hstop : ¬ Passes stop cells (slot cells.length h d) := by
    rintro ⟨a, ha, -⟩
    rw [hd, hk] at ha
    cases ha
  obtain ⟨e, -, hf, -⟩ := exists_found_le hstop
  exact ⟨_, hf⟩

/-- The cells a search has gone past are no more than there are. -/
theorem Found.exists_lt (hn : 0 < cells.length) (hf : Found stop cells h i) :
    ∃ d < cells.length, i = slot cells.length h d ∧
      ∀ e < d, Passes stop cells (slot cells.length h e) := by
  obtain ⟨d, hi, hstop, hpass⟩ := hf
  refine ⟨d, ?_, hi, hpass⟩
  by_contra hge
  have hsame : slot cells.length h (d - cells.length) = slot cells.length h d := by
    rw [slot, slot]
    have : h + d = h + (d - cells.length) + cells.length := by omega
    rw [this, Nat.add_mod_right]
  have := hpass (d - cells.length) (by omega)
  rw [hsame, ← hi] at this
  exact hstop this

/-- In a ring of a power of two, the loop with the mask finds what a search finds. -/
theorem search_eq_some (hlen : cells.length = 2 ^ k) (hf : Found stop cells h i) :
    search stop cells cells.length (h &&& (cells.length - 1)) = some i := by
  have hn : 0 < cells.length := hlen ▸ Nat.two_pow_pos k
  obtain ⟨d, hd, rfl, hpass⟩ := hf.exists_lt hn
  have hstop := hf.choose_spec
  have hmask : ∀ m, m &&& (cells.length - 1) = m % cells.length := by
    intro m
    rw [hlen]
    exact Nat.and_two_pow_sub_one_eq_mod m k
  -- after `c` steps `d - c` are left
  have hgo : ∀ fuel c, c ≤ d → d < c + fuel →
      search stop cells fuel (slot cells.length h c) = some (slot cells.length h d) := by
    intro fuel
    induction fuel with
    | zero => intro c _ _; omega
    | succ fuel ih =>
      intro c hc hlt
      rcases Nat.lt_or_ge c d with hcd | hcd
      · obtain ⟨a, ha, hstopa⟩ := hpass c hcd
        rw [search, ha]
        have hnext : (slot cells.length h c + 1) &&& (cells.length - 1) =
            slot cells.length h (c + 1) := by
          rw [hmask]
          exact slot_slot _ h c 1
        simp only [hstopa, Bool.false_eq_true, if_false, hnext]
        exact ih (c + 1) hcd (by omega)
      · obtain rfl : c = d := by omega
        obtain ⟨e, he, hnot, -⟩ := hf
        have hlt' := slot_lt hn h c
        rw [search]
        cases hcell : cells[slot cells.length h c]? with
        | none =>
          rw [List.getElem?_eq_none_iff] at hcell
          omega
        | some cell =>
          cases cell with
          | none => rfl
          | some a =>
            have hstopa : stop a = true := by
              by_contra hne
              exact hnot ⟨a, hcell, by simpa using hne⟩
            simp [hstopa]
  rw [hmask]
  exact hgo cells.length 0 (Nat.zero_le d) (by omega)

/-! ## Changing a cell -/

/-- A cell a search has not looked at does not matter to it. -/
theorem Found.of_eq {cells' : List (Option α)} (hlen : cells'.length = cells.length)
    (hf : Found stop cells h i) (hi : Passes stop cells' i → Passes stop cells i)
    (hsame : ∀ k, k ≠ i → Passes stop cells k → Passes stop cells' k) :
    Found stop cells' h i := by
  obtain ⟨d, rfl, hstop, hpass⟩ := hf
  refine ⟨d, by rw [hlen], fun h' => hstop (hi h'), fun e he => ?_⟩
  rw [hlen]
  refine hsame _ (fun heq => ?_) (hpass e he)
  exact hstop (heq ▸ hpass e he)

theorem getElem?_set_of_ne {x : Option α} (hne : k ≠ j) : (cells.set j x)[k]? = cells[k]? :=
  List.getElem?_set_ne (Ne.symm hne)

/-- An empty cell is filled: searches that ended elsewhere are as they were. -/
theorem Found.fill {b : α} (hf : Found stop cells h i) (hj : cells[j]? = some none) (hne : i ≠ j) :
    Found stop (cells.set j (some b)) h i := by
  refine hf.of_eq (List.length_set ..) ?_ ?_
  · rintro ⟨a, ha, hstop⟩
    rw [getElem?_set_of_ne hne] at ha
    exact ⟨a, ha, hstop⟩
  · rintro k - ⟨a, ha, hstop⟩
    have hkj : k ≠ j := by
      rintro rfl
      rw [hj] at ha
      cases ha
    exact ⟨a, by rw [getElem?_set_of_ne hkj]; exact ha, hstop⟩

/-- What was put into the cell a search ended at is found there. -/
theorem Found.put {b : α} (hn : i < cells.length) (hf : Found stop cells h i) (hb : stop b = true) :
    Found stop (cells.set i (some b)) h i := by
  refine hf.of_eq (List.length_set ..) ?_ ?_
  · rintro ⟨a, ha, hstop⟩
    rw [List.getElem?_set_self hn] at ha
    obtain rfl := Option.some.inj (Option.some.inj ha)
    rw [hb] at hstop
    cases hstop
  · rintro k hk ⟨a, ha, hstop⟩
    exact ⟨a, by rw [getElem?_set_of_ne hk]; exact ha, hstop⟩

/-- A cell of a run of full cells is cleared: searches that ended outside the rest of the run are
as they were. -/
theorem Found.clear {a : α} {m : ℕ} (hi : cells[i]? = some (some a))
    (hend : cells[slot cells.length j m]? = some none)
    (hout : ∀ e < m, i ≠ slot cells.length j e) (hj : j < cells.length) (hm : 0 < m)
    (hf : Found stop cells h i) : Found stop (cells.set j none) h i := by
  obtain ⟨d, rfl, hstop, hpass⟩ := hf
  have hne : slot cells.length h d ≠ j := by
    have := hout 0 hm
    rwa [slot_zero hj] at this
  -- the search has not been at `j`: from there it would have met the end of the run
  have hpath : ∀ e < d, slot cells.length h e ≠ j := by
    intro e he heq
    have hsteps : ∀ c, slot cells.length j c = slot cells.length h (e + c) := by
      intro c
      rw [← heq, slot_slot]
    rcases Nat.lt_or_ge (d - e) m with hlt | hge
    · refine hout (d - e) hlt ?_
      rw [hsteps, Nat.add_sub_cancel' he.le]
    · rcases Nat.eq_or_lt_of_le hge with hm' | hlt
      · rw [hsteps, hm', Nat.add_sub_cancel' he.le, hi] at hend
        cases hend
      · obtain ⟨b, hb, -⟩ := hpass (e + m) (by omega)
        rw [hsteps, hb] at hend
        cases hend
  refine ⟨d, by rw [List.length_set], ?_, ?_⟩
  · rintro ⟨b, hb, hstop'⟩
    rw [getElem?_set_of_ne hne] at hb
    exact hstop ⟨b, hb, hstop'⟩
  · intro e he
    obtain ⟨b, hb, hstop'⟩ := hpass e he
    rw [List.length_set]
    exact ⟨b, by rw [getElem?_set_of_ne (hpath e he)]; exact hb, hstop'⟩

/-- From the home of an item to its cell there is no step onto the cell `last`. -/
def Reaches (cells : List (Option α)) (h i last : ℕ) : Prop :=
  ∃ d, i = slot cells.length h d ∧ ∀ e < d, slot cells.length h e ≠ last

theorem Found.reaches {last : ℕ} (hlast : cells[last]? = some none)
    (hf : Found stop cells h i) : Reaches cells h i last := by
  obtain ⟨d, hi, -, hpass⟩ := hf
  refine ⟨d, hi, fun e he heq => ?_⟩
  obtain ⟨a, ha, -⟩ := hpass e he
  rw [heq, hlast] at ha
  cases ha

/-- A search that can reach an empty cell ends there or in front of it. -/
theorem Reaches.found {last : ℕ} (hr : Reaches cells h i last) (hi : cells[i]? = some none)
    (hne : i ≠ last) : ∃ j, Found stop cells h j ∧ j ≠ last := by
  obtain ⟨d, rfl, hpath⟩ := hr
  have hstop : ¬ Passes stop cells (slot cells.length h d) := by
    rintro ⟨a, ha, -⟩
    rw [hi] at ha
    cases ha
  obtain ⟨e, hle, hf, -⟩ := exists_found_le hstop
  refine ⟨_, hf, ?_⟩
  rcases Nat.eq_or_lt_of_le hle with rfl | hlt
  · exact hne
  · exact hpath e hlt

/-! ## Keyed cells -/

variable {κ ν : Type}

/-- An equality of keys that agrees with their hashes. -/
structure LawfulKeys (eq : κ → κ → Bool) (hash : κ → ℕ) : Prop where
  refl : ∀ a, eq a a = true
  symm : ∀ {a b}, eq a b = true → eq b a = true
  trans : ∀ {a b c}, eq a b = true → eq b c = true → eq a c = true
  hash_eq : ∀ {a b}, eq a b = true → hash a = hash b

namespace LawfulKeys

variable {eq : κ → κ → Bool} {hash : κ → ℕ}

theorem eq_comm (hk : LawfulKeys eq hash) (a b : κ) : eq a b = eq b a := by
  by_cases hab : eq a b = true
  · rw [hab, hk.symm hab]
  · by_cases hba : eq b a = true
    · exact absurd (hk.symm hba) hab
    · simp_all

theorem eq_congr (hk : LawfulKeys eq hash) {a b : κ} (hab : eq a b = true) (c : κ) :
    eq c a = eq c b := by
  by_cases hca : eq c a = true
  · rw [hca, hk.trans hca hab]
  · by_cases hcb : eq c b = true
    · exact absurd (hk.trans hcb (hk.symm hab)) hca
    · simp_all

end LawfulKeys

section Keyed

variable (eq : κ → κ → Bool) (hash : κ → ℕ)

/-- A search for `key`. -/
abbrev Finds (cells : List (Option (κ × ν))) (key : κ) (i : ℕ) : Prop :=
  Found (fun a => eq a.1 key) cells (hash key) i

/-- The items outside `pending` are where a search for their key ends. -/
def Placed (cells : List (Option (κ × ν))) (pending : ℕ → Prop) : Prop :=
  ∀ i a, cells[i]? = some (some a) → ¬ pending i → Finds eq hash cells a.1 i

/-- No two items have the same key. -/
def Distinct (cells : List (Option (κ × ν))) : Prop :=
  ∀ (i j : ℕ) (a b : κ × ν), cells[i]? = some (some a) → cells[j]? = some (some b) →
    eq a.1 b.1 = true → i = j

/-- The value of each key is that of the item with an equal key. -/
def Represents (cells : List (Option (κ × ν))) (m : κ → Option ν) : Prop :=
  ∀ key v, m key = some v ↔ ∃ (i : ℕ) (k : κ), cells[i]? = some (some (k, v)) ∧ eq k key = true

variable {eq hash} {cells : List (Option (κ × ν))} {pending : ℕ → Prop} {i j : ℕ}

theorem Finds.congr_key (hk : LawfulKeys eq hash) {key key' : κ} (hkey : eq key key' = true)
    (hf : Finds eq hash cells key i) : Finds eq hash cells key' i := by
  unfold Finds at hf ⊢
  rw [← hk.hash_eq hkey]
  exact hf.congr fun a => (hk.eq_congr hkey a.1).symm

theorem Placed.distinct (hk : LawfulKeys eq hash)
    (hp : Placed eq hash cells fun _ => False) : Distinct eq cells := by
  intro i j a b hi hj hab
  exact ((hp i a hi id).congr_key hk hab).unique (hp j b hj id)

/-- A search ends at the item that has the key. -/
theorem Placed.finds (hk : LawfulKeys eq hash) (hp : Placed eq hash cells fun _ => False)
    {a : κ × ν} {key : κ} (hi : cells[i]? = some (some a)) (hkey : eq a.1 key = true) :
    Finds eq hash cells key i := (hp i a hi id).congr_key hk hkey

/-- Another equality and another hash that agree with the first ones on the items. -/
theorem Placed.congr {eq' : κ → κ → Bool} {hash' : κ → ℕ}
    (hp : Placed eq hash cells fun _ => False)
    (heq : ∀ a b, some a ∈ cells → some b ∈ cells → eq' a.1 b.1 = eq a.1 b.1)
    (hhash : ∀ a, some a ∈ cells → hash' a.1 = hash a.1) :
    Placed eq' hash' cells fun _ => False := by
  intro i a hi hnot
  have ha : some a ∈ cells := List.mem_of_getElem? hi
  obtain ⟨d, hid, hstop, hpass⟩ := hp i a hi hnot
  refine ⟨d, by rw [hhash a ha]; exact hid, ?_, fun e he => ?_⟩
  · rintro ⟨b, hb, hne⟩
    exact hstop ⟨b, hb, (heq b a (List.mem_of_getElem? hb) ha).symm.trans hne⟩
  · obtain ⟨b, hb, hne⟩ := hpass e he
    rw [hhash a ha]
    exact ⟨b, hb, (heq b a (List.mem_of_getElem? hb) ha).trans hne⟩

/-- An item is put into the empty cell a search for its key ended at. -/
theorem Placed.insert (hk : LawfulKeys eq hash) (hp : Placed eq hash cells pending)
    (hi : cells[i]? = some none) {a : κ × ν} (hf : Finds eq hash cells a.1 i) :
    Placed eq hash (cells.set i (some a)) pending := by
  have hlt : i < cells.length := (List.getElem?_eq_some_iff.mp hi).1
  intro k b hb hnot
  by_cases hki : k = i
  · subst hki
    rw [List.getElem?_set_self hlt] at hb
    obtain rfl := Option.some.inj (Option.some.inj hb)
    exact hf.put hlt (hk.refl _)
  · rw [getElem?_set_of_ne hki] at hb
    exact (hp k b hb hnot).fill hi hki

/-- What is in a ring after an item has been taken out. -/
theorem getElem?_clear {c : ℕ} {b : κ × ν} (hj : j < cells.length) :
    (cells.set j none)[c]? = some (some b) ↔ c ≠ j ∧ cells[c]? = some (some b) := by
  by_cases hcj : c = j
  · subst hcj
    simp [hj]
  · rw [getElem?_set_of_ne hcj]
    simp [hcj]

theorem Distinct.clear (hd : Distinct eq cells) (hj : j < cells.length) :
    Distinct eq (cells.set j none) := by
  intro c c' a b hc hc' hab
  exact hd c c' a b ((getElem?_clear hj).mp hc).2 ((getElem?_clear hj).mp hc').2 hab

theorem Distinct.insert (hk : LawfulKeys eq hash) (hd : Distinct eq cells)
    (hlt : i < cells.length) {a : κ × ν}
    (hnew : ∀ j b, j ≠ i → cells[j]? = some (some b) → eq b.1 a.1 = false) :
    Distinct eq (cells.set i (some a)) := by
  intro j k b c hb hc hbc
  by_cases hji : j = i <;> by_cases hki : k = i
  · rw [hji, hki]
  · subst hji
    rw [List.getElem?_set_self hlt] at hb
    rw [getElem?_set_of_ne hki] at hc
    obtain rfl := Option.some.inj (Option.some.inj hb)
    rw [hk.eq_comm, hnew k c hki hc] at hbc
    cases hbc
  · subst hki
    rw [List.getElem?_set_self hlt] at hc
    rw [getElem?_set_of_ne hji] at hb
    obtain rfl := Option.some.inj (Option.some.inj hc)
    rw [hnew j b hji hb] at hbc
    cases hbc
  · rw [getElem?_set_of_ne hji] at hb
    rw [getElem?_set_of_ne hki] at hc
    exact hd j k b c hb hc hbc

/-- The value of an item is replaced, with its key by an equal one. -/
theorem Placed.replace (hk : LawfulKeys eq hash) (hp : Placed eq hash cells pending)
    {a b : κ × ν} (hi : cells[i]? = some (some a)) (hab : eq a.1 b.1 = true)
    (hf : Finds eq hash cells b.1 i) : Placed eq hash (cells.set i (some b)) pending := by
  have hlt : i < cells.length := (List.getElem?_eq_some_iff.mp hi).1
  intro k c hc hnot
  by_cases hki : k = i
  · subst hki
    rw [List.getElem?_set_self hlt] at hc
    obtain rfl := Option.some.inj (Option.some.inj hc)
    exact hf.put hlt (hk.refl _)
  · rw [getElem?_set_of_ne hki] at hc
    refine (hp k c hc hnot).of_eq (List.length_set ..) ?_ ?_
    · rintro ⟨d, hd, hstop⟩
      rw [getElem?_set_of_ne hki] at hd
      exact ⟨d, hd, hstop⟩
    · rintro l - ⟨d, hd, hstop⟩
      by_cases hli : l = i
      · subst hli
        rw [hi] at hd
        obtain rfl := Option.some.inj (Option.some.inj hd)
        refine ⟨b, List.getElem?_set_self hlt, ?_⟩
        change eq b.1 c.1 = false
        rw [hk.eq_comm, ← hk.eq_congr hab c.1, hk.eq_comm]
        exact hstop
      · exact ⟨d, by rw [getElem?_set_of_ne hli]; exact hd, hstop⟩

/-! ### What the cells represent -/

/-- `key` has the value `v`, and so have the keys equal to it. -/
def assign (eq : κ → κ → Bool) (key : κ) (v : ν) (m : κ → Option ν) : κ → Option ν :=
  fun k => if eq key k then some v else m k

/-- `key` has no value, nor have the keys equal to it. -/
def erase (eq : κ → κ → Bool) (key : κ) (m : κ → Option ν) : κ → Option ν :=
  fun k => if eq key k then none else m k

variable {m : κ → Option ν} {key : κ} {v : ν}

theorem Represents.eq_none_iff (hr : Represents eq cells m) :
    m key = none ↔ ∀ (i : ℕ) (a : κ × ν), cells[i]? = some (some a) → eq a.1 key = false := by
  constructor
  · intro hnone i a ha
    by_contra hne
    have := (hr key a.2).mpr ⟨i, a.1, ha, by simpa using hne⟩
    rw [hnone] at this
    cases this
  · intro hall
    cases hm : m key with
    | none => rfl
    | some v =>
      obtain ⟨i, k, hi, hkey⟩ := (hr key v).mp hm
      rw [hall i _ hi] at hkey
      cases hkey

/-- Items of different keys stand for some map. -/
theorem Distinct.exists_represents (hk : LawfulKeys eq hash) (hd : Distinct eq cells) :
    ∃ m, Represents eq cells m := by
  classical
  let Holds (key : κ) (v : ν) : Prop :=
    ∃ (i : ℕ) (k : κ), cells[i]? = some (some (k, v)) ∧ eq k key = true
  -- two items with a key equal to `key` are one
  have hone : ∀ key v v', Holds key v → Holds key v' → v = v' := by
    rintro key v v' ⟨i, k, hi, hkey⟩ ⟨j, l, hj, hkey'⟩
    obtain rfl := hd i j _ _ hi hj (hk.trans hkey (hk.symm hkey'))
    rw [hi] at hj
    cases hj
    rfl
  have hvalue : ∀ key, ∃ res : Option ν, ∀ v, res = some v ↔ Holds key v := by
    intro key
    by_cases h : ∃ v, Holds key v
    · obtain ⟨v, hv⟩ := h
      refine ⟨some v, fun v' => ⟨?_, fun hv' => congrArg some (hone key v v' hv hv')⟩⟩
      rintro ⟨⟩
      exact hv
    · refine ⟨none, fun v => ⟨fun hv => ?_, fun hv => absurd ⟨v, hv⟩ h⟩⟩
      cases hv
  choose m hm using hvalue
  exact ⟨m, hm⟩

/-- The search for a key ended at an empty cell: it has no value. -/
theorem Represents.eq_none (hk : LawfulKeys eq hash) (hp : Placed eq hash cells fun _ => False)
    (hr : Represents eq cells m) (hf : Finds eq hash cells key i) (hi : cells[i]? = some none) :
    m key = none := by
  rw [hr.eq_none_iff]
  intro j a ha
  by_contra hkey
  have hij := hf.unique (hp.finds hk ha (by simpa using hkey))
  rw [← hij, hi] at ha
  cases ha

/-- The search for a key ended at an item: its value is the key's. -/
theorem Represents.eq_some (hr : Represents eq cells m) (hf : Finds eq hash cells key i)
    {a : κ × ν} (hi : cells[i]? = some (some a)) : eq a.1 key = true ∧ m key = some a.2 := by
  have hkey : eq a.1 key = true := by
    by_contra hne
    obtain ⟨d, -, hstop, -⟩ := hf
    exact hstop ⟨a, hi, by simpa using hne⟩
  exact ⟨hkey, (hr key a.2).mpr ⟨i, a.1, hi, hkey⟩⟩

/-- An item is put into a cell no other item of its key is in. -/
theorem Represents.put (hk : LawfulKeys eq hash) (hr : Represents eq cells m)
    (hlt : i < cells.length)
    (hold : ∀ a, cells[i]? = some (some a) → eq a.1 key = true)
    (hother : ∀ (j : ℕ) (a : κ × ν), j ≠ i → cells[j]? = some (some a) → eq a.1 key = false) :
    Represents eq (cells.set i (some (key, v))) (assign eq key v m) := by
  intro k u
  unfold assign
  by_cases hkey : eq key k = true
  · rw [if_pos hkey]
    constructor
    · intro hu
      obtain rfl := Option.some.inj hu
      exact ⟨i, key, List.getElem?_set_self hlt, hkey⟩
    · rintro ⟨j, c, hj, hc⟩
      by_cases hji : j = i
      · rw [hji, List.getElem?_set_self hlt] at hj
        obtain ⟨rfl, rfl⟩ := Prod.mk.inj (Option.some.inj (Option.some.inj hj))
        rfl
      · rw [getElem?_set_of_ne hji] at hj
        have hne := hother j _ hji hj
        rw [hk.trans hc (hk.symm hkey)] at hne
        cases hne
  · rw [if_neg hkey, hr k u]
    constructor
    · rintro ⟨j, c, hj, hc⟩
      have hji : j ≠ i := by
        rintro rfl
        exact hkey (hk.trans (hk.symm (hold _ hj)) hc)
      exact ⟨j, c, by rw [getElem?_set_of_ne hji]; exact hj, hc⟩
    · rintro ⟨j, c, hj, hc⟩
      by_cases hji : j = i
      · rw [hji, List.getElem?_set_self hlt] at hj
        obtain ⟨rfl, rfl⟩ := Prod.mk.inj (Option.some.inj (Option.some.inj hj))
        exact absurd hc hkey
      · rw [getElem?_set_of_ne hji] at hj
        exact ⟨j, c, hj, hc⟩

/-- An item is taken out. -/
theorem Represents.clear (hk : LawfulKeys eq hash) (hd : Distinct eq cells)
    (hr : Represents eq cells m) {a : κ × ν} (hi : cells[i]? = some (some a)) :
    Represents eq (cells.set i none) (erase eq a.1 m) := by
  have hlt : i < cells.length := (List.getElem?_eq_some_iff.mp hi).1
  intro k u
  unfold erase
  by_cases hkey : eq a.1 k = true
  · rw [if_pos hkey]
    constructor
    · intro hu
      cases hu
    · rintro ⟨j, c, hj, hc⟩
      by_cases hji : j = i
      · rw [hji, List.getElem?_set_self hlt] at hj
        cases hj
      · rw [getElem?_set_of_ne hji] at hj
        exact absurd (hd j i _ _ hj hi (hk.trans hc (hk.symm hkey))) hji
  · rw [if_neg hkey, hr k u]
    constructor
    · rintro ⟨j, c, hj, hc⟩
      have hji : j ≠ i := by
        rintro rfl
        rw [hi] at hj
        obtain rfl := Option.some.inj (Option.some.inj hj)
        exact hkey hc
      exact ⟨j, c, by rw [getElem?_set_of_ne hji]; exact hj, hc⟩
    · rintro ⟨j, c, hj, hc⟩
      by_cases hji : j = i
      · rw [hji, List.getElem?_set_self hlt] at hj
        cases hj
      · rw [getElem?_set_of_ne hji] at hj
        exact ⟨j, c, hj, hc⟩

/-- An item that is taken out and put in again has not changed anything. -/
theorem assign_erase (hr : Represents eq cells m) {a : κ × ν} (hi : cells[i]? = some (some a)) :
    assign eq a.1 a.2 (erase eq a.1 m) = m := by
  funext k
  unfold assign erase
  by_cases hkey : eq a.1 k = true
  · rw [if_pos hkey, (hr k a.2).mpr ⟨i, a.1, hi, hkey⟩]
  · rw [if_neg hkey, if_neg hkey]

/-! ### The cluster behind a cell

The items behind a cleared cell, up to the next empty one, may not be found any more. They
are taken out and put in again one by one; meanwhile all other items are found. -/

/-- The `m` cells from `j` on, full and followed by an empty one. -/
structure Cluster (eq : κ → κ → Bool) (hash : κ → ℕ) (cells : List (Option (κ × ν)))
    (j m : ℕ) : Prop where
  lt : j < cells.length
  full : ∀ e < m, ∃ a, cells[slot cells.length j e]? = some (some a)
  last : cells[slot cells.length j m]? = some none
  distinct : Distinct eq cells
  placed : Placed eq hash cells fun i => ∃ e < m, i = slot cells.length j e
  reaches : ∀ (i : ℕ) (a : κ × ν), cells[i]? = some (some a) →
    Reaches cells (hash a.1) i (slot cells.length j m)

variable {n : ℕ}

/-- The cluster behind a cell of a ring that has an empty cell. -/
theorem exists_cluster (hk : LawfulKeys eq hash) (hp : Placed eq hash cells fun _ => False)
    (hj : j < cells.length) (hempty : ∃ k : ℕ, cells[k]? = some none) :
    ∃ n, Cluster eq hash cells j n := by
  classical
  obtain ⟨k, hk'⟩ := hempty
  have hlt : k < cells.length := (List.getElem?_eq_some_iff.mp hk').1
  obtain ⟨d, -, hd⟩ := exists_slot j hlt
  have hex : ∃ d, cells[slot cells.length j d]? = some none := ⟨d, by rw [hd]; exact hk'⟩
  refine ⟨Nat.find hex, hj, fun e he => ?_, Nat.find_spec hex, hp.distinct hk, ?_, ?_⟩
  · have hmin := Nat.find_min hex he
    have hin := slot_lt (by omega) j e (n := cells.length)
    cases hcell : cells[slot cells.length j e]? with
    | none =>
      rw [List.getElem?_eq_none_iff] at hcell
      omega
    | some cell =>
      cases cell with
      | none => exact absurd hcell hmin
      | some a => exact ⟨a, rfl⟩
  · intro i a ha _
    exact hp i a ha id
  · intro i a ha
    exact (hp i a ha id).reaches (Nat.find_spec hex)

namespace Cluster

/-- A cluster is shorter than the ring. -/
theorem length_lt (hc : Cluster eq hash cells j n) : n < cells.length := by
  by_contra hge
  have hlt := hc.lt
  have hback : slot cells.length j (n - cells.length) = slot cells.length j n := by
    rw [slot, slot]
    have : j + n = j + (n - cells.length) + cells.length := by omega
    rw [this, Nat.add_mod_right]
  obtain ⟨a, ha⟩ := hc.full (n - cells.length) (by omega)
  rw [hback, hc.last] at ha
  cases ha

theorem ne_last (hc : Cluster eq hash cells j n) {e : ℕ} (he : e < n) :
    slot cells.length j e ≠ slot cells.length j n := by
  intro heq
  have := slot_inj (by have := hc.length_lt; omega) hc.length_lt heq
  omega

/-- The first item of a cluster is taken out. -/
theorem clear (hc : Cluster eq hash cells j (n + 1)) :
    Cluster eq hash (cells.set j none) (slot cells.length j 1) n := by
  have hlen := hc.length_lt
  have hlt := hc.lt
  have hzero : slot cells.length j 0 = j := slot_zero hc.lt
  have hstep : ∀ e, slot cells.length (slot cells.length j 1) e = slot cells.length j (e + 1) := by
    intro e
    rw [slot_slot, Nat.add_comm]
  have hne : ∀ e, e < n + 1 → slot cells.length j (e + 1) ≠ j := by
    intro e he heq
    rw [← hzero, slot_slot, Nat.zero_add] at heq
    have := slot_inj (by omega) (by omega) heq
    omega
  refine ⟨?_, ?_, ?_, ?_, ?_, ?_⟩
  · rw [List.length_set]
    exact slot_lt (by omega) j 1
  · intro e he
    rw [List.length_set, hstep, getElem?_set_of_ne (hne e (by omega))]
    exact hc.full (e + 1) (by omega)
  · rw [List.length_set, hstep, getElem?_set_of_ne (hne n (by omega))]
    exact hc.last
  · exact hc.distinct.clear hlt
  · intro i a hi hout
    have hij : i ≠ j := by
      rintro rfl
      rw [List.getElem?_set_self hlt] at hi
      cases hi
    rw [getElem?_set_of_ne hij] at hi
    -- an item outside the rest of the cluster is outside the cluster
    have hout' : ∀ e < n + 1, i ≠ slot cells.length j e := by
      intro e he heq
      cases e with
      | zero => exact hij (by rw [heq, hzero])
      | succ e =>
        refine hout ⟨e, by omega, ?_⟩
        rw [List.length_set, hstep]
        exact heq
    have hf := hc.placed i a hi fun ⟨e, he, heq⟩ => hout' e he heq
    exact hf.clear hi hc.last hout' hlt (by omega)
  · intro i a hi
    have hij : i ≠ j := by
      rintro rfl
      rw [List.getElem?_set_self hlt] at hi
      cases hi
    rw [getElem?_set_of_ne hij] at hi
    obtain ⟨d, hd, hpath⟩ := hc.reaches i a hi
    refine ⟨d, by rw [List.length_set]; exact hd, ?_⟩
    rw [List.length_set, hstep]
    exact hpath

/-- The item just taken out is put in again where the search for its key ends: in a cell
other than the one behind the cluster. -/
theorem insert (hk : LawfulKeys eq hash) (hc : Cluster eq hash cells j n) {a : κ × ν}
    (hi : cells[i]? = some none) (hne : i ≠ slot cells.length j n)
    (hf : Finds eq hash cells a.1 i)
    (hnew : ∀ (l : ℕ) (b : κ × ν), cells[l]? = some (some b) → eq b.1 a.1 = false) :
    Cluster eq hash (cells.set i (some a)) j n := by
  have hlt : i < cells.length := (List.getElem?_eq_some_iff.mp hi).1
  refine ⟨?_, ?_, ?_, hc.distinct.insert hk hlt fun l b _ hb => hnew l b hb, ?_, ?_⟩
  · rw [List.length_set]
    exact hc.lt
  · intro e he
    rw [List.length_set]
    obtain ⟨b, hb⟩ := hc.full e he
    have hei : slot cells.length j e ≠ i := by
      intro heq
      rw [heq, hi] at hb
      cases hb
    exact ⟨b, by rw [getElem?_set_of_ne hei]; exact hb⟩
  · rw [List.length_set, getElem?_set_of_ne (Ne.symm hne)]
    exact hc.last
  · rw [List.length_set]
    exact hc.placed.insert hk hi hf
  · intro l b hl
    rw [List.length_set]
    have hold : Reaches cells (hash b.1) l (slot cells.length j n) := by
      by_cases hli : l = i
      · subst hli
        rw [List.getElem?_set_self hlt] at hl
        obtain rfl := Option.some.inj (Option.some.inj hl)
        exact hf.reaches hc.last
      · rw [getElem?_set_of_ne hli] at hl
        exact hc.reaches l b hl
    obtain ⟨d, hd, hpath⟩ := hold
    exact ⟨d, by rw [List.length_set]; exact hd, by rw [List.length_set]; exact hpath⟩

/-- The item taken out is searched at an empty cell, and not at the one behind the cluster: on
the way from its home to its cell there was none. -/
theorem find_cleared (hc : Cluster eq hash cells j (n + 1))
    {a : κ × ν} (ha : cells[j]? = some (some a)) :
    ∃ i, Finds eq hash (cells.set j none) a.1 i ∧ (cells.set j none)[i]? = some none ∧
      i ≠ slot (cells.set j none).length (slot cells.length j 1) n := by
  have hlast : slot cells.length (slot cells.length j 1) n = slot cells.length j (n + 1) := by
    rw [slot_slot, Nat.add_comm]
  rw [List.length_set, hlast]
  have hreach : Reaches (cells.set j none) (hash a.1) j (slot cells.length j (n + 1)) := by
    obtain ⟨d, hd, hpath⟩ := hc.reaches j a ha
    exact ⟨d, by rw [List.length_set]; exact hd, by rw [List.length_set]; exact hpath⟩
  have hne : j ≠ slot cells.length j (n + 1) := by
    have := hc.ne_last (Nat.succ_pos n)
    rwa [slot_zero hc.lt] at this
  obtain ⟨i, hf, hi⟩ : ∃ i, Finds eq hash (cells.set j none) a.1 i ∧
      i ≠ slot cells.length j (n + 1) := hreach.found (List.getElem?_set_self hc.lt) hne
  refine ⟨i, hf, ?_, hi⟩
  have hlt : i < (cells.set j none).length :=
    hf.lt (by rw [List.length_set]; exact Nat.lt_of_le_of_lt (Nat.zero_le j) hc.lt)
  cases hcell : (cells.set j none)[i]? with
  | none =>
    rw [List.getElem?_eq_none_iff] at hcell
    omega
  | some cell =>
    cases cell with
    | none => rfl
    | some b =>
      -- the only item with the key is no longer there
      obtain ⟨d, -, hstop, -⟩ := hf
      have hij : i ≠ j := by
        rintro rfl
        rw [List.getElem?_set_self hc.lt] at hcell
        cases hcell
      have hb := hcell
      rw [getElem?_set_of_ne hij] at hb
      refine absurd ⟨b, hcell, ?_⟩ hstop
      by_contra hne'
      exact hij (hc.distinct i j b a hb ha (by simpa using hne'))

/-- Once the cluster is used up every item is found. -/
theorem placed_of_zero (hc : Cluster eq hash cells j 0) :
    Placed eq hash cells fun _ => False := by
  intro i a ha _
  exact hc.placed i a ha fun ⟨e, he, _⟩ => absurd he (Nat.not_lt_zero e)

end Cluster

/-! ### The number of items -/

/-- The number of full cells. -/
def items (cells : List (Option (κ × ν))) : ℕ := cells.countP Option.isSome

theorem items_fill (hi : cells[i]? = some none) (a : κ × ν) :
    items (cells.set i (some a)) = items cells + 1 := by
  obtain ⟨hlt, hcell⟩ := List.getElem?_eq_some_iff.mp hi
  rw [items, List.countP_set hlt, hcell]
  simp [items]

theorem mem_fill (hi : cells[i]? = some none) (a b : κ × ν) :
    some b ∈ cells.set i (some a) ↔ b = a ∨ some b ∈ cells := by
  obtain ⟨hlt, hcell⟩ := List.getElem?_eq_some_iff.mp hi
  constructor
  · intro hb
    obtain hb | hb := List.mem_or_eq_of_mem_set hb
    · exact .inr hb
    · exact .inl (Option.some.inj hb)
  · rintro (rfl | hb)
    · exact List.mem_set hlt _
    · obtain ⟨j, hj⟩ := List.getElem?_of_mem hb
      have hji : j ≠ i := by
        rintro rfl
        rw [hi] at hj
        cases hj
      exact List.mem_of_getElem? ((getElem?_set_of_ne hji).trans hj)

theorem items_replace {a : κ × ν} (hi : cells[i]? = some (some a)) (b : κ × ν) :
    items (cells.set i (some b)) = items cells := by
  obtain ⟨hlt, hcell⟩ := List.getElem?_eq_some_iff.mp hi
  have hpos : 0 < cells.countP Option.isSome :=
    List.countP_pos_iff.mpr ⟨some a, List.mem_of_getElem? hi, rfl⟩
  rw [items, List.countP_set hlt, hcell]
  simp only [Option.isSome_some, if_true, items]
  omega

theorem items_clear {a : κ × ν} (hi : cells[i]? = some (some a)) :
    items (cells.set i none) + 1 = items cells := by
  obtain ⟨hlt, hcell⟩ := List.getElem?_eq_some_iff.mp hi
  have hpos : 0 < cells.countP Option.isSome :=
    List.countP_pos_iff.mpr ⟨some a, List.mem_of_getElem? hi, rfl⟩
  rw [items, List.countP_set hlt, hcell]
  simp only [Option.isSome_some, Option.isSome_none, Bool.false_eq_true, if_true, if_false, items]
  omega

/-- A ring that is not full has an empty cell. -/
theorem exists_empty (h : items cells < cells.length) : ∃ k : ℕ, cells[k]? = some none := by
  have : ¬ ∀ c ∈ cells, Option.isSome c = true := by
    intro hall
    have := List.countP_eq_length.mpr hall
    rw [items] at h
    omega
  push Not at this
  obtain ⟨c, hc, hnone⟩ := this
  obtain ⟨k, hk⟩ := List.getElem?_of_mem hc
  cases c with
  | none => exact ⟨k, hk⟩
  | some a => exact absurd rfl hnone

/-- The keys of the items. -/
def keys (cells : List (Option (κ × ν))) : List κ := cells.filterMap (Option.map Prod.fst)

theorem length_keys (cells : List (Option (κ × ν))) : (keys cells).length = items cells := by
  induction cells with
  | nil => rfl
  | cons c cells ih =>
    unfold keys items at ih ⊢
    cases c <;> simp [ih]

theorem mem_keys {k : κ} : k ∈ keys cells ↔ ∃ (i : ℕ) (v : ν), cells[i]? = some (some (k, v)) := by
  unfold keys
  rw [List.mem_filterMap]
  constructor
  · rintro ⟨c, hc, hk⟩
    obtain ⟨⟨k', v⟩, rfl, rfl⟩ := Option.map_eq_some_iff.mp hk
    obtain ⟨i, hi⟩ := List.getElem?_of_mem hc
    exact ⟨i, v, hi⟩
  · rintro ⟨i, v, hi⟩
    exact ⟨some (k, v), List.mem_of_getElem? hi, rfl⟩

/-- The cells behind the first one. -/
theorem Distinct.tail {c : Option (κ × ν)} (hd : Distinct eq (c :: cells)) : Distinct eq cells := by
  intro i j a b hi hj hab
  have := hd (i + 1) (j + 1) a b hi hj hab
  omega

theorem Distinct.pairwise (hd : Distinct eq cells) :
    (keys cells).Pairwise fun a b => eq a b = false := by
  induction cells with
  | nil => exact List.Pairwise.nil
  | cons c cells ih =>
    cases c with
    | none => exact ih hd.tail
    | some a =>
      refine List.Pairwise.cons (fun k hk => ?_) (ih hd.tail)
      obtain ⟨i, v, hi⟩ := mem_keys.mp hk
      by_contra hne
      have := hd 0 (i + 1) a (k, v) rfl hi (by simpa using hne)
      omega

theorem Represents.isSome_iff (hr : Represents eq cells m) :
    (m key).isSome ↔ ∃ k ∈ keys cells, eq k key = true := by
  rw [Option.isSome_iff_exists]
  constructor
  · rintro ⟨v, hv⟩
    obtain ⟨i, k, hi, hkey⟩ := (hr key v).mp hv
    exact ⟨k, mem_keys.mpr ⟨i, v, hi⟩, hkey⟩
  · rintro ⟨k, hk, hkey⟩
    obtain ⟨i, v, hi⟩ := mem_keys.mp hk
    exact ⟨v, (hr key v).mpr ⟨i, k, hi, hkey⟩⟩

/-! ### All items of some cells -/

/-- The items of the cells are put in, the first one first. -/
def assignAll (eq : κ → κ → Bool) : List (Option (κ × ν)) → (κ → Option ν) → κ → Option ν
  | [], m => m
  | none :: cells, m => assignAll eq cells m
  | some a :: cells, m => assignAll eq cells (assign eq a.1 a.2 m)

theorem Represents.tail (hr : Represents eq (none :: cells) m) : Represents eq cells m := by
  intro key v
  rw [hr key v]
  constructor
  · rintro ⟨i, k, hi, hkey⟩
    cases i with
    | zero => cases hi
    | succ i => exact ⟨i, k, hi, hkey⟩
  · rintro ⟨i, k, hi, hkey⟩
    exact ⟨i + 1, k, hi, hkey⟩

/-- The values put in come before those that were there. -/
theorem assignAll_eq (hk : LawfulKeys eq hash) {m' : κ → Option ν} (hd : Distinct eq cells)
    (hr : Represents eq cells m') : assignAll eq cells m = fun k => (m' k).or (m k) := by
  induction cells generalizing m m' with
  | nil =>
    funext k
    have : m' k = none := by
      rw [hr.eq_none_iff]
      intro i a ha
      cases ha
    rw [assignAll, this, Option.none_or]
  | cons c cells ih =>
    cases c with
    | none => exact ih hd.tail hr.tail
    | some a =>
      have hrest : Represents eq cells (erase eq a.1 m') :=
        Represents.tail (hr.clear hk hd (i := 0) rfl)
      rw [assignAll, ih hd.tail hrest]
      funext k
      unfold erase assign
      by_cases hkey : eq a.1 k = true
      · have hm' : m' k = some a.2 := (hr k a.2).mpr ⟨0, a.1, rfl, hkey⟩
        rw [if_pos hkey, if_pos hkey, hm']
        rfl
      · rw [if_neg hkey, if_neg hkey]

end Keyed

end Probing
