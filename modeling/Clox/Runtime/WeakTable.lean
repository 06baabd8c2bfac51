import Clox.Lib.Gap
import Clox.Runtime.Table

/-! # Sweeping a weak table

`tableRemoveWhite` deletes the entries of unmarked objects while it scans the array. A
deletion closes its gap with an entry from further behind, which the scan has then passed by.

* `readd_entries`: the walk of `tableDelete` closes the gap;
* `tableDelete_deletesAt`: what a deletion does to the other entries;
* `tableRemoveWhite_exact_iff`: when the scan removes what it should.
-/

namespace Clox

open Probing

variable {κ ν : Type}

section Operations

variable (valEqual : κ → κ → Bool) (valHash : κ → ℕ) (isObj isDark : κ → Bool)

/-- `IS_OBJ(key) && !OBJ_IS_DARK(AS_OBJ(key))` -/
def isWhite (key : κ) : Bool := isObj key && !isDark key

/-- The body of the loop of `tableRemoveWhite`. -/
def removeWhiteAt (i : ℕ) (t : Table κ ν) : Option (Table κ ν) :=
  match t.entries[i]? with
  | some (some entry) =>
    if isWhite isObj isDark entry.1 then (tableDelete valEqual valHash t entry.1).map Prod.snd
    else some t
  | _ => some t

/-- The loop up to the entry `i`, which deleting does not move the end of. -/
def removeWhiteUpTo (t : Table κ ν) : ℕ → Option (Table κ ν)
  | 0 => some t
  | i + 1 => do removeWhiteAt valEqual valHash isObj isDark i (← removeWhiteUpTo t i)

def tableRemoveWhite (t : Table κ ν) : Option (Table κ ν) :=
  if t.count = 0 then some t
  else removeWhiteUpTo valEqual valHash isObj isDark t t.entries.length

end Operations

/-! ## Deleting closes the gap -/

variable {valEqual : κ → κ → Bool} {valHash : κ → ℕ} {isObj isDark : κ → Bool}
  {t t' : Table κ ν} {m : κ → Option ν} {k i j gap fuel : ℕ} {a : κ × ν}

/-- Where the search for an entry starts. -/
def home (valHash : κ → ℕ) (a : κ × ν) : ℕ := valHash a.1

/-- One entry is put in again: in the gap if its search goes over it. -/
theorem readd_close (hlen : t.entries.length = 2 ^ k)
    (hcount : t.count = items t.entries) (hload : 4 * t.count ≤ 3 * t.entries.length)
    (hd : Distinct valEqual t.entries) (ho : OnlyGap (home valHash) t.entries gap)
    (hgap : t.entries[gap]? = some none) (hj : t.entries[j]? = some (some a)) :
    tableSet valEqual valHash ⟨t.count - 1, t.entries.set j none⟩ a.1 a.2 =
      some (true, ⟨t.count, if crosses t.entries.length (home valHash a) gap j then
        (t.entries.set gap (some a)).set j none else t.entries⟩) := by
  have hjlt : j < t.entries.length := (List.getElem?_eq_some_iff.mp hj).1
  have hgj : gap ≠ j := by
    rintro rfl
    rw [hj] at hgap
    cases hgap
  have hitems := items_clear hj
  have hother : ∀ (c : ℕ) b, (t.entries.set j none)[c]? = some (some b) → valEqual b.1 a.1 = false := by
    intro c b hc
    rcases (getElem?_clear hjlt).mp hc with ⟨hcj, hc⟩
    by_contra hne
    exact hcj (hd c j b a hc hj (by simpa using hne))
  have hfound := ho.found hj hgap hother
  have hfind : findEntry valEqual valHash (t.entries.set j none) a.1 =
      some (if crosses t.entries.length (home valHash a) gap j then gap else j) :=
    search_eq_some (by rw [List.length_set, hlen]) hfound
  have hfull : (⟨t.count - 1, t.entries.set j none⟩ : Table κ ν).full = false := by
    rw [not_full_iff, List.length_set]
    change 4 * (t.count - 1 + 1) ≤ _
    omega
  rw [tableSet_of_not_full hfull hfind]
  split
  · have hcell : (t.entries.set j none)[gap]? = some none := by
      rw [getElem?_set_of_ne hgj, hgap]
    simp only [hcell, Option.join_some, Option.isNone_none, if_true]
    rw [List.set_comm _ _ hgj, show t.count - 1 + 1 = t.count by omega]
  · have hcell : (t.entries.set j none)[j]? = some none := List.getElem?_set_self hjlt
    have hback : (t.entries.set j none).set j (some a) = t.entries := by
      rw [List.set_set, ← (List.getElem?_eq_some_iff.mp hj).2, List.set_getElem_self]
    simp only [hcell, Option.join_some, Option.isNone_none, if_true, hback]
    rw [show t.count - 1 + 1 = t.count by omega]

/-- The walk of `tableDelete` closes the gap. -/
theorem readd_entries (hk : LawfulKeys valEqual valHash) (hlen : t.entries.length = 2 ^ k)
    (hcount : t.count = items t.entries) (hload : 4 * t.count ≤ 3 * t.entries.length)
    (hd : Distinct valEqual t.entries) (ho : OnlyGap (home valHash) t.entries gap)
    (hgap : t.entries[gap]? = some none) {index : ℕ}
    (hrun : readd valEqual valHash fuel t index = some t') :
    closeGap (home valHash) fuel t.entries gap (slot t.entries.length index 1) = some t'.entries := by
  induction fuel generalizing t gap index with
  | zero => cases hrun
  | succ fuel ih =>
    have hindex : (index + 1) &&& (t.entries.length - 1) = slot t.entries.length index 1 := by
      rw [hlen, Nat.and_two_pow_sub_one_eq_mod]
      rfl
    rw [readd, hindex] at hrun
    rw [closeGap]
    simp only at hrun
    generalize hj : slot t.entries.length index 1 = j at hrun
    cases hcell : t.entries[j]? with
    | none => simp [hcell] at hrun
    | some cell =>
      cases cell with
      | none =>
        simp only [hcell] at hrun ⊢
        cases hrun
        rfl
      | some a =>
        have hjlt : j < t.entries.length := (List.getElem?_eq_some_iff.mp hcell).1
        have hgaplt : gap < t.entries.length := (List.getElem?_eq_some_iff.mp hgap).1
        have hset := readd_close hlen hcount hload hd ho hgap hcell
        simp only [hcell, hset, Option.bind_eq_bind, Option.bind_some] at hrun ⊢
        by_cases hcross : crosses t.entries.length (home valHash a) gap j = true
        · simp only [if_pos hcross] at hrun ⊢
          have hgj : gap ≠ j := by
            rintro rfl
            rw [hcell] at hgap
            cases hgap
          have hcomm : (t.entries.set gap (some a)).set j none =
              (t.entries.set j none).set gap (some a) := List.set_comm _ _ hgj
          have hempty : (t.entries.set j none)[gap]? = some none := by
            rw [getElem?_set_of_ne hgj, hgap]
          have hitems : t.count = items ((t.entries.set gap (some a)).set j none) := by
            have := items_clear hcell
            have := items_fill hempty a
            rw [hcomm]
            omega
          have hd' : Distinct valEqual ((t.entries.set gap (some a)).set j none) := by
            rw [hcomm]
            refine (hd.clear hjlt).insert hk (by simpa using hgaplt) ?_
            intro c b _ hc
            rcases (getElem?_clear hjlt).mp hc with ⟨hcj, hc⟩
            by_contra hne
            exact hcj (hd c j b a hc hcell (by simpa using hne))
          have hrest := ih (t := ⟨t.count, (t.entries.set gap (some a)).set j none⟩)
            (by simpa using hlen) hitems (by simpa using hload) hd' (ho.move hcell hgap hcross)
            (List.getElem?_set_self (by simpa using hjlt)) hrun
          simpa using hrest
        · simp only [if_neg hcross] at hrun ⊢
          exact ih hlen hcount hload hd ho hgap hrun

/-- Deleting the key of an entry closes the gap where it was; nothing else happens to the array. -/
theorem tableDelete_closes (hk : LawfulKeys valEqual valHash) (hs : t.Stands valEqual valHash m)
    (ha : t.entries[i]? = some (some a)) :
    ∃ t', tableDelete valEqual valHash t a.1 = some (true, t') ∧
      t'.Stands valEqual valHash (erase valEqual a.1 m) ∧
      closeGap (home valHash) t.entries.length (t.entries.set i none) i
        (slot t.entries.length i 1) = some t'.entries := by
  rcases tableDelete_eq_some hk hs a.1 with ⟨t', hdelete, hs'⟩
  have hm : m a.1 = some a.2 := (hs.represents a.1 a.2).mpr ⟨i, a.1, ha, hk.refl a.1⟩
  rw [hm, Option.isSome_some] at hdelete
  refine ⟨t', hdelete, hs', ?_⟩
  cases hs with
  | null entries count map =>
    rw [entries] at ha
    cases ha
  | ring k hr load =>
    have hilt : i < t.entries.length := (List.getElem?_eq_some_iff.mp ha).1
    have hitems := items_clear ha
    have hcount := hr.count
    have hfind : findEntry valEqual valHash t.entries a.1 = some i :=
      search_eq_some hr.length (hr.placed i a ha id)
    have hne : t.count ≠ 0 := by omega
    have hdistinct := hr.placed.distinct hk
    have hcell : t.entries[i]?.join = some a := by rw [ha, Option.join_some]
    simp only [tableDelete, if_neg hne, hfind, hcell, Option.bind_eq_bind, Option.bind_some,
      Option.isNone_some, Bool.false_eq_true, if_false] at hdelete
    rcases Option.bind_eq_some_iff.mp hdelete with ⟨t₁, hwalk, ht₁⟩
    cases ht₁
    have hgap : OnlyGap (home valHash) (t.entries.set i none) i := by
      refine onlyGap_of_found (fun a b => valEqual b.1 a.1) hilt ?_
      intro c b hb
      exact hr.placed c b hb id
    have hclose := readd_entries (t := ⟨t.count - 1, t.entries.set i none⟩) (k := k) hk
      (by simpa using hr.length) (show t.count - 1 = items (t.entries.set i none) by omega)
      (show 4 * (t.count - 1) ≤ 3 * (t.entries.set i none).length by
        rw [List.length_set]
        omega)
      (hdistinct.clear hilt) hgap (List.getElem?_set_self hilt) hwalk
    simpa using hclose

/-! ## The scan -/

/-- The first entry behind `i` in its cluster whose search goes over `i`. -/
def filler (valHash : κ → ℕ) (t : Table κ ν) (i : ℕ) : Option (κ × ν) :=
  gapFiller (home valHash) (t.entries.set i none) i t.entries.length (slot t.entries.length i 1)

/-- What a deletion at `i` does to the entries: they move towards `i`, one of them into `i`. -/
structure DeletesAt (valHash : κ → ℕ) (i : ℕ) (t t' : Table κ ν) : Prop where
  length : t'.entries.length = t.entries.length
  filled : t'.entries[i]? = some (filler valHash t i)
  moved : ∀ (p : ℕ) b, p ≠ i → t.entries[p]? = some (some b) → ∃ q, t'.entries[q]? = some (some b) ∧
    distance t.entries.length i q ≤ distance t.entries.length i p
  source : ∀ (q : ℕ) b, t'.entries[q]? = some (some b) → ∃ p, p ≠ i ∧ t.entries[p]? = some (some b)

theorem tableDelete_deletesAt (hk : LawfulKeys valEqual valHash) (hs : t.Stands valEqual valHash m)
    (ha : t.entries[i]? = some (some a)) :
    ∃ t', tableDelete valEqual valHash t a.1 = some (true, t') ∧
      t'.Stands valEqual valHash (erase valEqual a.1 m) ∧ DeletesAt valHash i t t' := by
  rcases tableDelete_closes hk hs ha with ⟨t', hdelete, hs', hclose⟩
  refine ⟨t', hdelete, hs', ?_⟩
  have hilt : i < t.entries.length := (List.getElem?_eq_some_iff.mp ha).1
  have hlen : (t.entries.set i none).length = t.entries.length := List.length_set ..
  -- some entry is empty already before
  obtain ⟨c, hc⟩ : ∃ c : ℕ, t.entries[c]? = some none := by
    refine exists_empty ?_
    have := hs.count
    have := hs.load
    omega
  have hclt : c < t.entries.length := (List.getElem?_eq_some_iff.mp hc).1
  have hci : c ≠ i := by
    rintro rfl
    rw [ha] at hc
    cases hc
  have hdist : distance t.entries.length i c < t.entries.length := distance_lt (by omega)
  have hpos : 1 ≤ distance t.entries.length i c := by
    rw [distance_eq hilt hclt] at hdist ⊢
    split at hdist <;> split <;> omega
  have hstart : slot t.entries.length i 0 = i := slot_zero hilt
  have hspec := closeGap_eq_some (home valHash) (t.entries.set i none) i 0 1
    (distance t.entries.length i c) t.entries.length (by omega) hpos (by rw [hlen]; exact hdist)
    (by rw [hlen, hstart]; exact List.getElem?_set_self hilt)
    (by rw [hlen, slot_distance hclt, getElem?_set_of_ne hci]; exact hc) (by omega)
  rw [hlen, hstart] at hspec
  rcases hspec with ⟨cells', hclose', hclosed⟩
  rw [hclose] at hclose'
  cases hclose'
  constructor
  · exact hclosed.length.trans hlen
  · have hfilled := hclosed.filled
    rw [hlen, hstart] at hfilled
    exact hfilled
  · intro p b hp hb
    have hplt : p < t.entries.length := (List.getElem?_eq_some_iff.mp hb).1
    have hp' : distance t.entries.length i p < t.entries.length := distance_lt (by omega)
    have hmoved := hclosed.moved (distance t.entries.length i p) (by rw [hlen]; exact hp') b
    rw [hlen, slot_distance hplt, getElem?_set_of_ne hp] at hmoved
    rcases hmoved hb with ⟨e, he, hb'⟩
    refine ⟨_, hb', ?_⟩
    rwa [distance_slot (by omega)]
  · intro q b hb
    have hqlt : q < t.entries.length := by
      have := (List.getElem?_eq_some_iff.mp hb).1
      have := hclosed.length
      omega
    have hq' : distance t.entries.length i q < t.entries.length := distance_lt (by omega)
    have hsource := hclosed.source (distance t.entries.length i q) (by rw [hlen]; exact hq') b
    rw [hlen, slot_distance hqlt] at hsource
    rcases hsource hb with ⟨e, -, -, hb'⟩
    rcases (getElem?_clear hilt).mp hb' with ⟨hne, hb'⟩
    exact ⟨_, hne, hb'⟩

section Scan

variable (valEqual : κ → κ → Bool) (valHash : κ → ℕ) (isObj isDark : κ → Bool)

/-- `b` is in an entry the scan has still to come to before its round `j`. -/
def StillToCome (t : Table κ ν) (b : κ × ν) (j : ℕ) : Prop :=
  ∃ tⱼ p, removeWhiteUpTo valEqual valHash isObj isDark t j = some tⱼ ∧ j ≤ p ∧
    tⱼ.entries[p]? = some (some b)

/-- Where the scan deletes an entry, the entry that closes the gap is not white as well, unless a
later round brings it to where the scan has still to come. -/
def GapsClosedByDark (t : Table κ ν) : Prop :=
  ∀ i < t.entries.length, ∀ tᵢ, removeWhiteUpTo valEqual valHash isObj isDark t i = some tᵢ →
    ∀ a, tᵢ.entries[i]? = some (some a) → isWhite isObj isDark a.1 = true →
      ∀ b, filler valHash tᵢ i = some b → isWhite isObj isDark b.1 = true →
        ∃ j, i < j ∧ StillToCome valEqual valHash isObj isDark t b j

/-- The entries of `t'` are those of `t` without the white ones, and are found. -/
structure RemovesWhite (t t' : Table κ ν) : Prop where
  entries : ∀ b, some b ∈ t'.entries ↔ some b ∈ t.entries ∧ isWhite isObj isDark b.1 = false
  found : ∀ b, some b ∈ t'.entries → tableGet valEqual valHash t' b.1 = some (some b.2)

end Scan

/-- What is left before a round. -/
structure Swept (valEqual : κ → κ → Bool) (valHash : κ → ℕ) (isObj isDark : κ → Bool)
    (t t' : Table κ ν) : Prop where
  stands : ∃ m, t'.Stands valEqual valHash m
  length : t'.entries.length = t.entries.length
  subset : ∀ b, some b ∈ t'.entries → some b ∈ t.entries
  dark : ∀ b, some b ∈ t.entries → isWhite isObj isDark b.1 = false → some b ∈ t'.entries

/-- A round deletes the entry if it is white; otherwise nothing happens. -/
theorem removeWhiteAt_cases (isObj isDark : κ → Bool) (hk : LawfulKeys valEqual valHash) (hs : t.Stands valEqual valHash m)
    (i : ℕ) : (removeWhiteAt valEqual valHash isObj isDark i t = some t ∧
        ∀ a, t.entries[i]? = some (some a) → isWhite isObj isDark a.1 = false) ∨
      ∃ a t', t.entries[i]? = some (some a) ∧ isWhite isObj isDark a.1 = true ∧
        removeWhiteAt valEqual valHash isObj isDark i t = some t' ∧
        t'.Stands valEqual valHash (erase valEqual a.1 m) ∧ DeletesAt valHash i t t' := by
  unfold removeWhiteAt
  cases hcell : t.entries[i]? with
  | none => exact .inl ⟨rfl, by simp⟩
  | some cell =>
    cases cell with
    | none => exact .inl ⟨rfl, by simp⟩
    | some a =>
      by_cases hwhite : isWhite isObj isDark a.1 = true
      · rcases tableDelete_deletesAt hk hs hcell with ⟨t', hdelete, hs', hdel⟩
        exact .inr ⟨a, t', rfl, hwhite, by simp only [if_pos hwhite, hdelete, Option.map_some],
          hs', hdel⟩
      · refine .inl ⟨by simp only [if_neg hwhite], ?_⟩
        intro b hb
        cases hb
        simpa using hwhite

/-- One round: what it does to an entry. -/
theorem removeWhiteAt_entry (hk : LawfulKeys valEqual valHash) (hs : t.Stands valEqual valHash m)
    {i : ℕ} (hrun : removeWhiteAt valEqual valHash isObj isDark i t = some t') :
    (∃ m', t'.Stands valEqual valHash m') ∧ t'.entries.length = t.entries.length ∧
      (∀ (p : ℕ) b, t.entries[p]? = some (some b) →
        (p = i → isWhite isObj isDark b.1 = false) → some b ∈ t'.entries) ∧
      (∀ b, some b ∈ t'.entries → ∃ p : ℕ, t.entries[p]? = some (some b) ∧
        (p = i → isWhite isObj isDark b.1 = false)) := by
  rcases removeWhiteAt_cases isObj isDark hk hs i with
    ⟨hsame, hdark⟩ | ⟨a, t₁, ha, hwhite, hround, hs', hdel⟩
  · rw [hsame] at hrun
    cases hrun
    refine ⟨⟨m, hs⟩, rfl, ?_, ?_⟩
    · intro p b hb _
      exact List.mem_of_getElem? hb
    · intro b hb
      rcases List.getElem?_of_mem hb with ⟨p, hp⟩
      refine ⟨p, hp, ?_⟩
      rintro rfl
      exact hdark b hp
  · rw [hround] at hrun
    cases hrun
    refine ⟨⟨_, hs'⟩, hdel.length, ?_, ?_⟩
    · intro p b hb hpi
      have hne : p ≠ i := by
        rintro rfl
        rw [ha] at hb
        cases hb
        rw [hpi rfl] at hwhite
        cases hwhite
      rcases hdel.moved p b hne hb with ⟨q, hq, -⟩
      exact List.mem_of_getElem? hq
    · intro b hb
      rcases List.getElem?_of_mem hb with ⟨q, hq⟩
      rcases hdel.source q b hq with ⟨p, hne, hp⟩
      exact ⟨p, hp, fun heq => absurd heq hne⟩

/-- The scan gets to its end, and removes white entries only. -/
theorem removeWhiteUpTo_swept (isObj isDark : κ → Bool) (hk : LawfulKeys valEqual valHash) (hs : t.Stands valEqual valHash m)
    (i : ℕ) : ∃ tᵢ, removeWhiteUpTo valEqual valHash isObj isDark t i = some tᵢ ∧
      Swept valEqual valHash isObj isDark t tᵢ := by
  induction i with
  | zero => exact ⟨t, rfl, ⟨m, hs⟩, rfl, fun _ hb => hb, fun _ hb _ => hb⟩
  | succ i ih =>
    rcases ih with ⟨tᵢ, hrun, hsw⟩
    rcases hsw.stands with ⟨mᵢ, hsᵢ⟩
    obtain ⟨t', hround⟩ : ∃ t', removeWhiteAt valEqual valHash isObj isDark i tᵢ = some t' := by
      rcases removeWhiteAt_cases isObj isDark hk hsᵢ i with
        ⟨hsame, -⟩ | ⟨a, t', -, -, hround, -⟩
      · exact ⟨tᵢ, hsame⟩
      · exact ⟨t', hround⟩
    rcases removeWhiteAt_entry hk hsᵢ hround with ⟨hstands, hlen, hkeep, hsource⟩
    refine ⟨t', by rw [removeWhiteUpTo, hrun]; exact hround, hstands, hlen.trans hsw.length, ?_, ?_⟩
    · intro b hb
      rcases hsource b hb with ⟨p, hp, -⟩
      exact hsw.subset b (List.mem_of_getElem? hp)
    · intro b hb hdark
      rcases List.getElem?_of_mem (hsw.dark b hb hdark) with ⟨p, hp⟩
      exact hkeep p b hp fun _ => hdark

/-- An entry that is behind the scan before round `j`, and does not come in front of it again, is
left in the end. -/
theorem kept_of_not_stillToCome (hk : LawfulKeys valEqual valHash)
    (hs : t.Stands valEqual valHash m) {b : κ × ν} {j n : ℕ} (hjn : j ≤ n)
    (hnever : ∀ i, j ≤ i → i < n → ¬ StillToCome valEqual valHash isObj isDark t b i)
    {tⱼ : Table κ ν} (hj : removeWhiteUpTo valEqual valHash isObj isDark t j = some tⱼ)
    (hb : some b ∈ tⱼ.entries) {tₙ : Table κ ν}
    (hn : removeWhiteUpTo valEqual valHash isObj isDark t n = some tₙ) : some b ∈ tₙ.entries := by
  induction n, hjn using Nat.le_induction generalizing tₙ with
  | base =>
    rw [hj] at hn
    cases hn
    exact hb
  | succ n hle ih =>
    rcases removeWhiteUpTo_swept isObj isDark hk hs n with ⟨t₁, hrun, hsw⟩
    rcases hsw.stands with ⟨m₁, hs₁⟩
    have hb₁ := ih (fun i hji hin => hnever i hji (by omega)) hrun
    rw [removeWhiteUpTo, hrun] at hn
    rcases removeWhiteAt_entry hk hs₁ hn with ⟨-, -, hkeep, -⟩
    rcases List.getElem?_of_mem hb₁ with ⟨p, hp⟩
    refine hkeep p b hp ?_
    rintro rfl
    exact absurd ⟨t₁, p, hrun, le_rfl, hp⟩ (hnever p hle (by omega))

theorem mem_of_removeWhiteUpTo (hk : LawfulKeys valEqual valHash)
    (hs : t.Stands valEqual valHash m) {b : κ × ν} {j n : ℕ} (hjn : j ≤ n) {tⱼ tₙ : Table κ ν}
    (hj : removeWhiteUpTo valEqual valHash isObj isDark t j = some tⱼ)
    (hn : removeWhiteUpTo valEqual valHash isObj isDark t n = some tₙ) (hb : some b ∈ tₙ.entries) :
    some b ∈ tⱼ.entries := by
  induction n, hjn using Nat.le_induction generalizing tₙ with
  | base =>
    rw [hj] at hn
    cases hn
    exact hb
  | succ n hle ih =>
    rcases removeWhiteUpTo_swept isObj isDark hk hs n with ⟨t₁, hrun, hsw⟩
    rcases hsw.stands with ⟨m₁, hs₁⟩
    rw [removeWhiteUpTo, hrun] at hn
    rcases removeWhiteAt_entry hk hs₁ hn with ⟨-, -, -, hsource⟩
    rcases hsource b hb with ⟨p, hp, -⟩
    exact ih hrun (List.mem_of_getElem? hp)

/-- A white entry that is left in the end is not in front of the scan before any round. -/
theorem not_stillToCome (hk : LawfulKeys valEqual valHash) (hs : t.Stands valEqual valHash m)
    (hclosed : GapsClosedByDark valEqual valHash isObj isDark t) {b : κ × ν}
    (hwhite : isWhite isObj isDark b.1 = true) {tₙ : Table κ ν}
    (hn : removeWhiteUpTo valEqual valHash isObj isDark t t.entries.length = some tₙ)
    (hb : some b ∈ tₙ.entries) (j : ℕ) : ¬ StillToCome valEqual valHash isObj isDark t b j := by
  induction hleft : t.entries.length - j using Nat.strong_induction_on generalizing j with
  | _ left ih =>
    rintro ⟨tⱼ, p, hj, hjp, hp⟩
    have hlater : ∀ i, j < i → i ≤ t.entries.length →
        ¬ StillToCome valEqual valHash isObj isDark t b i :=
      fun i hji hin => ih (t.entries.length - i) (by omega) i rfl
    rcases removeWhiteUpTo_swept isObj isDark hk hs j with ⟨_, hj', hsw⟩
    rw [hj] at hj'
    cases hj'
    rcases hsw.stands with ⟨mⱼ, hsⱼ⟩
    have hplt : p < t.entries.length := by
      have := (List.getElem?_eq_some_iff.mp hp).1
      have := hsw.length
      omega
    rcases removeWhiteUpTo_swept isObj isDark hk hs (j + 1) with ⟨t₁, hj₁, -⟩
    have hb₁ := mem_of_removeWhiteUpTo hk hs (by omega) hj₁ hn hb
    have hround := hj₁
    rw [removeWhiteUpTo, hj] at hround
    rcases removeWhiteAt_cases isObj isDark hk hsⱼ j with
      ⟨hsame, hdark⟩ | ⟨a, t₂, ha, hwa, hround', -, hdel⟩
    · cases hsame.symm.trans hround
      have hpj : p ≠ j := by
        rintro rfl
        rw [hdark b hp] at hwhite
        cases hwhite
      exact hlater (j + 1) (by omega) (by omega) ⟨tⱼ, p, hj₁, by omega, hp⟩
    · cases hround'.symm.trans hround
      have hpj : p ≠ j := by
        -- the deleted entry is in no other place
        rintro rfl
        rcases List.getElem?_of_mem hb₁ with ⟨q, hq⟩
        rcases hdel.source q b hq with ⟨p', hne, hp'⟩
        exact hne (hsⱼ.distinct hk p' p b b hp' hp (hk.refl b.1))
      rcases hdel.moved p b hpj hp with ⟨q, hq, hdist⟩
      have hqlt : q < t.entries.length := by
        have := (List.getElem?_eq_some_iff.mp hq).1
        have := hdel.length
        have := hsw.length
        omega
      rw [hsw.length, distance_eq (by omega) hqlt, distance_eq (by omega) hplt,
        if_pos hjp] at hdist
      have hjq : j ≤ q := by
        by_contra hlt
        rw [if_neg hlt] at hdist
        omega
      rcases Nat.eq_or_lt_of_le hjq with rfl | hlt
      · -- `b` closes the gap
        have hfill : filler valHash tⱼ j = some b := by
          have hfilled := hdel.filled
          rw [hq] at hfilled
          exact (Option.some.inj hfilled).symm
        rcases hclosed j (by omega) tⱼ hj a ha hwa b hfill hwhite with ⟨i, hji, htc⟩
        rcases htc with ⟨tᵢ, p', hi, hip, hp'⟩
        rcases removeWhiteUpTo_swept isObj isDark hk hs i with ⟨_, hi', hswᵢ⟩
        rw [hi] at hi'
        cases hi'
        have := (List.getElem?_eq_some_iff.mp hp').1
        have := hswᵢ.length
        exact hlater i hji (by omega) ⟨tᵢ, p', hi, hip, hp'⟩
      · exact hlater (j + 1) (by omega) (by omega) ⟨t₁, q, hj₁, hlt, hq⟩

/-- `tableRemoveWhite` removes exactly the white entries if and only if gaps are closed by dark
ones. -/
theorem tableRemoveWhite_exact_iff (hk : LawfulKeys valEqual valHash)
    (hs : t.Stands valEqual valHash m) :
    (∃ t', tableRemoveWhite valEqual valHash isObj isDark t = some t' ∧
        RemovesWhite valEqual valHash isObj isDark t t') ↔
      GapsClosedByDark valEqual valHash isObj isDark t := by
  rcases removeWhiteUpTo_swept isObj isDark hk hs t.entries.length with ⟨tₙ, hn, hsw⟩
  have hrun : (∃ b, some b ∈ t.entries) →
      tableRemoveWhite valEqual valHash isObj isDark t = some tₙ := by
    rintro ⟨b, hb⟩
    rcases List.getElem?_of_mem hb with ⟨p, hp⟩
    have hitems := items_clear hp
    have hcount := hs.count
    rw [tableRemoveWhite, if_neg (by omega)]
    exact hn
  constructor
  · rintro ⟨t', ht', hexact⟩ i hi tᵢ hi' a ha hwa b hfill hwb
    by_contra hnone
    rcases removeWhiteUpTo_swept isObj isDark hk hs i with ⟨_, hi'', hswᵢ⟩
    rw [hi'] at hi''
    cases hi''
    rcases hswᵢ.stands with ⟨mᵢ, hsᵢ⟩
    rw [hrun ⟨a, hswᵢ.subset a (List.mem_of_getElem? ha)⟩] at ht'
    cases ht'
    rcases removeWhiteAt_cases isObj isDark hk hsᵢ i with
      ⟨-, hdark⟩ | ⟨_, t₁, -, -, hround, -, hdel⟩
    · rw [hdark a ha] at hwa
      cases hwa
    · have hnext : removeWhiteUpTo valEqual valHash isObj isDark t (i + 1) = some t₁ := by
        rw [removeWhiteUpTo, hi']
        exact hround
      have hb : some b ∈ t₁.entries := by
        have hfilled := hdel.filled
        rw [hfill] at hfilled
        exact List.mem_of_getElem? hfilled
      have hleft := kept_of_not_stillToCome hk hs hi (fun j hij _ htc => hnone ⟨j, hij, htc⟩)
        hnext hb hn
      rw [((hexact.entries b).mp hleft).2] at hwb
      cases hwb
  · intro hclosed
    have hfound : ∀ b, some b ∈ tₙ.entries →
        tableGet valEqual valHash tₙ b.1 = some (some b.2) := by
      intro b hb
      rcases hsw.stands with ⟨m', hs'⟩
      rcases List.getElem?_of_mem hb with ⟨p, hp⟩
      rw [tableGet_eq_some hk hs', (hs'.represents b.1 b.2).mpr ⟨p, b.1, hp, hk.refl b.1⟩]
    by_cases hsome : ∃ b, some b ∈ t.entries
    · refine ⟨tₙ, hrun hsome, ?_, hfound⟩
      intro b
      constructor
      · intro hb
        refine ⟨hsw.subset b hb, ?_⟩
        by_contra hwhite
        rcases List.getElem?_of_mem (hsw.subset b hb) with ⟨p, hp⟩
        exact not_stillToCome hk hs hclosed (by simpa using hwhite) hn hb 0
          ⟨t, p, rfl, Nat.zero_le p, hp⟩
      · rintro ⟨hb, hdark⟩
        exact hsw.dark b hb hdark
    · have hzero : t.count = 0 := by
        by_contra hne
        have hcount := hs.count
        refine hsome ?_
        have hpos : 0 < t.entries.countP Option.isSome := by
          unfold items at hcount
          omega
        rcases List.countP_pos_iff.mp hpos with ⟨c, hc, hsome⟩
        rcases Option.isSome_iff_exists.mp hsome with ⟨b, rfl⟩
        exact ⟨b, hc⟩
      refine ⟨t, by rw [tableRemoveWhite, if_pos hzero], ?_, ?_⟩
      · intro b
        exact ⟨fun hb => absurd ⟨b, hb⟩ hsome, fun hb => hb.1⟩
      · intro b hb
        exact absurd ⟨b, hb⟩ hsome

/-! ## Two entries of one hash -/

/-- The keys 1 and 9, which have the same home in a table of 8 entries. -/
def oneAndNine : List (TableOp Unit ℕ ℕ) := [.set () 1 10, .set () 9 90]

theorem oneAndNine_stands : ∃ t : Table ℕ ℕ, (∃ m, t.Stands Nat.beq id m) ∧
    t = ⟨2, [none, some (1, 10), some (9, 90), none, none, none, none, none]⟩ := by
  rcases runTables_eq_some natKeys_lawful oneAndNine (fun _ => initTable_stands) with
    ⟨ts, hrun, hs⟩
  refine ⟨ts (), ⟨_, hs ()⟩, ?_⟩
  have htables : (runTables Nat.beq id (fun _ : Unit => (initTable : Table ℕ ℕ)) oneAndNine).map
      (fun run => run.2 ()) =
        some ⟨2, [none, some (1, 10), some (9, 90), none, none, none, none, none]⟩ := by
    rfl
  rw [hrun] at htables
  exact Option.some.inj htables

/-- Only the key 1 is unmarked: it goes, and the other one closes the gap. -/
theorem oneUnmarked_exact : ∃ t : Table ℕ ℕ, t.entries[1]? = some (some (1, 10)) ∧
    ∃ t', tableRemoveWhite Nat.beq id (fun _ => true) (fun key => key == 9) t = some t' ∧
      RemovesWhite Nat.beq id (fun _ => true) (fun key => key == 9) t t' := by
  rcases oneAndNine_stands with ⟨t, ⟨m, hs⟩, rfl⟩
  refine ⟨_, rfl, (tableRemoveWhite_exact_iff natKeys_lawful hs).mpr ?_⟩
  intro i hi tᵢ hrun a ha hwhite b hfill hwb
  have hdark : ∀ i < 8, ∀ b ∈ (removeWhiteUpTo Nat.beq id (fun _ => true) (fun key => key == 9)
      (⟨2, [none, some (1, 10), some (9, 90), none, none, none, none, none]⟩ : Table ℕ ℕ) i).bind
        (fun tᵢ => filler id tᵢ i), isWhite (fun _ => true) (fun key => key == 9) b.1 = false := by
    decide +kernel
  rw [hdark i hi b (by rw [hrun]; exact hfill)] at hwb
  cases hwb

/-- Both are unmarked: the key 9 moves to where the scan has been, and is left. -/
theorem bothUnmarked_left : ∃ t : Table ℕ ℕ, (∃ m, t.Stands Nat.beq id m) ∧
    ¬ ∃ t', tableRemoveWhite Nat.beq id (fun _ => true) (fun _ => false) t = some t' ∧
      RemovesWhite Nat.beq id (fun _ => true) (fun _ => false) t t' := by
  rcases oneAndNine_stands with ⟨t, hs, rfl⟩
  refine ⟨_, hs, ?_⟩
  rintro ⟨t', hrun, hexact⟩
  have hleft : tableRemoveWhite Nat.beq id (fun _ => true) (fun _ => false)
      (⟨2, [none, some (1, 10), some (9, 90), none, none, none, none, none]⟩ : Table ℕ ℕ) =
        some ⟨1, [none, some (9, 90), none, none, none, none, none, none]⟩ := by
    rfl
  rw [hleft] at hrun
  cases hrun
  rcases (hexact.entries (9, 90)).mp (by decide) with ⟨-, hdark⟩
  cases hdark

end Clox
