import Clox.Lib.Probing
import Mathlib.Logic.Function.Basic

/-! # The hash table

The table of `table.c`: an array of entries probed linearly, which grows when three
quarters are used and has no tombstones. `tableDelete` puts the entries behind the
deleted one in again.

Keys are equal by `valEqual` and hashed by `valHash`; both can call methods of an
instance, so they are parameters. A result `none` is a probe without an end.
-/

namespace Clox

open Probing

/-- A table: the number of entries and the array, which is empty as long as the pointer is
NULL. `capacityMask` is the length less one. -/
structure Table (κ ν : Type) where
  count : ℕ
  entries : List (Option (κ × ν))

variable {κ ν : Type}

def initTable : Table κ ν := ⟨0, []⟩

def initTableWithCapa (capa : ℕ) : Table κ ν :=
  if capa = 0 then initTable else ⟨0, List.replicate capa none⟩

def tableCapacity (t : Table κ ν) : ℕ := t.entries.length

/-- `GROW_CAPACITY` -/
def growCapacity (capacity : ℕ) : ℕ := if capacity < 8 then 8 else capacity * 2

section Operations

variable (valEqual : κ → κ → Bool) (valHash : κ → ℕ)

def findEntry (entries : List (Option (κ × ν))) (key : κ) : Option ℕ :=
  search (fun entry => valEqual entry.1 key) entries entries.length
    (valHash key &&& (entries.length - 1))

/-- The loop body of `resize`. -/
def moveEntry (t : Table κ ν) : Option (κ × ν) → Option (Table κ ν)
  | none => some t
  | some entry => do
    let index ← findEntry valEqual valHash t.entries entry.1
    some ⟨t.count + 1, t.entries.set index (some entry)⟩

def resize (t : Table κ ν) (capacity : ℕ) : Option (Table κ ν) :=
  t.entries.foldlM (moveEntry valEqual valHash) ⟨0, List.replicate capacity none⟩

/-- `count + 1 > (capacityMask + 1) * TABLE_MAX_LOAD` -/
def Table.full (t : Table κ ν) : Bool := 4 * (t.count + 1) > 3 * t.entries.length

/-- The first lines of `tableSet`. -/
def growFull (t : Table κ ν) : Option (Table κ ν) :=
  if t.full then resize valEqual valHash t (growCapacity t.entries.length) else some t

/-- The entry's key and value are overwritten; the result says whether the key is new. -/
def tableSet (t : Table κ ν) (key : κ) (value : ν) : Option (Bool × Table κ ν) := do
  let t ← growFull valEqual valHash t
  let index ← findEntry valEqual valHash t.entries key
  let isNewKey := t.entries[index]?.join.isNone
  some (isNewKey,
    ⟨if isNewKey then t.count + 1 else t.count, t.entries.set index (some (key, value))⟩)

def tableGet (t : Table κ ν) (key : κ) : Option (Option ν) :=
  if t.entries = [] then some none
  else do
    let index ← findEntry valEqual valHash t.entries key
    some (t.entries[index]?.join.map Prod.snd)

/-- The loop of `tableDelete`: the entries behind `index` are taken out and set again. -/
def readd : ℕ → Table κ ν → ℕ → Option (Table κ ν)
  | 0, _, _ => none
  | fuel + 1, t, index =>
    let index := (index + 1) &&& (t.entries.length - 1)
    match t.entries[index]? with
    | none => none
    | some none => some t
    | some (some entry) => do
      let (_, t) ← tableSet valEqual valHash ⟨t.count - 1, t.entries.set index none⟩
        entry.1 entry.2
      readd fuel t index

def tableDelete (t : Table κ ν) (key : κ) : Option (Bool × Table κ ν) :=
  if t.count = 0 then some (false, t)
  else do
    let index ← findEntry valEqual valHash t.entries key
    if t.entries[index]?.join.isNone then some (false, t)
    else do
      let t ← readd valEqual valHash t.entries.length
        ⟨t.count - 1, t.entries.set index none⟩ index
      some (true, t)

/-- The loop of `tableAddAll` among the tables `ts`. The bound is read again each time: the
two tables may be one. -/
def addAllLoop {ι : Type} [DecidableEq ι] (src dst : ι) :
    ℕ → ℕ → (ι → Table κ ν) → Option (ι → Table κ ν)
  | 0, _, _ => none
  | fuel + 1, i, ts =>
    match (ts src).entries[i]? with
    | none => some ts
    | some none => addAllLoop src dst fuel (i + 1) ts
    | some (some entry) => do
      let (_, t) ← tableSet valEqual valHash (ts dst) entry.1 entry.2
      addAllLoop src dst fuel (i + 1) (Function.update ts dst t)

/-- A table added to itself may grow once on the way. -/
def tableAddAll {ι : Type} [DecidableEq ι] (src dst : ι) (ts : ι → Table κ ν) :
    Option (ι → Table κ ν) :=
  addAllLoop valEqual valHash src dst (2 * (ts src).entries.length + 9) 0 ts

end Operations

/-! ## The invariant -/

section Invariant

variable (valEqual : κ → κ → Bool) (valHash : κ → ℕ)

/-- `t` is a ring of `2 ^ k` cells with the items of `m`. -/
structure Table.Ring (k : ℕ) (t : Table κ ν) (m : κ → Option ν) : Prop where
  length : t.entries.length = 2 ^ k
  count : t.count = items t.entries
  placed : Placed valEqual valHash t.entries fun _ => False
  represents : Represents valEqual t.entries m

/-- `t` stands for `m`: there is no array yet, or a ring not used above its load. -/
inductive Table.Stands (t : Table κ ν) (m : κ → Option ν) : Prop
  | null (entries : t.entries = []) (count : t.count = 0) (map : m = fun _ => none)
  | ring (k : ℕ) (ring : t.Ring valEqual valHash k m)
      (load : 4 * t.count ≤ 3 * t.entries.length)

end Invariant

variable {valEqual : κ → κ → Bool} {valHash : κ → ℕ} {t t' : Table κ ν} {m : κ → Option ν}
  {k : ℕ} {key : κ} {value : ν}

theorem items_replicate (n : ℕ) : items (List.replicate n (none : Option (κ × ν))) = 0 := by
  rw [items, List.countP_replicate]
  simp

theorem represents_replicate (n : ℕ) :
    Represents valEqual (List.replicate n (none : Option (κ × ν))) fun _ => none := by
  intro key v
  constructor
  · intro h
    cases h
  · rintro ⟨i, k, hi, -⟩
    have := List.eq_of_mem_replicate (List.mem_of_getElem? hi)
    cases this

namespace Table.Ring

/-- An array of empty entries. -/
theorem replicate (k : ℕ) :
    (⟨0, List.replicate (2 ^ k) none⟩ : Table κ ν).Ring valEqual valHash k fun _ => none where
  length := List.length_replicate
  count := (items_replicate _).symm
  placed := by
    intro i a hi _
    have := List.eq_of_mem_replicate (List.mem_of_getElem? hi)
    cases this
  represents := represents_replicate _

theorem entries_ne_nil (hr : t.Ring valEqual valHash k m) : t.entries ≠ [] := by
  intro h
  have := hr.length
  rw [h, List.length_nil] at this
  have := Nat.two_pow_pos k
  omega

/-- The probe ends when an entry is empty. -/
theorem findEntry_eq_some (hr : t.Ring valEqual valHash k m)
    (hroom : t.count < t.entries.length) (key : κ) :
    ∃ i, findEntry valEqual valHash t.entries key = some i ∧
      Finds valEqual valHash t.entries key i := by
  rw [hr.count] at hroom
  obtain ⟨j, hj⟩ := exists_empty hroom
  obtain ⟨i, hi⟩ : ∃ i, Finds valEqual valHash t.entries key i := exists_found hj
  exact ⟨i, search_eq_some hr.length hi, hi⟩

/-- The entry a key is searched at: empty, or the key's. -/
theorem entry_cases (hk : LawfulKeys valEqual valHash) (hr : t.Ring valEqual valHash k m) {i : ℕ}
    (hf : Finds valEqual valHash t.entries key i) :
    t.entries[i]? = some none ∧ m key = none ∨
      ∃ a, t.entries[i]? = some (some a) ∧ valEqual a.1 key = true ∧ m key = some a.2 := by
  have hlt : i < t.entries.length := hf.lt (hr.length ▸ Nat.two_pow_pos k)
  cases hcell : t.entries[i]? with
  | none =>
    rw [List.getElem?_eq_none_iff] at hcell
    omega
  | some cell =>
    cases cell with
    | none => exact .inl ⟨rfl, hr.represents.eq_none hk hr.placed hf hcell⟩
    | some a =>
      obtain ⟨hkey, hm⟩ := hr.represents.eq_some hf hcell
      exact .inr ⟨a, rfl, hkey, hm⟩

/-- No other entry has the key. -/
theorem other (hk : LawfulKeys valEqual valHash) (hr : t.Ring valEqual valHash k m) {i : ℕ}
    (hf : Finds valEqual valHash t.entries key i) :
    ∀ (j : ℕ) (a : κ × ν), j ≠ i → t.entries[j]? = some (some a) → valEqual a.1 key = false := by
  intro j a hji hj
  by_contra hne
  exact hji ((hr.placed.finds hk hj (by simpa using hne)).unique hf)

/-- The key and the value are written where the probe ended. -/
theorem put (hk : LawfulKeys valEqual valHash) (hr : t.Ring valEqual valHash k m) {i : ℕ}
    (hf : Finds valEqual valHash t.entries key i) (value : ν) :
    t.entries[i]?.join.isNone = (m key).isNone ∧
      (⟨if (m key).isNone then t.count + 1 else t.count,
        t.entries.set i (some (key, value))⟩ : Table κ ν).Ring valEqual valHash k
        (assign valEqual key value m) := by
  have hlt : i < t.entries.length := hf.lt (hr.length ▸ Nat.two_pow_pos k)
  obtain ⟨hcell, hm⟩ | ⟨a, hcell, hkey, hm⟩ := hr.entry_cases hk hf
  · refine ⟨by rw [hcell, hm]; rfl, ?_, ?_, ?_, ?_⟩
    · rw [List.length_set]
      exact hr.length
    · rw [hm, items_fill hcell, hr.count]
      rfl
    · exact hr.placed.insert hk hcell hf
    · refine hr.represents.put hk hlt (fun a ha => ?_) (hr.other hk hf)
      rw [hcell] at ha
      cases ha
  · refine ⟨by rw [hcell, hm]; rfl, ?_, ?_, ?_, ?_⟩
    · rw [List.length_set]
      exact hr.length
    · rw [hm, items_replace hcell, hr.count]
      rfl
    · exact hr.placed.replace hk hcell hkey hf
    · refine hr.represents.put hk hlt (fun b hb => ?_) (hr.other hk hf)
      rw [hcell] at hb
      obtain rfl := Option.some.inj (Option.some.inj hb)
      exact hkey

end Table.Ring

/-! ## The operations -/

/-- Entries of other keys are moved to an array with room for them. -/
theorem moveEntries (hk : LawfulKeys valEqual valHash) (hr : t.Ring valEqual valHash k m)
    {entries : List (Option (κ × ν))} (hd : Distinct valEqual entries)
    (hroom : t.count + items entries < 2 ^ k)
    (hnew : ∀ (i : ℕ) (a : κ × ν), entries[i]? = some (some a) → m a.1 = none) :
    ∃ t', entries.foldlM (moveEntry valEqual valHash) t = some t' ∧
      t'.count = t.count + items entries ∧
      (∀ b, some b ∈ t'.entries ↔ some b ∈ t.entries ∨ some b ∈ entries) ∧
      t'.Ring valEqual valHash k (assignAll valEqual entries m) := by
  induction entries generalizing t m with
  | nil => exact ⟨t, rfl, rfl, by simp, hr⟩
  | cons c entries ih =>
    rw [List.foldlM_cons]
    cases c with
    | none =>
      have hitems : items (none :: entries) = items entries := by simp [items]
      rw [hitems] at hroom ⊢
      obtain ⟨t', hfold, hcount, hmem, hring⟩ :=
        ih hr hd.tail hroom fun i a ha => hnew (i + 1) a ha
      exact ⟨t', hfold, hcount, by simpa using hmem, hring⟩
    | some a =>
      have hitems : items (some a :: entries) = items entries + 1 := by simp [items]
      rw [hitems] at hroom ⊢
      obtain ⟨i, hfind, hf⟩ := hr.findEntry_eq_some (by rw [hr.length]; omega) a.1
      have hmove : moveEntry valEqual valHash t (some a) =
          some ⟨t.count + 1, t.entries.set i (some a)⟩ := by
        rw [moveEntry, hfind]
        rfl
      have hput := (hr.put hk hf a.2).2
      rw [hnew 0 a rfl, Option.isNone_none, if_pos rfl] at hput
      rw [hmove, Option.bind_eq_bind, Option.bind_some]
      have hroom' : t.count + 1 + items entries < 2 ^ k := by omega
      obtain ⟨t', hfold, hcount, hmem, hring⟩ := ih hput hd.tail hroom' (by
        intro j b hb
        have hne : valEqual a.1 b.1 = false := by
          by_contra hab
          have := hd 0 (j + 1) a b rfl hb (by simpa using hab)
          omega
        rw [assign, hne]
        exact hnew (j + 1) b hb)
      refine ⟨t', hfold, ?_, fun b => ?_, hring⟩
      · rw [hcount, Nat.add_right_comm, Nat.add_assoc]
      · obtain ⟨hcell, -⟩ | ⟨c, -, -, hm⟩ := hr.entry_cases hk hf
        · rw [hmem, mem_fill hcell, List.mem_cons, Option.some_inj]
          tauto
        · rw [hnew 0 a rfl] at hm
          cases hm

theorem le_growCapacity (n : ℕ) : n ≤ growCapacity n := by
  unfold growCapacity
  split <;> omega

/-- The grown array has room for one more entry. -/
theorem load_growCapacity {n c : ℕ} (hn : n = 0 ∨ ∃ k, n = 2 ^ k) (hload : 4 * c ≤ 3 * n) :
    (∃ k, growCapacity n = 2 ^ k) ∧ 4 * (c + 1) ≤ 3 * growCapacity n := by
  unfold growCapacity
  split
  next hlt =>
    refine ⟨⟨3, rfl⟩, ?_⟩
    obtain rfl | ⟨k, rfl⟩ := hn
    · omega
    · have hk : k < 3 := (Nat.pow_lt_pow_iff_right (by omega)).mp (show 2 ^ k < 2 ^ 3 by omega)
      have : 2 ^ k ≤ 2 ^ 2 := Nat.pow_le_pow_right (by omega) (by omega)
      omega
  next hge =>
    obtain rfl | ⟨k, rfl⟩ := hn
    · omega
    · exact ⟨⟨k + 1, by rw [Nat.pow_succ]⟩, by omega⟩

namespace Table.Stands

theorem load (hs : t.Stands valEqual valHash m) : 4 * t.count ≤ 3 * t.entries.length := by
  cases hs with
  | null entries count map => omega
  | ring k ring load => exact load

theorem capacity (hs : t.Stands valEqual valHash m) :
    t.entries.length = 0 ∨ ∃ k, t.entries.length = 2 ^ k := by
  cases hs with
  | null entries count map => exact .inl (by rw [entries]; rfl)
  | ring k ring load => exact .inr ⟨k, ring.length⟩

theorem count (hs : t.Stands valEqual valHash m) : t.count = items t.entries := by
  cases hs with
  | null entries count map => rw [entries, count]; rfl
  | ring k ring load => exact ring.count

theorem distinct (hk : LawfulKeys valEqual valHash) (hs : t.Stands valEqual valHash m) :
    Distinct valEqual t.entries := by
  cases hs with
  | null entries count map =>
    intro i j a b hi
    rw [entries] at hi
    cases hi
  | ring k ring load => exact ring.placed.distinct hk

theorem represents (hs : t.Stands valEqual valHash m) : Represents valEqual t.entries m := by
  cases hs with
  | null entries count map =>
    rw [entries, map]
    exact represents_replicate 0
  | ring k ring load => exact ring.represents

end Table.Stands

theorem initTable_stands :
    (initTable : Table κ ν).Stands valEqual valHash fun _ => none := .null rfl rfl rfl

/-- A table with the capacity of another one. -/
theorem initTableWithCapa_stands (hs : t.Stands valEqual valHash m) :
    (initTableWithCapa (tableCapacity t) : Table κ ν).Stands valEqual valHash fun _ => none := by
  unfold initTableWithCapa tableCapacity
  split
  next => exact initTable_stands
  next hne =>
    obtain hzero | ⟨k, hlen⟩ := hs.capacity
    · exact absurd hzero hne
    · rw [hlen]
      exact .ring k (.replicate k) (by simp)

/-- Growing keeps all entries. -/
theorem resize_eq_some (hk : LawfulKeys valEqual valHash) (hs : t.Stands valEqual valHash m) :
    ∃ k t', resize valEqual valHash t (growCapacity t.entries.length) = some t' ∧
      t'.count = t.count ∧ t'.entries.length = growCapacity t.entries.length ∧
      (∀ b, some b ∈ t'.entries ↔ some b ∈ t.entries) ∧ t'.Ring valEqual valHash k m := by
  obtain ⟨⟨k, hcap⟩, hload⟩ := load_growCapacity hs.capacity hs.load
  have hroom : 0 + items t.entries < 2 ^ k := by
    rw [← hs.count, ← hcap]
    omega
  obtain ⟨t', hfold, hcount, hmem, hring⟩ := moveEntries hk (.replicate k) (hs.distinct hk) hroom
    fun _ _ _ => rfl
  refine ⟨k, t', ?_, ?_, ?_, ?_, ?_⟩
  · rw [resize, hcap]
    exact hfold
  · rw [hcount, hs.count, Nat.zero_add]
  · rw [hring.length, hcap]
  · intro b
    rw [hmem b]
    simp [List.mem_replicate]
  · have hall := assignAll_eq (m := fun _ => none) hk (hs.distinct hk) hs.represents
    simp only [Option.or_none] at hall
    rwa [hall] at hring

theorem not_full_iff : t.full = false ↔ 4 * (t.count + 1) ≤ 3 * t.entries.length := by
  simp [Table.full]

/-- The array that is written to has room. -/
theorem growFull_eq_some (hk : LawfulKeys valEqual valHash) (hs : t.Stands valEqual valHash m) :
    ∃ k t', growFull valEqual valHash t = some t' ∧ t'.Ring valEqual valHash k m ∧
      t'.count = t.count ∧ t'.full = false ∧
      t'.entries.length = (if t.full then growCapacity t.entries.length else t.entries.length) ∧
      ∀ b, some b ∈ t'.entries ↔ some b ∈ t.entries := by
  unfold growFull
  by_cases hfull : t.full = true
  · rw [if_pos hfull, if_pos hfull]
    obtain ⟨k, t', hresize, hcount, hlen, hmem, hring⟩ := resize_eq_some hk hs
    have hload := (load_growCapacity hs.capacity hs.load).2
    rw [← hcount, ← hlen] at hload
    exact ⟨k, t', hresize, hring, hcount, not_full_iff.mpr hload, hlen, hmem⟩
  · rw [if_neg hfull, if_neg hfull]
    rw [Bool.not_eq_true] at hfull
    cases hs with
    | null entries count map =>
      have := not_full_iff.mp hfull
      rw [entries, List.length_nil] at this
      omega
    | ring k ring load => exact ⟨k, t, rfl, ring, rfl, hfull, rfl, fun _ => Iff.rfl⟩

/-- A set that need not grow the array. -/
theorem tableSet_of_not_full (hfull : t.full = false) {i : ℕ}
    (hfind : findEntry valEqual valHash t.entries key = some i) :
    tableSet valEqual valHash t key value = some (t.entries[i]?.join.isNone,
      ⟨if t.entries[i]?.join.isNone then t.count + 1 else t.count,
        t.entries.set i (some (key, value))⟩) := by
  simp [tableSet, growFull, hfull, hfind]

/-- `tableSet` says whether the key is new and sets it. -/
theorem tableSet_eq_some (hk : LawfulKeys valEqual valHash) (hs : t.Stands valEqual valHash m)
    (key : κ) (value : ν) :
    ∃ t', tableSet valEqual valHash t key value = some ((m key).isNone, t') ∧
      t'.Stands valEqual valHash (assign valEqual key value m) ∧
      t'.count = (if (m key).isNone then t.count + 1 else t.count) ∧
      t'.entries.length = (if t.full then growCapacity t.entries.length else t.entries.length) ∧
      (m key = none → ∀ b, some b ∈ t'.entries ↔ b = (key, value) ∨ some b ∈ t.entries) := by
  obtain ⟨k, t₁, hgrow, hring, hcount, hfull, hlen, hmem⟩ := growFull_eq_some hk hs
  have hload := not_full_iff.mp hfull
  obtain ⟨i, hfind, hf⟩ := hring.findEntry_eq_some (by omega) key
  obtain ⟨hnew, hput⟩ := hring.put hk hf value
  refine ⟨_, ?_, .ring k hput ?_, ?_, ?_, ?_⟩
  · rw [tableSet, hgrow, Option.bind_eq_bind, Option.bind_some, hfind, Option.bind_eq_bind,
      Option.bind_some, hnew]
  · change 4 * (if (m key).isNone then t₁.count + 1 else t₁.count) ≤ 3 * (t₁.entries.set i _).length
    rw [List.length_set]
    split <;> omega
  · rw [hcount]
  · rw [List.length_set, hlen]
  · intro hnone b
    obtain ⟨hcell, -⟩ | ⟨c, -, -, hm⟩ := hring.entry_cases hk hf
    · rw [mem_fill hcell, hmem]
    · rw [hnone] at hm
      cases hm

/-- `tableGet` finds the value of the key. -/
theorem tableGet_eq_some (hk : LawfulKeys valEqual valHash) (hs : t.Stands valEqual valHash m)
    (key : κ) : tableGet valEqual valHash t key = some (m key) := by
  cases hs with
  | null entries count map => rw [tableGet, if_pos entries, map]
  | ring k ring load =>
    have hpos := Nat.two_pow_pos k
    have hlen := ring.length
    obtain ⟨i, hfind, hf⟩ := ring.findEntry_eq_some (by omega) key
    rw [tableGet, if_neg ring.entries_ne_nil, hfind, Option.bind_eq_bind, Option.bind_some]
    obtain ⟨hcell, hm⟩ | ⟨a, hcell, -, hm⟩ := ring.entry_cases hk hf
    · rw [hcell, hm]
      rfl
    · rw [hcell, hm]
      rfl

/-- One entry of the cluster behind the deleted entry is put in again; the array does not
grow. -/
theorem readd_step (hk : LawfulKeys valEqual valHash) {j n : ℕ}
    (hlen : t.entries.length = 2 ^ k) (hcount : t.count = items t.entries)
    (hload : 4 * t.count ≤ 3 * t.entries.length)
    (hc : Cluster valEqual valHash t.entries j (n + 1)) (hr : Represents valEqual t.entries m)
    {a : κ × ν} (ha : t.entries[j]? = some (some a)) :
    ∃ t', tableSet valEqual valHash ⟨t.count - 1, t.entries.set j none⟩ a.1 a.2 =
        some (true, t') ∧
      t'.entries.length = t.entries.length ∧ t'.count = t.count ∧ t'.count = items t'.entries ∧
      Cluster valEqual valHash t'.entries (slot t.entries.length j 1) n ∧
      Represents valEqual t'.entries m := by
  have hitems := items_clear ha
  have hr₁ := hr.clear hk hc.distinct ha
  have hnone : ∀ (l : ℕ) (b : κ × ν), (t.entries.set j none)[l]? = some (some b) →
      valEqual b.1 a.1 = false :=
    hr₁.eq_none_iff.mp (by rw [erase, if_pos (hk.refl a.1)])
  obtain ⟨i, hf, hempty, hlast⟩ := hc.find_cleared ha
  have hfind : findEntry valEqual valHash (t.entries.set j none) a.1 = some i :=
    search_eq_some (by rw [List.length_set, hlen]) hf
  have hfull : (⟨t.count - 1, t.entries.set j none⟩ : Table κ ν).full = false := by
    rw [not_full_iff, List.length_set]
    change 4 * (t.count - 1 + 1) ≤ _
    omega
  refine ⟨⟨t.count, (t.entries.set j none).set i (some a)⟩, ?_, ?_, rfl, ?_, ?_, ?_⟩
  · rw [tableSet_of_not_full hfull hfind, hempty]
    simp only [Option.join_some, Option.isNone_none, if_true]
    rw [show t.count - 1 + 1 = t.count by omega]
  · rw [List.length_set, List.length_set]
  · change t.count = items ((t.entries.set j none).set i (some a))
    rw [items_fill hempty]
    omega
  · exact hc.clear.insert hk hempty hlast hf hnone
  · have hlt : i < (t.entries.set j none).length := (List.getElem?_eq_some_iff.mp hempty).1
    have hput := hr₁.put (v := a.2) hk hlt (fun b hb => ?_) fun l b _ hb => hnone l b hb
    · rwa [assign_erase hr ha] at hput
    · rw [hempty] at hb
      cases hb

/-- The loop of `tableDelete` puts the cluster behind the deleted entry in again. -/
theorem readd_eq_some (hk : LawfulKeys valEqual valHash) {j n index fuel : ℕ}
    (hlen : t.entries.length = 2 ^ k) (hcount : t.count = items t.entries)
    (hload : 4 * t.count ≤ 3 * t.entries.length)
    (hc : Cluster valEqual valHash t.entries j n) (hr : Represents valEqual t.entries m)
    (hindex : (index + 1) &&& (t.entries.length - 1) = j) (hfuel : n < fuel) :
    ∃ t', readd valEqual valHash fuel t index = some t' ∧
      t'.Ring valEqual valHash k m ∧ 4 * t'.count ≤ 3 * t'.entries.length := by
  induction n generalizing t j index fuel with
  | zero =>
    obtain ⟨fuel, rfl⟩ : ∃ f, fuel = f + 1 := ⟨fuel - 1, by omega⟩
    have hcell := hc.last
    rw [slot_zero hc.lt] at hcell
    refine ⟨t, ?_, ⟨hlen, hcount, hc.placed_of_zero, hr⟩, hload⟩
    simp only [readd, hindex, hcell]
  | succ n ih =>
    obtain ⟨fuel, rfl⟩ : ∃ f, fuel = f + 1 := ⟨fuel - 1, by omega⟩
    obtain ⟨a, ha⟩ := hc.full 0 (by omega)
    rw [slot_zero hc.lt] at ha
    obtain ⟨t₁, hset, hlen₁, hcount₁, hitems₁, hc₁, hr₁⟩ :=
      readd_step hk hlen hcount hload hc hr ha
    have hnext : (j + 1) &&& (t₁.entries.length - 1) = slot t.entries.length j 1 := by
      rw [hlen₁, hlen, Nat.and_two_pow_sub_one_eq_mod]
      rfl
    obtain ⟨t', hreadd, hring, hload'⟩ := ih (hlen₁.trans hlen) hitems₁
      (by rw [hcount₁, hlen₁]; exact hload) hc₁ hr₁ hnext (show n < fuel by omega)
    refine ⟨t', ?_, hring, hload'⟩
    simp only [readd, hindex, ha, hset]
    exact hreadd

theorem erase_of_eq_none (hk : LawfulKeys valEqual valHash) (hr : Represents valEqual t.entries m)
    (hnone : m key = none) : erase valEqual key m = m := by
  funext k'
  unfold erase
  split
  next hkey =>
    symm
    rw [hr.eq_none_iff] at hnone ⊢
    intro i a ha
    rw [← hk.eq_congr hkey]
    exact hnone i a ha
  next => rfl

theorem erase_congr (hk : LawfulKeys valEqual valHash) {key' : κ}
    (hkey : valEqual key key' = true) : erase valEqual key m = erase valEqual key' m := by
  funext k'
  unfold erase
  rw [hk.eq_comm key, hk.eq_congr hkey, hk.eq_comm k']

/-- `tableDelete` says whether there was an entry of the key and removes it. -/
theorem tableDelete_eq_some (hk : LawfulKeys valEqual valHash) (hs : t.Stands valEqual valHash m)
    (key : κ) :
    ∃ t', tableDelete valEqual valHash t key = some ((m key).isSome, t') ∧
      t'.Stands valEqual valHash (erase valEqual key m) := by
  unfold tableDelete
  by_cases hzero : t.count = 0
  · -- no entries at all
    have hnone : m key = none := by
      rw [hs.represents.eq_none_iff]
      intro i a ha
      have := items_clear ha
      rw [← hs.count] at this
      omega
    rw [if_pos hzero, hnone, erase_of_eq_none hk hs.represents hnone]
    exact ⟨t, rfl, hs⟩
  rw [if_neg hzero]
  cases hs with
  | null entries count map => exact absurd count hzero
  | ring k hr load =>
    obtain ⟨i, hfind, hf⟩ := hr.findEntry_eq_some (by omega) key
    rw [hfind, Option.bind_eq_bind, Option.bind_some]
    obtain ⟨hcell, hm⟩ | ⟨a, hcell, hkey, hm⟩ := hr.entry_cases hk hf
    · rw [hcell, hm, erase_of_eq_none hk hr.represents hm]
      exact ⟨t, rfl, .ring k hr load⟩
    · have hlt : i < t.entries.length := (List.getElem?_eq_some_iff.mp hcell).1
      have hroom : items t.entries < t.entries.length := by
        rw [← hr.count]
        omega
      obtain ⟨n, hc⟩ := exists_cluster hk hr.placed hlt (exists_empty hroom)
      -- the cluster begins with the entry itself
      obtain ⟨n, rfl⟩ : ∃ n', n = n' + 1 := by
        cases n with
        | zero =>
          have := hc.last
          rw [slot_zero hlt, hcell] at this
          cases this
        | succ n => exact ⟨n, rfl⟩
      have hitems := items_clear hcell
      have hcount := hr.count
      have hindex : (i + 1) &&& ((t.entries.set i none).length - 1) =
          slot t.entries.length i 1 := by
        rw [List.length_set, hr.length, Nat.and_two_pow_sub_one_eq_mod]
        rfl
      obtain ⟨t', hreadd, hring, hload⟩ := readd_eq_some (k := k)
        (t := ⟨t.count - 1, t.entries.set i none⟩) hk
        (by rw [List.length_set, hr.length]) (show t.count - 1 = items (t.entries.set i none) by omega)
        (show 4 * (t.count - 1) ≤ 3 * (t.entries.set i none).length by
          rw [List.length_set]; omega)
        hc.clear (hr.represents.clear hk hc.distinct hcell) hindex
        (show n < t.entries.length by have := hc.length_lt; omega)
      rw [hcell, hm, ← erase_congr hk hkey]
      refine ⟨t', ?_, .ring k hring hload⟩
      simp only [Option.join_some, Option.isNone_some, Bool.false_eq_true, if_false, hreadd]
      rfl

theorem assign_of_eq_some (hr : Represents valEqual t.entries m) {i : ℕ} {a : κ × ν}
    (ha : t.entries[i]? = some (some a)) : assign valEqual a.1 a.2 m = m := by
  funext k'
  unfold assign
  split
  next hkey => exact ((hr k' a.2).mpr ⟨i, a.1, ha, hkey⟩).symm
  next => rfl

section AddAll

variable {ι : Type} [DecidableEq ι] {src dst : ι} {s : ι → Table κ ν}

/-- The loop of `tableAddAll` between two tables, from the entry `i` on. -/
theorem addAllLoop_of_ne (hk : LawfulKeys valEqual valHash) (hne : src ≠ dst) {i fuel : ℕ}
    (hs : (s dst).Stands valEqual valHash m) (hi : i ≤ (s src).entries.length)
    (hfuel : (s src).entries.length < i + fuel) :
    ∃ t', addAllLoop valEqual valHash src dst fuel i s = some (Function.update s dst t') ∧
      t'.Stands valEqual valHash (assignAll valEqual ((s src).entries.drop i) m) := by
  induction fuel generalizing i s m with
  | zero => omega
  | succ fuel ih =>
    unfold addAllLoop
    cases hcell : (s src).entries[i]? with
    | none =>
      rw [List.getElem?_eq_none_iff] at hcell
      refine ⟨s dst, by rw [Function.update_eq_self], ?_⟩
      rw [List.drop_of_length_le hcell]
      exact hs
    | some cell =>
      obtain ⟨hlt, hget⟩ := List.getElem?_eq_some_iff.mp hcell
      rw [List.drop_eq_getElem_cons hlt, hget]
      cases cell with
      | none => exact ih hs (by omega) (by omega)
      | some a =>
        obtain ⟨t₁, hset, hs₁, -⟩ := tableSet_eq_some hk hs a.1 a.2
        have hsrc : Function.update s dst t₁ src = s src := Function.update_of_ne hne _ _
        obtain ⟨t', hloop, hs'⟩ := ih (s := Function.update s dst t₁) (i := i + 1)
          (m := assign valEqual a.1 a.2 m) (by rw [Function.update_self]; exact hs₁)
          (by rw [hsrc]; omega) (by rw [hsrc]; omega)
        rw [Function.update_idem] at hloop
        rw [hsrc] at hs'
        refine ⟨t', ?_, hs'⟩
        simp only [hset]
        exact hloop

/-- A set keeps the table from being full. -/
theorem not_full_of_tableSet (hs : t.Stands valEqual valHash m) (hcount : t'.count = t.count)
    (hlen : t'.entries.length =
      if t.full then growCapacity t.entries.length else t.entries.length) : t'.full = false := by
  rw [not_full_iff, hcount, hlen]
  split
  next => exact (load_growCapacity hs.capacity hs.load).2
  next hfull => exact not_full_iff.mp (by simpa using hfull)

/-- The loop of `tableAddAll` from a table to itself: it grows at most once. -/
theorem addAllLoop_self (hk : LawfulKeys valEqual valHash) {i fuel : ℕ}
    (hs : (s dst).Stands valEqual valHash m) (hi : i ≤ (s dst).entries.length)
    (hfuel : (if (s dst).full then growCapacity (s dst).entries.length
      else (s dst).entries.length) < i + fuel) :
    ∃ t', addAllLoop valEqual valHash dst dst fuel i s = some (Function.update s dst t') ∧
      t'.Stands valEqual valHash m := by
  have hgrow := le_growCapacity (s dst).entries.length
  induction fuel generalizing i s with
  | zero =>
    split at hfuel <;> omega
  | succ fuel ih =>
    unfold addAllLoop
    cases hcell : (s dst).entries[i]? with
    | none => exact ⟨s dst, by rw [Function.update_eq_self], hs⟩
    | some cell =>
      have hlt : i < (s dst).entries.length := (List.getElem?_eq_some_iff.mp hcell).1
      cases cell with
      | none => exact ih hs (by omega) (by omega) hgrow
      | some a =>
        obtain ⟨t₁, hset, hs₁, hcount₁, hlen₁, -⟩ := tableSet_eq_some hk hs a.1 a.2
        rw [assign_of_eq_some hs.represents hcell] at hs₁
        have hold : m a.1 = some a.2 :=
          (hs.represents a.1 a.2).mpr ⟨i, a.1, hcell, hk.refl a.1⟩
        rw [hold, Option.isNone_some, if_neg Bool.false_ne_true] at hcount₁
        have hfull₁ := not_full_of_tableSet hs hcount₁ hlen₁
        have hle : (s dst).entries.length ≤ t₁.entries.length := by
          rw [hlen₁]
          split <;> omega
        rw [← hlen₁] at hfuel
        have hself : Function.update s dst t₁ dst = t₁ := Function.update_self ..
        obtain ⟨t', hloop, hs'⟩ := ih (s := Function.update s dst t₁) (i := i + 1)
          (by rw [hself]; exact hs₁) (by rw [hself]; omega)
          (by rw [hself, hfull₁, if_neg Bool.false_ne_true]; omega)
          (le_growCapacity _)
        rw [Function.update_idem] at hloop
        refine ⟨t', ?_, hs'⟩
        simp only [hset]
        exact hloop

/-- `tableAddAll` sets all entries of one table in another one. -/
theorem tableAddAll_eq_some (hk : LawfulKeys valEqual valHash) {m' : κ → Option ν}
    (hsrc : (s src).Stands valEqual valHash m') (hdst : (s dst).Stands valEqual valHash m) :
    ∃ t', tableAddAll valEqual valHash src dst s = some (Function.update s dst t') ∧
      t'.Stands valEqual valHash fun k => (m' k).or (m k) := by
  unfold tableAddAll
  by_cases heq : src = dst
  · subst heq
    have hsame : m' = m := by
      funext k
      have hget := tableGet_eq_some hk hsrc k
      rw [tableGet_eq_some hk hdst k] at hget
      exact (Option.some.inj hget).symm
    rw [hsame]
    simp only [Option.or_self]
    refine addAllLoop_self hk hdst (Nat.zero_le _) ?_
    unfold growCapacity
    split <;> (try split) <;> omega
  · obtain ⟨t', hloop, hs⟩ := addAllLoop_of_ne hk heq hdst (Nat.zero_le _)
      (show (s src).entries.length < 0 + (2 * (s src).entries.length + 9) by omega)
    rw [List.drop_zero, assignAll_eq hk (hsrc.distinct hk) hsrc.represents] at hs
    exact ⟨t', hloop, hs⟩

end AddAll

/-! ## Runs -/

/-- The calls on the tables named by `ι`; `initWithCapa` is the new table `Map#rehash` makes. -/
inductive TableOp (ι κ ν : Type)
  | init (dst : ι)
  | initWithCapa (src dst : ι)
  | set (dst : ι) (key : κ) (value : ν)
  | get (src : ι) (key : κ)
  | delete (dst : ι) (key : κ)
  | addAll (src dst : ι)

/-- What the calls return. -/
inductive TableResult (ν : Type)
  | unit
  | isNewKey (new : Bool)
  | found (value : Option ν)
  | deleted (found : Bool)

section Runs

variable {ι : Type} [DecidableEq ι]

section

variable (valEqual : κ → κ → Bool) (valHash : κ → ℕ)

def TableOp.step (ts : ι → Table κ ν) :
    TableOp ι κ ν → Option (TableResult ν × (ι → Table κ ν))
  | .init dst => some (.unit, Function.update ts dst initTable)
  | .initWithCapa src dst =>
    some (.unit, Function.update ts dst (initTableWithCapa (tableCapacity (ts src))))
  | .set dst key value => do
    let (isNew, t) ← tableSet valEqual valHash (ts dst) key value
    some (.isNewKey isNew, Function.update ts dst t)
  | .get src key => do
    let value ← tableGet valEqual valHash (ts src) key
    some (.found value, ts)
  | .delete dst key => do
    let (found, t) ← tableDelete valEqual valHash (ts dst) key
    some (.deleted found, Function.update ts dst t)
  | .addAll src dst => do
    let ts ← tableAddAll valEqual valHash src dst ts
    some (.unit, ts)

/-- The results of a sequence of calls, and the tables after it. -/
def runTables (ts : ι → Table κ ν) :
    List (TableOp ι κ ν) → Option (List (TableResult ν) × (ι → Table κ ν))
  | [] => some ([], ts)
  | op :: ops => do
    let (result, ts) ← op.step valEqual valHash ts
    let (results, ts) ← runTables ts ops
    some (result :: results, ts)

/-- A call on finite maps from keys to values. -/
def TableOp.spec (ms : ι → κ → Option ν) :
    TableOp ι κ ν → TableResult ν × (ι → κ → Option ν)
  | .init dst => (.unit, Function.update ms dst fun _ => none)
  | .initWithCapa _ dst => (.unit, Function.update ms dst fun _ => none)
  | .set dst key value =>
    (.isNewKey (ms dst key).isNone,
      Function.update ms dst (assign valEqual key value (ms dst)))
  | .get src key => (.found (ms src key), ms)
  | .delete dst key =>
    (.deleted (ms dst key).isSome, Function.update ms dst (erase valEqual key (ms dst)))
  | .addAll src dst =>
    (.unit, Function.update ms dst fun k => (ms src k).or (ms dst k))

def runMaps (ms : ι → κ → Option ν) :
    List (TableOp ι κ ν) → List (TableResult ν) × (ι → κ → Option ν)
  | [] => ([], ms)
  | op :: ops =>
    let (result, ms) := op.spec valEqual ms
    let (results, ms) := runMaps ms ops
    (result :: results, ms)

/-- The table holds the map: each key's item is in exactly one entry, and `count` is the
number of keys. -/
structure Table.Refines (t : Table κ ν) (m : κ → Option ν) : Prop where
  represents : Represents valEqual t.entries m
  distinct : Distinct valEqual t.entries
  count : ∃ live : List κ, live.length = t.count ∧
    (live.Pairwise fun a b => valEqual a b = false) ∧
    ∀ key, (m key).isSome ↔ ∃ k ∈ live, valEqual k key = true

end

theorem Table.Stands.refines (hk : LawfulKeys valEqual valHash)
    (hs : t.Stands valEqual valHash m) : t.Refines valEqual m where
  represents := hs.represents
  distinct := hs.distinct hk
  count := ⟨keys t.entries, by rw [length_keys, hs.count], (hs.distinct hk).pairwise,
    fun _ => hs.represents.isSome_iff⟩

variable {ts : ι → Table κ ν} {ms : ι → κ → Option ν}

theorem stands_update (hs : ∀ i, (ts i).Stands valEqual valHash (ms i)) {dst : ι}
    (ht : t.Stands valEqual valHash m) (i : ι) :
    (Function.update ts dst t i).Stands valEqual valHash (Function.update ms dst m i) := by
  by_cases hi : i = dst
  · subst hi
    rw [Function.update_self, Function.update_self]
    exact ht
  · rw [Function.update_of_ne hi, Function.update_of_ne hi]
    exact hs i

/-- One call does on the tables what it does on the maps. -/
theorem step_eq_some (hk : LawfulKeys valEqual valHash)
    (hs : ∀ i, (ts i).Stands valEqual valHash (ms i)) (op : TableOp ι κ ν) :
    ∃ ts', op.step valEqual valHash ts = some ((op.spec valEqual ms).1, ts') ∧
      ∀ i, (ts' i).Stands valEqual valHash ((op.spec valEqual ms).2 i) := by
  cases op with
  | init dst => exact ⟨_, rfl, stands_update hs initTable_stands⟩
  | initWithCapa src dst =>
    exact ⟨_, rfl, stands_update hs (initTableWithCapa_stands (hs src))⟩
  | set dst key value =>
    obtain ⟨t', hset, ht', -⟩ := tableSet_eq_some hk (hs dst) key value
    refine ⟨_, ?_, stands_update hs ht'⟩
    simp only [TableOp.step, hset]
    rfl
  | get src key =>
    refine ⟨ts, ?_, hs⟩
    simp only [TableOp.step, tableGet_eq_some hk (hs src) key]
    rfl
  | delete dst key =>
    obtain ⟨t', hdelete, ht'⟩ := tableDelete_eq_some hk (hs dst) key
    refine ⟨_, ?_, stands_update hs ht'⟩
    simp only [TableOp.step, hdelete]
    rfl
  | addAll src dst =>
    obtain ⟨t', hadd, ht'⟩ := tableAddAll_eq_some hk (hs src) (hs dst)
    refine ⟨_, ?_, stands_update hs ht'⟩
    simp only [TableOp.step, hadd]
    rfl

theorem runTables_eq_some (hk : LawfulKeys valEqual valHash) (ops : List (TableOp ι κ ν))
    (hs : ∀ i, (ts i).Stands valEqual valHash (ms i)) :
    ∃ ts', runTables valEqual valHash ts ops = some ((runMaps valEqual ms ops).1, ts') ∧
      ∀ i, (ts' i).Stands valEqual valHash ((runMaps valEqual ms ops).2 i) := by
  induction ops generalizing ts ms with
  | nil => exact ⟨ts, rfl, hs⟩
  | cons op ops ih =>
    obtain ⟨ts₁, hstep, hs₁⟩ := step_eq_some hk hs op
    obtain ⟨ts', hrun, hs'⟩ := ih hs₁
    refine ⟨ts', ?_, hs'⟩
    simp only [runTables, hstep, Option.bind_eq_bind, Option.bind_some, hrun]
    rfl

/-- Every sequence of calls on fresh tables ends, returns what it returns on maps, and leaves
tables that hold those maps. -/
theorem tables_refine_maps (hk : LawfulKeys valEqual valHash) (ops : List (TableOp ι κ ν)) :
    ∃ ts, runTables valEqual valHash (fun _ => initTable) ops =
        some ((runMaps valEqual (fun _ _ => none) ops).1, ts) ∧
      ∀ i, (ts i).Refines valEqual ((runMaps valEqual (fun _ _ => none) ops).2 i) := by
  have hfresh : ∀ i, ((fun _ => initTable : ι → Table κ ν) i).Stands valEqual valHash
      ((fun _ _ => none : ι → κ → Option ν) i) := fun _ => initTable_stands
  obtain ⟨ts, hrun, hs⟩ := runTables_eq_some hk ops hfresh
  exact ⟨ts, hrun, fun i => (hs i).refines hk⟩

theorem natKeys_lawful : LawfulKeys Nat.beq id where
  refl := Nat.beq_refl
  symm h := Nat.beq_eq ▸ (Nat.eq_of_beq_eq_true h).symm
  trans h h' := Nat.beq_eq ▸ (Nat.eq_of_beq_eq_true h).trans (Nat.eq_of_beq_eq_true h')
  hash_eq h := Nat.eq_of_beq_eq_true h

/-- Three keys of the last entry, two of which wrap around; the first one is deleted. -/
def wrappedCalls : List (TableOp Unit ℕ ℕ) :=
  [.set () 7 70, .set () 15 150, .set () 23 230, .delete () 7, .get () 23]

theorem wrappedCalls_refine :
    ∃ ts, runTables Nat.beq id (fun _ => initTable) wrappedCalls =
        some ([.isNewKey true, .isNewKey true, .isNewKey true, .deleted true,
          .found (some 230)], ts) ∧
      ∀ i, (ts i).Refines Nat.beq ((runMaps Nat.beq (fun _ _ => none) wrappedCalls).2 i) :=
  tables_refine_maps natKeys_lawful wrappedCalls

end Runs

end Clox
