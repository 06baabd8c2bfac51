import Mathlib.Tactic.IntervalCases
import Clox.Lib.Displacement
import Clox.Runtime.Table

/-! # Load and probing of the hash table

`table.c` once more, with its `count` and `capacityMask`, for keys whose methods need not
agree with each other: `valEqual` and `valHash` call `opEquals` and `hashKey`, which may
answer differently each time. What keeps the probe loops from running for ever is the load
alone, except in `tableDelete`, which puts in again what it has taken out.

* `Bounded`: the capacity is 0 or a power of two, and a quarter of it is never counted;
* `findEntry_isSome`, `tableSet_bounded`: any probe ends then, and a set keeps it so;
* `readd_isSome`: the walk of `tableDelete` ends when each key has one hash.
-/

namespace Clox

/-- `valEqual` and `valHash`, with what the methods they call read and change. -/
structure KeyMethods (κ σ : Type) where
  valEqual : κ → κ → σ → Bool × σ
  valHash : κ → σ → ℕ × σ
  /-- The key is the number with the bits of `QNAN`. -/
  isQnan : κ → Bool

/-- Each key has one hash. -/
def KeyMethods.Stable {κ σ : Type} (keys : KeyMethods κ σ) : Prop :=
  ∀ key s s', (keys.valHash key s).1 = (keys.valHash key s').1

structure HashTable (κ ν : Type) where
  count : ℤ
  capacityMask : ℤ
  /-- `none` is `TBL_EMPTY_ENTRY`; without entries where the pointer is NULL. -/
  entries : List (Option (κ × ν))
deriving DecidableEq

namespace HashTable

open Probing

variable {κ ν σ : Type}

def initTable : HashTable κ ν := ⟨0, -1, []⟩

def initTableWithCapa (capa : ℕ) : HashTable κ ν :=
  if capa = 0 then initTable else ⟨0, capa - 1, List.replicate capa none⟩

def tableCapacity (t : HashTable κ ν) : ℕ := (t.capacityMask + 1).toNat

section Operations

variable (keys : KeyMethods κ σ)

/-- The loop of `findEntry`; `none` when it takes more than `fuel` rounds. -/
def probe (entries : List (Option (κ × ν))) (capacityMask : ℤ) (key : κ) :
    ℕ → ℕ → σ → Option (ℕ × σ)
  | 0, _, _ => none
  | fuel + 1, index, s =>
    match entries[index]? with
    | none => none
    | some none => some (index, s)
    | some (some entry) =>
      let (equal, s) := keys.valEqual entry.1 key s
      if equal then some (index, s)
      else probe entries capacityMask key fuel ((index + 1) &&& capacityMask.toNat) s

/-- `none` when the probe has gone round once without an end. -/
def findEntry (entries : List (Option (κ × ν))) (capacityMask : ℤ) (key : κ) (s : σ) :
    Option (ℕ × σ) :=
  let (hash, s) := keys.valHash key s
  probe keys entries capacityMask key entries.length (hash &&& capacityMask.toNat) s

/-- The body of the loop of `resize`. -/
def moveEntry (capacityMask : ℤ) (acc : List (Option (κ × ν)) × ℤ × σ) :
    Option (κ × ν) → Option (List (Option (κ × ν)) × ℤ × σ)
  | none => some acc
  | some entry => do
    let (entries, count, s) := acc
    let (index, s) ← findEntry keys entries capacityMask entry.1 s
    some (entries.set index (some entry), count + 1, s)

def resize (t : HashTable κ ν) (capacityMask : ℤ) (s : σ) : Option (HashTable κ ν × σ) := do
  let (entries, count, s) ← t.entries.foldlM (moveEntry keys capacityMask)
    (List.replicate (capacityMask + 1).toNat none, 0, s)
  some (⟨count, capacityMask, entries⟩, s)

/-- `count + 1 > (capacityMask + 1) * TABLE_MAX_LOAD` -/
def isFull (t : HashTable κ ν) : Bool := 4 * (t.count + 1) > 3 * (t.capacityMask + 1)

/-- The first lines of `tableSet`. -/
def growIfFull (t : HashTable κ ν) (s : σ) : Option (HashTable κ ν × σ) :=
  if t.isFull then resize keys t (growCapacity t.tableCapacity - 1) s else some (t, s)

def tableSet (t : HashTable κ ν) (key : κ) (value : ν) (s : σ) :
    Option (Bool × HashTable κ ν × σ) := do
  let (t, s) ← growIfFull keys t s
  let (index, s) ← findEntry keys t.entries t.capacityMask key s
  let isNewKey := t.entries[index]?.join.isNone
  let count := if isNewKey then t.count + 1 else t.count
  some (isNewKey, ⟨count, t.capacityMask, t.entries.set index (some (key, value))⟩, s)

def tableGet (t : HashTable κ ν) (key : κ) (s : σ) : Option (Option ν × σ) :=
  if t.entries = [] then some (none, s)
  else do
    let (index, s) ← findEntry keys t.entries t.capacityMask key s
    some (t.entries[index]?.join.map Prod.snd, s)

/-- The entry is made empty. -/
def clearEntry (t : HashTable κ ν) (index : ℕ) : HashTable κ ν :=
  ⟨t.count - 1, t.capacityMask, t.entries.set index none⟩

/-- The loop of `tableDelete`; `none` when it takes more than `fuel` rounds. -/
def readd : ℕ → HashTable κ ν → ℕ → σ → Option (HashTable κ ν × σ)
  | 0, _, _, _ => none
  | fuel + 1, t, index, s =>
    let index := (index + 1) &&& t.capacityMask.toNat
    match t.entries[index]? with
    | none => none
    | some none => some (t, s)
    | some (some entry) => do
      let (_, t, s) ← tableSet keys (t.clearEntry index) entry.1 entry.2 s
      readd fuel t index s

def tableDelete (fuel : ℕ) (t : HashTable κ ν) (key : κ) (s : σ) :
    Option (Bool × HashTable κ ν × σ) :=
  if t.count = 0 then some (false, t, s)
  else do
    let (index, s) ← findEntry keys t.entries t.capacityMask key s
    if t.entries[index]?.join.isNone then some (false, t, s)
    else do
      let (t, s) ← readd keys fuel (t.clearEntry index) index s
      some (true, t, s)

/-- The loop of `tableFindString`, `isString` being the test on the keys. -/
def findStringFrom (isString : κ → Bool) (t : HashTable κ ν) : ℕ → ℕ → Option (Option κ)
  | 0, _ => none
  | fuel + 1, index =>
    match t.entries[index]? with
    | none => none
    | some none => some none
    | some (some entry) =>
      if isString entry.1 then some (some entry.1)
      else findStringFrom isString t fuel ((index + 1) &&& t.capacityMask.toNat)

/-- `none` when the loop has gone round once without an end. -/
def tableFindString (isString : κ → Bool) (t : HashTable κ ν) (hash : ℕ) : Option (Option κ) :=
  if t.entries = [] then some none
  else findStringFrom isString t t.entries.length (hash &&& t.capacityMask.toNat)

/-- `TABLE_FOREACH`, with `tableSet` of every entry in another table; it stops at a key that has
the bits of `QNAN`. -/
def setEach : List (Option (κ × ν)) → HashTable κ ν → σ → Option (HashTable κ ν × σ)
  | [], t, s => some (t, s)
  | none :: entries, t, s => setEach entries t s
  | some entry :: entries, t, s =>
    if keys.isQnan entry.1 then some (t, s)
    else do
      let (_, t, s) ← tableSet keys t entry.1 entry.2 s
      setEach entries t s

/-- Copying all entries of a map, as `dup` and `merge` do. -/
def copyEntries (src dst : HashTable κ ν) (s : σ) : Option (HashTable κ ν × σ) :=
  setEach keys (if 0 < src.count then src.entries else []) dst s

/-- `lxMapRehash`, on the table of the map. -/
def lxMapRehash (t : HashTable κ ν) (s : σ) : Option (HashTable κ ν × σ) :=
  copyEntries keys t (initTableWithCapa t.tableCapacity) s

end Operations

/-! ## Calls -/

/-- The calls that change tables: `initTable` (also `freeTable`), `tableSet`, `tableDelete`, and
what the methods of `Map` make of them. -/
inductive Call (ι κ ν : Type) where
  | init (dst : ι)
  | initWithCapa (src dst : ι)
  | set (dst : ι) (key : κ) (value : ν)
  | delete (dst : ι) (key : κ)
  | copy (src dst : ι)
  | rehash (dst : ι)

section Calls

variable {ι : Type} [DecidableEq ι]

def Call.run (keys : KeyMethods κ σ) (fuel : ℕ) (ts : ι → HashTable κ ν) (s : σ) :
    Call ι κ ν → Option ((ι → HashTable κ ν) × σ)
  | .init dst => some (Function.update ts dst initTable, s)
  | .initWithCapa src dst =>
    some (Function.update ts dst (initTableWithCapa (ts src).tableCapacity), s)
  | .set dst key value => do
    let (_, t, s) ← tableSet keys (ts dst) key value s
    some (Function.update ts dst t, s)
  | .delete dst key => do
    let (_, t, s) ← tableDelete keys fuel (ts dst) key s
    some (Function.update ts dst t, s)
  | .copy src dst => do
    let (t, s) ← copyEntries keys (ts src) (ts dst) s
    some (Function.update ts dst t, s)
  | .rehash dst => do
    let (t, s) ← lxMapRehash keys (ts dst) s
    some (Function.update ts dst t, s)

/-- What any sequence of calls makes of fresh tables; the methods of the keys may be others in
each call. -/
inductive Reachable : (ι → HashTable κ ν) → Prop where
  | fresh : Reachable fun _ => initTable
  | call {ts ts' : ι → HashTable κ ν} {σ : Type} (keys : KeyMethods κ σ) (fuel : ℕ) (s s' : σ)
      (c : Call ι κ ν) : Reachable ts → c.run keys fuel ts s = some (ts', s') → Reachable ts'

end Calls

/-- The capacity is 0 or a power of two, and some entry is empty. -/
structure WellLoaded (t : HashTable κ ν) : Prop where
  capacity : t.tableCapacity = 0 ∨ ∃ k, t.tableCapacity = 2 ^ k
  mask : t.capacityMask = t.tableCapacity - 1
  allocated : t.entries.length = t.tableCapacity
  load : 4 * t.count ≤ 3 * t.tableCapacity
  empty : 0 < t.tableCapacity → none ∈ t.entries

/-- Every probe of the table ends, and deleting does not resize it. -/
structure ProbesEnd (t : HashTable κ ν) : Prop where
  find : ∀ {σ : Type} (keys : KeyMethods κ σ) key s, 0 < t.tableCapacity →
    (findEntry keys t.entries t.capacityMask key s).isSome = true
  findString : ∀ isString hash, (tableFindString isString t hash).isSome = true
  set : ∀ {σ : Type} (keys : KeyMethods κ σ) key value s, (tableSet keys t key value s).isSome = true
  delete : ∀ {σ : Type} (keys : KeyMethods κ σ), keys.Stable → ∀ key s,
    ∃ fuel₀, ∀ fuel, fuel₀ ≤ fuel → (tableDelete keys fuel t key s).isSome = true
  readd : ∀ index entry, t.entries[index]? = some (some entry) → (t.clearEntry index).isFull = false
  noResize : ∀ {σ : Type} (keys : KeyMethods κ σ) fuel key s deleted t' s',
    tableDelete keys fuel t key s = some (deleted, t', s') → t'.tableCapacity = t.tableCapacity

/-! ## The load -/

/-- The capacity is 0 or a power of two, and at least a quarter of it is not counted. -/
structure Bounded (t : HashTable κ ν) : Prop where
  capacity : t.entries.length = 0 ∨ ∃ k, t.entries.length = 2 ^ k
  mask : t.capacityMask = t.entries.length - 1
  items_le : (items t.entries : ℤ) ≤ t.count
  load : 4 * t.count ≤ 3 * t.entries.length

variable {t t' : HashTable κ ν} (keys : KeyMethods κ σ) {s s' : σ} {key : κ} {value : ν}
  {entries : List (Option (κ × ν))} {j k index : ℕ}

theorem initTable_bounded : (initTable : HashTable κ ν).Bounded where
  capacity := .inl rfl
  mask := rfl
  items_le := le_refl _
  load := le_refl _

theorem Bounded.tableCapacity_eq (hb : t.Bounded) : t.tableCapacity = t.entries.length := by
  unfold tableCapacity
  have := hb.mask
  omega

theorem initTableWithCapa_bounded (hb : t.Bounded) :
    (initTableWithCapa t.tableCapacity : HashTable κ ν).Bounded := by
  unfold initTableWithCapa
  split
  · exact initTable_bounded
  · rename_i hne
    rw [hb.tableCapacity_eq] at hne ⊢
    constructor
    · simpa using hb.capacity
    · simp
    · simp [items_replicate]
    · simp only [List.length_replicate]
      omega

/-- There is an empty entry in any table with entries. -/
theorem Bounded.exists_empty (hb : t.Bounded) (hpos : t.entries ≠ []) :
    ∃ j : ℕ, t.entries[j]? = some none := by
  refine Probing.exists_empty ?_
  have := hb.items_le
  have := hb.load
  have : 0 < t.entries.length := List.length_pos_iff.mpr hpos
  omega

theorem Bounded.isFull_iff (hb : t.Bounded) :
    t.isFull = true ↔ 3 * (t.entries.length : ℤ) < 4 * (t.count + 1) := by
  have := hb.mask
  rw [isFull, decide_eq_true_eq]
  omega

/-! ## Probing -/

section probe

variable {mask : ℤ}

theorem and_mask (hlen : entries.length = 2 ^ k) (hmask : mask = entries.length - 1) (i : ℕ) :
    i &&& mask.toNat = i % entries.length := by
  have hnat : mask.toNat = 2 ^ k - 1 := by
    have := Nat.two_pow_pos k
    omega
  rw [hnat, Nat.and_two_pow_sub_one_eq_mod, hlen]

theorem slot_succ (n h d : ℕ) : slot n (h + 1) d = slot n h (d + 1) := by
  rw [slot, slot, Nat.add_assoc, Nat.add_comm 1 d]

/-- `(index + 1) & capacityMask` -/
theorem next_slot (hlen : entries.length = 2 ^ k) (hmask : mask = entries.length - 1) (h : ℕ) :
    (slot entries.length h 0 + 1) &&& mask.toNat = slot entries.length (h + 1) 0 := by
  rw [and_mask hlen hmask, slot_succ]
  exact slot_slot _ h 0 1

/-- A probe stops at the empty entry `d` places on, or before. -/
theorem probe_eq_some (key : κ) (hlen : entries.length = 2 ^ k) (hmask : mask = entries.length - 1)
    {h d fuel : ℕ} (hempty : entries[slot entries.length h d]? = some none) (hfuel : d < fuel)
    (s : σ) : ∃ e ≤ d, ∃ s', probe keys entries mask key fuel (slot entries.length h 0) s =
      some (slot entries.length h e, s') := by
  induction fuel generalizing h d s with
  | zero => omega
  | succ fuel ih =>
    have hlt : slot entries.length h 0 < entries.length :=
      slot_lt (hlen ▸ Nat.two_pow_pos k) h 0
    cases hcell : entries[slot entries.length h 0]? with
    | none =>
      rw [List.getElem?_eq_none_iff] at hcell
      omega
    | some cell =>
      cases cell with
      | none => exact ⟨0, Nat.zero_le d, s, by simp [probe, hcell]⟩
      | some entry =>
        cases hequal : (keys.valEqual entry.1 key s).1 with
        | true =>
          exact ⟨0, Nat.zero_le d, (keys.valEqual entry.1 key s).2, by simp [probe, hcell, hequal]⟩
        | false =>
          have hd : d ≠ 0 := by
            rintro rfl
            rw [hcell] at hempty
            cases hempty
          obtain ⟨d, rfl⟩ := Nat.exists_eq_succ_of_ne_zero hd
          -- the rest is a probe from the next entry
          rw [← slot_succ] at hempty
          rcases ih hempty (by omega) (keys.valEqual entry.1 key s).2 with ⟨e, he, s', hprobe⟩
          refine ⟨e + 1, by omega, s', ?_⟩
          rw [← slot_succ]
          simp only [probe, hcell, hequal, next_slot hlen hmask]
          exact hprobe

/-- A key is found no further from its hash than the first empty entry. -/
theorem findEntry_eq_some (hlen : entries.length = 2 ^ k) (hmask : mask = entries.length - 1)
    (hempty : entries[j]? = some none) (key : κ) (s : σ) :
    ∃ e ≤ distance entries.length (keys.valHash key s).1 j, e < entries.length ∧
      ∃ s', findEntry keys entries mask key s =
        some (slot entries.length (keys.valHash key s).1 e, s') := by
  have hj : j < entries.length := (List.getElem?_eq_some_iff.mp hempty).1
  have hdist : distance entries.length (keys.valHash key s).1 j < entries.length :=
    distance_lt (by omega)
  have hempty' : entries[slot entries.length (keys.valHash key s).1
      (distance entries.length (keys.valHash key s).1 j)]? = some none := by
    rwa [slot_distance hj]
  rcases probe_eq_some keys key hlen hmask hempty' hdist (keys.valHash key s).2 with ⟨e, he, s', hprobe⟩
  refine ⟨e, he, by omega, s', ?_⟩
  have hstart : (keys.valHash key s).1 &&& mask.toNat =
      slot entries.length (keys.valHash key s).1 0 := and_mask hlen hmask _
  rw [← hstart] at hprobe
  exact hprobe

end probe

/-- The probe for any key ends in a table with entries. -/
theorem Bounded.findEntry_eq_some (hb : t.Bounded) (hpos : t.entries ≠ []) (key : κ) (s : σ) :
    ∃ index < t.entries.length, ∃ s',
      findEntry keys t.entries t.capacityMask key s = some (index, s') := by
  rcases hb.exists_empty hpos with ⟨j, hj⟩
  rcases hb.capacity with hzero | ⟨k, hlen⟩
  · exact absurd (List.length_eq_zero_iff.mp hzero) hpos
  rcases HashTable.findEntry_eq_some keys hlen hb.mask hj key s with ⟨e, -, he, s', hfind⟩
  exact ⟨_, slot_lt (by omega) _ e, s', hfind⟩

theorem findStringFrom_isSome (isString : κ → Bool) (hlen : t.entries.length = 2 ^ k)
    (hmask : t.capacityMask = t.entries.length - 1) {h d fuel : ℕ}
    (hempty : t.entries[slot t.entries.length h d]? = some none) (hfuel : d < fuel) :
    (findStringFrom isString t fuel (slot t.entries.length h 0)).isSome = true := by
  induction fuel generalizing h d with
  | zero => omega
  | succ fuel ih =>
    have hlt : slot t.entries.length h 0 < t.entries.length :=
      slot_lt (hlen ▸ Nat.two_pow_pos k) h 0
    cases hcell : t.entries[slot t.entries.length h 0]? with
    | none =>
      rw [List.getElem?_eq_none_iff] at hcell
      omega
    | some cell =>
      cases cell with
      | none => simp [findStringFrom, hcell]
      | some entry =>
        cases hstring : isString entry.1 with
        | true => simp [findStringFrom, hcell, hstring]
        | false =>
          have hd : d ≠ 0 := by
            rintro rfl
            rw [hcell] at hempty
            cases hempty
          obtain ⟨d, rfl⟩ := Nat.exists_eq_succ_of_ne_zero hd
          rw [← slot_succ] at hempty
          simp only [findStringFrom, hcell, hstring, next_slot hlen hmask]
          exact ih hempty (by omega)

theorem Bounded.tableFindString_isSome (hb : t.Bounded) (isString : κ → Bool) (hash : ℕ) :
    (tableFindString isString t hash).isSome = true := by
  unfold tableFindString
  split
  · rfl
  · rename_i hpos
    rcases hb.exists_empty hpos with ⟨j, hj⟩
    rcases hb.capacity with hzero | ⟨k, hlen⟩
    · exact absurd (List.length_eq_zero_iff.mp hzero) hpos
    have hlt : j < t.entries.length := (List.getElem?_eq_some_iff.mp hj).1
    have hstart : hash &&& t.capacityMask.toNat = slot t.entries.length hash 0 :=
      and_mask hlen hb.mask hash
    rw [hstart]
    rw [← slot_distance (h := hash) hlt] at hj
    exact findStringFrom_isSome isString hlen hb.mask hj (distance_lt (by omega))

/-! ## Setting -/

/-- What `tableSet` does in a table with room. -/
def put (t : HashTable κ ν) (index : ℕ) (key : κ) (value : ν) : HashTable κ ν :=
  ⟨if t.entries[index]?.join.isNone then t.count + 1 else t.count, t.capacityMask,
    t.entries.set index (some (key, value))⟩

theorem tableSet_of_not_full (hfull : t.isFull = false)
    (hfind : findEntry keys t.entries t.capacityMask key s = some (index, s')) :
    tableSet keys t key value s =
      some (t.entries[index]?.join.isNone, t.put index key value, s') := by
  simp [tableSet, growIfFull, hfull, hfind, put]

theorem put_bounded (hb : t.Bounded) (hfull : t.isFull = false) (hindex : index < t.entries.length) :
    (t.put index key value).Bounded := by
  have hroom : ¬ 3 * (t.entries.length : ℤ) < 4 * (t.count + 1) := by
    rw [← hb.isFull_iff, hfull]
    exact Bool.false_ne_true
  have hitems := hb.items_le
  cases hcell : t.entries[index]? with
  | none =>
    rw [List.getElem?_eq_none_iff] at hcell
    omega
  | some cell =>
    cases cell with
    | none =>
      have hfill := items_fill hcell (key, value)
      constructor
      · simpa [put] using hb.capacity
      · simpa [put] using hb.mask
      · simp only [put, hcell, Option.join_some, Option.isNone_none, if_true]
        omega
      · simp only [put, hcell, Option.join_some, Option.isNone_none, if_true, List.length_set]
        omega
    | some entry =>
      have hreplace := items_replace hcell (key, value)
      constructor
      · simpa [put] using hb.capacity
      · simpa [put] using hb.mask
      · simp only [put, hcell, Option.join_some, Option.isNone_some, Bool.false_eq_true, if_false]
        omega
      · simp only [put, hcell, Option.join_some, Option.isNone_some, Bool.false_eq_true, if_false,
          List.length_set]
        exact hb.load

/-- Entries are moved to an array with room for them. -/
theorem moveEntries (cells : List (Option (κ × ν))) {mask : ℤ} (hlen : entries.length = 2 ^ k)
    (hmask : mask = entries.length - 1) {count : ℤ} (hitems : (items entries : ℤ) ≤ count)
    (hroom : count + items cells < entries.length) (s : σ) :
    ∃ entries' s', cells.foldlM (moveEntry keys mask) (entries, count, s) =
        some (entries', count + items cells, s') ∧
      entries'.length = entries.length ∧ (items entries' : ℤ) ≤ count + items cells := by
  induction cells generalizing entries count s with
  | nil => exact ⟨entries, s, by simp [items], rfl, by simpa [items] using hitems⟩
  | cons c cells ih =>
    rw [List.foldlM_cons]
    cases c with
    | none =>
      have hsame : items (none :: cells) = items cells := by simp [items]
      rw [hsame] at hroom ⊢
      exact ih hlen hmask hitems hroom s
    | some entry =>
      have hmore : items (some entry :: cells) = items cells + 1 := by simp [items]
      rw [hmore] at hroom ⊢
      push_cast at hroom ⊢
      obtain ⟨j, hj⟩ : ∃ j : ℕ, entries[j]? = some none := Probing.exists_empty (by omega)
      rcases findEntry_eq_some keys hlen hmask hj entry.1 s with ⟨e, -, he, s₁, hfind⟩
      generalize slot entries.length (keys.valHash entry.1 s).1 e = index at hfind
      have hmove : moveEntry keys mask (entries, count, s) (some entry) =
          some (entries.set index (some entry), count + 1, s₁) := by
        simp [moveEntry, hfind]
      have hitems' : (items (entries.set index (some entry)) : ℤ) ≤ count + 1 := by
        cases hcell : entries[index]? with
        | none =>
          rw [List.set_eq_of_length_le (List.getElem?_eq_none_iff.mp hcell)]
          omega
        | some cell =>
          cases cell with
          | none =>
            have := items_fill hcell entry
            omega
          | some old =>
            have := items_replace hcell entry
            omega
      have hlength : (entries.set index (some entry)).length = entries.length := List.length_set ..
      rw [hmove, Option.bind_eq_bind, Option.bind_some]
      rcases ih (by rw [hlength, hlen]) (by rw [hlength, hmask]) hitems' (by rw [hlength]; omega) s₁
        with ⟨entries', s', hfold, hlen', hle⟩
      have hsum : count + 1 + (items cells : ℤ) = count + (items cells + 1) := by omega
      rw [hsum] at hfold hle
      exact ⟨entries', s', hfold, hlen'.trans hlength, hle⟩

/-- A table is given room before an entry is set. -/
theorem growIfFull_bounded (hb : t.Bounded) (s : σ) :
    ∃ t' s', growIfFull keys t s = some (t', s') ∧ t'.Bounded ∧ t'.isFull = false := by
  unfold growIfFull
  by_cases hfull : t.isFull = true
  · rw [if_pos hfull]
    have hitems := hb.items_le
    have hload := hb.load
    have hcapacity : t.entries.length = 0 ∨ ∃ k, t.entries.length = 2 ^ k := hb.capacity
    have hgrown : (∃ k, growCapacity t.entries.length = 2 ^ k) ∧
        4 * (items t.entries + 1) ≤ 3 * growCapacity t.entries.length :=
      load_growCapacity hcapacity (by omega)
    obtain ⟨⟨k, hcap⟩, hroom⟩ := hgrown
    have hgrow : (growCapacity t.tableCapacity : ℤ) = (2 ^ k : ℕ) := by
      rw [hb.tableCapacity_eq, hcap]
    have hlen : (List.replicate (2 ^ k) (none : Option (κ × ν))).length = 2 ^ k :=
      List.length_replicate
    have hempty : items (List.replicate (2 ^ k) (none : Option (κ × ν))) = 0 := items_replicate _
    have hmask : ((2 ^ k : ℕ) : ℤ) - 1 =
        (List.replicate (2 ^ k) (none : Option (κ × ν))).length - 1 := by rw [hlen]
    have hzero : (items (List.replicate (2 ^ k) (none : Option (κ × ν))) : ℤ) ≤ 0 := by
      rw [hempty]
      rfl
    rcases moveEntries keys t.entries hlen hmask hzero (by rw [hlen]; omega) s with
      ⟨entries', s', hfold, hlen', hle⟩
    have hcast : ((2 ^ k : ℕ) - 1 + 1 : ℤ).toNat = 2 ^ k := by omega
    refine ⟨⟨0 + items t.entries, (2 ^ k : ℕ) - 1, entries'⟩, s', ?_, ?_⟩
    · rw [resize, hgrow, hcast, hfold]
      rfl
    · have hb' : (⟨0 + items t.entries, (2 ^ k : ℕ) - 1, entries'⟩ : HashTable κ ν).Bounded := by
        constructor
        · exact .inr ⟨k, hlen'.trans hlen⟩
        · rw [hlen', hlen]
        · exact hle
        · rw [hlen', hlen]
          change 4 * (0 + (items t.entries : ℤ)) ≤ _
          omega
      refine ⟨hb', ?_⟩
      rw [← Bool.not_eq_true, hb'.isFull_iff, hlen', hlen]
      change ¬ 3 * ((2 ^ k : ℕ) : ℤ) < 4 * (0 + (items t.entries : ℤ) + 1)
      omega
  · rw [if_neg hfull]
    exact ⟨t, s, rfl, hb, by simpa using hfull⟩

/-- `tableSet` ends and keeps the load. -/
theorem tableSet_bounded (hb : t.Bounded) (key : κ) (value : ν) (s : σ) :
    ∃ isNew t' s', tableSet keys t key value s = some (isNew, t', s') ∧ t'.Bounded := by
  rcases growIfFull_bounded keys hb s with ⟨t₁, s₁, hgrow, hb₁, hfull₁⟩
  have hpos : t₁.entries ≠ [] := by
    intro hnil
    have hroom : ¬ 3 * (t₁.entries.length : ℤ) < 4 * (t₁.count + 1) := by
      rw [← hb₁.isFull_iff, hfull₁]
      exact Bool.false_ne_true
    have hitems := hb₁.items_le
    simp only [hnil, List.length_nil] at hroom
    omega
  rcases hb₁.findEntry_eq_some keys hpos key s₁ with ⟨index, hindex, s', hfind⟩
  refine ⟨t₁.entries[index]?.join.isNone, t₁.put index key value, s', ?_,
    put_bounded hb₁ hfull₁ hindex⟩
  simp [tableSet, hgrow, hfind, put]

theorem setEach_bounded (hb : t.Bounded) (entries : List (Option (κ × ν))) (s : σ) :
    ∃ t' s', setEach keys entries t s = some (t', s') ∧ t'.Bounded := by
  induction entries generalizing t s with
  | nil => exact ⟨t, s, rfl, hb⟩
  | cons c entries ih =>
    cases c with
    | none => exact ih hb s
    | some entry =>
      by_cases hqnan : keys.isQnan entry.1 = true
      · exact ⟨t, s, by rw [setEach, if_pos hqnan], hb⟩
      · rcases tableSet_bounded keys hb entry.1 entry.2 s with ⟨isNew, t₁, s₁, hset, hb₁⟩
        rcases ih hb₁ s₁ with ⟨t', s', heach, hb'⟩
        refine ⟨t', s', ?_, hb'⟩
        rw [setEach, if_neg hqnan, hset]
        exact heach

theorem lxMapRehash_bounded (hb : t.Bounded) (s : σ) :
    ∃ t' s', lxMapRehash keys t s = some (t', s') ∧ t'.Bounded :=
  setEach_bounded keys (initTableWithCapa_bounded hb) _ s

/-! ## Deleting -/

section delete

variable {entry : κ × ν}

theorem clearEntry_bounded (hb : t.Bounded) (hj : t.entries[j]? = some (some entry)) :
    (t.clearEntry j).Bounded ∧ (t.clearEntry j).isFull = false := by
  have hclear := items_clear hj
  have hitems := hb.items_le
  have hload := hb.load
  have hb' : (t.clearEntry j).Bounded := by
    constructor
    · simpa [clearEntry] using hb.capacity
    · simpa [clearEntry] using hb.mask
    · change (items (t.entries.set j none) : ℤ) ≤ t.count - 1
      omega
    · simp only [clearEntry, List.length_set]
      omega
  refine ⟨hb', ?_⟩
  rw [← Bool.not_eq_true, hb'.isFull_iff]
  simp only [clearEntry, List.length_set]
  omega

/-- An entry that is taken out is put in again without resizing, no further from its hash. -/
theorem readd_step (hb : t.Bounded) (hj : t.entries[j]? = some (some entry)) (s : σ) :
    ∃ e ≤ distance t.entries.length (keys.valHash entry.1 s).1 j, e < t.entries.length ∧
      ∃ isNew s', tableSet keys (t.clearEntry j) entry.1 entry.2 s = some (isNew,
          (t.clearEntry j).put (slot t.entries.length (keys.valHash entry.1 s).1 e) entry.1 entry.2,
          s') ∧
        ((t.clearEntry j).put (slot t.entries.length (keys.valHash entry.1 s).1 e)
          entry.1 entry.2).Bounded := by
  rcases clearEntry_bounded hb hj with ⟨hb₁, hfull⟩
  have hlt : j < t.entries.length := (List.getElem?_eq_some_iff.mp hj).1
  have hlen : (t.clearEntry j).entries.length = t.entries.length := List.length_set ..
  have hempty : (t.clearEntry j).entries[j]? = some none := List.getElem?_set_self hlt
  rcases hb₁.capacity with hzero | ⟨k, hpow⟩
  · omega
  rcases findEntry_eq_some keys hpow hb₁.mask hempty entry.1 s with ⟨e, he, helt, s', hfind⟩
  rw [hlen] at he helt hfind
  have hslot := slot_lt (n := t.entries.length) (by omega) (keys.valHash entry.1 s).1 e
  exact ⟨e, he, helt, _, s', tableSet_of_not_full keys hfull hfind,
    put_bounded hb₁ hfull (by omega)⟩

/-- Put back where it was, nothing has changed. -/
theorem put_clearEntry (hj : t.entries[j]? = some (some entry)) :
    (t.clearEntry j).put j entry.1 entry.2 = t := by
  rcases List.getElem?_eq_some_iff.mp hj with ⟨hlt, hentry⟩
  have hempty : (t.entries.set j none)[j]? = some none := List.getElem?_set_self hlt
  have hset : (t.entries.set j none).set j (some entry) = t.entries := by
    rw [List.set_set, ← hentry, List.set_getElem_self]
  simp [put, clearEntry, hempty, hset]

/-- The walk keeps the load and the array. -/
theorem readd_bounded {fuel : ℕ} (hb : t.Bounded) (hrun : readd keys fuel t index s = some (t', s')) :
    t'.Bounded ∧ t'.entries.length = t.entries.length := by
  induction fuel generalizing t index s with
  | zero => cases hrun
  | succ fuel ih =>
    simp only [readd] at hrun
    cases hcell : t.entries[(index + 1) &&& t.capacityMask.toNat]? with
    | none => simp [hcell] at hrun
    | some cell =>
      cases cell with
      | none =>
        simp only [hcell, Option.some.injEq, Prod.mk.injEq] at hrun
        rcases hrun with ⟨rfl, -⟩
        exact ⟨hb, rfl⟩
      | some entry =>
        rcases readd_step keys hb hcell s with ⟨e, -, -, isNew, s₁, hset, hb₁⟩
        simp only [hcell, hset, Option.bind_eq_bind, Option.bind_some] at hrun
        rcases ih hb₁ hrun with ⟨hb', hlen⟩
        exact ⟨hb', by simpa [put, clearEntry] using hlen⟩

theorem readd_mono {fuel fuel' : ℕ} {r : HashTable κ ν × σ} (hrun : readd keys fuel t index s = some r)
    (hle : fuel ≤ fuel') : readd keys fuel' t index s = some r := by
  induction fuel generalizing t index s fuel' with
  | zero => cases hrun
  | succ fuel ih =>
    obtain ⟨f, rfl⟩ := Nat.exists_eq_add_of_le' (Nat.le_of_add_left_le hle)
    simp only [readd] at hrun ⊢
    cases hcell : t.entries[(index + 1) &&& t.capacityMask.toNat]? with
    | none => simp [hcell] at hrun
    | some cell =>
      cases cell with
      | none => simpa [hcell] using hrun
      | some entry =>
        simp only [hcell] at hrun ⊢
        rcases Option.bind_eq_some_iff.mp hrun with ⟨⟨isNew, t₁, s₁⟩, hset, hrun⟩
        rw [hset]
        exact ih hrun (by omega)

/-- An entry that is put in elsewhere is nearer to its hash. -/
theorem displacement_put_clearEntry (home : κ × ν → ℕ) {e : ℕ}
    (hj : t.entries[j]? = some (some entry)) (helt : e < t.entries.length)
    (he : e ≤ distance t.entries.length (home entry) j)
    (hne : slot t.entries.length (home entry) e ≠ j) :
    displacement home ((t.clearEntry j).put (slot t.entries.length (home entry) e)
      entry.1 entry.2).entries < displacement home t.entries := by
  have hlt : j < t.entries.length := (List.getElem?_eq_some_iff.mp hj).1
  have hclear := displacement_clear home hj
  have hslot : slot t.entries.length (home entry) e < (t.entries.set j none).length := by
    rw [List.length_set]
    exact slot_lt (by omega) _ e
  have hput := displacement_put_le home (a := entry) hslot
  rw [List.length_set, distance_slot helt] at hput
  have hstrict : e ≠ distance t.entries.length (home entry) j := by
    rintro rfl
    exact hne (slot_distance hlt)
  change displacement home ((t.entries.set j none).set _ (some entry)) < _
  omega

/-- The walk ends: an entry that does not stay moves nearer to its hash, which is always the same,
and while entries stay the walk gets nearer to an empty one. -/
theorem readd_isSome (hstable : keys.Stable) (s₀ : σ) {n d : ℕ} (hb : t.Bounded)
    (hn : displacement (fun entry : κ × ν => (keys.valHash entry.1 s₀).1) t.entries = n)
    (hempty : t.entries[slot t.entries.length (index + 1) d]? = some none) (s : σ) :
    ∃ fuel r, readd keys fuel t index s = some r := by
  induction n using Nat.strong_induction_on generalizing t index d s with
  | _ n ih =>
    have hpos : t.entries.length ≠ 0 := by
      intro hzero
      simp [List.length_eq_zero_iff.mp hzero] at hempty
    rcases hb.capacity with hzero | ⟨k, hpow⟩
    · exact absurd hzero hpos
    induction d generalizing index s with
    | zero =>
      have hcell : t.entries[(index + 1) &&& t.capacityMask.toNat]? = some none := by
        rw [and_mask hpow hb.mask]
        exact hempty
      exact ⟨1, (t, s), by simp [readd, hcell]⟩
    | succ d ihd =>
      cases hcell : t.entries[(index + 1) &&& t.capacityMask.toNat]? with
      | none =>
        rw [List.getElem?_eq_none_iff, and_mask hpow hb.mask] at hcell
        exact absurd hcell (Nat.not_le.mpr (Nat.mod_lt _ (by omega)))
      | some cell =>
        cases cell with
        | none => exact ⟨1, (t, s), by simp [readd, hcell]⟩
        | some entry =>
          rcases readd_step keys hb hcell s with ⟨e, he, helt, isNew, s₁, hset, hb₁⟩
          rw [hstable entry.1 s s₀] at he hset hb₁
          by_cases hstays : slot t.entries.length (keys.valHash entry.1 s₀).1 e =
              (index + 1) &&& t.capacityMask.toNat
          · rw [hstays, put_clearEntry hcell] at hset
            have hnear : t.entries[slot t.entries.length
                (((index + 1) &&& t.capacityMask.toNat) + 1) d]? = some none := by
              rw [and_mask hpow hb.mask, slot_succ, slot_mod]
              exact hempty
            rcases ihd hnear s₁ with ⟨fuel, r, hrun⟩
            exact ⟨fuel + 1, r, by simp [readd, hcell, hset, hrun]⟩
          · have hless := displacement_put_clearEntry
              (fun entry : κ × ν => (keys.valHash entry.1 s₀).1) hcell helt he hstays
            rw [hn] at hless
            rcases hb₁.exists_empty (by
              intro hnil
              have hlen := congrArg List.length hnil
              simp [put, clearEntry] at hlen
              exact hpos (by simp [hlen])) with ⟨i, hi⟩
            have hilt : i < _ := (List.getElem?_eq_some_iff.mp hi).1
            rw [← slot_distance (h := ((index + 1) &&& t.capacityMask.toNat) + 1) hilt] at hi
            rcases ih _ hless hb₁ rfl hi s₁ with ⟨fuel, r, hrun⟩
            exact ⟨fuel + 1, r, by simp only [readd, hcell, hset]; exact hrun⟩

/-- `tableDelete` keeps the load and the array. -/
theorem tableDelete_bounded {fuel : ℕ} {deleted : Bool} (hb : t.Bounded)
    (hrun : tableDelete keys fuel t key s = some (deleted, t', s')) :
    t'.Bounded ∧ t'.entries.length = t.entries.length := by
  unfold tableDelete at hrun
  split at hrun
  · cases hrun
    exact ⟨hb, rfl⟩
  · rcases Option.bind_eq_some_iff.mp hrun with ⟨⟨index, s₁⟩, hfind, hrun⟩
    cases hcell : t.entries[index]?.join with
    | none =>
      simp only [hcell, Option.isNone_none, if_true, Option.some.injEq, Prod.mk.injEq] at hrun
      rcases hrun with ⟨-, rfl, -⟩
      exact ⟨hb, rfl⟩
    | some entry =>
      simp only [hcell, Option.isNone_some, Bool.false_eq_true, if_false] at hrun
      rcases Option.bind_eq_some_iff.mp hrun with ⟨⟨t₁, s₂⟩, hwalk, hrun⟩
      cases hrun
      rw [Option.join_eq_some_iff] at hcell
      rcases readd_bounded keys (clearEntry_bounded hb hcell).1 hwalk with ⟨hb', hlen⟩
      exact ⟨hb', by simpa [clearEntry] using hlen⟩

/-- `tableDelete` ends when each key has one hash. -/
theorem tableDelete_isSome (hstable : keys.Stable) (hb : t.Bounded) (key : κ) (s : σ) :
    ∃ fuel₀, ∀ fuel, fuel₀ ≤ fuel → (tableDelete keys fuel t key s).isSome = true := by
  unfold tableDelete
  by_cases hzero : t.count = 0
  · exact ⟨0, fun fuel _ => by rw [if_pos hzero]; rfl⟩
  have hpos : t.entries ≠ [] := by
    intro hnil
    have hload := hb.load
    have hitems := hb.items_le
    simp only [hnil, List.length_nil] at hload
    omega
  rcases hb.findEntry_eq_some keys hpos key s with ⟨index, hindex, s₁, hfind⟩
  simp only [if_neg hzero, hfind, Option.bind_eq_bind, Option.bind_some]
  cases hcell : t.entries[index]?.join with
  | none => exact ⟨0, fun fuel _ => rfl⟩
  | some entry =>
    rw [Option.join_eq_some_iff] at hcell
    rcases clearEntry_bounded hb hcell with ⟨hb₁, -⟩
    have hempty : (t.clearEntry index).entries[index]? = some none := List.getElem?_set_self hindex
    have hlt : index < (t.clearEntry index).entries.length :=
      (List.getElem?_eq_some_iff.mp hempty).1
    have hahead : (t.clearEntry index).entries[slot (t.clearEntry index).entries.length (index + 1)
        (distance (t.clearEntry index).entries.length (index + 1) index)]? = some none := by
      rw [slot_distance hlt]
      exact hempty
    rcases readd_isSome keys hstable s₁ hb₁ rfl hahead s₁ with ⟨fuel₀, r, hwalk⟩
    refine ⟨fuel₀, ?_⟩
    intro fuel hfuel
    rw [readd_mono keys hwalk hfuel]
    rfl

end delete

/-! ## Runs -/

theorem Bounded.wellLoaded (hb : t.Bounded) : t.WellLoaded := by
  have hcap := hb.tableCapacity_eq
  constructor
  · rw [hcap]
    exact hb.capacity
  · rw [hcap]
    exact hb.mask
  · exact hcap.symm
  · rw [hcap]
    exact hb.load
  · intro hpos
    rw [hcap] at hpos
    rcases hb.exists_empty (List.length_pos_iff.mp hpos) with ⟨j, hj⟩
    exact List.mem_of_getElem? hj

theorem Bounded.probesEnd (hb : t.Bounded) : t.ProbesEnd := by
  have hcap := hb.tableCapacity_eq
  constructor
  · intro σ keys key s hpos
    rw [hcap] at hpos
    rcases hb.findEntry_eq_some keys (List.length_pos_iff.mp hpos) key s with ⟨index, -, s', hfind⟩
    rw [hfind]
    rfl
  · exact hb.tableFindString_isSome
  · intro σ keys key value s
    rcases tableSet_bounded keys hb key value s with ⟨isNew, t', s', hset, -⟩
    rw [hset]
    rfl
  · intro σ keys hstable key s
    exact tableDelete_isSome keys hstable hb key s
  · intro index entry hentry
    exact (clearEntry_bounded hb hentry).2
  · intro σ keys fuel key s deleted t' s' hrun
    rcases tableDelete_bounded keys hb hrun with ⟨hb', hlen⟩
    rw [hb'.tableCapacity_eq, hcap, hlen]

section runs

variable {ι : Type} [DecidableEq ι] {ts ts' : ι → HashTable κ ν}

theorem bounded_update (hb : ∀ i, (ts i).Bounded) {dst : ι} (ht : t.Bounded) (i : ι) :
    (Function.update ts dst t i).Bounded := by
  by_cases hi : i = dst
  · subst hi
    rwa [Function.update_self]
  · rw [Function.update_of_ne hi]
    exact hb i

theorem Call.run_bounded {c : Call ι κ ν} {fuel : ℕ} (hb : ∀ i, (ts i).Bounded)
    (hrun : c.run keys fuel ts s = some (ts', s')) : ∀ i, (ts' i).Bounded := by
  cases c with
  | init dst =>
    cases hrun
    exact bounded_update hb initTable_bounded
  | initWithCapa src dst =>
    cases hrun
    exact bounded_update hb (initTableWithCapa_bounded (hb src))
  | set dst key value =>
    rcases tableSet_bounded keys (hb dst) key value s with ⟨isNew, t', s₁, hset, hb'⟩
    simp only [Call.run, hset, Option.bind_eq_bind, Option.bind_some] at hrun
    cases hrun
    exact bounded_update hb hb'
  | delete dst key =>
    rcases Option.bind_eq_some_iff.mp hrun with ⟨⟨deleted, t', s₁⟩, hdelete, hrun⟩
    cases hrun
    exact bounded_update hb (tableDelete_bounded keys (hb dst) hdelete).1
  | copy src dst =>
    rcases setEach_bounded keys (hb dst) (if 0 < (ts src).count then (ts src).entries else []) s with
      ⟨t', s₁, hcopy, hb'⟩
    simp only [Call.run, copyEntries, hcopy, Option.bind_eq_bind, Option.bind_some] at hrun
    cases hrun
    exact bounded_update hb hb'
  | rehash dst =>
    rcases lxMapRehash_bounded keys (hb dst) s with ⟨t', s₁, hrehash, hb'⟩
    simp only [Call.run, hrehash, Option.bind_eq_bind, Option.bind_some] at hrun
    cases hrun
    exact bounded_update hb hb'

theorem Reachable.bounded (h : Reachable ts) : ∀ i, (ts i).Bounded := by
  induction h with
  | fresh => exact fun _ => initTable_bounded
  | call keys fuel s s' c _ hrun ih => exact c.run_bounded keys ih hrun

/-- Every table that calls can make is loaded to three quarters at most, and every probe of it
ends: that of a delete if each key has one hash during the call. -/
theorem Reachable.wellLoaded_probesEnd (h : Reachable ts) (i : ι) : (ts i).WellLoaded ∧ (ts i).ProbesEnd :=
  ⟨(h.bounded i).wellLoaded, (h.bounded i).probesEnd⟩

/-- Numbers, and an instance (`none`) whose `hashKey` counts how often it is called, up to 7. -/
def countingKeys : KeyMethods (Option ℕ) ℕ where
  valEqual a b s := (a == b, s)
  valHash
    | none, s => ((s + 1) % 8, (s + 1) % 8)
    | some n, s => (n + 3, s)
  isQnan _ := false

/-- The key 5 in entry 0 and the instance in entry 1. -/
theorem twoKeys_reachable : ∃ ts : Unit → HashTable (Option ℕ) ℕ, Reachable ts ∧
    (ts ()).count = 2 ∧ (ts ()).capacityMask = 7 ∧
    (ts ()).entries = ((List.replicate 8 none).set 1 (some (none, 2))).set 0 (some (some 5, 1)) := by
  have hfirst := Reachable.fresh.call countingKeys 0 0 0 (.set () (some 5) 1 : Call Unit _ _) rfl
  have hboth := hfirst.call countingKeys 0 0 1 (.set () none 2) rfl
  exact ⟨_, hboth, by decide, by decide, by decide⟩

theorem twoKeys_probesEnd : ∃ ts : Unit → HashTable (Option ℕ) ℕ, (ts ()).count = 2 ∧
    (ts ()).WellLoaded ∧ (ts ()).ProbesEnd := by
  rcases twoKeys_reachable with ⟨ts, hreach, hcount, -, -⟩
  exact ⟨ts, hcount, hreach.wellLoaded_probesEnd ()⟩

/-- The instance alone, in the entry of its last hash. -/
def instanceAt (n : ℕ) : HashTable (Option ℕ) ℕ := ⟨1, 7, (List.replicate 8 none).set n (some (none, 2))⟩

/-- The walk takes the instance out and finds it again in the next entry. -/
theorem readd_instanceAt {n : ℕ} (hn : n < 8) (hindex : (index + 1) &&& 7 = n) (fuel : ℕ) :
    readd countingKeys (fuel + 1) (instanceAt n) index n =
      readd countingKeys fuel (instanceAt ((n + 1) % 8)) n ((n + 1) % 8) := by
  have hentry : ∀ n < 8, (instanceAt n).entries[n]? = some (some (none, 2)) := by decide +kernel
  have hset : ∀ n : ℕ, n < 8 → tableSet countingKeys ((instanceAt n).clearEntry n) none 2 n =
      some (true, instanceAt ((n + 1) % 8), (n + 1) % 8) := by
    intro n hn
    interval_cases n <;> rfl
  have hcell : (instanceAt n).entries[(index + 1) &&& (instanceAt n).capacityMask.toNat]? =
      some (some (none, 2)) := by
    have hmask : (instanceAt n).capacityMask.toNat = 7 := rfl
    rw [hmask, hindex]
    exact hentry n hn
  have hmask : (index + 1) &&& (instanceAt n).capacityMask.toNat = n := hindex
  rw [readd, hcell]
  simp only [hmask, hset n hn, Option.bind_eq_bind, Option.bind_some]

theorem readd_instanceAt_none (fuel : ℕ) {n : ℕ} (hn : n < 8) (hindex : (index + 1) &&& 7 = n) :
    readd countingKeys fuel (instanceAt n) index n = none := by
  induction fuel generalizing n index with
  | zero => rfl
  | succ fuel ih =>
    rw [readd_instanceAt hn hindex]
    refine ih (Nat.mod_lt _ (by omega)) ?_
    exact Nat.and_two_pow_sub_one_eq_mod (n + 1) 3

/-- Deleting the key 5 does not end: the walk meets the instance in every entry. -/
theorem countingKeys_delete : ∃ ts : Unit → HashTable (Option ℕ) ℕ, Reachable ts ∧
    ∀ fuel, tableDelete countingKeys fuel (ts ()) (some 5) 1 = none := by
  rcases twoKeys_reachable with ⟨ts, hreach, hcount, hmask, hentries⟩
  refine ⟨ts, hreach, ?_⟩
  have htable : ts () = ⟨2, 7, ((List.replicate 8 none).set 1 (some (none, 2))).set 0
      (some (some 5, 1))⟩ := by
    rw [← hcount, ← hmask, ← hentries]
  intro fuel
  have hwalk : readd countingKeys fuel (instanceAt 1) 0 1 = none :=
    readd_instanceAt_none fuel (by omega) rfl
  have hfind : findEntry countingKeys (ts ()).entries 7 (some 5) 1 = some (0, 1) := by
    rw [htable]
    decide
  have hclear : (ts ()).clearEntry 0 = instanceAt 1 := by
    rw [htable]
    decide
  have hcell : (ts ()).entries[0]?.join = some (some 5, 1) := by
    rw [htable]
    rfl
  have hcount' : (ts ()).count ≠ 0 := by omega
  simp [tableDelete, hcount', hmask, hfind, hcell, hclear, hwalk]

end runs

/-! ## Keys without state -/

section stateless

variable (valEqual : κ → κ → Bool) (valHash : κ → ℕ) {t : Table κ ν} {entries : List (Option (κ × ν))}

/-- Methods that depend on the keys only. -/
def statelessKeys : KeyMethods κ Unit where
  valEqual a b _ := (valEqual a b, ())
  valHash key _ := (valHash key, ())
  isQnan _ := false

def ofTable (t : Table κ ν) : HashTable κ ν := ⟨t.count, t.entries.length - 1, t.entries⟩

theorem ofTable_isFull (t : Table κ ν) : (ofTable t).isFull = t.full := by
  unfold isFull Table.full
  rw [decide_eq_decide]
  simp only [ofTable]
  omega

theorem ofTable_tableCapacity (t : Table κ ν) : (ofTable t).tableCapacity = t.entries.length := by
  simp only [tableCapacity, ofTable]
  omega

theorem probe_stateless {mask : ℤ} (hmask : mask = entries.length - 1) (key : κ) (fuel index : ℕ) :
    probe (statelessKeys valEqual valHash) entries mask key fuel index () =
      (search (fun entry => valEqual entry.1 key) entries fuel index).map fun i => (i, ()) := by
  have hnat : mask.toNat = entries.length - 1 := by omega
  induction fuel generalizing index with
  | zero => rfl
  | succ fuel ih =>
    rw [probe, search]
    cases hcell : entries[index]? with
    | none => rfl
    | some cell =>
      cases cell with
      | none => rfl
      | some entry =>
        cases hequal : valEqual entry.1 key with
        | true => simp [statelessKeys, hequal]
        | false =>
          have hnext := ih ((index + 1) &&& (entries.length - 1))
          simpa [statelessKeys, hequal, hnat] using hnext

theorem findEntry_stateless {mask : ℤ} (hmask : mask = entries.length - 1) (key : κ) :
    findEntry (statelessKeys valEqual valHash) entries mask key () =
      (Clox.findEntry valEqual valHash entries key).map fun i => (i, ()) := by
  have hnat : mask.toNat = entries.length - 1 := by omega
  rw [Clox.findEntry, ← probe_stateless valEqual valHash hmask, ← hnat]
  rfl

theorem moveEntries_stateless {mask : ℤ} (cells : List (Option (κ × ν))) (t : Table κ ν)
    (hmask : mask = t.entries.length - 1) :
    cells.foldlM (moveEntry (statelessKeys valEqual valHash) mask) (t.entries, (t.count : ℤ), ()) =
      (cells.foldlM (Clox.moveEntry valEqual valHash) t).map fun t =>
        (t.entries, (t.count : ℤ), ()) := by
  induction cells generalizing t with
  | nil => rfl
  | cons c cells ih =>
    rw [List.foldlM_cons, List.foldlM_cons]
    cases c with
    | none => exact ih t hmask
    | some entry =>
      simp only [moveEntry, Clox.moveEntry, findEntry_stateless valEqual valHash hmask]
      cases Clox.findEntry valEqual valHash t.entries entry.1 with
      | none => rfl
      | some index =>
        have hrest := ih ⟨t.count + 1, t.entries.set index (some entry)⟩
          (by rw [hmask, List.length_set])
        simpa using hrest

theorem length_moveEntries {cells : List (Option (κ × ν))} {t t' : Table κ ν}
    (h : cells.foldlM (Clox.moveEntry valEqual valHash) t = some t') :
    t'.entries.length = t.entries.length := by
  induction cells generalizing t with
  | nil =>
    cases h
    rfl
  | cons c cells ih =>
    rw [List.foldlM_cons] at h
    cases c with
    | none => exact ih h
    | some entry =>
      rcases Option.bind_eq_some_iff.mp h with ⟨t₁, hmove, hrest⟩
      rcases Option.bind_eq_some_iff.mp hmove with ⟨index, -, ht₁⟩
      cases ht₁
      rw [ih hrest, List.length_set]

theorem growIfFull_stateless (t : Table κ ν) :
    growIfFull (statelessKeys valEqual valHash) (ofTable t) () =
      (growFull valEqual valHash t).map fun t => (ofTable t, ()) := by
  have hcap := ofTable_tableCapacity t
  unfold growIfFull growFull
  rw [ofTable_isFull]
  split
  · have hlen : ((growCapacity (ofTable t).tableCapacity : ℤ) - 1 + 1).toNat =
        growCapacity t.entries.length := by
      rw [hcap]
      omega
    have hmask : (growCapacity (ofTable t).tableCapacity : ℤ) - 1 =
        (List.replicate (growCapacity t.entries.length) (none : Option (κ × ν))).length - 1 := by
      rw [hcap, List.length_replicate]
    have hmove := moveEntries_stateless valEqual valHash t.entries
      ⟨0, List.replicate (growCapacity t.entries.length) none⟩ hmask
    simp only [Nat.cast_zero] at hmove
    rw [HashTable.resize, Clox.resize, hlen]
    simp only [ofTable] at hmove ⊢
    rw [hmove]
    cases hfold : t.entries.foldlM (Clox.moveEntry valEqual valHash)
        ⟨0, List.replicate (growCapacity t.entries.length) none⟩ with
    | none => rfl
    | some t' =>
      have hlen' := length_moveEntries valEqual valHash hfold
      rw [List.length_replicate, ← hcap] at hlen'
      simp only [Option.map_some, Option.bind_eq_bind, Option.bind_some, hlen', ofTable]
  · rfl

/-- With such keys `tableSet` does what it does without a mask and a signed count. -/
theorem tableSet_stateless (t : Table κ ν) (key : κ) (value : ν) :
    tableSet (statelessKeys valEqual valHash) (ofTable t) key value () =
      (Clox.tableSet valEqual valHash t key value).map fun r => (r.1, ofTable r.2, ()) := by
  unfold HashTable.tableSet Clox.tableSet
  rw [growIfFull_stateless]
  cases growFull valEqual valHash t with
  | none => rfl
  | some t₁ =>
    have hfind : findEntry (statelessKeys valEqual valHash) t₁.entries (t₁.entries.length - 1) key () =
        (Clox.findEntry valEqual valHash t₁.entries key).map fun i => (i, ()) :=
      findEntry_stateless valEqual valHash rfl key
    simp only [Option.map_some, Option.bind_eq_bind, Option.bind_some, ofTable, hfind]
    cases Clox.findEntry valEqual valHash t₁.entries key with
    | none => rfl
    | some index =>
      simp only [Option.map_some, Option.bind_some, List.length_set]
      split <;> rfl

end stateless

end HashTable

end Clox
