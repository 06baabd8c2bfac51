import Clox.Runtime.Containers
import Clox.Runtime.Strings
import Clox.Runtime.TableLoad

/-! # `Map#rehash`

The table of a map whose keys were changed after they were stored can look like anything that
calls with other `valEqual` and `valHash` leave behind. `lxMapRehash` sets its entries in a new
table. Every key is hashed before it is compared, so what counts is how keys compare that have
been hashed:

* `setEach_settled`: if that is an equality that agrees with the hash, the new table holds the
  last entry of each class of equal keys;
* `lxMapRehash_restores_iff`: the map is restored if and only if no two keys that are different
  compare as equal once they are hashed.
-/

namespace Clox

namespace KeyMethods

open Probing

variable {κ σ : Type}

/-- The states that calls on keys of `K` lead to from `s`; the keys of `A` have been hashed, and
only such keys are compared. -/
inductive Called (keys : KeyMethods κ σ) (K : Set κ) (s : σ) : Set κ → σ → Prop where
  | start : Called keys K s ∅ s
  | hash {A : Set κ} {s' : σ} (a : κ) : Called keys K s A s' → a ∈ K →
      Called keys K s (insert a A) (keys.valHash a s').2
  | equal {A : Set κ} {s' : σ} (a b : κ) : Called keys K s A s' → a ∈ A → b ∈ A →
      Called keys K s A (keys.valEqual a b s').2

/-- From `s` on each key of `K` has one hash, and keys that were hashed compare by one equality
that agrees with it. -/
structure Settled (keys : KeyMethods κ σ) (K : Set κ) (s : σ) (eq : κ → κ → Bool)
    (h : κ → ℕ) : Prop where
  lawful : LawfulKeys eq h
  hash : ∀ {A s'} a, keys.Called K s A s' → a ∈ K → (keys.valHash a s').1 = h a
  equal : ∀ {A s'} a b, keys.Called K s A s' → a ∈ A → b ∈ A → (keys.valEqual a b s').1 = eq a b
  isQnan : ∀ a ∈ K, keys.isQnan a = false

theorem Called.subset {keys : KeyMethods κ σ} {K A : Set κ} {s s' : σ}
    (h : keys.Called K s A s') : A ⊆ K := by
  induction h with
  | start => exact Set.empty_subset _
  | hash a _ ha ih => exact Set.insert_subset ha ih
  | equal a b _ _ _ ih => exact ih

end KeyMethods

namespace HashTable

open Probing KeyMethods

variable {κ ν σ : Type}

/-- The map of table `t` is restored as `t'`: one entry for each key that is different from the
others, all of them entries of `t`, and found with every key that is the same. -/
structure Restored (keys : KeyMethods κ σ) (K : Set κ) (same : κ → κ → Prop)
    (t t' : HashTable κ ν) (s' : σ) : Prop where
  found : ∀ e, some e ∈ t'.entries → ∀ key ∈ K, same e.1 key →
    ∃ s'', tableGet keys t' key s' = some (some e.2, s'')
  distinct : ∀ (i j : ℕ) (a b : κ × ν), t'.entries[i]? = some (some a) →
    t'.entries[j]? = some (some b) → same a.1 b.1 → i = j
  covered : ∀ e, some e ∈ t.entries → ∃ e', some e' ∈ t'.entries ∧ same e.1 e'.1
  count : t'.count = items t'.entries
  paired : ∀ e, some e ∈ t'.entries → some e ∈ t.entries
  kept : ∀ (i : ℕ) (e : κ × ν), t.entries[i]? = some (some e) →
    (∀ (j : ℕ) (f : κ × ν), j ≠ i → t.entries[j]? = some (some f) → ¬ same e.1 f.1) →
    some e ∈ t'.entries
  wellLoaded : t'.WellLoaded

/-- `lxMapRehash` returns and restores the map. -/
def RehashRestores (keys : KeyMethods κ σ) (K : Set κ) (same : κ → κ → Prop) (t : HashTable κ ν)
    (s : σ) : Prop :=
  ∃ t' s', lxMapRehash keys t s = some (t', s') ∧ Restored keys K same t t' s'

/-! ## The calls on settled keys -/

section Settled

variable {keys : KeyMethods κ σ} {K A : Set κ} {s s' : σ} {eq : κ → κ → Bool} {h : κ → ℕ}
  {entries : List (Option (κ × ν))} {t t' : Table κ ν} {m : κ → Option ν} {key : κ} {value : ν}
  {mask : ℤ}

/-- The keys of the entries have been hashed. -/
def Hashed (A : Set κ) (entries : List (Option (κ × ν))) : Prop := ∀ e, some e ∈ entries → e.1 ∈ A

theorem Hashed.mono {B : Set κ} (hh : Hashed A entries) (hsub : A ⊆ B) : Hashed B entries :=
  fun e he => hsub (hh e he)

theorem ofTable_initTableWithCapa (capa : ℕ) :
    (initTableWithCapa capa : HashTable κ ν) = ofTable (Clox.initTableWithCapa capa) := by
  unfold initTableWithCapa Clox.initTableWithCapa
  split
  · rfl
  · simp [ofTable]

theorem probe_settled (hset : keys.Settled K s eq h) (hmask : mask = entries.length - 1)
    (hentries : Hashed A entries) (hkey : key ∈ A) {fuel i j : ℕ} (hs : keys.Called K s A s')
    (hsearch : search (fun entry => eq entry.1 key) entries fuel i = some j) :
    ∃ s'', probe keys entries mask key fuel i s' = some (j, s'') ∧ keys.Called K s A s'' := by
  induction fuel generalizing i s' with
  | zero => cases hsearch
  | succ fuel ih =>
    unfold search at hsearch
    unfold probe
    rcases hcell : entries[i]? with _ | _ | entry
    · rw [hcell] at hsearch
      cases hsearch
    · rw [hcell] at hsearch
      cases hsearch
      exact ⟨s', rfl, hs⟩
    · rw [hcell] at hsearch
      have hentry : entry.1 ∈ A := hentries entry (List.mem_of_getElem? hcell)
      have hequal : (keys.valEqual entry.1 key s').1 = eq entry.1 key :=
        hset.equal entry.1 key hs hentry hkey
      have hs₁ := hs.equal entry.1 key hentry hkey
      simp only at hsearch
      simp only [hequal]
      split at hsearch
      · rename_i heq
        cases hsearch
        rw [if_pos heq]
        exact ⟨_, rfl, hs₁⟩
      · rename_i hne
        rw [if_neg hne]
        have hnext : mask.toNat = entries.length - 1 := by omega
        rw [hnext]
        exact ih hs₁ hsearch

/-- The key is hashed and then found where its hash leads. -/
theorem findEntry_settled (hset : keys.Settled K s eq h) (hmask : mask = entries.length - 1)
    (hentries : Hashed A entries) (hkey : key ∈ K) (hs : keys.Called K s A s') {i : ℕ}
    (hfind : Clox.findEntry eq h entries key = some i) :
    ∃ s'', findEntry keys entries mask key s' = some (i, s'') ∧
      keys.Called K s (insert key A) s'' := by
  have hhash : (keys.valHash key s').1 = h key := hset.hash key hs hkey
  have hnext : mask.toNat = entries.length - 1 := by omega
  unfold findEntry
  simp only [hhash, hnext]
  exact probe_settled hset hmask (hentries.mono (Set.subset_insert key A))
    (Set.mem_insert key A) (hs.hash key hkey) hfind

/-- The entries moved by `resize` have been hashed before. -/
theorem moveEntries_settled (hset : keys.Settled K s eq h) {n : ℕ} (hlen : t.entries.length = n)
    (hmask : mask = n - 1) (hentries : Hashed A entries) (ht : Hashed A t.entries)
    (hs : keys.Called K s A s') (hmove : entries.foldlM (Clox.moveEntry eq h) t = some t') :
    ∃ s'', entries.foldlM (moveEntry keys mask) (t.entries, (t.count : ℤ), s') =
        some (t'.entries, (t'.count : ℤ), s'') ∧
      keys.Called K s A s'' ∧ Hashed A t'.entries ∧ t'.entries.length = n := by
  induction entries generalizing t s' with
  | nil =>
    cases hmove
    exact ⟨s', rfl, hs, ht, hlen⟩
  | cons cell entries ih =>
    rcases Option.bind_eq_some_iff.mp hmove with ⟨t₁, hfirst, hmove⟩
    have hrest : Hashed A entries := fun e he => hentries e (List.mem_cons_of_mem _ he)
    rw [List.foldlM_cons]
    cases cell with
    | none =>
      cases hfirst
      exact ih hlen hrest ht hs hmove
    | some entry =>
      rcases Option.bind_eq_some_iff.mp hfirst with ⟨i, hfind, hput⟩
      cases hput
      have hentry : entry.1 ∈ A := hentries entry List.mem_cons_self
      have hmask' : mask = t.entries.length - 1 := by rw [hmask, hlen]
      rcases findEntry_settled hset hmask' ht (hs.subset hentry) hs hfind with ⟨s₁, hfind', hs₁⟩
      rw [Set.insert_eq_of_mem hentry] at hs₁
      have ht₁ : Hashed A (t.entries.set i (some entry)) := by
        intro e he
        rcases List.mem_or_eq_of_mem_set he with hmem | heq
        · exact ht e hmem
        · cases heq
          exact hentry
      rcases ih (by rw [List.length_set, hlen]) hrest ht₁ hs₁ hmove with ⟨s₂, hfold, hs₂, hrest'⟩
      refine ⟨s₂, ?_, hs₂, hrest'⟩
      simp only [moveEntry, hfind', Option.bind_eq_bind, Option.bind_some]
      exact_mod_cast hfold

theorem growIfFull_settled (hset : keys.Settled K s eq h) (ht : Hashed A t.entries)
    (hs : keys.Called K s A s') (hgrow : Clox.growFull eq h t = some t') :
    ∃ s'', growIfFull keys (ofTable t) s' = some (ofTable t', s'') ∧ keys.Called K s A s'' ∧
      Hashed A t'.entries := by
  unfold Clox.growFull at hgrow
  unfold growIfFull
  rw [ofTable_isFull]
  split at hgrow
  · rename_i hfull
    rw [if_pos hfull, ofTable_tableCapacity]
    have hnone : Hashed A (List.replicate (growCapacity t.entries.length)
        (none : Option (κ × ν))) := by
      intro e he
      cases List.eq_of_mem_replicate he
    have hmask : (growCapacity t.entries.length : ℤ) - 1 = growCapacity t.entries.length - 1 := rfl
    rcases moveEntries_settled hset (List.length_replicate ..) hmask ht hnone hs hgrow with
      ⟨s'', hfold, hs'', hh, hlen⟩
    refine ⟨s'', ?_, hs'', hh⟩
    have hnat : ((growCapacity t.entries.length : ℤ) - 1 + 1).toNat =
        growCapacity t.entries.length := by omega
    unfold resize
    rw [hnat]
    simp only [ofTable, Nat.cast_zero] at hfold ⊢
    simp only [hfold, Option.bind_eq_bind, Option.bind_some, hlen]
  · rename_i hfull
    rw [if_neg hfull]
    cases hgrow
    exact ⟨s', rfl, hs, ht⟩

/-- `tableSet` on settled keys does what it does with the equality and the hash. -/
theorem tableSet_settled (hset : keys.Settled K s eq h) (ht : Hashed A t.entries) (hkey : key ∈ K)
    (hs : keys.Called K s A s') {isNew : Bool}
    (hcall : Clox.tableSet eq h t key value = some (isNew, t')) :
    ∃ s'', tableSet keys (ofTable t) key value s' = some (isNew, ofTable t', s'') ∧
      keys.Called K s (insert key A) s'' ∧ Hashed (insert key A) t'.entries := by
  rcases Option.bind_eq_some_iff.mp hcall with ⟨t₁, hgrow, hcall⟩
  rcases Option.bind_eq_some_iff.mp hcall with ⟨i, hfind, hcall⟩
  cases hcall
  rcases growIfFull_settled hset ht hs hgrow with ⟨s₁, hgrow', hs₁, ht₁⟩
  have hmask : (t₁.entries.length : ℤ) - 1 = t₁.entries.length - 1 := rfl
  rcases findEntry_settled hset hmask ht₁ hkey hs₁ hfind with ⟨s₂, hfind', hs₂⟩
  refine ⟨s₂, ?_, hs₂, ?_⟩
  · unfold tableSet
    rw [hgrow']
    simp only [Option.bind_eq_bind, Option.bind_some, ofTable, hfind', List.length_set]
    split <;> rfl
  · intro e he
    rcases List.mem_or_eq_of_mem_set he with hmem | heq
    · exact Set.mem_insert_of_mem key (ht₁ e hmem)
    · cases heq
      exact Set.mem_insert key A

/-- `tableGet` on settled keys does what it does with the equality and the hash. -/
theorem tableGet_settled (hset : keys.Settled K s eq h) (ht : Hashed A t.entries) (hkey : key ∈ K)
    (hs : keys.Called K s A s') {found : Option ν}
    (hcall : Clox.tableGet eq h t key = some found) :
    ∃ s'', tableGet keys (ofTable t) key s' = some (found, s'') := by
  unfold Clox.tableGet at hcall
  unfold tableGet
  split at hcall
  · rename_i hnil
    cases hcall
    exact ⟨s', by rw [if_pos (by exact hnil)]⟩
  · rename_i hnil
    rcases Option.bind_eq_some_iff.mp hcall with ⟨i, hfind, hcall⟩
    cases hcall
    have hmask : (t.entries.length : ℤ) - 1 = t.entries.length - 1 := rfl
    rcases findEntry_settled hset hmask ht hkey hs hfind with ⟨s₂, hfind', -⟩
    refine ⟨s₂, ?_⟩
    rw [if_neg (by exact hnil)]
    simp only [ofTable] at hfind' ⊢
    rw [hfind']
    rfl

/-! ## One entry after the other -/

/-- Behind the item there is no other one with its key. -/
def Last (eq : κ → κ → Bool) (entries : List (Option (κ × ν))) (b : κ × ν) : Prop :=
  ∃ l r, entries = l ++ some b :: r ∧ ∀ e, some e ∈ r → eq b.1 e.1 = false

theorem last_cons_none {b : κ × ν} : Last eq (none :: entries) b ↔ Last eq entries b := by
  constructor
  · rintro ⟨l, r, hsplit, hr⟩
    cases l with
    | nil => cases hsplit
    | cons c l => exact ⟨l, r, (List.cons.inj hsplit).2, hr⟩
  · rintro ⟨l, r, hsplit, hr⟩
    exact ⟨none :: l, r, by rw [hsplit, List.cons_append], hr⟩

theorem last_cons_some {b e : κ × ν} : Last eq (some e :: entries) b ↔
    Last eq entries b ∨ b = e ∧ ∀ f, some f ∈ entries → eq b.1 f.1 = false := by
  constructor
  · rintro ⟨l, r, hsplit, hr⟩
    cases l with
    | nil =>
      cases hsplit
      exact .inr ⟨rfl, hr⟩
    | cons c l => exact .inl ⟨l, r, (List.cons.inj hsplit).2, hr⟩
  · rintro (⟨l, r, hsplit, hr⟩ | ⟨rfl, hr⟩)
    · exact ⟨some e :: l, r, by rw [hsplit, List.cons_append], hr⟩
    · exact ⟨[], entries, rfl, hr⟩

theorem Last.mem {b : κ × ν} (hb : Last eq entries b) : some b ∈ entries := by
  rcases hb with ⟨l, r, rfl, -⟩
  exact List.mem_append_right l List.mem_cons_self

/-- Every class of equal keys has a last item. -/
theorem exists_last (hk : LawfulKeys eq h) {e : κ × ν} (he : some e ∈ entries) :
    ∃ b, Last eq entries b ∧ eq e.1 b.1 = true := by
  induction entries generalizing e with
  | nil => cases he
  | cons cell entries ih =>
    rcases List.mem_cons.mp he with rfl | hrest
    · by_cases hlater : ∃ f, some f ∈ entries ∧ eq e.1 f.1 = true
      · rcases hlater with ⟨f, hf, hef⟩
        rcases ih hf with ⟨b, hb, hfb⟩
        exact ⟨b, last_cons_some.mpr (.inl hb), hk.trans hef hfb⟩
      · refine ⟨e, last_cons_some.mpr (.inr ⟨rfl, fun f hf => ?_⟩), hk.refl e.1⟩
        by_contra hne
        exact hlater ⟨f, hf, by simpa using hne⟩
    · rcases ih hrest with ⟨b, hb, heb⟩
      cases cell with
      | none => exact ⟨b, last_cons_none.mpr hb, heb⟩
      | some f => exact ⟨b, last_cons_some.mpr (.inl hb), heb⟩

/-- An item whose key no other item has is the last one of its key. -/
theorem last_of_alone {i : ℕ} {e : κ × ν} (hi : entries[i]? = some (some e))
    (halone : ∀ (j : ℕ) (f : κ × ν), j ≠ i → entries[j]? = some (some f) → eq e.1 f.1 = false) :
    Last eq entries e := by
  rcases List.getElem?_eq_some_iff.mp hi with ⟨hlt, hcell⟩
  refine ⟨entries.take i, entries.drop (i + 1), ?_, fun f hf => ?_⟩
  · rw [← hcell, List.getElem_cons_drop, List.take_append_drop]
  · rcases List.getElem?_of_mem hf with ⟨j, hj⟩
    rw [List.getElem?_drop] at hj
    exact halone (i + 1 + j) f (by omega) hj

/-- `tableSet` writes the entry in the place of that with an equal key, or in an empty one. -/
theorem mem_tableSet (hk : LawfulKeys eq h) (ht : t.Stands eq h m) {isNew : Bool}
    (hcall : Clox.tableSet eq h t key value = some (isNew, t')) (b : κ × ν) :
    some b ∈ t'.entries ↔ b = (key, value) ∨ some b ∈ t.entries ∧ eq b.1 key = false := by
  rcases growFull_eq_some hk ht with ⟨k, t₁, hgrow, hring, -, hfull, -, hmem⟩
  have hload := not_full_iff.mp hfull
  rcases hring.findEntry_eq_some (by omega) key with ⟨i, hfind, hf⟩
  have hlt : i < t₁.entries.length := hf.lt (hring.length ▸ Nat.two_pow_pos k)
  rw [Clox.tableSet, hgrow, Option.bind_eq_bind, Option.bind_some, hfind, Option.bind_eq_bind,
    Option.bind_some] at hcall
  cases hcall
  rw [← hmem]
  constructor
  · intro hb
    rcases List.getElem?_of_mem hb with ⟨j, hj⟩
    by_cases hji : j = i
    · rw [hji, List.getElem?_set_self hlt] at hj
      exact .inl (Option.some.inj (Option.some.inj hj)).symm
    · rw [List.getElem?_set_ne (Ne.symm hji)] at hj
      exact .inr ⟨List.mem_of_getElem? hj, hring.other hk hf j b hji hj⟩
  · rintro (rfl | ⟨hb, hne⟩)
    · exact List.mem_of_getElem? (List.getElem?_set_self hlt)
    · rcases List.getElem?_of_mem hb with ⟨j, hj⟩
      have hji : j ≠ i := by
        rintro rfl
        rcases hring.entry_cases hk hf with ⟨hnone, -⟩ | ⟨a, ha, hkey, -⟩
        · rw [hj] at hnone
          cases hnone
        · rw [hj] at ha
          cases ha
          rw [hne] at hkey
          cases hkey
      exact List.mem_of_getElem? ((List.getElem?_set_ne (Ne.symm hji)).trans hj)

/-- Setting all the entries leaves the last one of each key, and those that were there whose keys
did not come. -/
theorem setEach_settled (hset : keys.Settled K s eq h) (ht : t.Stands eq h m)
    (hhashed : Hashed A t.entries) (hentries : ∀ e, some e ∈ entries → e.1 ∈ K)
    (hs : keys.Called K s A s') :
    ∃ t' s'' B m', setEach keys entries (ofTable t) s' = some (ofTable t', s'') ∧
      keys.Called K s B s'' ∧ Hashed B t'.entries ∧ t'.Stands eq h m' ∧
      ∀ b, some b ∈ t'.entries ↔ Last eq entries b ∨
        some b ∈ t.entries ∧ ∀ e, some e ∈ entries → eq b.1 e.1 = false := by
  induction entries generalizing t m A s' with
  | nil =>
    refine ⟨t, s', A, m, rfl, hs, hhashed, ht, fun b => ?_⟩
    constructor
    · intro hb
      exact .inr ⟨hb, fun e he => by cases he⟩
    · rintro (hlast | ⟨hb, -⟩)
      · cases hlast.mem
      · exact hb
  | cons cell entries ih =>
    have hrest : ∀ e, some e ∈ entries → e.1 ∈ K := fun e he =>
      hentries e (List.mem_cons_of_mem _ he)
    cases cell with
    | none =>
      rcases ih ht hhashed hrest hs with ⟨t', s'', B, m', heach, hs'', hB, ht', hmem⟩
      refine ⟨t', s'', B, m', heach, hs'', hB, ht', fun b => ?_⟩
      rw [hmem, last_cons_none]
      simp
    | some e =>
      have he : e.1 ∈ K := hentries e List.mem_cons_self
      rcases tableSet_eq_some hset.lawful ht e.1 e.2 with ⟨t₁, hcall, ht₁, -⟩
      rcases tableSet_settled hset hhashed he hs hcall with ⟨s₁, hcall', hs₁, hhashed₁⟩
      rcases ih ht₁ hhashed₁ hrest hs₁ with ⟨t', s'', B, m', heach, hs'', hB, ht', hmem⟩
      refine ⟨t', s'', B, m', ?_, hs'', hB, ht', fun b => ?_⟩
      · have hqnan : ¬ keys.isQnan e.1 = true := by
          rw [hset.isQnan e.1 he]
          exact Bool.false_ne_true
        rw [setEach, if_neg hqnan, hcall']
        exact heach
      · have hset₁ := mem_tableSet hset.lawful ht hcall b
        rw [hmem, last_cons_some, hset₁]
        simp only [List.mem_cons, Option.some.injEq, forall_eq_or_imp]
        tauto

end Settled

/-! ## Rehashing -/

section Rehash

variable {ι : Type} [DecidableEq ι] {keys : KeyMethods κ σ} {K : Set κ} {s : σ}
  {eq : κ → κ → Bool} {h : κ → ℕ} {same : κ → κ → Prop} {t : HashTable κ ν}

/-- On settled keys the new table holds the last entry of each class of equal keys. -/
theorem lxMapRehash_settled (hset : keys.Settled K s eq h) (hb : t.Bounded)
    (hkeys : ∀ e, some e ∈ t.entries → e.1 ∈ K) :
    ∃ t' s' A m, lxMapRehash keys t s = some (ofTable t', s') ∧ keys.Called K s A s' ∧
      Hashed A t'.entries ∧ t'.Stands eq h m ∧
      ∀ b, some b ∈ t'.entries ↔ Last eq t.entries b := by
  have hempty : (Clox.initTableWithCapa t.tableCapacity : Table κ ν).Stands eq h fun _ => none := by
    unfold Clox.initTableWithCapa
    split
    · exact initTable_stands
    · rename_i hne
      rw [hb.tableCapacity_eq] at hne ⊢
      rcases hb.capacity with hzero | ⟨k, hlen⟩
      · exact absurd hzero hne
      · rw [hlen]
        exact .ring k (.replicate k) (by simp)
  have hnone : ∀ b : κ × ν, some b ∉ (Clox.initTableWithCapa t.tableCapacity : Table κ ν).entries := by
    intro b hb
    unfold Clox.initTableWithCapa at hb
    split at hb
    · cases hb
    · cases List.eq_of_mem_replicate hb
  -- A table that counts no entry has none: the loop runs over all of them.
  have hcopied : ∀ e, some e ∈ t.entries ↔ some e ∈ if 0 < t.count then t.entries else [] := by
    intro e
    split
    · rfl
    · rename_i hzero
      constructor
      · intro he
        have hpos : 0 < items t.entries := List.countP_pos_iff.mpr ⟨some e, he, rfl⟩
        have := hb.items_le
        omega
      · intro he
        cases he
  have hlast : ∀ b, Last eq (if 0 < t.count then t.entries else []) b ↔ Last eq t.entries b := by
    intro b
    split
    · rfl
    · rename_i hzero
      rw [if_neg hzero] at hcopied
      constructor
      · intro hl
        cases hl.mem
      · intro hl
        cases (hcopied b).mp hl.mem
  rcases setEach_settled (A := ∅) hset hempty (fun b hb => absurd hb (hnone b))
    (fun e he => hkeys e ((hcopied e).mpr he)) .start with ⟨t', s', A, m, heach, hs', hA, ht', hmem⟩
  refine ⟨t', s', A, m, ?_, hs', hA, ht', fun b => ?_⟩
  · rw [lxMapRehash, copyEntries, ofTable_initTableWithCapa]
    exact heach
  · rw [hmem, hlast]
    simp [hnone]

/-- Rehashing restores a map, whatever changed its keys before, if and only if among its keys those
that compare as equal when they are hashed are the same. -/
theorem lxMapRehash_restores_iff {ts : ι → HashTable κ ν} (hreach : Reachable ts) (i : ι)
    (hkeys : ∀ e, some e ∈ (ts i).entries → e.1 ∈ K) (hset : keys.Settled K s eq h)
    (hsame : Equivalence same) (hequal : ∀ a ∈ K, ∀ b ∈ K, same a b → eq a b = true) :
    RehashRestores keys K same (ts i) s ↔
      ∀ e f, some e ∈ (ts i).entries → some f ∈ (ts i).entries → eq e.1 f.1 = true →
        same e.1 f.1 := by
  have hb := hreach.bounded i
  have hk := hset.lawful
  rcases lxMapRehash_settled hset hb hkeys with ⟨t', s', A, m, hrehash, hs', hA, ht', hmem⟩
  have hold : ∀ b, some b ∈ t'.entries → some b ∈ (ts i).entries := fun b hb =>
    ((hmem b).mp hb).mem
  have hdistinct := ht'.distinct hk
  constructor
  · rintro ⟨t'', s'', hrun, hrest⟩ e f he hf hef
    rw [hrehash] at hrun
    cases hrun
    rcases hrest.covered e he with ⟨a, ha, hea⟩
    rcases hrest.covered f hf with ⟨b, hb, hfb⟩
    have hea' : eq e.1 a.1 = true := hequal _ (hkeys e he) _ (hkeys a (hold a ha)) hea
    have hfb' : eq f.1 b.1 = true := hequal _ (hkeys f hf) _ (hkeys b (hold b hb)) hfb
    have hab : eq a.1 b.1 = true := hk.trans (hk.symm hea') (hk.trans hef hfb')
    -- The two keys are in one entry of the new table.
    rcases List.getElem?_of_mem ha with ⟨j, hj⟩
    rcases List.getElem?_of_mem hb with ⟨l, hl⟩
    cases hdistinct j l a b hj hl hab
    cases hj.symm.trans hl
    exact hsame.trans hea (hsame.symm hfb)
  · intro hdiff
    refine ⟨ofTable t', s', hrehash, ?_⟩
    constructor
    · intro e he key hkey hsame'
      have heq : eq e.1 key = true := hequal _ (hkeys e (hold e he)) _ hkey hsame'
      rcases List.getElem?_of_mem he with ⟨j, hj⟩
      have hm : m key = some e.2 := (ht'.represents key e.2).mpr ⟨j, e.1, hj, heq⟩
      have hget := tableGet_eq_some hk ht' key
      rw [hm] at hget
      exact tableGet_settled hset hA hkey hs' hget
    · intro j l a b hj hl hab
      have ha := hkeys a (hold a (List.mem_of_getElem? hj))
      have hb := hkeys b (hold b (List.mem_of_getElem? hl))
      exact hdistinct j l a b hj hl (hequal _ ha _ hb hab)
    · intro e he
      rcases exists_last hk he with ⟨b, hlast, heb⟩
      exact ⟨b, (hmem b).mpr hlast, hdiff e b he hlast.mem heb⟩
    · exact congrArg Nat.cast ht'.count
    · exact hold
    · intro j e hj halone
      apply (hmem e).mpr
      apply last_of_alone hj
      intro l f hl hf
      by_contra hne
      have he := List.mem_of_getElem? hj
      exact halone l f hl hf (hdiff e f he (List.mem_of_getElem? hf) (by simpa using hne))
    · rcases lxMapRehash_bounded keys hb s with ⟨t'', s'', hrun, hbounded⟩
      rw [hrehash] at hrun
      cases hrun
      exact hbounded.wellLoaded

end Rehash

/-! ## Strings as keys -/

/-- Strings by their addresses; the state is what is in them. -/
def stringKeys : KeyMethods ℕ (ℕ → ObjString) where
  valEqual a b strings := ((strings a).valEqual (strings b), strings)
  valHash a strings :=
    ((strings a).valHash.toNat, Function.update strings a (strings a).withHash)
  isQnan _ := false

section Strings

variable {strings strings' : ℕ → ObjString} {K A : Set ℕ}

/-- How strings compare that are hashed: by their bytes only if one of the hashes is 0. -/
def hashedEqual (a b : List UInt8) : Bool :=
  if hashString a ≠ 0 ∧ hashString b ≠ 0 then hashString a == hashString b else a == b

theorem hashedEqual_lawful (chars : ℕ → List UInt8) :
    LawfulKeys (fun a b => hashedEqual (chars a) (chars b)) fun a => (hashString (chars a)).toNat where
  refl a := by simp [hashedEqual]
  symm := by
    intro a b hab
    unfold hashedEqual at hab ⊢
    grind
  trans := by
    intro a b c hab hbc
    unfold hashedEqual at hab hbc ⊢
    grind
  hash_eq := by
    intro a b hab
    unfold hashedEqual at hab
    grind

/-- Keys keep their bytes and are right about their hashes; those in `A` have been hashed. -/
theorem called_strings (hok : ∀ r ∈ K, (strings r).HashOk)
    (hcalled : stringKeys.Called K strings A strings') (r : ℕ) :
    (strings' r).chars = (strings r).chars ∧ (r ∈ K → (strings' r).HashOk) ∧
      (r ∈ A → (strings' r).hash = hashString (strings r).chars) := by
  induction hcalled generalizing r with
  | start => exact ⟨rfl, hok r, fun hr => hr.elim⟩
  | @hash A strings' a _ ha ih =>
    rcases ih a with ⟨hchars, hright, -⟩
    have hhash : (strings' a).valHash = hashString (strings a).chars := by
      rw [← hchars, ObjString.valHash]
      rcases hright ha with hzero | hset
      · rw [hzero, if_neg (by decide)]
      · rw [hset, ite_self]
    simp only [stringKeys]
    by_cases hra : r = a
    · subst hra
      rw [Function.update_self]
      refine ⟨hchars, fun _ => .inr ?_, fun _ => hhash⟩
      simp only [ObjString.withHash, hhash, hchars]
    · rw [Function.update_of_ne hra]
      rcases ih r with ⟨hchars', hright', hhashed⟩
      exact ⟨hchars', hright', fun hr => hhashed (Set.mem_of_mem_insert_of_ne hr hra)⟩
  | equal a b _ _ _ ih => exact ih r

/-- Strings without NUL bytes whose caches are right are settled, whatever they were before. -/
theorem stringKeys_settled (hok : ∀ r ∈ K, (strings r).HashOk)
    (hnul : ∀ r ∈ K, 0 ∉ (strings r).chars) :
    stringKeys.Settled K strings (fun a b => hashedEqual (strings a).chars (strings b).chars)
      fun a => (hashString (strings a).chars).toNat where
  lawful := hashedEqual_lawful fun r => (strings r).chars
  hash := by
    intro A strings' a hcalled ha
    rcases called_strings hok (hcalled.hash a ha) a with ⟨-, -, hhashed⟩
    have hhash := hhashed (Set.mem_insert a A)
    simp only [stringKeys, Function.update_self, ObjString.withHash] at hhash ⊢
    rw [hhash]
  equal := by
    intro A strings' a b hcalled ha hb
    rcases called_strings hok hcalled a with ⟨hchars, -, hhash⟩
    rcases called_strings hok hcalled b with ⟨hchars', -, hhash'⟩
    have hcmp : strcmpEq (strings a).chars (strings b).chars = true ↔
        (strings a).chars = (strings b).chars :=
      KeyString.strcmpEq_iff (hnul a (hcalled.subset ha)) (hnul b (hcalled.subset hb))
    rw [Bool.eq_iff_iff]
    simp only [stringKeys, ObjString.valEqual, hashedEqual, hhash ha, hhash' hb, hchars, hchars']
    split <;> rename_i hboth
    · rw [if_pos (by simpa using hboth)]
    · rw [if_neg (by simpa using hboth), Bool.and_eq_true, hcmp, beq_iff_eq, beq_iff_eq]
      constructor
      · exact fun hsame => hsame.2
      · intro hsame
        exact ⟨by rw [hsame], hsame⟩
  isQnan _ _ := rfl

end Strings

/-! ## Contents as keys -/

section Contents

open Hashing Commands

/-- `valEqual` and `valHash` of nil, booleans, numbers, strings, arrays and maps; the state is the
caches of the strings. A call that stops counts as one that gives `false` or 0. -/
def valueKeys (w : World) (fuel : ℕ) : KeyMethods Value Cache where
  valEqual a b cache :=
    match valEqual w fuel a b cache with
    | (.ok same, cache) => (same, cache)
    | (.error _, cache) => (false, cache)
  valHash key cache :=
    match valHash w fuel [] key cache with
    | (.ok hash, cache) => (hash.toNat, cache)
    | (.error _, cache) => (0, cache)
  isQnan key := key = .number 0x7ffc000000000000

variable {ι : Type} [DecidableEq ι] {w : World} {S : Set (List UInt8)} {N fuel : ℕ}
  {cache cache' : Cache}

/-- Keys of finitely many levels that are as `Key` has them, whose maps can be searched. -/
def contentKeys (w : World) (S : Set (List UInt8)) (N : ℕ) : Set Value :=
  { key | Key w S N key ∧ key ≠ .number 0x7ffc000000000000 }

theorem valueKeys_valHash (hm : MapsOk w S N) (hS : Hashing.Apart S) (hfuel : N + N ≤ fuel)
    (hcache : CacheOk w cache) {key : Value} (hkey : Key w S N key) :
    ((valueKeys w fuel).valHash key cache).1 = hashAt w N key ∧
      CacheOk w ((valueKeys w fuel).valHash key cache).2 := by
  have hspec := hkey.valHash_spec hm hS (show N ≤ fuel by omega) cache hcache
  simp only [valueKeys]
  rcases hres : valHash w fuel [] key cache with ⟨_ | hash, cache'⟩
  · rw [hres] at hspec
    exact hspec.elim
  · rw [hres] at hspec
    exact hspec

theorem valueKeys_valEqual (hm : MapsOk w S N) (hS : Hashing.Apart S) (hfuel : N + N ≤ fuel)
    (hcache : CacheOk w cache) {a b : Value} (ha : Key w S N a) (hb : Key w S N b) :
    ((valueKeys w fuel).valEqual a b cache).1 = same w a b ∧
      CacheOk w ((valueKeys w fuel).valEqual a b cache).2 := by
  rcases (valEqual_decides hm hS ha.1 hb.1 hfuel).gives.eq hcache with ⟨cache', hres, hcache'⟩
  simp only [valueKeys, hres]
  exact ⟨trivial, hcache'⟩

theorem called_values (hm : MapsOk w S N) (hS : Hashing.Apart S) (hfuel : N + N ≤ fuel)
    (hcache : CacheOk w cache) {A : Set Value}
    (hcalled : (valueKeys w fuel).Called (contentKeys w S N) cache A cache') :
    CacheOk w cache' := by
  induction hcalled with
  | start => exact hcache
  | hash a _ ha ih => exact (valueKeys_valHash hm hS hfuel ih ha.1).2
  | equal a b hc ha hb ih =>
    exact (valueKeys_valEqual hm hS hfuel ih (hc.subset ha).1 (hc.subset hb).1).2

/-- Such keys are settled: they compare by their contents. -/
theorem valueKeys_settled (hm : MapsOk w S N) (hS : Hashing.Apart S) (hfuel : N + N ≤ fuel)
    (hcache : CacheOk w cache) :
    (valueKeys w fuel).Settled (contentKeys w S N) cache (same w) (hashAt w N) where
  lawful := same_lawful w N
  hash _ hc ha := (valueKeys_valHash hm hS hfuel (called_values hm hS hfuel hcache hc) ha.1).1
  equal _ _ hc ha hb := (valueKeys_valEqual hm hS hfuel (called_values hm hS hfuel hcache hc)
    (hc.subset ha).1 (hc.subset hb).1).1
  isQnan _ ha := decide_eq_false ha.2

/-- A map whose keys are such values is restored: values of one content are one key. -/
theorem lxMapRehash_restores_contents (hm : MapsOk w S N) (hS : Hashing.Apart S) (hfuel : N + N ≤ fuel)
    (hcache : CacheOk w cache) {ts : ι → HashTable Value Value} (hreach : Reachable ts) (i : ι)
    (hkeys : ∀ e, some e ∈ (ts i).entries → e.1 ∈ contentKeys w S N) :
    RehashRestores (valueKeys w fuel) (contentKeys w S N) (Same w) (ts i) cache := by
  have hequiv : Equivalence (Same w) :=
    ⟨Same.refl w, fun h n => (h n).symm, fun h h' n => (h n).trans (h' n)⟩
  apply (lxMapRehash_restores_iff hreach i hkeys (valueKeys_settled hm hS hfuel hcache) hequiv
    fun a _ b _ hab => same_iff.mpr hab).mpr
  intro e f _ _ hef
  exact same_iff.mp hef

end Contents

/-! ## Two strings with one hash -/

/-- The string `a` at 0 and the string `b` at 1. -/
def letters : ℕ → ObjString := fun r => ⟨if r = 0 then [97] else [98], 0⟩

/-- The same strings cleared and pushed other bytes to: `costarring` and `liquid`. -/
def mutated : ℕ → ObjString := fun r => ⟨if r = 0 then costarring.chars else liquid.chars, 0⟩

/-- The table of a map with the two strings as keys. -/
def twoLetters : HashTable ℕ ℕ :=
  ⟨2, 7, ((List.replicate 8 none).set 4 (some (0, 10))).set 5 (some (1, 20))⟩

theorem twoLetters_reachable : Reachable fun _ : Unit => twoLetters := by
  have hboth : (tableSet stringKeys initTable 0 10 letters >>= fun r =>
      (tableSet stringKeys r.2.1 1 20 r.2.2).map fun r => r.2.1) = some twoLetters := by
    decide +kernel
  rcases Option.bind_eq_some_iff.mp hboth with ⟨⟨new, t, s⟩, hfirst, hsecond⟩
  rcases Option.map_eq_some_iff.mp hsecond with ⟨⟨new', t', s'⟩, hsecond, ht'⟩
  cases ht'
  have hrun : (Call.set () 0 10).run stringKeys 0 (fun _ : Unit => initTable) letters =
      some (Function.update (fun _ => initTable) () t, s) := by
    simp only [Call.run, hfirst, Option.bind_eq_bind, Option.bind_some]
  have hrun' : (Call.set () 1 20).run stringKeys 0 (Function.update (fun _ : Unit => initTable) () t)
      s = some (Function.update (Function.update (fun _ => initTable) () t) () twoLetters, s') := by
    simp only [Call.run, Function.update_self, hsecond, Option.bind_eq_bind, Option.bind_some]
    rfl
  have hreach := (Reachable.fresh.call stringKeys 0 letters s (.set () 0 10) hrun).call stringKeys 0
    s s' (.set () 1 20) hrun'
  have hts : Function.update (Function.update (fun _ : Unit => initTable) () t) () twoLetters =
      fun _ => twoLetters := funext fun _ => Function.update_self ..
  rwa [hts] at hreach

/-- The strings have become different ones with one hash. Before the map is rehashed they compare
as different; rehashing leaves one of the two entries. -/
theorem rehash_merges : ∃ ts : Unit → HashTable ℕ ℕ, Reachable ts ∧ (ts ()).count = 2 ∧
    (∀ r, (mutated r).HashOk) ∧ (stringKeys.valEqual 0 1 mutated).1 = false ∧
    (∃ t' s', lxMapRehash stringKeys (ts ()) mutated = some (t', s') ∧ t'.count = 1) ∧
    ¬ RehashRestores stringKeys {0, 1} (fun a b => (mutated a).chars = (mutated b).chars) (ts ())
      mutated := by
  have hmerged : (lxMapRehash stringKeys twoLetters mutated).map (fun r => r.1) =
      some ⟨1, 7, (List.replicate 8 none).set 5 (some (1, 20))⟩ := by
    decide +kernel
  rcases Option.map_eq_some_iff.mp hmerged with ⟨⟨t', s'⟩, hrehash, ht'⟩
  simp only at ht'
  refine ⟨fun _ => twoLetters, twoLetters_reachable, rfl, fun r => .inl rfl, by decide +kernel,
    ⟨t', s', hrehash, by rw [ht']⟩, ?_⟩
  rintro ⟨t'', s'', hrehash', hrestored⟩
  rw [hrehash] at hrehash'
  cases hrehash'
  -- The key at 0 is the same as none in the new table.
  rcases hrestored.covered (0, 10) (by decide) with ⟨e, he, hsame⟩
  have hone : ∀ e, some e ∈ t'.entries → e = (1, 20) := by
    intro e he
    rw [ht'] at he
    simpa [List.replicate, List.set] using he
  rw [hone e he] at hsame
  exact absurd hsame (by decide)

/-- Both strings have become `liquid`: the map is left with one entry, as it should be. -/
def alike : ℕ → ObjString := fun _ => ⟨liquid.chars, 0⟩

theorem alike_rehash_iff : RehashRestores stringKeys Set.univ
    (fun a b => (alike a).chars = (alike b).chars) twoLetters alike ↔
      ∀ e f, some e ∈ twoLetters.entries → some f ∈ twoLetters.entries →
        hashedEqual (alike e.1).chars (alike f.1).chars = true →
          (alike e.1).chars = (alike f.1).chars :=
  lxMapRehash_restores_iff twoLetters_reachable () (fun _ _ => Set.mem_univ _)
    (stringKeys_settled (fun _ _ => .inl rfl) fun _ _ => liquid.noNul)
    ⟨fun _ => rfl, fun h => h.symm, fun h h' => h.trans h'⟩
    fun _ _ _ _ _ => (by decide +kernel : hashedEqual liquid.chars liquid.chars = true)

end HashTable

end Clox
