import Clox.Runtime.Hashing

/-! # Tables with values as keys

`tableSet` and `tableDelete` where the keys are values: `valEqual` and `valHash` are commands, which
write down the hashes of strings and can stop. As long as they give what an equality and a hash that
agree with each other give, the calls do what `Table` says.
-/

namespace Clox.Hashing

open Clox Commands Probing

/-- A table with values as keys. -/
abbrev ValueTable := Table Value Value

section Operations

variable (valEqual : Value → Value → Exec Bool) (valHash : Value → Exec UInt32)

/-- The loop of `findEntry`. -/
def probeIndex (entries : List (Option (Value × Value))) (key : Value) : ℕ → ℕ → Exec ℕ
  | 0, _ => Command.stop .fuel
  | steps + 1, index =>
    match entries[index]? with
    | none => Command.stop .segfault
    | some none => pure index
    | some (some entry) => do
      let same ← valEqual entry.1 key
      if same then return index
      else probeIndex entries key steps ((index + 1) &&& (entries.length - 1))

/-- `findEntry` -/
def findEntry (entries : List (Option (Value × Value))) (key : Value) : Exec ℕ := do
  let hash ← valHash key
  probeIndex valEqual entries key entries.length (hash.toNat &&& (entries.length - 1))

/-- The loop body of `resize`. -/
def moveEntry (t : ValueTable) : Option (Value × Value) → Exec ValueTable
  | none => pure t
  | some entry => do
    let index ← findEntry valEqual valHash t.entries entry.1
    return ⟨t.count + 1, t.entries.set index (some entry)⟩

def resize (t : ValueTable) (capacity : ℕ) : Exec ValueTable :=
  t.entries.foldlM (moveEntry valEqual valHash) ⟨0, List.replicate capacity none⟩

/-- The first lines of `tableSet`. -/
def growFull (t : ValueTable) : Exec ValueTable :=
  if t.full then resize valEqual valHash t (growCapacity t.entries.length) else pure t

/-- `tableSet` -/
def tableSet (t : ValueTable) (key value : Value) : Exec (Bool × ValueTable) := do
  let t ← growFull valEqual valHash t
  let index ← findEntry valEqual valHash t.entries key
  let isNewKey := t.entries[index]?.join.isNone
  return (isNewKey,
    ⟨if isNewKey then t.count + 1 else t.count, t.entries.set index (some (key, value))⟩)

/-- The loop of `tableDelete`: the entries behind `index` are taken out and set again. -/
def readd : ℕ → ValueTable → ℕ → Exec ValueTable
  | 0, _, _ => Command.stop .fuel
  | fuel + 1, t, index =>
    let index := (index + 1) &&& (t.entries.length - 1)
    match t.entries[index]? with
    | none => Command.stop .segfault
    | some none => pure t
    | some (some entry) => do
      let (_, t) ← tableSet valEqual valHash ⟨t.count - 1, t.entries.set index none⟩
        entry.1 entry.2
      readd fuel t index

/-- `tableDelete` -/
def tableDelete (t : ValueTable) (key : Value) : Exec (Bool × ValueTable) :=
  if t.count = 0 then pure (false, t)
  else do
    let index ← findEntry valEqual valHash t.entries key
    if t.entries[index]?.join.isNone then return (false, t)
    else do
      let t ← readd valEqual valHash t.entries.length ⟨t.count - 1, t.entries.set index none⟩ index
      return (true, t)

end Operations

/-! ## What the calls give -/

/-- The command always returns `x` and keeps `I`. -/
abbrev Gives {α : Type} (I : Cache → Prop) (c : Exec α) (x : α) : Prop :=
  Triple I c (fun res cache => res = x ∧ I cache) fun _ _ => False

/-- The keys are of `K`. -/
def KeysIn (K : Value → Prop) (entries : List (Option (Value × Value))) : Prop :=
  ∀ e, some e ∈ entries → K e.1

section Gives

variable {α β : Type} {I : Cache → Prop} {K : Value → Prop}
  {entries : List (Option (Value × Value))} {t t' : ValueTable} {key value : Value}

theorem Gives.pure (x : α) : Gives I (pure x) x := Triple.pure fun _ h => ⟨rfl, h⟩

theorem Gives.bind {c : Exec α} {f : α → Exec β} {x : α} {y : β} (hc : Gives I c x)
    (hf : Gives I (f x) y) : Gives I (c >>= f) y := Triple.bind_known hc hf

theorem Gives.eq {c : Exec α} {x : α} (hc : Gives I c x) {cache : Cache} (hcache : I cache) :
    ∃ cache', c cache = (.ok x, cache') ∧ I cache' := by
  have h := hc cache hcache
  cases hres : c cache with
  | mk res cache' =>
    rw [hres] at h
    cases res with
    | ok a =>
      obtain ⟨rfl, hI⟩ := h
      exact ⟨cache', rfl, hI⟩
    | error e => exact h.elim

theorem KeysIn.set {i : ℕ} (hk : KeysIn K entries) (hkey : K key) :
    KeysIn K (entries.set i (some (key, value))) := by
  intro e he
  rcases List.mem_or_eq_of_mem_set he with hmem | heq
  · exact hk e hmem
  · cases heq
    exact hkey

theorem KeysIn.clear {i : ℕ} (hk : KeysIn K entries) : KeysIn K (entries.set i none) := by
  intro e he
  rcases List.mem_or_eq_of_mem_set he with hmem | heq
  · exact hk e hmem
  · cases heq

theorem KeysIn.at {i : ℕ} {e : Value × Value} (hk : KeysIn K entries)
    (hi : entries[i]? = some (some e)) : K e.1 := hk e (List.mem_of_getElem? hi)

theorem KeysIn.replicate {n : ℕ} : KeysIn K (List.replicate n none) := by
  intro e he
  cases List.eq_of_mem_replicate he

end Gives

/-! ## The keys of a table -/

section Keys

variable {K : Value → Prop} {eq : Value → Value → Bool} {h : Value → ℕ}
  {entries : List (Option (Value × Value))} {t t' : ValueTable} {key value : Value}

theorem moveEntry_keysIn {cell : Option (Value × Value)} (hcell : KeysIn K [cell])
    (ht : KeysIn K t.entries) (hmove : Clox.moveEntry eq h t cell = some t') :
    KeysIn K t'.entries := by
  cases cell with
  | none =>
    cases hmove
    exact ht
  | some entry =>
    obtain ⟨i, -, hset⟩ := Option.bind_eq_some_iff.mp hmove
    cases hset
    exact ht.set (hcell entry List.mem_cons_self)

theorem growFull_keysIn (ht : KeysIn K t.entries) (hgrow : Clox.growFull eq h t = some t') :
    KeysIn K t'.entries := by
  have hmove : ∀ (entries : List (Option (Value × Value))) (t₁ : ValueTable), KeysIn K entries →
      KeysIn K t₁.entries → entries.foldlM (Clox.moveEntry eq h) t₁ = some t' →
      KeysIn K t'.entries := by
    intro entries
    induction entries with
    | nil =>
      intro t₁ _ ht₁ hfold
      cases hfold
      exact ht₁
    | cons cell entries ih =>
      intro t₁ hkeys ht₁ hfold
      obtain ⟨t₂, hfirst, hfold⟩ := Option.bind_eq_some_iff.mp hfold
      refine ih t₂ (fun e he => hkeys e (List.mem_cons_of_mem _ he)) ?_ hfold
      refine moveEntry_keysIn (fun e he => hkeys e ?_) ht₁ hfirst
      exact List.mem_cons.mpr (.inl (List.mem_singleton.mp he))
  unfold Clox.growFull at hgrow
  split at hgrow
  · exact hmove t.entries _ ht KeysIn.replicate hgrow
  · cases hgrow
    exact ht

theorem tableSet_keysIn {isNew : Bool} (ht : KeysIn K t.entries) (hkey : K key)
    (hset : Clox.tableSet eq h t key value = some (isNew, t')) : KeysIn K t'.entries := by
  obtain ⟨t₁, hgrow, hset⟩ := Option.bind_eq_some_iff.mp hset
  obtain ⟨i, -, hset⟩ := Option.bind_eq_some_iff.mp hset
  cases hset
  exact (growFull_keysIn ht hgrow).set hkey

theorem readd_keysIn {fuel index : ℕ} (ht : KeysIn K t.entries)
    (hreadd : Clox.readd eq h fuel t index = some t') : KeysIn K t'.entries := by
  induction fuel generalizing t index with
  | zero => cases hreadd
  | succ fuel ih =>
    unfold Clox.readd at hreadd
    simp only at hreadd
    generalize (index + 1) &&& (t.entries.length - 1) = next at hreadd
    cases hcell : t.entries[next]? with
    | none =>
      rw [hcell] at hreadd
      cases hreadd
    | some cell =>
      rw [hcell] at hreadd
      cases cell with
      | none =>
        cases hreadd
        exact ht
      | some entry =>
        obtain ⟨⟨isNew, t₁⟩, hset, hreadd⟩ := Option.bind_eq_some_iff.mp hreadd
        have hcleared : KeysIn K (t.entries.set next none) := ht.clear
        exact ih (tableSet_keysIn hcleared (ht.at hcell) hset) hreadd

/-- `tableDelete` brings no key into the table. -/
theorem tableDelete_keysIn {found : Bool} (ht : KeysIn K t.entries)
    (hdelete : Clox.tableDelete eq h t key = some (found, t')) : KeysIn K t'.entries := by
  unfold Clox.tableDelete at hdelete
  split at hdelete
  · cases hdelete
    exact ht
  · obtain ⟨i, -, hdelete⟩ := Option.bind_eq_some_iff.mp hdelete
    split at hdelete
    · cases hdelete
      exact ht
    · obtain ⟨t₁, hreadd, hdelete⟩ := Option.bind_eq_some_iff.mp hdelete
      cases hdelete
      exact readd_keysIn ht.clear hreadd

end Keys

/-! ## Calls on keys whose equality and hash are known -/

section Table

variable {I : Cache → Prop} {K : Value → Prop} {equal : Value → Value → Exec Bool}
  {hash : Value → Exec UInt32} {eq : Value → Value → Bool} {h : Value → ℕ}
  {entries : List (Option (Value × Value))} {t t' : ValueTable} {key value : Value}

/-- On keys of `K` the commands give what `eq` and `h` say. -/
structure Computes (I : Cache → Prop) (K : Value → Prop) (equal : Value → Value → Exec Bool)
    (hash : Value → Exec UInt32) (eq : Value → Value → Bool) (h : Value → ℕ) : Prop where
  equal : ∀ a b, K a → K b → Gives I (equal a b) (eq a b)
  hash : ∀ a, K a → Triple I (hash a) (fun res cache => res.toNat = h a ∧ I cache) fun _ _ => False

theorem probeIndex_gives (hc : Computes I K equal hash eq h) (hkeys : KeysIn K entries)
    (hkey : K key) {steps i j : ℕ}
    (hsearch : search (fun entry => eq entry.1 key) entries steps i = some j) :
    Gives I (probeIndex equal entries key steps i) j := by
  induction steps generalizing i with
  | zero => cases hsearch
  | succ steps ih =>
    unfold search at hsearch
    unfold probeIndex
    cases hcell : entries[i]? with
    | none =>
      rw [hcell] at hsearch
      cases hsearch
    | some cell =>
      rw [hcell] at hsearch
      cases cell with
      | none =>
        cases hsearch
        exact Gives.pure _
      | some entry =>
        refine Gives.bind (hc.equal entry.1 key (hkeys.at hcell) hkey) ?_
        simp only at hsearch ⊢
        split at hsearch
        · rename_i hsame
          cases hsearch
          rw [if_pos hsame]
          exact Gives.pure _
        · rename_i hsame
          rw [if_neg hsame]
          exact ih hsearch

/-- The command finds the entry that the search finds. -/
theorem findEntry_gives (hc : Computes I K equal hash eq h) (hkeys : KeysIn K entries)
    (hkey : K key) {i : ℕ} (hfind : Clox.findEntry eq h entries key = some i) :
    Gives I (findEntry equal hash entries key) i := by
  refine Triple.bind (hc.hash key hkey) fun res => Triple.given fun hres => ?_
  rw [hres]
  exact probeIndex_gives hc hkeys hkey hfind

theorem moveEntries_gives (hc : Computes I K equal hash eq h) (hkeys : KeysIn K entries)
    (ht : KeysIn K t.entries) (hmove : entries.foldlM (Clox.moveEntry eq h) t = some t') :
    Gives I (entries.foldlM (moveEntry equal hash) t) t' := by
  induction entries generalizing t with
  | nil =>
    cases hmove
    exact Gives.pure _
  | cons cell entries ih =>
    obtain ⟨t₁, hfirst, hmove⟩ := Option.bind_eq_some_iff.mp hmove
    rw [List.foldlM_cons]
    have hrest : KeysIn K entries := fun e he => hkeys e (List.mem_cons_of_mem _ he)
    have hcell : KeysIn K [cell] := fun e he =>
      hkeys e (List.mem_cons.mpr (.inl (List.mem_singleton.mp he)))
    have ht₁ : KeysIn K t₁.entries := moveEntry_keysIn hcell ht hfirst
    refine Gives.bind ?_ (ih hrest ht₁ hmove)
    cases cell with
    | none =>
      cases hfirst
      exact Gives.pure _
    | some entry =>
      obtain ⟨i, hfind, hset⟩ := Option.bind_eq_some_iff.mp hfirst
      cases hset
      have hentry : K entry.1 := hkeys entry List.mem_cons_self
      exact Gives.bind (findEntry_gives hc ht hentry hfind) (Gives.pure _)

theorem growFull_gives (hc : Computes I K equal hash eq h) (ht : KeysIn K t.entries)
    (hgrow : Clox.growFull eq h t = some t') : Gives I (growFull equal hash t) t' := by
  unfold Clox.growFull at hgrow
  unfold growFull
  split at hgrow
  · rename_i hfull
    rw [if_pos hfull]
    exact moveEntries_gives hc ht KeysIn.replicate hgrow
  · rename_i hfull
    rw [if_neg hfull]
    cases hgrow
    exact Gives.pure _

/-- `tableSet` on keys of `K` does what it does with the equality and the hash. -/
theorem tableSet_gives (hc : Computes I K equal hash eq h) (ht : KeysIn K t.entries)
    (hkey : K key) {isNew : Bool} (hset : Clox.tableSet eq h t key value = some (isNew, t')) :
    Gives I (tableSet equal hash t key value) (isNew, t') := by
  obtain ⟨t₁, hgrow, hset⟩ := Option.bind_eq_some_iff.mp hset
  obtain ⟨i, hfind, hset⟩ := Option.bind_eq_some_iff.mp hset
  cases hset
  refine Gives.bind (growFull_gives hc ht hgrow) ?_
  exact Gives.bind (findEntry_gives hc (growFull_keysIn ht hgrow) hkey hfind) (Gives.pure _)

theorem readd_gives (hc : Computes I K equal hash eq h) {fuel index : ℕ} (ht : KeysIn K t.entries)
    (hreadd : Clox.readd eq h fuel t index = some t') :
    Gives I (readd equal hash fuel t index) t' := by
  induction fuel generalizing t index with
  | zero => cases hreadd
  | succ fuel ih =>
    unfold Clox.readd at hreadd
    unfold readd
    simp only at hreadd ⊢
    generalize (index + 1) &&& (t.entries.length - 1) = next at hreadd
    cases hcell : t.entries[next]? with
    | none =>
      rw [hcell] at hreadd
      cases hreadd
    | some cell =>
      rw [hcell] at hreadd
      cases cell with
      | none =>
        cases hreadd
        exact Gives.pure _
      | some entry =>
        obtain ⟨⟨isNew, t₁⟩, hset, hreadd⟩ := Option.bind_eq_some_iff.mp hreadd
        have hcleared : KeysIn K (t.entries.set next none) := ht.clear
        refine Gives.bind (tableSet_gives hc hcleared (ht.at hcell) hset) ?_
        exact ih (tableSet_keysIn hcleared (ht.at hcell) hset) hreadd

/-- `tableDelete` on keys of `K` does what it does with the equality and the hash. -/
theorem tableDelete_gives (hc : Computes I K equal hash eq h) (ht : KeysIn K t.entries)
    (hkey : K key) {found : Bool} (hdelete : Clox.tableDelete eq h t key = some (found, t')) :
    Gives I (tableDelete equal hash t key) (found, t') := by
  unfold Clox.tableDelete at hdelete
  unfold tableDelete
  split at hdelete
  · rename_i hzero
    rw [if_pos hzero]
    cases hdelete
    exact Gives.pure _
  · rename_i hzero
    rw [if_neg hzero]
    obtain ⟨i, hfind, hdelete⟩ := Option.bind_eq_some_iff.mp hdelete
    refine Gives.bind (findEntry_gives hc ht hkey hfind) ?_
    split at hdelete
    · rename_i hnone
      rw [if_pos hnone]
      cases hdelete
      exact Gives.pure _
    · rename_i hsome
      rw [if_neg hsome]
      obtain ⟨t₁, hreadd, hdelete⟩ := Option.bind_eq_some_iff.mp hdelete
      cases hdelete
      exact Gives.bind (readd_gives hc ht.clear hreadd) (Gives.pure _)

/-- `tableGet` on keys of `K` does what it does with the equality and the hash. -/
theorem tableGet_gives (hc : Computes I K equal hash eq h) {count : ℕ} (hkeys : KeysIn K entries)
    (hkey : K key) {found : Option Value}
    (hget : Clox.tableGet eq h ⟨count, entries⟩ key = some found) :
    Gives I (tableGet equal hash entries key) found := by
  have hprobe : ∀ steps i j, search (fun entry => eq entry.1 key) entries steps i = some j →
      Gives I (probe equal entries key steps i) entries[j]?.join := by
    intro steps
    induction steps with
    | zero =>
      intro i j hsearch
      cases hsearch
    | succ steps ih =>
      intro i j hsearch
      unfold search at hsearch
      unfold probe
      cases hcell : entries[i]? with
      | none =>
        rw [hcell] at hsearch
        cases hsearch
      | some cell =>
        rw [hcell] at hsearch
        cases cell with
        | none =>
          cases hsearch
          rw [hcell]
          exact Gives.pure none
        | some entry =>
          refine Gives.bind (hc.equal entry.1 key (hkeys.at hcell) hkey) ?_
          simp only at hsearch ⊢
          split at hsearch
          · rename_i hsame
            cases hsearch
            rw [if_pos hsame, hcell]
            exact Gives.pure (some entry)
          · rename_i hsame
            rw [if_neg hsame]
            exact ih _ _ hsearch
  unfold Clox.tableGet at hget
  unfold tableGet
  split at hget
  · rename_i hnil
    have hentries : entries = [] := hnil
    rw [if_pos hentries]
    cases hget
    exact Gives.pure none
  · rename_i hnil
    have hentries : ¬ entries = [] := hnil
    rw [if_neg hentries]
    obtain ⟨i, hfind, hget⟩ := Option.bind_eq_some_iff.mp hget
    cases hget
    refine Triple.bind (hc.hash key hkey) fun res => Triple.given fun hres => ?_
    rw [hres]
    exact Gives.bind (hprobe _ _ _ hfind) (Gives.pure _)

end Table

end Clox.Hashing
