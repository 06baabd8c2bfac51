import Clox.Runtime.Table
import Mathlib.Data.List.TakeWhile

/-! # Interned strings

`vm.strings` is a table with the interned strings as keys. `tableFindString` searches it
without a key object: it takes a string for the one it looks for if the hashes are equal
and not zero, and compares the bytes only otherwise. So do the two comparisons of strings that
the program can reach.
-/

namespace Clox

open Probing

/-! ## Strings and their hashes -/

/-- A `char` is signed: it is extended when it is combined with the hash. -/
def charToUInt32 (c : UInt8) : UInt32 :=
  if c < 128 then c.toUInt32 else c.toUInt32 ||| 0xffffff00

/-- FNV-1a -/
def hashString (key : List UInt8) : UInt32 :=
  key.foldl (fun hash c => (hash ^^^ charToUInt32 c) * 16777619) 2166136261

/-- `hash` is 0 until it is computed. -/
structure ObjString where
  chars : List UInt8
  hash : UInt32
  deriving DecidableEq

/-- The comparison of `strcmp`, which ends at a NUL byte. -/
def strcmpEq (a b : List UInt8) : Bool := a.takeWhile (· ≠ 0) == b.takeWhile (· ≠ 0)

namespace ObjString

/-- `valHash` of a string. -/
def valHash (s : ObjString) : UInt32 := if s.hash > 0 then s.hash else hashString s.chars

/-- `valHash` stores what it computes. -/
def withHash (s : ObjString) : ObjString := { s with hash := s.valHash }

/-- `valEqual` of two strings. -/
def valEqual (a b : ObjString) : Bool :=
  if a.hash ≠ 0 && b.hash ≠ 0 then a.hash == b.hash
  else a.chars.length == b.chars.length && strcmpEq a.chars b.chars

end ObjString

/-- `copyString` -/
def copyString (chars : List UInt8) : ObjString := ⟨chars, 0⟩

/-- Bytes that can be asked for: `strlen(chars) >= length`. -/
structure CString where
  chars : List UInt8
  noNul : 0 ∉ chars

/-- A string that has been a key: `findEntry` has called `valHash` on it. -/
structure KeyString extends ObjString where
  hash_eq : hash = hashString chars
  noNul : 0 ∉ chars

/-- The copy that becomes a key. -/
def CString.key (s : CString) : KeyString where
  toObjString := (copyString s.chars).withHash
  hash_eq := by simp [ObjString.withHash, ObjString.valHash, copyString]
  noNul := s.noNul

namespace KeyString

theorem ext {a b : KeyString} (h : a.chars = b.chars) : a = b := by
  have hhash : a.hash = b.hash := by rw [a.hash_eq, b.hash_eq, h]
  obtain ⟨⟨chars, hash⟩, _, _⟩ := a
  obtain ⟨⟨chars', hash'⟩, _, _⟩ := b
  cases h
  cases hhash
  rfl

def valEqual (a b : KeyString) : Bool := a.toObjString.valEqual b.toObjString

def valHash (a : KeyString) : ℕ := a.toObjString.valHash.toNat

theorem valHash_eq (a : KeyString) : a.valHash = (hashString a.chars).toNat := by
  unfold valHash ObjString.valHash
  split
  next => rw [a.hash_eq]
  next => rfl

theorem strcmpEq_iff {a b : List UInt8} (ha : 0 ∉ a) (hb : 0 ∉ b) :
    strcmpEq a b = true ↔ a = b := by
  have hall : ∀ l : List UInt8, 0 ∉ l → l.takeWhile (· ≠ 0) = l := by
    intro l hl
    rw [List.takeWhile_eq_self_iff]
    intro c hc
    have : c ≠ 0 := fun h => hl (h ▸ hc)
    simpa using this
  rw [strcmpEq, hall a ha, hall b hb, beq_iff_eq]

/-- Keys are equal if their hashes are and are not zero, and otherwise if their bytes are. -/
theorem valEqual_iff (a b : KeyString) :
    a.valEqual b = true ↔ a.chars = b.chars ∨
      hashString a.chars ≠ 0 ∧ hashString a.chars = hashString b.chars := by
  unfold valEqual ObjString.valEqual
  rw [a.hash_eq, b.hash_eq]
  by_cases ha : hashString a.chars = 0
  · simp only [ha, ne_eq, not_true_eq_false, decide_false, Bool.false_and, Bool.false_eq_true,
      if_false, Bool.and_eq_true, beq_iff_eq, strcmpEq_iff a.noNul b.noNul, false_and, or_false]
    exact ⟨fun h => h.2, fun h => ⟨by rw [h], h⟩⟩
  · by_cases hb : hashString b.chars = 0
    · simp only [ha, hb, ne_eq, not_true_eq_false, decide_false, Bool.and_false,
        Bool.false_eq_true, if_false, Bool.and_eq_true, beq_iff_eq,
        strcmpEq_iff a.noNul b.noNul, and_false, or_false]
      exact ⟨fun h => h.2, fun h => ⟨by rw [h], h⟩⟩
    · simp only [ha, hb, ne_eq, not_false_eq_true, decide_true, Bool.and_true, if_true,
        beq_iff_eq, true_and]
      exact ⟨.inr, fun h => h.elim (fun h => by rw [h]) id⟩

theorem lawful : LawfulKeys valEqual valHash where
  refl a := (valEqual_iff a a).mpr (.inl rfl)
  symm {a b} h := by
    rw [valEqual_iff] at h ⊢
    obtain h | ⟨hne, h⟩ := h
    · exact .inl h.symm
    · exact .inr ⟨h ▸ hne, h.symm⟩
  trans {a b c} hab hbc := by
    rw [valEqual_iff] at hab hbc ⊢
    obtain hab | ⟨hne, hab⟩ := hab
    · rw [hab]
      exact hbc
    · obtain hbc | ⟨-, hbc⟩ := hbc
      · exact .inr ⟨hne, by rw [hab, hbc]⟩
      · exact .inr ⟨hne, hab.trans hbc⟩
  hash_eq {a b} h := by
    rw [valHash_eq, valHash_eq]
    rw [valEqual_iff] at h
    obtain h | ⟨-, h⟩ := h <;> rw [h]

end KeyString

/-! ## Interning -/

/-- The table `vm.strings`; its values are nil. -/
abbrev Strings := Table KeyString Unit

/-- What `tableFindString` compares. -/
def isFound (chars : List UInt8) (hash : UInt32) (stringKey : ObjString) : Bool :=
  stringKey.hash ≠ 0 && stringKey.hash == hash ||
    stringKey.chars.length == chars.length && stringKey.chars.take chars.length == chars

def tableFindString (strings : Strings) (chars : List UInt8) (hash : UInt32) :
    Option (Option KeyString) :=
  if strings.entries = [] then some none
  else do
    let index ← search (fun entry => isFound chars hash entry.1.toObjString) strings.entries
      strings.entries.length (hash.toNat &&& (strings.entries.length - 1))
    some (strings.entries[index]?.join.map Prod.fst)

def internedString (strings : Strings) (s : CString) : Option (KeyString × Strings) := do
  match ← tableFindString strings s.chars (hashString s.chars) with
  | some interned => some (interned, strings)
  | none =>
    let interned := s.key
    let (isNew, strings) ← tableSet KeyString.valEqual KeyString.valHash strings interned ()
    -- `ASSERT(tableSet(...))`
    if isNew then some (interned, strings) else none

/-- A string is interned, or only looked for. -/
inductive StringOp
  | intern (s : CString)
  | find (s : CString)

/-- The bytes asked for. -/
def StringOp.chars : StringOp → List UInt8
  | .intern s => s.chars
  | .find s => s.chars

def StringOp.step (strings : Strings) : StringOp → Option (Option KeyString × Strings)
  | .intern s => do
    let (interned, strings) ← internedString strings s
    some (some interned, strings)
  | .find s => do
    let found ← tableFindString strings s.chars (hashString s.chars)
    some (found, strings)

def runStrings (strings : Strings) :
    List StringOp → Option (List (Option KeyString) × Strings)
  | [] => some ([], strings)
  | op :: ops => do
    let (result, strings) ← op.step strings
    let (results, strings) ← runStrings strings ops
    some (result :: results, strings)

/-! ## What is returned -/

/-- A string that is returned has the bytes that were asked for. -/
def RightBytes (op : StringOp) (result : Option KeyString) : Prop :=
  ∀ s ∈ result, s.chars = op.chars

/-- `b` does not ask for the hash of other bytes that `a` interned. -/
def NoCollision (a b : StringOp) : Prop :=
  ∀ s, a = .intern s → hashString s.chars ≠ 0 → hashString s.chars = hashString b.chars →
    s.chars = b.chars

/-- No interned string has the hash, and not the bytes, that `op` asks for. -/
def Apart (strings : Strings) (op : StringOp) : Prop :=
  ∀ s, some (s, ()) ∈ strings.entries → hashString s.chars ≠ 0 →
    hashString s.chars = hashString op.chars → s.chars = op.chars

@[simp] theorem CString.chars_key (s : CString) : s.key.chars = s.chars := rfl

variable {strings : Strings} {m : KeyString → Option Unit}

/-- What is compared is what `valEqual` compares. -/
theorem isFound_eq (s : CString) (k : KeyString) :
    isFound s.chars (hashString s.chars) k.toObjString = k.valEqual s.key := by
  rw [Bool.eq_iff_iff, KeyString.valEqual_iff]
  unfold isFound
  rw [k.hash_eq]
  simp only [ne_eq, decide_not, Bool.or_eq_true, Bool.and_eq_true, Bool.not_eq_true',
    decide_eq_false_iff_not, beq_iff_eq, CString.chars_key]
  constructor
  · rintro (h | ⟨hlen, htake⟩)
    · exact .inr h
    · rw [← hlen, List.take_length] at htake
      exact .inl htake
  · rintro (h | h)
    · exact .inr ⟨by rw [h], by rw [h, List.take_length]⟩
    · exact .inl h

/-- The string found is the key the table has for the bytes, if any. -/
theorem tableFindString_eq_some
    (hs : strings.Stands KeyString.valEqual KeyString.valHash m) (s : CString) :
    ∃ found, tableFindString strings s.chars (hashString s.chars) = some found ∧
      (found = none → m s.key = none) ∧
      ∀ k, found = some k → some (k, ()) ∈ strings.entries ∧ k.valEqual s.key = true := by
  cases hs with
  | null entries count map =>
    refine ⟨none, by rw [tableFindString, if_pos entries], fun _ => by rw [map], ?_⟩
    intro k hk
    cases hk
  | ring k ring load =>
    have hpos := Nat.two_pow_pos k
    have hlen := ring.length
    obtain ⟨i, hfind, hf⟩ := ring.findEntry_eq_some (by omega) s.key
    have hsearch : search (fun entry => isFound s.chars (hashString s.chars) entry.1.toObjString)
        strings.entries strings.entries.length
        ((hashString s.chars).toNat &&& (strings.entries.length - 1)) = some i := by
      simp only [isFound_eq]
      rw [findEntry, KeyString.valHash_eq] at hfind
      exact hfind
    refine ⟨strings.entries[i]?.join.map Prod.fst, ?_, ?_, ?_⟩
    · rw [tableFindString, if_neg ring.entries_ne_nil, hsearch]
      rfl
    · intro hnone
      obtain ⟨-, hm⟩ | ⟨a, hcell, -⟩ := ring.entry_cases KeyString.lawful hf
      · exact hm
      · rw [hcell] at hnone
        cases hnone
    · intro k' hk'
      obtain ⟨hcell, -⟩ | ⟨⟨a, u⟩, hcell, hkey, -⟩ := ring.entry_cases KeyString.lawful hf
      · rw [hcell] at hk'
        cases hk'
      · rw [hcell] at hk'
        obtain rfl := Option.some.inj hk'
        exact ⟨List.mem_of_getElem? hcell, hkey⟩

theorem apart_iff (op : StringOp) (key : KeyString) (hkey : key.chars = op.chars) :
    Apart strings op ↔ ∀ k, some (k, ()) ∈ strings.entries → k.valEqual key = true →
      k.chars = op.chars := by
  unfold Apart
  constructor
  · intro h k hk heq
    rw [KeyString.valEqual_iff, hkey] at heq
    obtain heq | ⟨hne, heq⟩ := heq
    · exact heq
    · exact h k hk hne heq
  · intro h k hk hne heq
    exact h k hk ((KeyString.valEqual_iff k key).mpr (.inr ⟨hne, by rw [hkey]; exact heq⟩))

/-- The strings found are right exactly if none with the same hash is in the way. -/
theorem found_iff (hs : strings.Stands KeyString.valEqual KeyString.valHash m) {op : StringOp}
    {s : CString} (hop : op.chars = s.chars) {found : Option KeyString}
    (hnone : found = none → m s.key = none)
    (hsome : ∀ k, found = some k →
      some (k, ()) ∈ strings.entries ∧ k.valEqual s.key = true) :
    RightBytes op found ↔ Apart strings op := by
  rw [apart_iff op s.key hop.symm]
  constructor
  · intro hret k hk heq
    cases hfound : found with
    | none =>
      have hm := hs.represents.eq_none_iff.mp (hnone hfound)
      obtain ⟨i, hi⟩ := List.getElem?_of_mem hk
      rw [hm i _ hi] at heq
      cases heq
    | some k' =>
      -- there is one key only that is equal to the one asked for
      obtain ⟨hk', heq'⟩ := hsome k' hfound
      obtain ⟨i, hi⟩ := List.getElem?_of_mem hk
      obtain ⟨j, hj⟩ := List.getElem?_of_mem hk'
      have hsame := hs.distinct KeyString.lawful i j _ _ hi hj
        (KeyString.lawful.trans heq (KeyString.lawful.symm heq'))
      rw [hsame, hj] at hi
      obtain rfl := (Prod.mk.inj (Option.some.inj (Option.some.inj hi))).1
      exact hret k' hfound
  · intro hapart k hk
    obtain ⟨hmem, heq⟩ := hsome k hk
    exact hapart k hmem heq

/-- One operation: what it returns is right exactly if no collision is in the way, and then it
adds at most the string it interns. -/
theorem StringOp.step_eq_some (hs : strings.Stands KeyString.valEqual KeyString.valHash m)
    (op : StringOp) :
    ∃ result strings' m', op.step strings = some (result, strings') ∧
      strings'.Stands KeyString.valEqual KeyString.valHash m' ∧
      (RightBytes op result ↔ Apart strings op) ∧
      (Apart strings op → ∀ k, some (k, ()) ∈ strings'.entries ↔
        some (k, ()) ∈ strings.entries ∨ ∃ s, op = .intern s ∧ k = s.key) := by
  cases op with
  | find s =>
    obtain ⟨found, hfind, hnone, hsome⟩ := tableFindString_eq_some hs s
    refine ⟨found, strings, m, ?_, hs, found_iff hs rfl hnone hsome, fun _ k => ?_⟩
    · simp only [StringOp.step, hfind]
      rfl
    · simp
  | intern s =>
    obtain ⟨found, hfind, hnone, hsome⟩ := tableFindString_eq_some hs s
    cases found with
    | none =>
      have hm := hnone rfl
      obtain ⟨strings', hset, hs', -, -, hmem⟩ :=
        tableSet_eq_some KeyString.lawful hs s.key ()
      rw [hm, Option.isNone_none] at hset
      have hret : RightBytes (.intern s) (some s.key) := by
        rintro k ⟨⟩
        rfl
      have hapart : Apart strings (.intern s) :=
        (found_iff hs rfl hnone hsome).mp fun k hk => by cases hk
      refine ⟨some s.key, strings', _, ?_, hs', iff_of_true hret hapart, fun _ k => ?_⟩
      · simp only [StringOp.step, internedString, hfind, Option.bind_eq_bind, Option.bind_some,
          hset, if_true]
      · rw [hmem hm, or_comm]
        simp
    | some interned =>
      refine ⟨some interned, strings, m, ?_, hs, found_iff hs rfl hnone hsome,
        fun hapart k => ?_⟩
      · simp only [StringOp.step, internedString, hfind, Option.bind_eq_bind, Option.bind_some]
      · obtain ⟨hmem, heq⟩ := hsome interned rfl
        have hkey : interned = s.key :=
          KeyString.ext ((apart_iff (.intern s) s.key rfl).mp hapart interned hmem heq)
        constructor
        · exact .inl
        · rintro (h | ⟨s', hs', rfl⟩)
          · exact h
          · cases hs'
            rw [← hkey]
            exact hmem

/-- A run: it ends, and all its results are right exactly if no request collides with a string
of the table or with one interned before it. -/
theorem runStrings_eq_some (hs : strings.Stands KeyString.valEqual KeyString.valHash m)
    (ops : List StringOp) :
    ∃ results strings' m', runStrings strings ops = some (results, strings') ∧
      strings'.Stands KeyString.valEqual KeyString.valHash m' ∧
      (List.Forall₂ RightBytes ops results ↔
        (∀ op ∈ ops, Apart strings op) ∧ ops.Pairwise NoCollision) := by
  induction ops generalizing strings m with
  | nil => exact ⟨[], strings, m, rfl, hs, by simp⟩
  | cons op ops ih =>
    obtain ⟨result, strings₁, m₁, hstep, hs₁, hret, hmem⟩ := op.step_eq_some hs
    obtain ⟨results, strings', m', hrun, hs', hrets⟩ := ih hs₁
    refine ⟨result :: results, strings', m', ?_, hs', ?_⟩
    · simp only [runStrings, hstep, Option.bind_eq_bind, Option.bind_some, hrun]
    rw [List.forall₂_cons, hret, hrets, List.forall_mem_cons, List.pairwise_cons]
    -- what the later requests must be apart from
    have hlater : Apart strings op →
        ∀ op', Apart strings₁ op' ↔ Apart strings op' ∧ NoCollision op op' := by
      intro hapart op'
      constructor
      · intro h
        refine ⟨fun k hk => h k ((hmem hapart k).mpr (.inl hk)), ?_⟩
        intro s hop
        exact h s.key ((hmem hapart s.key).mpr (.inr ⟨s, hop, rfl⟩))
      · rintro ⟨h, hno⟩ k hk
        obtain hk | ⟨s, hop, rfl⟩ := (hmem hapart k).mp hk
        · exact h k hk
        · exact hno s hop
    constructor
    · rintro ⟨hapart, hall, hpair⟩
      exact ⟨⟨hapart, fun op' hop' => ((hlater hapart op').mp (hall op' hop')).1⟩,
        fun op' hop' => ((hlater hapart op').mp (hall op' hop')).2, hpair⟩
    · rintro ⟨⟨hapart, hall⟩, hno, hpair⟩
      exact ⟨hapart, fun op' hop' => (hlater hapart op').mpr ⟨hall op' hop', hno op' hop'⟩, hpair⟩

/-- Two live strings never have the same bytes, whatever is interned; what is returned has the
bytes asked for exactly if no request comes after the interning of other bytes with the same
hash, zero excepted. -/
theorem interning_sound_iff (ops : List StringOp) :
    ∃ results strings, runStrings initTable ops = some (results, strings) ∧
      Distinct (fun a b => a.chars == b.chars) strings.entries ∧
      (List.Forall₂ RightBytes ops results ↔ ops.Pairwise NoCollision) := by
  obtain ⟨results, strings, m, hrun, hs, hiff⟩ := runStrings_eq_some initTable_stands ops
  refine ⟨results, strings, hrun, ?_, ?_⟩
  · intro i j a b hi hj hab
    refine hs.distinct KeyString.lawful i j a b hi hj ?_
    exact (KeyString.valEqual_iff a.1 b.1).mpr (.inl (by simpa using hab))
  · rw [hiff, and_iff_right]
    intro op _ k hk
    cases hk

/-- The ASCII bytes of `costarring`. -/
def costarring : CString := ⟨[99, 111, 115, 116, 97, 114, 114, 105, 110, 103], by decide⟩

/-- The ASCII bytes of `liquid`. -/
def liquid : CString := ⟨[108, 105, 113, 117, 105, 100], by decide⟩

/-- Two words with the same hash: the second is taken for the first. -/
theorem liquid_is_costarring :
    ¬ ∀ (ops : List StringOp) (results : List (Option KeyString)) (strings : Strings),
      runStrings initTable ops = some (results, strings) →
        List.Forall₂ RightBytes ops results ∧
          Distinct (fun a b => a.chars == b.chars) strings.entries := by
  intro h
  have hrun : ∃ strings, runStrings initTable [.intern costarring, .intern liquid] =
      some ([some costarring.key, some costarring.key], strings) := ⟨_, rfl⟩
  obtain ⟨strings, hrun⟩ := hrun
  have hret := (h _ _ _ hrun).1
  rw [List.forall₂_cons, List.forall₂_cons] at hret
  have hsame := hret.2.1 costarring.key rfl
  exact absurd hsame (by decide)

/-! ## Equality -/

namespace ObjString

/-- `objStringEquals`, which `stringEquals` and `==` of two strings call. -/
def objStringEquals (a b : ObjString) : Bool :=
  if a.chars.length ≠ b.chars.length then false
  else if a.hash > 0 && b.hash > 0 then a.hash == b.hash
  else strcmpEq a.chars b.chars

/-- Both comparisons of the source tell equal bytes from others. -/
def ComparedByBytes (a b : ObjString) : Prop :=
  (a.valEqual b = true ↔ a.chars = b.chars) ∧ (a.objStringEquals b = true ↔ a.chars = b.chars)

/-- Two computed hashes are equal if the bytes are and only then; without them no two strings of one
length differ behind a NUL byte only. -/
def ToldApart (a b : ObjString) : Prop :=
  if a.hash ≠ 0 ∧ b.hash ≠ 0 then a.hash = b.hash ↔ a.chars = b.chars
  else a.chars.length = b.chars.length → strcmpEq a.chars b.chars = true → a.chars = b.chars

/-- The hash is not computed yet, or is that of the bytes. -/
def HashOk (s : ObjString) : Prop := s.hash = 0 ∨ s.hash = hashString s.chars

variable {a b : ObjString}

theorem strcmpEq_refl (chars : List UInt8) : strcmpEq chars chars = true := by
  simp [strcmpEq]

theorem compared_of_computed (ha : a.hash ≠ 0) (hb : b.hash ≠ 0) :
    (a.valEqual b = true ↔ a.hash = b.hash) ∧
      (a.objStringEquals b = true ↔ a.chars.length = b.chars.length ∧ a.hash = b.hash) := by
  have ha' : a.hash > 0 := UInt32.pos_iff_ne_zero.mpr ha
  have hb' : b.hash > 0 := UInt32.pos_iff_ne_zero.mpr hb
  constructor
  · simp [valEqual, ha, hb]
  · by_cases hlen : a.chars.length = b.chars.length
    · simp [objStringEquals, ha', hb', hlen]
    · simp [objStringEquals, hlen]

theorem compared_of_not_computed (h : ¬ (a.hash ≠ 0 ∧ b.hash ≠ 0)) :
    (a.valEqual b = true ↔ a.chars.length = b.chars.length ∧ strcmpEq a.chars b.chars = true) ∧
      (a.objStringEquals b = true ↔
        a.chars.length = b.chars.length ∧ strcmpEq a.chars b.chars = true) := by
  have hne : (a.hash ≠ 0 && b.hash ≠ 0) = false := by
    by_contra hboth
    exact h (by simpa using hboth)
  have hpos : (a.hash > 0 && b.hash > 0) = false := by
    by_contra hboth
    refine h ?_
    simpa [UInt32.pos_iff_ne_zero] using hboth
  constructor
  · rw [valEqual, hne]
    simp
  · rw [objStringEquals, hpos]
    by_cases hlen : a.chars.length = b.chars.length
    · simp [hlen]
    · simp [hlen]

/-- Equality of strings is equality of their bytes, for both comparisons, if and only if the two
strings are told apart. -/
theorem equality_iff (a b : ObjString) : a.ComparedByBytes b ↔ a.ToldApart b := by
  unfold ComparedByBytes ToldApart
  split
  · rename_i h
    rcases compared_of_computed h.1 h.2 with ⟨hval, hobj⟩
    rw [hval, hobj]
    constructor
    · exact fun hboth => hboth.1
    · intro hiff
      refine ⟨hiff, ⟨fun hboth => hiff.mp hboth.2, ?_⟩⟩
      intro heq
      exact ⟨by rw [heq], hiff.mpr heq⟩
  · rename_i h
    rcases compared_of_not_computed h with ⟨hval, hobj⟩
    rw [hval, hobj, and_self]
    constructor
    · intro hiff hlen hcmp
      exact hiff.mp ⟨hlen, hcmp⟩
    · intro happart
      refine ⟨fun hboth => happart hboth.1 hboth.2, ?_⟩
      intro heq
      rw [heq]
      exact ⟨rfl, strcmpEq_refl _⟩

/-- With the right hashes, it takes a collision of `hashString` to take one string for another. -/
theorem HashOk.toldApart_iff (ha : a.HashOk) (hb : b.HashOk) (hcomputed : a.hash ≠ 0 ∧ b.hash ≠ 0) :
    a.ToldApart b ↔ (hashString a.chars = hashString b.chars → a.chars = b.chars) := by
  have ha' := ha.resolve_left hcomputed.1
  have hb' := hb.resolve_left hcomputed.2
  rw [ToldApart, if_pos hcomputed, ha', hb']
  constructor
  · exact fun hiff => hiff.mp
  · intro himp
    exact ⟨himp, fun heq => by rw [heq]⟩

/-- `costarring` and `liquid` with their hashes are equal for `valEqual`, and not for
`objStringEquals`. -/
theorem costarring_not_comparedByBytes : ∃ a b : ObjString, a.HashOk ∧ b.HashOk ∧
    a.chars = costarring.chars ∧ b.chars = liquid.chars ∧ a.valEqual b = true ∧
      a.objStringEquals b = false ∧ ¬ a.ComparedByBytes b := by
  refine ⟨⟨costarring.chars, hashString costarring.chars⟩,
    ⟨liquid.chars, hashString liquid.chars⟩, .inr rfl, .inr rfl, rfl, rfl, by decide, by decide, ?_⟩
  intro hboth
  exact absurd (hboth.1.mp (by decide)) (by decide)

end ObjString

end Clox
