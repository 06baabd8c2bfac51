import Clox.Runtime.HashedKeys

/-! # Equality of arrays and maps

`arrayEquals` and `mapEquals` compare what is in two containers of any nesting. `mapEquals` takes
the entries of one table and looks their keys up in the other one, which may have another capacity
and other slots. It finds them as long as every key is where a search for its hash ends, and this is
so in a run in which nothing in a key is changed while the key is in a map.
-/

namespace Clox.Hashing

open Clox Commands Probing

/-! ## Equal values -/

/-- Equal values of at most so many levels: strings with the same bytes, arrays with equal elements
at every index, and maps with the same keys and equal values. -/
def Equal (w : World) : ℕ → Value → Value → Prop
  | 0, _, _ => False
  | n + 1, .obj ra, .obj rb =>
    match w.objs ra, w.objs rb with
    | some (.string aStr), some (.string bStr) => aStr = bStr
    | some (.array buf1), some (.array buf2) => List.Forall₂ (Equal w n) buf1 buf2
    | some (.map _ map1), some (.map _ map2) =>
      (∀ e ∈ map1.filterMap id, ∃ f ∈ map2.filterMap id, Equal w n e.1 f.1 ∧ Equal w n e.2 f.2) ∧
        ∀ f ∈ map2.filterMap id, ∃ e ∈ map1.filterMap id, Equal w n e.1 f.1
    | _, _ => False
  | _ + 1, a, b => a = b

/-- Strings without a NUL among their bytes, no two of them with one hash. -/
structure Apart (S : Set (List UInt8)) : Prop where
  noNul : ∀ chars ∈ S, 0 ∉ chars
  hash_inj : ∀ a ∈ S, ∀ b ∈ S, hashString a = hashString b → a = b

/-- A value of at most so many levels whose strings are of `S`. -/
def Regular (w : World) (S : Set (List UInt8)) : ℕ → Value → Prop
  | 0, _ => False
  | n + 1, .obj r =>
    match w.objs r with
    | some (.string chars) => chars ∈ S
    | some (.array els) => ∀ el ∈ els, Regular w S n el
    | some (.map _ entries) => ∀ e ∈ entries.filterMap id, Regular w S n e.1 ∧ Regular w S n e.2
    | none => False
  | _ + 1, _ => True

/-- A value in which nothing in a container has the address of the container in its bits. -/
def Plain (w : World) : ℕ → Value → Prop
  | 0, _ => False
  | n + 1, .obj r =>
    match w.objs r with
    | some (.array els) => ∀ el ∈ els, asObj el ≠ r ∧ Plain w n el
    | some (.map _ entries) => ∀ e ∈ entries.filterMap id,
      (asObj e.1 ≠ r ∧ asObj e.2 ≠ r) ∧ Plain w n e.1 ∧ Plain w n e.2
    | _ => True
  | _ + 1, _ => True

/-- `v` is the object at `r` or there is such a value in it. -/
def Occurs (w : World) (r : ℕ) : ℕ → Value → Prop
  | n + 1, .obj s => s = r ∨
    match w.objs s with
    | some (.array els) => ∃ el ∈ els, Occurs w r n el
    | some (.map _ entries) => ∃ e ∈ entries.filterMap id, Occurs w r n e.1 ∨ Occurs w r n e.2
    | _ => False
  | _, _ => False

open Classical in
/-- Equality of contents as the comparison of a table. -/
noncomputable def same (w : World) (a b : Value) : Bool := decide (Same w a b)

/-- The hash of the uppermost levels, as that of a table. -/
def hashAt (w : World) (n : ℕ) (v : Value) : ℕ := (Content.hash w n (content w n v)).toNat

section Same

variable {w : World} {S : Set (List UInt8)} {n k : ℕ} {a b v : Value} {r ra rb : ℕ}

theorem same_iff : same w a b = true ↔ Same w a b := by
  classical
  exact decide_eq_true_iff

theorem Same.refl (w : World) (v : Value) : Same w v v := fun _ => rfl

theorem same_lawful (w : World) (n : ℕ) : LawfulKeys (same w) (hashAt w n) where
  refl v := same_iff.mpr (Same.refl w v)
  symm h := same_iff.mpr (same_iff.mp h).symm
  trans h h' := same_iff.mpr ((same_iff.mp h).trans (same_iff.mp h'))
  hash_eq h := congrArg (fun c => (Content.hash w n c).toNat) (same_iff.mp h n)

/-! ## Contents -/

theorem content_leaf (hv : ∀ r, v ≠ .obj r) : content w (n + 1) v = .leaf v := by
  show shape w _ v = .leaf v
  cases v with
  | obj r => exact absurd rfl (hv r)
  | _ => rfl

theorem content_string {chars : List UInt8} (ho : w.objs r = some (.string chars)) :
    content w (n + 1) (.obj r) = .string (hashString chars) := by
  show shape w _ (.obj r) = _
  simp only [shape, ho]

theorem content_array {els : List Value} (ho : w.objs r = some (.array els)) :
    content w (n + 1) (.obj r) = .array (els.map (content w n)) := by
  show shape w _ (.obj r) = _
  simp only [shape, ho]

theorem content_map {count : ℕ} {entries : List (Option (Value × Value))}
    (ho : w.objs r = some (.map count entries)) :
    content w (n + 1) (.obj r) = .map (((entries.filterMap id : List (Value × Value)) :
      Multiset (Value × Value)).map fun e => (content w n e.1, content w n e.2)) := by
  show shape w _ (.obj r) = _
  simp only [shape, ho]

theorem content_none (ho : w.objs r = none) : content w (n + 1) (.obj r) = .dangling := by
  show shape w _ (.obj r) = _
  simp only [shape, ho]

theorem eq_of_content_leaf (h : content w (n + 1) b = .leaf v) : b = v := by
  cases b with
  | obj r =>
    cases ho : w.objs r with
    | none => rw [content_none ho] at h; cases h
    | some o =>
      cases o with
      | string chars => rw [content_string ho] at h; cases h
      | array els => rw [content_array ho] at h; cases h
      | map count entries => rw [content_map ho] at h; cases h
  | _ =>
    rw [content_leaf fun r h => by cases h] at h
    cases h
    rfl

theorem string_of_content {hash : UInt32} (h : content w (n + 1) b = .string hash) :
    ∃ r chars, b = .obj r ∧ w.objs r = some (.string chars) ∧ hashString chars = hash := by
  cases b with
  | obj r =>
    cases ho : w.objs r with
    | none => rw [content_none ho] at h; cases h
    | some o =>
      cases o with
      | string chars =>
        rw [content_string ho] at h
        cases h
        exact ⟨r, chars, rfl, ho, rfl⟩
      | array els => rw [content_array ho] at h; cases h
      | map count entries => rw [content_map ho] at h; cases h
  | _ => rw [content_leaf fun r h => by cases h] at h; cases h

theorem array_of_content {els : List (Content n)} (h : content w (n + 1) b = .array els) :
    ∃ r buf, b = .obj r ∧ w.objs r = some (.array buf) ∧ buf.map (content w n) = els := by
  cases b with
  | obj r =>
    cases ho : w.objs r with
    | none => rw [content_none ho] at h; cases h
    | some o =>
      cases o with
      | string chars => rw [content_string ho] at h; cases h
      | array buf =>
        rw [content_array ho] at h
        cases h
        exact ⟨r, buf, rfl, ho, rfl⟩
      | map count entries => rw [content_map ho] at h; cases h
  | _ => rw [content_leaf fun r h => by cases h] at h; cases h

theorem map_of_content {entries : Multiset (Content n × Content n)}
    (h : content w (n + 1) b = .map entries) :
    ∃ r count map, b = .obj r ∧ w.objs r = some (.map count map) ∧
      (((map.filterMap id : List (Value × Value)) : Multiset (Value × Value)).map
        fun e => (content w n e.1, content w n e.2)) = entries := by
  cases b with
  | obj r =>
    cases ho : w.objs r with
    | none => rw [content_none ho] at h; cases h
    | some o =>
      cases o with
      | string chars => rw [content_string ho] at h; cases h
      | array buf => rw [content_array ho] at h; cases h
      | map count map =>
        rw [content_map ho] at h
        cases h
        exact ⟨r, count, map, rfl, ho, rfl⟩
  | _ => rw [content_leaf fun r h => by cases h] at h; cases h

theorem map_eq_of_map_eq {α β γ : Type} {f : α → β} {g : α → γ} {l₁ l₂ : List α}
    (h : ∀ x ∈ l₁, ∀ y, f x = f y → g x = g y) (heq : l₁.map f = l₂.map f) :
    l₁.map g = l₂.map g := by
  induction l₁ generalizing l₂ with
  | nil =>
    cases l₂ with
    | nil => rfl
    | cons y l₂ => cases heq
  | cons x l₁ ih =>
    cases l₂ with
    | nil => cases heq
    | cons y l₂ =>
      obtain ⟨hxy, hrest⟩ := List.cons.inj heq
      rw [List.map_cons, List.map_cons, h x List.mem_cons_self y hxy,
        ih (fun z hz => h z (List.mem_cons_of_mem _ hz)) hrest]

theorem multiset_map_eq {α β γ : Type} {f : α → β} {g : α → γ} {s t : Multiset α}
    (h : ∀ x ∈ s, ∀ y, f x = f y → g x = g y) (heq : s.map f = t.map f) : s.map g = t.map g := by
  rw [← Multiset.rel_eq, Multiset.rel_map] at heq ⊢
  exact heq.mono fun x hx y _ => h x hx y

/-- The levels of a value decide the others. -/
theorem Regular.same_of_content (ha : Regular w S n a) (heq : content w n a = content w n b) :
    Same w a b := by
  induction n generalizing a b with
  | zero => exact ha.elim
  | succ n ih =>
    cases a with
    | obj r =>
      unfold Regular at ha
      cases ho : w.objs r with
      | none => simp only [ho] at ha
      | some o =>
        cases o with
        | string chars =>
          rw [content_string ho] at heq
          obtain ⟨r', chars', rfl, ho', hhash⟩ := string_of_content heq.symm
          refine Same.of_shape fun k => ?_
          simp only [shape, ho, ho', hhash]
        | array els =>
          simp only [ho] at ha
          rw [content_array ho] at heq
          obtain ⟨r', buf, rfl, ho', hbuf⟩ := array_of_content heq.symm
          refine Same.of_shape fun k => ?_
          have hall : els.map (content w k) = buf.map (content w k) :=
            map_eq_of_map_eq (fun x hx y hxy => ih (ha x hx) hxy k) hbuf.symm
          simp only [shape, ho, ho', hall]
        | map count entries =>
          simp only [ho] at ha
          rw [content_map ho] at heq
          obtain ⟨r', count', map, rfl, ho', hmap⟩ := map_of_content heq.symm
          refine Same.of_shape fun k => ?_
          simp only [shape, ho, ho']
          congr 1
          refine multiset_map_eq (fun e he f hef => ?_) hmap.symm
          obtain ⟨hkey, hvalue⟩ := Prod.mk.inj hef
          rw [ih (ha e he).1 hkey k, ih (ha e he).2 hvalue k]
    | _ =>
      rw [content_leaf fun r h => by cases h] at heq
      rw [eq_of_content_leaf heq.symm]
      exact Same.refl w _

theorem Same.of_string {aStr : List UInt8} (h : Same w (.obj ra) b)
    (ha : w.objs ra = some (.string aStr)) :
    ∃ rb bStr, b = .obj rb ∧ w.objs rb = some (.string bStr) ∧
      hashString aStr = hashString bStr := by
  have hone := h 1
  rw [content_string ha] at hone
  obtain ⟨rb, bStr, rfl, hb, hhash⟩ := string_of_content hone.symm
  exact ⟨rb, bStr, rfl, hb, hhash.symm⟩

theorem Same.of_array {buf1 : List Value} (h : Same w (.obj ra) b)
    (ha : w.objs ra = some (.array buf1)) :
    ∃ rb buf2, b = .obj rb ∧ w.objs rb = some (.array buf2) ∧ List.Forall₂ (Same w) buf1 buf2 := by
  have hone := h 1
  rw [content_array ha] at hone
  obtain ⟨rb, buf2, rfl, hb, -⟩ := array_of_content hone.symm
  refine ⟨rb, buf2, rfl, hb, ?_⟩
  have hlevels : ∀ n, List.Forall₂ (fun x y => content w n x = content w n y) buf1 buf2 := by
    intro n
    have hnext := h (n + 1)
    rw [content_array ha, content_array hb] at hnext
    have hmaps : List.Forall₂ (· = ·) (buf1.map (content w n)) (buf2.map (content w n)) := by
      rw [List.forall₂_eq_eq_eq]
      exact Shape.array.inj hnext
    rw [List.forall₂_map_left_iff, List.forall₂_map_right_iff] at hmaps
    exact hmaps
  rw [List.forall₂_iff_get]
  refine ⟨(hlevels 0).length_eq, fun i hi hi' n => ?_⟩
  exact (List.forall₂_iff_get.mp (hlevels n)).2 i hi hi'

theorem same_array_iff {buf1 buf2 : List Value} (ha : w.objs ra = some (.array buf1))
    (hb : w.objs rb = some (.array buf2)) :
    Same w (.obj ra) (.obj rb) ↔ List.Forall₂ (Same w) buf1 buf2 := by
  constructor
  · intro h
    obtain ⟨rb', buf2', heq, hb', hall⟩ := h.of_array ha
    cases heq
    rw [hb] at hb'
    cases hb'
    exact hall
  · intro h
    refine Same.of_shape fun n => ?_
    have hall : buf1.map (content w n) = buf2.map (content w n) := by
      rw [← List.forall₂_eq_eq_eq, List.forall₂_map_left_iff, List.forall₂_map_right_iff]
      exact h.imp fun x y hxy => hxy n
    simp only [shape, ha, hb, hall]

theorem Same.of_map {count1 : ℕ} {map1 : List (Option (Value × Value))} (h : Same w (.obj ra) b)
    (ha : w.objs ra = some (.map count1 map1))
    (hreg : ∀ e ∈ map1.filterMap id, Regular w S n e.1 ∧ Regular w S n e.2) :
    ∃ rb count2 map2, b = .obj rb ∧ w.objs rb = some (.map count2 map2) ∧
      (map1.filterMap id).length = (map2.filterMap id).length ∧
      ∀ e ∈ map1.filterMap id, ∃ f ∈ map2.filterMap id, Same w f.1 e.1 ∧ Same w e.2 f.2 := by
  have hlevel := h (n + 1)
  rw [content_map ha] at hlevel
  obtain ⟨rb, count2, map2, rfl, hb, hmap⟩ := map_of_content hlevel.symm
  refine ⟨rb, count2, map2, rfl, hb, ?_, fun e he => ?_⟩
  · have hcard := congrArg Multiset.card hmap
    rw [Multiset.card_map, Multiset.card_map, Multiset.coe_card, Multiset.coe_card] at hcard
    exact hcard.symm
  · have hmem := Multiset.mem_map_of_mem (fun e => (content w n e.1, content w n e.2))
      (Multiset.mem_coe.mpr he)
    rw [← hmap] at hmem
    obtain ⟨f, hf, hef⟩ := Multiset.mem_map.mp hmem
    obtain ⟨hkey, hvalue⟩ := Prod.mk.inj hef
    exact ⟨f, Multiset.mem_coe.mp hf, ((hreg e he).1.same_of_content hkey.symm).symm,
      (hreg e he).2.same_of_content hvalue.symm⟩

theorem same_leaf_iff (ha : ∀ r, a ≠ .obj r) : Same w a b ↔ a = b := by
  constructor
  · intro h
    have hone := h 1
    rw [content_leaf ha] at hone
    exact (eq_of_content_leaf hone.symm).symm
  · rintro rfl
    exact Same.refl w a

end Same

/-! ## Maps whose keys can be found -/

/-- Every key is where a search for its hash ends, and no two keys have the same content. -/
def LaidOut (w : World) (n : ℕ) (t : ValueTable) : Prop :=
  ∃ m, t.Stands (same w) (hashAt w n) m

/-- What can be a key of a map. -/
def Key (w : World) (S : Set (List UInt8)) (n : ℕ) (v : Value) : Prop :=
  Regular w S n v ∧ Plain w n v

/-- The keys of all maps are of at most `n` levels and can be found. -/
def MapsOk (w : World) (S : Set (List UInt8)) (n : ℕ) : Prop :=
  ∀ r count entries, w.objs r = some (.map count entries) →
    KeysIn (Key w S n) entries ∧ LaidOut w n ⟨count, entries⟩

theorem some_mem_iff {α : Type} {l : List (Option α)} {a : α} :
    some a ∈ l ↔ a ∈ l.filterMap id := by
  simp

section LaidOut

variable {w : World} {S : Set (List UInt8)} {n k N : ℕ} {a b v : Value} {t : ValueTable}
  {entries : List (Option (Value × Value))} {r ra rb : ℕ}

theorem items_eq_length (entries : List (Option (Value × Value))) :
    items entries = (entries.filterMap id).length := by
  induction entries with
  | nil => rfl
  | cons c entries ih =>
    unfold items at ih ⊢
    cases c <;> simp [ih]

theorem LaidOut.count (h : LaidOut w n ⟨k, entries⟩) :
    k = (entries.filterMap id).length := by
  obtain ⟨m, hs⟩ := h
  rw [← items_eq_length]
  exact hs.count

theorem LaidOut.pairwise (h : LaidOut w n ⟨k, entries⟩) :
    (entries.filterMap id).Pairwise fun e f => ¬ Same w e.1 f.1 := by
  obtain ⟨m, hs⟩ := h
  have hd : Distinct (same w) entries := hs.distinct (same_lawful w n)
  have hkeys : keys entries = (entries.filterMap id).map Prod.fst := by
    unfold keys
    rw [List.map_filterMap]
    rfl
  have hpair := hd.pairwise
  rw [hkeys, List.pairwise_map] at hpair
  refine hpair.imp fun {e f} hne hsame => ?_
  rw [same_iff.mpr hsame] at hne
  cases hne

theorem same_string_iff {aStr bStr : List UInt8} (hS : Apart S)
    (ha : w.objs ra = some (.string aStr)) (hb : w.objs rb = some (.string bStr))
    (haS : aStr ∈ S) (hbS : bStr ∈ S) : Same w (.obj ra) (.obj rb) ↔ aStr = bStr := by
  constructor
  · intro h
    obtain ⟨rb', bStr', heq, hb', hhash⟩ := h.of_string ha
    cases heq
    rw [hb] at hb'
    cases hb'
    exact hS.hash_inj aStr haS bStr hbS hhash
  · rintro rfl
    refine Same.of_shape fun n => ?_
    simp only [shape, ha, hb]

/-- Maps have the same content if they have equally many keys, those of the first are in the
second, and the values are the same. -/
theorem same_map_iff {count1 count2 : ℕ} {map1 map2 : List (Option (Value × Value))}
    (ha : w.objs ra = some (.map count1 map1)) (hb : w.objs rb = some (.map count2 map2))
    (hlaid1 : LaidOut w N ⟨count1, map1⟩) (hlaid2 : LaidOut w N ⟨count2, map2⟩)
    (hreg : ∀ e ∈ map1.filterMap id, Regular w S n e.1 ∧ Regular w S n e.2) :
    Same w (.obj ra) (.obj rb) ↔ count1 = count2 ∧
      ∀ e ∈ map1.filterMap id, ∃ f ∈ map2.filterMap id, Same w f.1 e.1 ∧ Same w e.2 f.2 := by
  rw [hlaid1.count, hlaid2.count]
  constructor
  · intro h
    obtain ⟨rb', count2', map2', heq, hb', hmap⟩ := h.of_map ha hreg
    cases heq
    rw [hb] at hb'
    cases hb'
    exact hmap
  · rintro ⟨hlen, hmatch⟩
    exact shape_map_eq ha hb hlen hlaid1.pairwise hmatch

/-- Keys that are told apart are no more than those they are found among. -/
theorem length_le_of_keys {l₁ l₂ : List (Value × Value)}
    (hpair : l₁.Pairwise fun e f => ¬ Same w e.1 f.1)
    (hfound : ∀ e ∈ l₁, ∃ f ∈ l₂, Same w e.1 f.1) : l₁.length ≤ l₂.length := by
  have : Nonempty Value := ⟨.nil⟩
  choose! g hmem hkey using hfound
  have hnodup : (l₁.map g).Nodup := by
    rw [List.Nodup, List.pairwise_map]
    refine hpair.imp_of_mem fun {e f} he hf hne heq => hne ?_
    exact (hkey e he).trans (heq ▸ (hkey f hf).symm)
  have hsub : l₁.map g ⊆ l₂ := by
    intro f hf
    obtain ⟨e, he, rfl⟩ := List.mem_map.mp hf
    exact hmem e he
  have hle := (List.subperm_of_subset hnodup hsub).length_le
  rwa [List.length_map] at hle

/-- What can be a key is as it was built. -/
theorem Key.built (hm : MapsOk w S N) (hS : Apart S) (h : Key w S n v) : Built w n v := by
  obtain ⟨hreg, hplain⟩ := h
  induction n generalizing v with
  | zero => exact hreg
  | succ n ih =>
    cases v with
    | obj r =>
      unfold Regular at hreg
      unfold Plain at hplain
      unfold Built
      cases ho : w.objs r with
      | none => simp only [ho] at hreg
      | some o =>
        cases o with
        | string chars =>
          simp only [ho] at hreg ⊢
          exact hS.noNul chars hreg
        | array els =>
          simp only [ho] at hreg hplain ⊢
          exact fun el hel => ⟨(hplain el hel).1, ih (hreg el hel) (hplain el hel).2⟩
        | map count entries =>
          obtain ⟨-, hlaid⟩ := hm r count entries ho
          simp only [ho] at hreg hplain ⊢
          refine ⟨hlaid.count, hlaid.pairwise, fun e he => ⟨(hplain e he).1, ?_⟩⟩
          exact ⟨ih (hreg e he).1 (hplain e he).2.1, ih (hreg e he).2 (hplain e he).2.2⟩
    | _ => trivial

/-- The levels below a value do not count for its hash. -/
theorem Built.hash_eq {d : ℕ} (h : Built w d v) (hd : d ≤ n) :
    Content.hash w n (content w n v) = Content.hash w d (content w d v) := by
  induction d generalizing n v with
  | zero => exact h.elim
  | succ d ih =>
    obtain ⟨n, rfl⟩ := Nat.exists_eq_add_of_le' (Nat.le_of_add_left_le hd)
    have hdn : d ≤ n := by omega
    cases v with
    | obj r =>
      unfold Built at h
      cases ho : w.objs r with
      | none => simp only [ho] at h
      | some o =>
        cases o with
        | string chars => rw [hash_content_string ho, hash_content_string ho]
        | array els =>
          simp only [ho] at h
          rw [hash_content_array ho, hash_content_array ho]
          refine List.foldl_ext _ _ _ fun acc el hel => ?_
          rw [ih (h el hel).2 hdn]
        | map count entries =>
          simp only [ho] at h
          rw [hash_content_map ho, hash_content_map ho]
          refine List.foldl_ext _ _ _ fun acc e he => ?_
          rw [ih (h.2.2 e he).2.1 hdn, ih (h.2.2 e he).2.2 hdn]
    | _ => rfl

/-- `valHash` of a key is the hash of its content. -/
theorem Key.valHash_spec (hm : MapsOk w S N) (hS : Apart S) (h : Key w S N v) {fuel : ℕ}
    (hfuel : N ≤ fuel) :
    Triple (CacheOk w) (valHash w fuel [] v)
      (fun res cache => res.toNat = hashAt w N v ∧ CacheOk w cache) fun _ _ => False := by
  have hbuilt := h.built hm hS
  refine (Hashing.valHash_spec hbuilt hfuel fun x hx => by cases hx).post fun res cache hres => ?_
  obtain ⟨rfl, hc⟩ := hres
  exact ⟨congrArg UInt32.toNat (hbuilt.hash_eq hfuel), hc⟩

end LaidOut

/-! ## `valEqual` -/

/-- The command always says whether `p`. -/
def Decides (I : Cache → Prop) (c : Exec Bool) (p : Prop) : Prop :=
  ∃ res, Gives I c res ∧ (res = true ↔ p)

section Decides

variable {I : Cache → Prop} {c d : Exec Bool} {p q : Prop} {w : World}

theorem Decides.yes (h : p) : Decides I (pure true) p := ⟨true, Gives.pure true, by simpa using h⟩

theorem Decides.no (h : ¬ p) : Decides I (pure false) p := ⟨false, Gives.pure false, by simpa using h⟩

theorem Decides.congr (h : Decides I c p) (hpq : p ↔ q) : Decides I c q := by
  obtain ⟨res, hres, hp⟩ := h
  exact ⟨res, hres, hp.trans hpq⟩

/-- The second comparison is made if the first says yes. -/
theorem Decides.andThen (hc : Decides I c p) (hd : p → Decides I d q) :
    Decides I (c >>= fun same => if same then d else return false) (p ∧ q) := by
  obtain ⟨res, hres, hp⟩ := hc
  cases res with
  | true =>
    obtain ⟨res', hres', hq⟩ := hd (hp.mp rfl)
    refine ⟨res', Gives.bind hres hres', ?_⟩
    rw [hq, and_iff_right (hp.mp rfl)]
  | false =>
    refine ⟨false, Gives.bind hres (Gives.pure false), ?_⟩
    have hnot : ¬ p := fun h => Bool.false_ne_true (hp.mpr h)
    simp [hnot]

theorem Decides.gives {a b : Value} (h : Decides I c (Same w a b)) : Gives I c (same w a b) := by
  obtain ⟨res, hres, hp⟩ := h
  have heq : res = same w a b := by
    rw [Bool.eq_iff_iff, hp, same_iff]
  rw [← heq]
  exact hres

end Decides

section Compare

variable {w : World} {S : Set (List UInt8)} {n N fuel : ℕ} {a b : Value} {r ra rb : ℕ}

theorem valEqual_string_decides (hS : Apart S) {aStr bStr : List UInt8}
    (ha : w.objs ra = some (.string aStr)) (hb : w.objs rb = some (.string bStr))
    (haS : aStr ∈ S) (hbS : bStr ∈ S) :
    Decides (CacheOk w) (do
      let cache ← Command.get
      return (cached cache ra aStr).valEqual (cached cache rb bStr)) (aStr = bStr) := by
  classical
  refine ⟨decide (aStr = bStr), fun cache hc => ⟨?_, hc⟩, decide_eq_true_iff⟩
  show (cached cache ra aStr).valEqual (cached cache rb bStr) = _
  rw [Bool.eq_iff_iff, decide_eq_true_iff]
  unfold ObjString.valEqual
  split
  · -- both hashes are there, and they are those of the bytes
    rename_i hne
    simp only [cached, ne_eq, Bool.and_eq_true] at hne
    have hra := (hc ra aStr ha).resolve_left (of_decide_eq_true hne.1)
    have hrb := (hc rb bStr hb).resolve_left (of_decide_eq_true hne.2)
    simp only [cached, beq_iff_eq, hra, hrb]
    exact ⟨hS.hash_inj aStr haS bStr hbS, fun h => by rw [h]⟩
  · simp only [cached, Bool.and_eq_true, beq_iff_eq,
      KeyString.strcmpEq_iff (hS.noNul aStr haS) (hS.noNul bStr hbS)]
    exact ⟨fun h => h.2, fun h => ⟨by rw [h], h⟩⟩

theorem arrayEquals_decides {eq : Value → Value → Exec Bool} {I : Cache → Prop}
    {xs ys : List Value} (heq : ∀ x ∈ xs, ∀ y ∈ ys, Decides I (eq x y) (Same w x y))
    (hlen : xs.length = ys.length) :
    Decides I (arrayEquals eq xs ys) (List.Forall₂ (Same w) xs ys) := by
  induction xs generalizing ys with
  | nil =>
    cases ys with
    | nil => exact Decides.yes List.Forall₂.nil
    | cons y ys => cases hlen
  | cons x xs ih =>
    cases ys with
    | nil => cases hlen
    | cons y ys =>
      unfold arrayEquals
      rw [List.forall₂_cons]
      refine Decides.andThen (heq x List.mem_cons_self y List.mem_cons_self) fun _ => ?_
      exact ih (fun x' hx y' hy => heq x' (List.mem_cons_of_mem _ hx) y'
        (List.mem_cons_of_mem _ hy)) (Nat.succ.inj hlen)

/-- Each entry of the first map is looked up in a table where every key can be found. -/
theorem mapEquals_decides {K : Value → Prop} {equal : Value → Value → Exec Bool}
    {hash : Value → Exec UInt32} {I : Cache → Prop} {count : ℕ}
    {map2 : List (Option (Value × Value))} {map1 : List (Value × Value)}
    (hc : Computes I K equal hash (same w) (hashAt w N)) (hlaid : LaidOut w N ⟨count, map2⟩)
    (hkeys : KeysIn K map2)
    (hmap1 : ∀ e ∈ map1, K e.1 ∧ ∀ f ∈ map2.filterMap id, Decides I (equal e.2 f.2) (Same w e.2 f.2)) :
    Decides I (mapEquals equal hash map2 map1)
      (∀ e ∈ map1, ∃ f ∈ map2.filterMap id, Same w f.1 e.1 ∧ Same w e.2 f.2) := by
  obtain ⟨m, hs⟩ := hlaid
  have hlawful := same_lawful w N
  -- the key is in the entry that is found, and in no other
  have hfound : ∀ key v, m key = some v ↔ ∃ f ∈ map2.filterMap id, Same w f.1 key ∧ f.2 = v := by
    intro key v
    rw [hs.represents key v]
    constructor
    · rintro ⟨i, k, hi, hkey⟩
      exact ⟨(k, v), some_mem_iff.mp (List.mem_of_getElem? hi), same_iff.mp hkey, rfl⟩
    · rintro ⟨f, hf, hkey, rfl⟩
      obtain ⟨i, hi⟩ := List.getElem?_of_mem (some_mem_iff.mpr hf)
      exact ⟨i, f.1, hi, same_iff.mpr hkey⟩
  induction map1 with
  | nil => exact Decides.yes fun e he => by cases he
  | cons e rest ih =>
    obtain ⟨⟨hkey, hvalues⟩, hrest⟩ := List.forall_mem_cons.mp hmap1
    have hget : Gives I (tableGet equal hash map2 e.1) (m e.1) :=
      tableGet_gives hc hkeys hkey (tableGet_eq_some hlawful hs e.1)
    unfold mapEquals
    rw [List.forall_mem_cons]
    cases hm : m e.1 with
    | none =>
      rw [hm] at hget
      refine ⟨false, Gives.bind hget (Gives.pure false), ?_⟩
      simp only [Bool.false_eq_true, false_iff, not_and]
      rintro ⟨f, hf, hsame, -⟩
      have hsome := (hfound e.1 f.2).mpr ⟨f, hf, hsame, rfl⟩
      rw [hm] at hsome
      cases hsome
    | some val2 =>
      rw [hm] at hget
      obtain ⟨f, hf, hsame, rfl⟩ := (hfound e.1 val2).mp hm
      obtain ⟨res, hres, hiff⟩ := Decides.andThen (hvalues f hf) fun _ => ih hrest
      refine ⟨res, Gives.bind hget hres, hiff.trans (and_congr_left fun _ => ?_)⟩
      constructor
      · exact fun hvalue => ⟨f, hf, hsame, hvalue⟩
      · rintro ⟨g, hg, hsame', hvalue⟩
        have hsome := (hfound e.1 g.2).mpr ⟨g, hg, hsame', rfl⟩
        rw [hm] at hsome
        rw [Option.some.inj hsome]
        exact hvalue

/-- `valEqual` says whether two values have the same content. -/
theorem valEqual_decides (hm : MapsOk w S N) (hS : Apart S) (ha : Regular w S n a)
    (hb : Regular w S n b) (hfuel : N + n ≤ fuel) :
    Decides (CacheOk w) (valEqual w fuel a b) (Same w a b) := by
  induction n generalizing fuel a b with
  | zero => exact ha.elim
  | succ n ih =>
    obtain ⟨fuel, rfl⟩ : ∃ f, fuel = f + 1 := Nat.exists_eq_add_of_le' (by omega)
    have hbelow : N + n ≤ fuel := by omega
    have hleaf : ∀ v, (∀ r, v ≠ .obj r) →
        Decides (CacheOk w) (pure (decide (v = b))) (Same w v b) := fun v hv =>
      ⟨decide (v = b), Gives.pure _, decide_eq_true_iff.trans (same_leaf_iff hv).symm⟩
    cases a with
    | nil => exact hleaf _ fun r h => by cases h
    | bool x => exact hleaf _ fun r h => by cases h
    | number bits => exact hleaf _ fun r h => by cases h
    | obj ra =>
      unfold Regular at ha
      cases hoa : w.objs ra with
      | none => simp only [hoa] at ha
      | some oa =>
        cases b with
        | obj rb =>
          unfold Regular at hb
          cases hob : w.objs rb with
          | none => simp only [hob] at hb
          | some ob =>
            simp only [hoa] at ha
            simp only [hob] at hb
            cases oa <;> cases ob
            case string.string aStr bStr =>
              simp only [valEqual, hoa, hob]
              exact (valEqual_string_decides hS hoa hob ha hb).congr
                (same_string_iff hS hoa hob ha hb).symm
            case array.array buf1 buf2 =>
              simp only [valEqual, hoa, hob]
              split
              · rename_i hsame
                rw [hsame]
                exact Decides.yes (Same.refl w _)
              · split
                · rename_i hlen
                  refine Decides.no fun h => hlen ?_
                  exact ((same_array_iff hoa hob).mp h).length_eq
                · rename_i hlen
                  refine (arrayEquals_decides (fun x hx y hy => ?_) (not_not.mp hlen)).congr
                    (same_array_iff hoa hob).symm
                  exact ih (ha x hx) (hb y hy) hbelow
            case map.map count1 map1 count2 map2 =>
              obtain ⟨hkeys1, hlaid1⟩ := hm ra count1 map1 hoa
              obtain ⟨hkeys2, hlaid2⟩ := hm rb count2 map2 hob
              have hiff := same_map_iff hoa hob hlaid1 hlaid2 ha
              simp only [valEqual, hoa, hob]
              split
              · rename_i hsame
                rw [hsame]
                exact Decides.yes (Same.refl w _)
              · split
                · rename_i hcount
                  exact Decides.no fun h => hcount (hiff.mp h).1
                · rename_i hcount
                  -- the keys of both maps are of fewer levels
                  have hc : Computes (CacheOk w) (fun v => Key w S N v ∧ Regular w S n v)
                      (valEqual w fuel) (valHash w fuel []) (same w) (hashAt w N) :=
                    { equal := fun x y hx hy => (ih hx.2 hy.2 hbelow).gives
                      hash := fun x hx => hx.1.valHash_spec hm hS (by omega) }
                  refine (mapEquals_decides hc hlaid2 (fun f hf => ?_) fun e he => ?_).congr ?_
                  · exact ⟨hkeys2 f hf, (hb f (some_mem_iff.mp hf)).1⟩
                  · refine ⟨⟨hkeys1 e (some_mem_iff.mpr he), (ha e he).1⟩, fun f hf => ?_⟩
                    exact ih (ha e he).2 (hb f hf).2 hbelow
                  · rw [hiff, and_iff_right (not_not.mp hcount)]
            all_goals
              -- objects of different kinds
              simp only [valEqual, hoa, hob]
              refine Decides.no fun h => ?_
              have hone := h 1
              simp only [content, shape, hoa, hob] at hone
              cases hone
        | _ =>
          cases oa <;>
            (simp only [valEqual, hoa]
             refine Decides.no fun h => ?_
             have hsame := (same_leaf_iff fun r h => by cases h).mp h.symm
             cases hsame)

/-- Values of the same content are equal. -/
theorem equal_iff_same (hm : MapsOk w S N) (hS : Apart S) (ha : Regular w S n a)
    (hb : Regular w S n b) : Equal w n a b ↔ Same w a b := by
  induction n generalizing a b with
  | zero => exact ha.elim
  | succ n ih =>
    cases a with
    | obj ra =>
      unfold Regular at ha
      cases hoa : w.objs ra with
      | none => simp only [hoa] at ha
      | some oa =>
        cases b with
        | obj rb =>
          unfold Regular at hb
          cases hob : w.objs rb with
          | none => simp only [hob] at hb
          | some ob =>
            simp only [hoa] at ha
            simp only [hob] at hb
            unfold Equal
            cases oa <;> cases ob
            case string.string aStr bStr =>
              simp only [hoa, hob]
              exact (same_string_iff hS hoa hob ha hb).symm
            case array.array buf1 buf2 =>
              simp only [hoa, hob]
              rw [same_array_iff hoa hob, List.forall₂_iff_get, List.forall₂_iff_get]
              refine and_congr_right fun _ => forall_congr' fun i => ?_
              refine forall_congr' fun hi => forall_congr' fun hi' => ?_
              exact ih (ha _ (List.get_mem _ _)) (hb _ (List.get_mem _ _))
            case map.map count1 map1 count2 map2 =>
              obtain ⟨-, hlaid1⟩ := hm ra count1 map1 hoa
              obtain ⟨-, hlaid2⟩ := hm rb count2 map2 hob
              simp only [hoa, hob]
              constructor
              · rintro ⟨hsub, hsup⟩
                have hmatch : ∀ e ∈ map1.filterMap id, ∃ f ∈ map2.filterMap id,
                    Same w f.1 e.1 ∧ Same w e.2 f.2 := by
                  intro e he
                  obtain ⟨f, hf, hkey, hvalue⟩ := hsub e he
                  exact ⟨f, hf, ((ih (ha e he).1 (hb f hf).1).mp hkey).symm,
                    (ih (ha e he).2 (hb f hf).2).mp hvalue⟩
                refine (same_map_iff hoa hob hlaid1 hlaid2 ha).mpr ⟨?_, hmatch⟩
                rw [hlaid1.count, hlaid2.count]
                refine Nat.le_antisymm (length_le_of_keys hlaid1.pairwise fun e he => ?_)
                  (length_le_of_keys hlaid2.pairwise fun f hf => ?_)
                · obtain ⟨f, hf, hkey, -⟩ := hmatch e he
                  exact ⟨f, hf, hkey.symm⟩
                · obtain ⟨e, he, hkey⟩ := hsup f hf
                  exact ⟨e, he, ((ih (ha e he).1 (hb f hf).1).mp hkey).symm⟩
              · intro h
                obtain ⟨-, hsub⟩ := (same_map_iff hoa hob hlaid1 hlaid2 ha).mp h
                obtain ⟨-, hsup⟩ := (same_map_iff hob hoa hlaid2 hlaid1 hb).mp h.symm
                refine ⟨fun e he => ?_, fun f hf => ?_⟩
                · obtain ⟨f, hf, hkey, hvalue⟩ := hsub e he
                  exact ⟨f, hf, (ih (ha e he).1 (hb f hf).1).mpr hkey.symm,
                    (ih (ha e he).2 (hb f hf).2).mpr hvalue⟩
                · obtain ⟨e, he, hkey, -⟩ := hsup f hf
                  exact ⟨e, he, (ih (ha e he).1 (hb f hf).1).mpr hkey⟩
            all_goals
              simp only [hoa, hob, false_iff]
              intro h
              have hone := h 1
              simp only [content, shape, hoa, hob] at hone
              cases hone
        | _ =>
          constructor
          · intro h
            unfold Equal at h
            cases h
          · intro h
            have hsame := (same_leaf_iff fun r h => by cases h).mp h.symm
            cases hsame
    | _ => exact (same_leaf_iff fun r h => by cases h).symm

end Compare

end Clox.Hashing
