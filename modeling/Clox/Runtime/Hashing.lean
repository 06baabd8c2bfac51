import Clox.Lib.Commands
import Clox.Runtime.Strings
import Mathlib.Algebra.Order.Group.Multiset
import Mathlib.Data.Multiset.Fold

/-! # Equality and hashes

`valEqual` and `valHash` of nil, booleans, numbers, strings, arrays and maps. A string remembers its
hash when it was computed, so hashing changes the state, and the comparison of two strings depends
on it. What a value contains is a tree of its own (`Content`); equal values have the same one, and
the hash is read off it.
-/

namespace Clox.Hashing

open Clox Commands

/-! ## Values -/

inductive Value
  | nil
  | bool (b : Bool)
  /-- A double by its bits. -/
  | number (bits : BitVec 64)
  /-- An object by its address. -/
  | obj (r : ℕ)
  deriving DecidableEq

/-- The `hash` of a string is not here: it is in the state. -/
inductive Object
  | string (chars : List UInt8)
  | array (els : List Value)
  | map (count : ℕ) (entries : List (Option (Value × Value)))

structure World where
  objs : ℕ → Option Object
  /-- `(uint32_t)` of a double, by its bits. -/
  toUInt32 : BitVec 64 → UInt32

/-- The field `hash` of the strings; 0 until it is computed. -/
abbrev Cache := ℕ → UInt32

inductive Stop
  /-- More levels, or more probes, than there is fuel for. -/
  | fuel
  | segfault
  /-- `lxRecursionErrClass` -/
  | recursion
  deriving DecidableEq

abbrev Exec := Command Cache Stop

/-- `AS_OBJ`, which masks the tag bits of any value. -/
def asObj : Value → ℕ
  | .nil => 1
  | .bool false => 2
  | .bool true => 3
  | .number bits => (bits &&& 0x0003FFFFFFFFFFFF).toNat
  | .obj r => r

/-! ## `valHash` -/

/-- The string at `r` as it is now. -/
def cached (cache : Cache) (r : ℕ) (chars : List UInt8) : ObjString := ⟨chars, cache r⟩

/-- The hash is computed once. -/
def hashOfString (r : ℕ) (chars : List UInt8) : Exec UInt32 := do
  let cache ← Command.get
  let hash := (cached cache r chars).valHash
  Command.modify fun c => Function.update c r hash
  return hash

/-- `hashKey` of an array -/
def lxArrayHashKey (valHash : Value → Exec UInt32) (self : ℕ) (els : List Value) : Exec UInt32 :=
  els.foldlM (fun hash el =>
    if asObj el = self then pure (hash ^^^ 1667)
    else do
      let elHash ← valHash el
      return hash ^^^ elHash) 16679

/-- `hashKey` of a map -/
def lxMapHashKey (valHash : Value → Exec UInt32) (self : ℕ)
    (entries : List (Option (Value × Value))) : Exec UInt32 :=
  (entries.filterMap id).foldlM (fun hash e =>
    if asObj e.1 = self ∨ asObj e.2 = self then pure (hash ^^^ 16667)
    else do
      let keyHash ← valHash e.1
      let valueHash ← valHash e.2
      return hash ^^^ (keyHash ^^^ valueHash)) 166779

/-- `vm_protect` in `execStopRecursion`: an error comes back as the value 0. -/
def protect (c : Exec UInt32) : Exec UInt32 := fun cache =>
  match c cache with
  | (.error .recursion, cache) => (.ok 0, cache)
  | res => res

/-- `execStopRecursion`; `seen` are the objects whose hash is being computed. -/
def execStopRecursion (seen : List ℕ) (r : ℕ) (hashKey : List ℕ → Exec UInt32) : Exec UInt32 :=
  if r ∈ seen then Command.stop .recursion else protect (hashKey (r :: seen))

/-- `valHash` -/
def valHash (w : World) : ℕ → List ℕ → Value → Exec UInt32
  | 0, _, _ => Command.stop .fuel
  | fuel + 1, seen, val =>
    match val with
    | .nil => pure 2
    | .bool b => pure (if b then 1 else 0)
    | .number bits => pure (w.toUInt32 bits + 3)
    | .obj r =>
      match w.objs r with
      | some (.string chars) => hashOfString r chars
      | some (.array els) =>
        execStopRecursion seen r fun seen => lxArrayHashKey (valHash w fuel seen) r els
      | some (.map _ entries) =>
        execStopRecursion seen r fun seen => lxMapHashKey (valHash w fuel seen) r entries
      | none => Command.stop .segfault

/-! ## `valEqual` -/

/-- The loop of `findEntry`: the entry with the key, or none where the slot is empty. -/
def probe (valEqual : Value → Value → Exec Bool) (entries : List (Option (Value × Value)))
    (key : Value) : ℕ → ℕ → Exec (Option (Value × Value))
  | 0, _ => Command.stop .fuel
  | steps + 1, index =>
    match entries[index]? with
    | none => Command.stop .segfault
    | some none => pure none
    | some (some entry) => do
      let same ← valEqual entry.1 key
      if same then return some entry
      else probe valEqual entries key steps ((index + 1) &&& (entries.length - 1))

/-- `tableGet` -/
def tableGet (valEqual : Value → Value → Exec Bool) (valHash : Value → Exec UInt32)
    (entries : List (Option (Value × Value))) (key : Value) : Exec (Option Value) :=
  if entries = [] then pure none
  else do
    let hash ← valHash key
    let entry ← probe valEqual entries key entries.length (hash.toNat &&& (entries.length - 1))
    return entry.map Prod.snd

/-- `arrayEquals`, behind the comparison of the counts -/
def arrayEquals (valEqual : Value → Value → Exec Bool) : List Value → List Value → Exec Bool
  | x :: xs, y :: ys => do
    let same ← valEqual x y
    if same then arrayEquals valEqual xs ys else return false
  | _, _ => pure true

/-- `mapEquals`, behind the comparison of the counts: every entry of the first map is looked up in
the second. -/
def mapEquals (valEqual : Value → Value → Exec Bool) (valHash : Value → Exec UInt32)
    (map2 : List (Option (Value × Value))) : List (Value × Value) → Exec Bool
  | [] => pure true
  | e :: rest => do
    let val2 ← tableGet valEqual valHash map2 e.1
    match val2 with
    | none => return false
    | some val2 =>
      let same ← valEqual e.2 val2
      if same then mapEquals valEqual valHash map2 rest else return false

/-- `valEqual` -/
def valEqual (w : World) : ℕ → Value → Value → Exec Bool
  | 0, _, _ => Command.stop .fuel
  | fuel + 1, a, b =>
    match a with
    | .obj ra =>
      match w.objs ra, b with
      | some (.string aStr), .obj rb =>
        match w.objs rb with
        | some (.string bStr) => do
          let cache ← Command.get
          return (cached cache ra aStr).valEqual (cached cache rb bStr)
        | _ => pure false
      | some (.array buf1), .obj rb =>
        match w.objs rb with
        | some (.array buf2) =>
          if ra = rb then pure true
          else if buf1.length ≠ buf2.length then pure false
          else arrayEquals (valEqual w fuel) buf1 buf2
        | _ => pure false
      | some (.map count1 map1), .obj rb =>
        match w.objs rb with
        | some (.map count2 map2) =>
          if ra = rb then pure true
          else if count1 ≠ count2 then pure false
          else mapEquals (valEqual w fuel) (valHash w fuel []) map2 (map1.filterMap id)
        | _ => pure false
      | none, _ => Command.stop .segfault
      | _, _ => pure false
    | _ => pure (decide (a = b))

/-! ## Contents -/

/-- One level of a value; the levels below are of type `α`. A string counts by its hash. -/
inductive Shape (α : Type)
  | leaf (v : Value)
  | string (hash : UInt32)
  | array (els : List α)
  | map (entries : Multiset (α × α))
  | dangling

/-- The uppermost `n` levels of a value. -/
def Content : ℕ → Type
  | 0 => Unit
  | n + 1 => Shape (Content n)

/-- The uppermost level of a value; `below` gives the others. -/
def shape {α : Type} (w : World) (below : Value → α) : Value → Shape α
  | .obj r =>
    match w.objs r with
    | some (.string chars) => .string (hashString chars)
    | some (.array els) => .array (els.map below)
    | some (.map _ entries) =>
      .map ((entries.filterMap id : Multiset (Value × Value)).map fun e => (below e.1, below e.2))
    | none => .dangling
  | v => .leaf v

def content (w : World) : (n : ℕ) → Value → Content n
  | 0, _ => ()
  | n + 1, v => shape w (content w n) v

/-- The hash of a level; `below` gives those of the levels below. -/
def Shape.hash {α : Type} (w : World) (below : α → UInt32) : Shape α → UInt32
  | .leaf .nil => 2
  | .leaf (.bool b) => if b then 1 else 0
  | .leaf (.number bits) => w.toUInt32 bits + 3
  | .leaf (.obj _) => 0
  | .string hash => hash
  | .array els => els.foldl (fun h el => h ^^^ below el) 16679
  | .map entries =>
    (entries.map fun e => below e.1 ^^^ below e.2).fold (fun a b : UInt32 => a ^^^ b) 166779
  | .dangling => 0

/-- The hash of a content. -/
def Content.hash (w : World) : (n : ℕ) → Content n → UInt32
  | 0, _ => 0
  | n + 1, c => Shape.hash w (Content.hash w n) c

/-- The same on every level. -/
def Same (w : World) (a b : Value) : Prop := ∀ n, content w n a = content w n b

/-- A value of at most `n` levels that is as it was built: the bytes of a string have no NUL among
them, nothing in a container has the address of the container in its bits, and no two keys of a map
have the same content. -/
def Built (w : World) : ℕ → Value → Prop
  | 0, _ => False
  | n + 1, .obj r =>
    match w.objs r with
    | some (.string chars) => 0 ∉ chars
    | some (.array els) => ∀ el ∈ els, asObj el ≠ r ∧ Built w n el
    | some (.map count entries) => count = (entries.filterMap id).length ∧
      (entries.filterMap id).Pairwise (fun e f => ¬ Same w e.1 f.1) ∧
      ∀ e ∈ entries.filterMap id, (asObj e.1 ≠ r ∧ asObj e.2 ≠ r) ∧ Built w n e.1 ∧ Built w n e.2
    | none => False
  | _ + 1, _ => True

/-- Whatever was computed is the hash of the bytes. -/
def CacheOk (w : World) (cache : Cache) : Prop :=
  ∀ r chars, w.objs r = some (.string chars) → cache r = 0 ∨ cache r = hashString chars

section Built

variable {w : World} {n k : ℕ} {v : Value} {r : ℕ}

theorem Built.mono (h : Built w n v) (hle : n ≤ k) : Built w k v := by
  induction n generalizing k v with
  | zero => exact h.elim
  | succ n ih =>
    obtain ⟨k, rfl⟩ := Nat.exists_eq_add_of_le' (Nat.le_of_add_left_le hle)
    have hnk : n ≤ k := by omega
    cases v with
    | obj r =>
      unfold Built at h ⊢
      cases ho : w.objs r with
      | none => simp only [ho] at h
      | some o =>
        cases o with
        | string chars =>
          simp only [ho] at h ⊢
          exact h
        | array els =>
          simp only [ho] at h ⊢
          exact fun el hel => ⟨(h el hel).1, ih (h el hel).2 hnk⟩
        | map count entries =>
          simp only [ho] at h ⊢
          refine ⟨h.1, h.2.1, fun e he => ⟨(h.2.2 e he).1, ?_⟩⟩
          exact ⟨ih (h.2.2 e he).2.1 hnk, ih (h.2.2 e he).2.2 hnk⟩
    | _ => trivial

/-- The least number of levels. -/
theorem Built.least (h : Built w n v) : ∃ d, d + 1 ≤ n ∧ Built w (d + 1) v ∧ ¬ Built w d v := by
  classical
  have hex : ∃ m, Built w m v := ⟨n, h⟩
  obtain ⟨d, hd⟩ : ∃ d, Nat.find hex = d + 1 := by
    refine Nat.exists_eq_succ_of_ne_zero fun hz => ?_
    have := Nat.find_spec hex
    rw [hz] at this
    exact this
  refine ⟨d, hd ▸ Nat.find_min' hex h, hd ▸ Nat.find_spec hex, ?_⟩
  exact Nat.find_min hex (by omega)

end Built

/-! ## What `valHash` computes -/

section Hash

variable {w : World} {r : ℕ} {chars : List UInt8} {seen : List ℕ} {v : Value}
  {H : Value → Exec UInt32} {g : Value → UInt32} {E : Stop → Cache → Prop}

theorem hashOfString_spec (ho : w.objs r = some (.string chars)) :
    Triple (CacheOk w) (hashOfString r chars)
      (fun h c => h = hashString chars ∧ CacheOk w c) E := by
  intro cache hc
  have hhash : (cached cache r chars).valHash = hashString chars := by
    show (if cache r > 0 then cache r else hashString chars) = _
    rcases hc r chars ho with hzero | hright
    · rw [hzero]
      exact if_neg (by decide)
    · rw [hright, ite_self]
  refine ⟨hhash, fun r' chars' ho' => ?_⟩
  show Function.update cache r (cached cache r chars).valHash r' = 0 ∨
    Function.update cache r (cached cache r chars).valHash r' = hashString chars'
  by_cases hr : r' = r
  · subst hr
    cases ho.symm.trans ho'
    exact .inr (by rw [Function.update_self, hhash])
  · rw [Function.update_of_ne hr]
    exact hc r' chars' ho'

theorem protect_spec {P : Cache → Prop} {Q : UInt32 → Cache → Prop} {c : Exec UInt32}
    (hc : Triple P c Q fun _ => Q 0) : Triple P (protect c) Q fun _ => Q 0 := by
  intro cache hp
  have hcs := hc cache hp
  unfold protect
  cases hres : c cache with
  | mk res cache' =>
    rw [hres] at hcs
    cases res with
    | ok h => exact hcs
    | error e => cases e <;> exact hcs

theorem protect_total {P : Cache → Prop} {Q : UInt32 → Cache → Prop} {c : Exec UInt32}
    (hc : Triple P c Q fun _ _ => False) : Triple P (protect c) Q fun _ _ => False := by
  intro cache hp
  have hcs := hc cache hp
  unfold protect
  cases hres : c cache with
  | mk res cache' =>
    rw [hres] at hcs
    cases res with
    | ok h => exact hcs
    | error e => exact hcs.elim

theorem lxArrayHashKey_spec {els : List Value}
    (hels : ∀ el ∈ els, asObj el ≠ r ∧
      Triple (CacheOk w) (H el) (fun h c => h = g el ∧ CacheOk w c) E) :
    Triple (CacheOk w) (lxArrayHashKey H r els)
      (fun h c => h = els.foldl (fun h el => h ^^^ g el) 16679 ∧ CacheOk w c) E := by
  unfold lxArrayHashKey
  generalize (16679 : UInt32) = start
  induction els generalizing start with
  | nil => exact Triple.pure fun c hc => ⟨rfl, hc⟩
  | cons el els ih =>
    obtain ⟨⟨hself, hel⟩, hrest⟩ := List.forall_mem_cons.mp hels
    rw [List.foldlM_cons, if_neg hself, List.foldl_cons]
    have hstep : Triple (CacheOk w) (H el >>= fun elHash => pure (start ^^^ elHash))
        (fun h c => h = start ^^^ g el ∧ CacheOk w c) E :=
      hel.bind_known (Triple.pure fun c hc => ⟨rfl, hc⟩)
    exact hstep.bind_known (ih hrest _)

theorem lxMapHashKey_spec {entries : List (Option (Value × Value))}
    (hentries : ∀ e ∈ entries.filterMap id, (asObj e.1 ≠ r ∧ asObj e.2 ≠ r) ∧
      Triple (CacheOk w) (H e.1) (fun h c => h = g e.1 ∧ CacheOk w c) E ∧
      Triple (CacheOk w) (H e.2) (fun h c => h = g e.2 ∧ CacheOk w c) E) :
    Triple (CacheOk w) (lxMapHashKey H r entries)
      (fun h c => h = (entries.filterMap id).foldl (fun h e => h ^^^ (g e.1 ^^^ g e.2)) 166779 ∧
        CacheOk w c) E := by
  unfold lxMapHashKey
  generalize (166779 : UInt32) = start
  generalize entries.filterMap id = l at hentries
  induction l generalizing start with
  | nil => exact Triple.pure fun c hc => ⟨rfl, hc⟩
  | cons e l ih =>
    obtain ⟨⟨hself, hkey, hvalue⟩, hrest⟩ := List.forall_mem_cons.mp hentries
    rw [List.foldlM_cons, if_neg (not_or.mpr hself), List.foldl_cons]
    have hstep : Triple (CacheOk w)
        (do let keyHash ← H e.1; let valueHash ← H e.2; pure (start ^^^ (keyHash ^^^ valueHash)))
        (fun h c => h = start ^^^ (g e.1 ^^^ g e.2) ∧ CacheOk w c) E :=
      hkey.bind_known (hvalue.bind_known (Triple.pure fun c hc => ⟨rfl, hc⟩))
    exact hstep.bind_known (ih _ hrest)

/-- The order of the slots does not matter for the hash of a map. -/
theorem foldl_xor_eq_fold {β : Type} (f : β → UInt32) (l : List β) (start : UInt32) :
    l.foldl (fun h e => h ^^^ f e) start =
      ((l : Multiset β).map f).fold (fun a b : UInt32 => a ^^^ b) start := by
  rw [Multiset.map_coe, Multiset.coe_fold_l, List.foldl_map]

theorem valHash_cacheOk (n : ℕ) (seen : List ℕ) (v : Value) :
    Triple (CacheOk w) (valHash w n seen v) (fun _ => CacheOk w) fun _ => CacheOk w := by
  induction n generalizing seen v with
  | zero => exact Triple.stop fun _ hc => hc
  | succ n ih =>
    have hkey : ∀ hashKey : List ℕ → Exec UInt32,
        (∀ seen, Triple (CacheOk w) (hashKey seen) (fun _ => CacheOk w) fun _ => CacheOk w) →
        ∀ r, Triple (CacheOk w) (execStopRecursion seen r hashKey) (fun _ => CacheOk w)
          fun _ => CacheOk w := fun hashKey hbody r =>
      Triple.ite (fun _ => Triple.stop fun _ hc => hc) fun _ => protect_spec (hbody _)
    cases v with
    | nil => exact Triple.pure fun _ hc => hc
    | bool b => exact Triple.pure fun _ hc => hc
    | number bits => exact Triple.pure fun _ hc => hc
    | obj r =>
      cases ho : w.objs r with
      | none =>
        simp only [valHash, ho]
        exact Triple.stop fun _ hc => hc
      | some o =>
        cases o with
        | string chars =>
          simp only [valHash, ho]
          exact (hashOfString_spec ho).post fun _ _ h => h.2
        | array els =>
          simp only [valHash, ho]
          refine hkey _ (fun seen => Triple.foldlM (Q := fun _ => CacheOk w) fun h el _ => ?_) r
          refine Triple.ite (fun _ => Triple.pure fun _ hc => hc) fun _ => ?_
          exact (ih seen el).bind fun _ => Triple.pure fun _ hc => hc
        | map count entries =>
          simp only [valHash, ho]
          refine hkey _ (fun seen => Triple.foldlM (Q := fun _ => CacheOk w) fun h e _ => ?_) r
          refine Triple.ite (fun _ => Triple.pure fun _ hc => hc) fun _ => ?_
          exact (ih seen e.1).bind fun _ => (ih seen e.2).bind fun _ => Triple.pure fun _ hc => hc

theorem hash_content_string {n : ℕ} (ho : w.objs r = some (.string chars)) :
    Content.hash w (n + 1) (content w (n + 1) (.obj r)) = hashString chars := by
  show Shape.hash w _ (shape w _ _) = _
  simp only [shape, ho, Shape.hash]

theorem hash_content_array {n : ℕ} {els : List Value} (ho : w.objs r = some (.array els)) :
    Content.hash w (n + 1) (content w (n + 1) (.obj r)) =
      els.foldl (fun h el => h ^^^ Content.hash w n (content w n el)) 16679 := by
  show Shape.hash w _ (shape w _ _) = _
  simp only [shape, ho, Shape.hash, List.foldl_map]

theorem hash_content_map {n count : ℕ} {entries : List (Option (Value × Value))}
    (ho : w.objs r = some (.map count entries)) :
    Content.hash w (n + 1) (content w (n + 1) (.obj r)) =
      (entries.filterMap id).foldl (fun h e => h ^^^
        (Content.hash w n (content w n e.1) ^^^ Content.hash w n (content w n e.2))) 166779 := by
  rw [foldl_xor_eq_fold]
  show Shape.hash w _ (shape w _ _) = _
  simp only [shape, ho, Shape.hash, Multiset.map_map, Function.comp_def]

/-- The hash of a value that is as it was built is that of its content. -/
theorem valHash_spec {n d : ℕ} (hv : Built w d v) (hd : d ≤ n)
    (hseen : ∀ x ∈ seen, ¬ Built w d (.obj x)) :
    Triple (CacheOk w) (valHash w n seen v)
      (fun h c => h = Content.hash w n (content w n v) ∧ CacheOk w c) fun _ _ => False := by
  induction n generalizing seen v d with
  | zero =>
    rw [Nat.le_zero.mp hd] at hv
    exact hv.elim
  | succ n ih =>
    cases v with
    | nil => exact Triple.pure fun _ hc => ⟨rfl, hc⟩
    | bool b => exact Triple.pure fun _ hc => ⟨rfl, hc⟩
    | number bits => exact Triple.pure fun _ hc => ⟨rfl, hc⟩
    | obj r =>
      -- the least depth of the object is above those of its elements, so they are not it again
      obtain ⟨e, he, hbuilt, hnot⟩ := hv.least
      have hnew : r ∉ seen := fun hr => hseen r hr hv
      have hinner : ∀ x ∈ r :: seen, ¬ Built w e (.obj x) := by
        intro x hx
        rcases List.mem_cons.mp hx with rfl | hx
        · exact hnot
        · exact fun hb => hseen x hx (hb.mono (by omega))
      have helement : ∀ el, Built w e el → Triple (CacheOk w) (valHash w n (r :: seen) el)
          (fun h c => h = Content.hash w n (content w n el) ∧ CacheOk w c) fun _ _ => False :=
        fun el hel => ih hel (by omega) hinner
      unfold Built at hbuilt
      cases ho : w.objs r with
      | none => simp only [ho] at hbuilt
      | some o =>
        cases o with
        | string chars =>
          simp only [valHash, ho]
          rw [hash_content_string ho]
          exact hashOfString_spec ho
        | array els =>
          simp only [ho] at hbuilt
          simp only [valHash, ho, execStopRecursion, if_neg hnew]
          rw [hash_content_array ho]
          exact protect_total (lxArrayHashKey_spec fun el hel =>
            ⟨(hbuilt el hel).1, helement el (hbuilt el hel).2⟩)
        | map count entries =>
          simp only [ho] at hbuilt
          simp only [valHash, ho, execStopRecursion, if_neg hnew]
          rw [hash_content_map ho]
          exact protect_total (lxMapHashKey_spec (g := fun el => Content.hash w n (content w n el))
            fun e he => ⟨(hbuilt.2.2 e he).1, helement e.1 (hbuilt.2.2 e he).2.1,
              helement e.2 (hbuilt.2.2 e he).2.2⟩)

end Hash

/-! ## What `valEqual` says -/

/-- Elements that are told apart, and each of which has a partner, are as many as their partners
are. -/
theorem perm_map_of_partners {α β : Type} {l₁ l₂ : List α} {P : α → β} {g : α → α}
    (hlen : l₁.length = l₂.length) (hg : (l₁.map g).Nodup)
    (hpartner : ∀ e ∈ l₁, g e ∈ l₂ ∧ P e = P (g e)) : (l₁.map P).Perm (l₂.map P) := by
  have hsub : l₁.map g ⊆ l₂ := by
    intro f hf
    obtain ⟨e, he, rfl⟩ := List.mem_map.mp hf
    exact (hpartner e he).1
  have hperm : (l₁.map g).Perm l₂ :=
    (List.subperm_of_subset hg hsub).perm_of_length_le (by rw [List.length_map, hlen])
  have hsame : l₁.map P = (l₁.map g).map P := by
    rw [List.map_map]
    exact List.map_congr_left fun e he => (hpartner e he).2
  rw [hsame]
  exact hperm.map P

section Equal

variable {w : World} {n k m : ℕ} {a b : Value} {r ra rb : ℕ}

theorem Same.symm (h : Same w a b) : Same w b a := fun n => (h n).symm

theorem Same.trans {c : Value} (hab : Same w a b) (hbc : Same w b c) : Same w a c :=
  fun n => (hab n).trans (hbc n)

/-- A value is the same as another if their uppermost levels are. -/
theorem Same.of_shape (h : ∀ n, shape w (content w n) a = shape w (content w n) b) :
    Same w a b := by
  intro n
  cases n with
  | zero => rfl
  | succ n => exact h n

/-- What a comparison that says yes has shown. -/
abbrev Shows (w : World) (c : Exec Bool) (p : Prop) : Prop :=
  Triple (CacheOk w) c (fun res cache => (res = true → p) ∧ CacheOk w cache) fun _ => CacheOk w

theorem Shows.of_bool {res : Bool} {p : Prop} (h : res = true → p) : Shows w (pure res) p :=
  Triple.pure fun _ hc => ⟨h, hc⟩

/-- The second comparison is made if the first says yes. -/
theorem Shows.andThen {c d : Exec Bool} {p q : Prop} (hc : Shows w c p) (hd : p → Shows w d q) :
    Shows w (c >>= fun same => if same then d else return false) q := by
  refine Triple.bind hc fun same => Triple.given fun hp => ?_
  refine Triple.ite (fun hsame => hd (hp hsame)) fun _ => Shows.of_bool ?_
  intro h
  cases h

theorem valEqual_string_shows {aStr bStr : List UInt8} (ha : w.objs ra = some (.string aStr))
    (hb : w.objs rb = some (.string bStr)) (ha0 : 0 ∉ aStr) (hb0 : 0 ∉ bStr) :
    Shows w (do
      let cache ← Command.get
      return (cached cache ra aStr).valEqual (cached cache rb bStr)) (Same w (.obj ra) (.obj rb)) := by
  intro cache hc
  refine ⟨fun heq => Same.of_shape fun n => ?_, hc⟩
  simp only [shape, ha, hb]
  change (cached cache ra aStr).valEqual (cached cache rb bStr) = true at heq
  unfold ObjString.valEqual at heq
  split at heq
  · -- both hashes are there
    rename_i hne
    simp only [cached, ne_eq, Bool.and_eq_true] at hne
    have hra := (hc ra aStr ha).resolve_left (of_decide_eq_true hne.1)
    have hrb := (hc rb bStr hb).resolve_left (of_decide_eq_true hne.2)
    simp only [cached, beq_iff_eq, hra, hrb] at heq
    rw [heq]
  · rw [Bool.and_eq_true] at heq
    have hbytes : aStr = bStr := (KeyString.strcmpEq_iff ha0 hb0).mp heq.2
    rw [hbytes]

theorem arrayEquals_shows {eq : Value → Value → Exec Bool} {xs ys : List Value}
    (heq : ∀ x ∈ xs, ∀ y ∈ ys, Shows w (eq x y) (Same w x y)) (hlen : xs.length = ys.length) :
    Shows w (arrayEquals eq xs ys) (∀ n, xs.map (content w n) = ys.map (content w n)) := by
  induction xs generalizing ys with
  | nil =>
    cases ys with
    | nil => exact Shows.of_bool fun _ _ => rfl
    | cons y ys => cases hlen
  | cons x xs ih =>
    cases ys with
    | nil => cases hlen
    | cons y ys =>
      unfold arrayEquals
      refine Shows.andThen (heq x List.mem_cons_self y List.mem_cons_self) fun hsame => ?_
      have hrest := ih (fun x' hx y' hy => heq x' (List.mem_cons_of_mem _ hx) y'
        (List.mem_cons_of_mem _ hy)) (Nat.succ.inj hlen)
      refine hrest.post fun res _ h => ⟨fun hres n => ?_, h.2⟩
      rw [List.map_cons, List.map_cons, hsame n, h.1 hres n]

theorem probe_shows {eq : Value → Value → Exec Bool} {entries : List (Option (Value × Value))}
    {key : Value} (steps index : ℕ)
    (heq : ∀ e ∈ entries.filterMap id, Shows w (eq e.1 key) (Same w e.1 key)) :
    Triple (CacheOk w) (probe eq entries key steps index)
      (fun res c => (∀ e, res = some e → e ∈ entries.filterMap id ∧ Same w e.1 key) ∧ CacheOk w c)
      fun _ => CacheOk w := by
  induction steps generalizing index with
  | zero => exact Triple.stop fun _ hc => hc
  | succ steps ih =>
    unfold probe
    cases hslot : entries[index]? with
    | none => exact Triple.stop fun _ hc => hc
    | some slot =>
      cases slot with
      | none =>
        refine Triple.pure fun _ hc => ⟨fun e he => ?_, hc⟩
        cases he
      | some entry =>
        have hmem : entry ∈ entries.filterMap id :=
          List.mem_filterMap.mpr ⟨some entry, List.mem_of_getElem? hslot, rfl⟩
        refine Triple.bind (heq entry hmem) fun same => Triple.given fun hsame => ?_
        refine Triple.ite (fun hres => ?_) fun _ => ih _
        refine Triple.pure fun _ hc => ⟨fun e he => ?_, hc⟩
        cases he
        exact ⟨hmem, hsame hres⟩

theorem tableGet_shows {eq : Value → Value → Exec Bool} {H : Value → Exec UInt32}
    {entries : List (Option (Value × Value))} {key : Value}
    (heq : ∀ e ∈ entries.filterMap id, Shows w (eq e.1 key) (Same w e.1 key))
    (hhash : ∀ v, Triple (CacheOk w) (H v) (fun _ => CacheOk w) fun _ => CacheOk w) :
    Triple (CacheOk w) (tableGet eq H entries key)
      (fun res c => (∀ v, res = some v →
        ∃ e ∈ entries.filterMap id, Same w e.1 key ∧ e.2 = v) ∧ CacheOk w c)
      fun _ => CacheOk w := by
  unfold tableGet
  refine Triple.ite (fun _ => Triple.pure fun _ hc => ⟨fun v hv => ?_, hc⟩) fun _ => ?_
  · cases hv
  · refine (hhash key).bind fun hash => (probe_shows _ _ heq).bind fun entry => ?_
    refine Triple.pure fun _ h => ⟨fun v hv => ?_, h.2⟩
    obtain ⟨e, rfl, rfl⟩ := Option.map_eq_some_iff.mp hv
    exact ⟨e, (h.1 e rfl).1, (h.1 e rfl).2, rfl⟩

/-- Every entry of the first map has one in the second with the same key and the same value. -/
theorem mapEquals_shows {eq : Value → Value → Exec Bool} {H : Value → Exec UInt32}
    {map2 : List (Option (Value × Value))} {map1 : List (Value × Value)}
    (heq : ∀ e ∈ map1, ∀ f ∈ map2.filterMap id,
      Shows w (eq f.1 e.1) (Same w f.1 e.1) ∧ Shows w (eq e.2 f.2) (Same w e.2 f.2))
    (hhash : ∀ v, Triple (CacheOk w) (H v) (fun _ => CacheOk w) fun _ => CacheOk w) :
    Shows w (mapEquals eq H map2 map1)
      (∀ e ∈ map1, ∃ f ∈ map2.filterMap id, Same w f.1 e.1 ∧ Same w e.2 f.2) := by
  induction map1 with
  | nil => exact Shows.of_bool fun _ e he => by cases he
  | cons e rest ih =>
    obtain ⟨hfirst, hrest⟩ := List.forall_mem_cons.mp heq
    unfold mapEquals
    refine (tableGet_shows (fun f hf => (hfirst f hf).1) hhash).bind fun val2 =>
      Triple.given fun hval2 => ?_
    cases val2 with
    | none => exact Shows.of_bool fun h => by cases h
    | some val2 =>
      obtain ⟨f, hf, hkey, rfl⟩ := hval2 val2 rfl
      refine Shows.andThen (hfirst f hf).2 fun hvalue => ?_
      refine (ih hrest).post fun res _ h => ⟨fun hres => ?_, h.2⟩
      exact List.forall_mem_cons.mpr ⟨⟨f, hf, hkey, hvalue⟩, h.1 hres⟩

/-- Maps of equally many entries, with keys that differ in the first. -/
theorem shape_map_eq {count₁ count₂ : ℕ} {map1 map2 : List (Option (Value × Value))}
    (ha : w.objs ra = some (.map count₁ map1)) (hb : w.objs rb = some (.map count₂ map2))
    (hlen : (map1.filterMap id).length = (map2.filterMap id).length)
    (hkeys : (map1.filterMap id).Pairwise fun e f => ¬ Same w e.1 f.1)
    (hmatch : ∀ e ∈ map1.filterMap id, ∃ f ∈ map2.filterMap id, Same w f.1 e.1 ∧ Same w e.2 f.2) :
    Same w (.obj ra) (.obj rb) := by
  refine Same.of_shape fun n => ?_
  simp only [shape, ha, hb]
  congr 1
  rw [Multiset.map_coe, Multiset.map_coe, Multiset.coe_eq_coe]
  have : Nonempty Value := ⟨.nil⟩
  choose! g hmem hkey hvalue using hmatch
  refine perm_map_of_partners (g := g) hlen ?_ fun e he => ⟨hmem e he, ?_⟩
  · -- two entries with one partner would have the same key
    rw [List.Nodup, List.pairwise_map]
    refine hkeys.imp_of_mem fun {e f} he hf hne heq => hne ?_
    exact (hkey e he).symm.trans (heq ▸ hkey f hf)
  · rw [hkey e he n, hvalue e he n]

/-- Values that are as they were built and compare equal have the same content. -/
theorem valEqual_shows (ha : Built w n a) (hb : Built w k b) :
    Shows w (valEqual w m a b) (Same w a b) := by
  induction m generalizing n k a b with
  | zero => exact Triple.stop fun _ hc => hc
  | succ m ih =>
    have hleaf : ∀ v, Shows w (pure (decide (v = b))) (Same w v b) := by
      intro v
      refine Shows.of_bool fun h => ?_
      rw [of_decide_eq_true h]
      exact fun _ => rfl
    have hno : ∀ p, Shows w (pure false) p := fun p => Shows.of_bool fun h => by cases h
    cases a with
    | nil => exact hleaf _
    | bool x => exact hleaf _
    | number bits => exact hleaf _
    | obj ra =>
      obtain ⟨n, rfl⟩ : ∃ i, n = i + 1 := by
        refine Nat.exists_eq_succ_of_ne_zero fun hz => ?_
        rw [hz] at ha
        exact ha
      unfold Built at ha
      cases hoa : w.objs ra with
      | none => simp only [hoa] at ha
      | some oa =>
        cases b with
        | obj rb =>
          obtain ⟨k, rfl⟩ : ∃ i, k = i + 1 := by
            refine Nat.exists_eq_succ_of_ne_zero fun hz => ?_
            rw [hz] at hb
            exact hb
          unfold Built at hb
          cases hob : w.objs rb with
          | none => simp only [hob] at hb
          | some ob =>
            have hself : ra = rb → Same w (.obj ra) (.obj rb) := by
              rintro rfl _
              rfl
            cases oa with
            | string aStr =>
              cases ob with
              | string bStr =>
                simp only [hoa] at ha
                simp only [hob] at hb
                simp only [valEqual, hoa, hob]
                exact valEqual_string_shows hoa hob ha hb
              | _ =>
                simp only [valEqual, hoa, hob]
                exact hno _
            | array buf1 =>
              cases ob with
              | array buf2 =>
                simp only [hoa] at ha
                simp only [hob] at hb
                simp only [valEqual, hoa, hob]
                refine Triple.ite (fun h => Shows.of_bool fun _ => hself h) fun _ => ?_
                refine Triple.ite (fun _ => hno _) fun hlen => ?_
                refine (arrayEquals_shows (fun x hx y hy => ih (ha x hx).2 (hb y hy).2)
                  (not_not.mp hlen)).post fun res _ h => ⟨fun hres => ?_, h.2⟩
                refine Same.of_shape fun n => ?_
                simp only [shape, hoa, hob, h.1 hres n]
              | _ =>
                simp only [valEqual, hoa, hob]
                exact hno _
            | map count1 map1 =>
              cases ob with
              | map count2 map2 =>
                simp only [hoa] at ha
                simp only [hob] at hb
                simp only [valEqual, hoa, hob]
                refine Triple.ite (fun h => Shows.of_bool fun _ => hself h) fun _ => ?_
                refine Triple.ite (fun _ => hno _) fun hcount => ?_
                have hlen : (map1.filterMap id).length = (map2.filterMap id).length := by
                  rw [← ha.1, ← hb.1]
                  exact not_not.mp hcount
                refine (mapEquals_shows (fun e he f hf =>
                    ⟨ih (hb.2.2 f hf).2.1 (ha.2.2 e he).2.1, ih (ha.2.2 e he).2.2 (hb.2.2 f hf).2.2⟩)
                  fun v => valHash_cacheOk m [] v).post fun res _ h => ⟨fun hres => ?_, h.2⟩
                exact shape_map_eq hoa hob hlen ha.2.1 (h.1 hres)
              | _ =>
                simp only [valEqual, hoa, hob]
                exact hno _
        | _ =>
          cases oa <;> (simp only [valEqual, hoa]; exact hno _)

/-! ## Equality and hashes -/

/-- `valHash` gives both values one hash. -/
def SameHash (w : World) (fuel : ℕ) (a b : Value) (cache : Cache) : Prop :=
  ∃ h cache₁ cache₂, valHash w fuel [] a cache = (.ok h, cache₁) ∧
    valHash w fuel [] b cache₁ = (.ok h, cache₂)

theorem Built.valHash_eq {cache : Cache} (hc : CacheOk w cache) (ha : Built w n a) (hn : n ≤ m) :
    ∃ cache', valHash w m [] a cache = (.ok (Content.hash w m (content w m a)), cache') ∧
      CacheOk w cache' := by
  have hspec := valHash_spec ha hn (fun x (hx : x ∈ []) => by cases hx) cache hc
  cases hres : valHash w m [] a cache with
  | mk res cache' =>
    rw [hres] at hspec
    cases res with
    | ok h =>
      obtain ⟨rfl, hc'⟩ := hspec
      exact ⟨cache', rfl, hc'⟩
    | error e => exact hspec.elim

/-- Values that are as they were built and compare equal have one hash, whichever strings in them
have their hash already. -/
theorem valEqual_sameHash {cache cache' : Cache} {fuel : ℕ} (ha : Built w n a) (hb : Built w k b)
    (hc : CacheOk w cache) (heq : valEqual w m a b cache = (.ok true, cache'))
    (hn : n ≤ fuel) (hk : k ≤ fuel) : SameHash w fuel a b cache' := by
  have hshows := valEqual_shows (m := m) ha hb cache hc
  rw [heq] at hshows
  obtain ⟨hsame, hc'⟩ := hshows
  obtain ⟨cache₁, hhasha, hc₁⟩ := ha.valHash_eq hc' hn
  obtain ⟨cache₂, hhashb, -⟩ := hb.valHash_eq hc₁ hk
  refine ⟨_, cache₁, cache₂, hhasha, ?_⟩
  rw [hsame rfl fuel]
  exact hhashb

end Equal

/-- Three arrays with one number each, of bits that end with the address of the first array. -/
def aliased : World where
  objs r :=
    if r ∈ [0x1000, 0x2000, 0x3000] then some (.array [.number 0x3FF0000000001000]) else none
  toUInt32 _ := 1

theorem valEqual_sameHash_aliased :
    SameHash aliased 2 (.obj 0x2000) (.obj 0x3000) fun _ => 0 := by
  have hbuilt : Built aliased 2 (.obj 0x2000) ∧ Built aliased 2 (.obj 0x3000) := by
    constructor <;>
    · intro el hel
      rw [List.mem_singleton.mp hel]
      exact ⟨by decide, trivial⟩
  exact valEqual_sameHash (m := 2) hbuilt.1 hbuilt.2 (fun _ _ _ => .inl rfl) rfl (le_refl 2)
    (le_refl 2)

/-- `lxArrayHashKey` takes the number in the first array for the array itself. -/
theorem number_taken_for_self : ∃ fuel cache,
    valEqual aliased fuel (.obj 0x1000) (.obj 0x2000) (fun _ => 0) = (.ok true, cache) ∧
      ∀ fuel, ¬ SameHash aliased fuel (.obj 0x1000) (.obj 0x2000) cache := by
  refine ⟨2, fun _ => 0, rfl, fun fuel => ?_⟩
  rintro ⟨h, cache₁, cache₂, ha, hb⟩
  rcases fuel with _ | _ | fuel
  · cases ha
  · -- the number is not reached in the first array, and is in the second
    cases ha
    cases hb
  · cases ha
    cases hb

end Clox.Hashing
