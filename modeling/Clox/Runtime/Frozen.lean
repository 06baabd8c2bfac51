import Clox.Runtime.Independent
import Clox.Runtime.Stored

/-! # Frozen objects

What a native method or a helper does to an object that is frozen. Most of them check the flag
before they write; `init`, `padRight`, the helpers below `mapSet` and `setProp` and the backtrace
of a thrown error do not.
-/

namespace Clox.Objects

open Commands Command Sharing Interleaving

/-! ## Contents -/

/-- The bytes of a string with the NUL, the elements of an array. A cell that the block does not
have is not known. -/
def Body.cells (m : Blocks Cell) : Body → Cells
  | .string s => resized (s.length + 1) (m.load s.chars)
  | .array a => resized a.count (m.load a.values)
  | _ => []

def Body.entries : Body → Table
  | .map t => t
  | _ => []

structure Contents where
  fields : Table
  cells : Cells
  entries : Table
  deriving DecidableEq, Repr

def Obj.contents (m : Blocks Cell) (o : Obj) : Contents := ⟨o.fields, o.body.cells m, o.body.entries⟩

def Heap.contents (h : Heap) (r : ℕ) : Option Contents := h.objs[r]?.map (Obj.contents h.mem)

def returnsOrThrows {α : Type} : Except Stop α → Bool
  | .ok _ => true
  | .error e => e.isThrown

/-- The command returns or throws, with the contents of `r` as they were. -/
def Harmless {α : Type} (h : Heap) (r : ℕ) (c : Exec α) : Prop :=
  (c h).2.contents r = h.contents r ∧ returnsOrThrows (c h).1 = true

instance {α : Type} (h : Heap) (r : ℕ) (c : Exec α) : Decidable (Harmless h r c) := by
  unfold Harmless
  infer_instance

section Harmless

variable {α : Type} {h h' : Heap} {r : ℕ} {c : Exec α}

theorem harmless_of_triple {Q : α → Heap → Prop} {E : Stop → Heap → Prop}
    (hc : Triple (fun s => s = h) c Q E)
    (hQ : ∀ a h', Q a h' → h'.contents r = h.contents r)
    (hE : ∀ e h', E e h' → e.isThrown = true ∧ h'.contents r = h.contents r) :
    Harmless h r c := by
  have hch := hc h rfl
  unfold Harmless
  split at hch
  · rename_i heq
    rw [heq]
    exact ⟨hQ _ _ hch, rfl⟩
  · rename_i heq
    rw [heq]
    exact ⟨(hE _ _ hch).2, (hE _ _ hch).1⟩

theorem not_harmless_of_triple {Q : α → Heap → Prop} {E : Stop → Heap → Prop}
    (hc : Triple (fun s => s = h) c Q E)
    (hQ : ∀ a h', Q a h' → h'.contents r ≠ h.contents r)
    (hE : ∀ e h', E e h' → e.isThrown = true → h'.contents r ≠ h.contents r) :
    ¬ Harmless h r c := by
  have hch := hc h rfl
  unfold Harmless
  rintro ⟨hcontents, hends⟩
  split at hch
  · rename_i heq
    rw [heq] at hcontents
    exact hQ _ _ hch hcontents
  · rename_i heq
    rw [heq] at hcontents hends
    exact hE _ _ hch hends hcontents

/-- Every block that is held was allocated. -/
def Heap.Bounded (h : Heap) : Prop :=
  ∀ i g p, h.handle i = some g → g.addr = some p → p < h.mem.next

theorem Body.cells_congr {m m' : Blocks Cell} {b : Body}
    (hload : ∀ g, b.handle = some g → m'.load g.addr = m.load g.addr) : b.cells m' = b.cells m := by
  cases b with
  | string s => exact congrArg (resized (s.length + 1)) (hload _ rfl)
  | array a => exact congrArg (resized a.count) (hload _ rfl)
  | _ => rfl

theorem Extends.contents (he : Extends h h') (hb : h.Bounded) (hr : r < h.objs.length) :
    h'.contents r = h.contents r := by
  unfold Heap.contents
  rw [he.obj hr, List.getElem?_eq_getElem hr]
  refine congrArg some (congrArg (Contents.mk _ · _) (Body.cells_congr fun g hg => ?_))
  have hhandle : h.handle r = some g := by simp [Heap.handle, hr, hg]
  cases hp : g.addr with
  | none => rfl
  | some p => exact he.blocks p (hb r g p hhandle hp)

/-- What only adds is harmless. -/
theorem harmless_of_adds (hb : h.Bounded) (hr : r < h.objs.length)
    (hc : Triple (fun s => s = h) c (fun _ => Extends h) (Raised h)) : Harmless h r c :=
  harmless_of_triple hc (fun _ _ he => he.contents hb hr) fun _ _ he =>
    ⟨he.1, he.2.contents hb hr⟩

theorem contents_setFrozen {frozen : Bool} : (h.setFrozen r frozen).contents r = h.contents r := by
  unfold Heap.contents Heap.setFrozen
  rw [List.getElem?_modify_eq]
  cases h.objs[r]? <;> rfl

theorem contents_setFields {t : Table} {o : Obj} (ho : h.objs[r]? = some o) :
    (h.setFields r t).contents r = some ⟨t, o.body.cells h.mem, o.body.entries⟩ := by
  unfold Heap.contents Heap.setFields
  rw [List.getElem?_modify_eq, ho]
  rfl

theorem contents_setBody {b : Body} {o : Obj} (ho : h.objs[r]? = some o) :
    (h.setBody r b).contents r = some ⟨o.fields, b.cells h.mem, b.entries⟩ := by
  unfold Heap.contents Heap.setBody
  rw [List.getElem?_modify_eq, ho]
  rfl

end Harmless

/-! ## Tables -/

section Tables

variable {env : Env} {key val : Value} {t : Table}

/-- The entry of a key. -/
def entryOf (env : Env) (key : Value) (t : Table) : Option (Value × Value) :=
  t.find? fun e => env.keyOf e.1 == env.keyOf key

theorem entryOf_congr {key' : Value} (hk : env.keyOf key' = env.keyOf key) :
    entryOf env key' t = entryOf env key t := by
  simp [entryOf, hk]

theorem entryOf_tableSet_self : entryOf env key (tableSet env key val t) = some (key, val) := by
  induction t with
  | nil => simp [tableSet, entryOf]
  | cons e t ih =>
    by_cases hk : env.keyOf e.1 = env.keyOf key
    · simp [tableSet, entryOf, hk]
    · rw [tableSet, if_neg hk]
      simpa [entryOf, hk] using ih

theorem entryOf_tableSet_of_ne {key' : Value} (hk : env.keyOf key' ≠ env.keyOf key) :
    entryOf env key' (tableSet env key val t) = entryOf env key' t := by
  induction t with
  | nil => simp [tableSet, entryOf, Ne.symm hk]
  | cons e t ih =>
    by_cases he : env.keyOf e.1 = env.keyOf key
    · have hne : env.keyOf e.1 ≠ env.keyOf key' := fun h => hk (h.symm.trans he)
      simp [tableSet, entryOf, he, Ne.symm hk]
    · rw [tableSet, if_neg he]
      unfold entryOf at ih ⊢
      rw [List.find?_cons, List.find?_cons, ih]

/-- `tableSet` changes nothing exactly if the table has the entry. -/
theorem tableSet_eq_self : tableSet env key val t = t ↔ entryOf env key t = some (key, val) := by
  constructor
  · intro h
    rw [← h]
    exact entryOf_tableSet_self
  · intro h
    induction t with
    | nil => cases h
    | cons e t ih =>
      by_cases hk : env.keyOf e.1 = env.keyOf key
      · have he : e = (key, val) := by simpa [entryOf, hk] using h
        rw [tableSet, if_pos hk, he]
      · have ht : entryOf env key t = some (key, val) := by simpa [entryOf, hk] using h
        rw [tableSet, if_neg hk, ih ht]

theorem tableSet_tableSet {key' val' : Value} (hk : env.keyOf key' = env.keyOf key) :
    tableSet env key' val' (tableSet env key val t) = tableSet env key' val' t := by
  induction t with
  | nil => simp [tableSet, hk]
  | cons e t ih =>
    by_cases he : env.keyOf e.1 = env.keyOf key
    · simp [tableSet, he, hk]
    · have he' : env.keyOf e.1 ≠ env.keyOf key' := fun h => he (h.trans hk)
      simp [tableSet, he, he', ih]

/-- Two keys that the table has are set in either order. -/
theorem tableSet_comm {key' val' : Value} (hk : env.keyOf key' ≠ env.keyOf key)
    (ht : (entryOf env key t).isSome) :
    tableSet env key' val' (tableSet env key val t) =
      tableSet env key val (tableSet env key' val' t) := by
  induction t with
  | nil => cases ht
  | cons e t ih =>
    by_cases he : env.keyOf e.1 = env.keyOf key
    · simp [tableSet, he, Ne.symm hk]
    · have ht' : (entryOf env key t).isSome := by simpa [entryOf, he] using ht
      by_cases he' : env.keyOf e.1 = env.keyOf key'
      · simp [tableSet, he', hk]
      · simp [tableSet, he, he', ih ht']

/-- The last of the pairs with this key. -/
def lastPair (env : Env) (key : Value) (pairs : Table) : Option (Value × Value) :=
  entryOf env key pairs.reverse

/-- For every pair the map has the last pair with its key. -/
def HasPairs (env : Env) (pairs t : Table) : Prop :=
  ∀ p ∈ pairs, entryOf env p.1 t = lastPair env p.1 pairs

instance (env : Env) (pairs t : Table) : Decidable (HasPairs env pairs t) := by
  unfold HasPairs
  infer_instance

theorem lastPair_cons (p : Value × Value) (pairs : Table) :
    lastPair env key (p :: pairs) = (lastPair env key pairs).or
      (if env.keyOf p.1 = env.keyOf key then some p else none) := by
  unfold lastPair entryOf
  rw [List.reverse_cons, List.find?_append]
  congr 1
  by_cases hk : env.keyOf p.1 = env.keyOf key
  · simp [hk]
  · simp [hk]

theorem entryOf_tableSetAll (pairs : Table) :
    entryOf env key (tableSetAll env pairs t) =
      (lastPair env key pairs).or (entryOf env key t) := by
  induction pairs generalizing t with
  | nil => rfl
  | cons p pairs ih =>
    show entryOf env key (tableSetAll env pairs (tableSet env p.1 p.2 t)) = _
    rw [ih, lastPair_cons]
    by_cases hk : env.keyOf p.1 = env.keyOf key
    · rw [if_pos hk, ← entryOf_congr hk, entryOf_tableSet_self]
      cases lastPair env key pairs <;> rfl
    · rw [if_neg hk, entryOf_tableSet_of_ne (Ne.symm hk), Option.or_none]

/-- A pair is as good as not there if the table has its key and a later pair sets it. -/
theorem tableSetAll_tableSet {pairs : Table} (ht : (entryOf env key t).isSome)
    (hp : (lastPair env key pairs).isSome) :
    tableSetAll env pairs (tableSet env key val t) = tableSetAll env pairs t := by
  induction pairs generalizing t with
  | nil => cases hp
  | cons p pairs ih =>
    show tableSetAll env pairs (tableSet env p.1 p.2 (tableSet env key val t)) =
      tableSetAll env pairs (tableSet env p.1 p.2 t)
    by_cases hk : env.keyOf p.1 = env.keyOf key
    · rw [tableSet_tableSet hk]
    · rw [tableSet_comm hk ht]
      rw [lastPair_cons, if_neg hk, Option.or_none] at hp
      refine ih ?_ hp
      rwa [entryOf_tableSet_of_ne (Ne.symm hk)]

theorem tableSetAll_eq_self (pairs : Table) :
    tableSetAll env pairs t = t ↔ HasPairs env pairs t := by
  constructor
  · intro h p hp
    have hentry : entryOf env p.1 (tableSetAll env pairs t) = _ := entryOf_tableSetAll pairs
    rw [h] at hentry
    have hsome : (lastPair env p.1 pairs).isSome = true := by
      unfold lastPair entryOf
      rw [List.find?_isSome]
      exact ⟨p, List.mem_reverse.mpr hp, by simp⟩
    obtain ⟨q, hq⟩ := Option.isSome_iff_exists.mp hsome
    rw [hentry, hq]
    rfl
  · intro h
    induction pairs with
    | nil => rfl
    | cons p pairs ih =>
      have hrest : HasPairs env pairs t := by
        intro q hq
        have hentry := h q (List.mem_cons_of_mem _ hq)
        have hsome : (lastPair env q.1 pairs).isSome = true := by
          unfold lastPair entryOf
          rw [List.find?_isSome]
          exact ⟨q, List.mem_reverse.mpr hq, by simp⟩
        obtain ⟨q', hq'⟩ := Option.isSome_iff_exists.mp hsome
        rw [hentry, lastPair_cons, hq']
        rfl
      have hp := h p List.mem_cons_self
      rw [lastPair_cons, if_pos rfl] at hp
      show tableSetAll env pairs (tableSet env p.1 p.2 t) = t
      cases hlast : lastPair env p.1 pairs with
      | none =>
        rw [hlast] at hp
        rw [tableSet_eq_self.mpr hp]
        exact ih hrest
      | some q =>
        rw [hlast] at hp
        rw [tableSetAll_tableSet (by rw [hp]; rfl) (by rw [hlast]; rfl)]
        exact ih hrest

end Tables

/-! ## Methods that refuse -/

section Refusals

variable {α : Type} {h : Heap} {r : ℕ} {env : Env} {args : List Value}
  {E : Stop → Heap → Prop}

theorem throwIfFrozen_frozen {what : String} (hfrozen : h.isFrozen r = true) :
    Triple (fun s => s = h) (throwIfFrozen r what) (fun _ _ => False) (Raised h) := by
  refine heap_known.bind_known ?_
  exact stopIf_known.post fun _ _ hh => absurd hfrozen hh.1

/-- The mutators of an array and the helpers below them -/
theorem refusesArray {f : Unit → Exec α} (hfrozen : h.isFrozen r = true) :
    Triple (fun s => s = h) (throwIfFrozen r "Array" >>= f) (fun _ => Extends h) (Raised h) :=
  (throwIfFrozen_frozen hfrozen).ends

theorem refusesMap {f : Unit → Exec α} (hfrozen : h.isFrozen r = true) :
    Triple (fun s => s = h) (throwIfFrozen r "Map" >>= f) (fun _ => Extends h) (Raised h) :=
  (throwIfFrozen_frozen hfrozen).ends

theorem propertySet_frozen {name val : Value} (hfrozen : h.isFrozen r = true) :
    Triple (fun s => s = h) (propertySet env r name val) (fun _ => Extends h) (Raised h) := by
  obtain ⟨o, ho⟩ : ∃ o, h.objs[r]? = some o := by
    cases ho : h.objs[r]? with
    | none => simp [Heap.isFrozen, ho] at hfrozen
    | some o => exact ⟨o, rfl⟩
  have hflag : o.frozen = true := by simpa [Heap.isFrozen, ho] using hfrozen
  refine Triple.bind_known (look_known fun s hs => by rw [hs]; exact ho) ?_
  exact stopIf_known.bind fun _ => Triple.given fun hnot => absurd hflag hnot

theorem lxObjectSetProperty_frozen (hfrozen : h.isFrozen r = true) :
    Triple (fun s => s = h) (lxObjectSetProperty env (.obj r :: args)) (fun _ => Extends h)
      (Raised h) := by
  refine checkArity_known.bind fun _ => Triple.given fun _ => ?_
  refine checkArg_known.bind fun _ => Triple.given fun _ => ?_
  exact (propertySet_frozen hfrozen).bind fun _ => Triple.pure fun _ he => he

/-- `CHECK_ARITY` and then a check of the flag -/
theorem refusesAfterArity {min : ℕ} {max : Option ℕ} {c : Exec α}
    (hc : Triple (fun s => s = h) c (fun _ => Extends h) (Raised h)) :
    Triple (fun s => s = h) (checkArity min max args >>= fun _ => c) (fun _ => Extends h)
      (Raised h) :=
  checkArity_known.bind fun _ => hc.pre fun _ hh => hh.2

theorem lxArrayDeleteAt_frozen (hfrozen : h.isFrozen r = true) :
    Triple (fun s => s = h) (lxArrayDeleteAt env (.obj r :: args)) (fun _ => Extends h)
      (Raised h) := by
  refine checkArity_known.bind fun _ => Triple.given fun _ => ?_
  refine checkArg_known.bind fun _ => Triple.given fun _ => ?_
  exact (refusesArray hfrozen).bind fun _ => Triple.pure fun _ he => he

theorem lxArrayOpIndexSet_frozen {a : ObjArray} (ha : h.array? r = some a)
    (hfrozen : h.isFrozen r = true) :
    Triple (fun s => s = h) (lxArrayOpIndexSet (.obj r :: args)) (fun _ => Extends h)
      (Raised h) := by
  refine checkArity_known.bind fun _ => Triple.given fun _ => ?_
  refine asObj_known.bind_known ?_
  refine Triple.bind (look_known (a := a) fun s hs => by rw [hs]; exact ha) fun _ =>
    Triple.given fun _ => ?_
  refine checkArg_known.bind fun _ => Triple.given fun _ => ?_
  exact refusesArray hfrozen

/-! ## Methods of a string -/

/-- A copy of the buffer has the same bytes. -/
theorem resized_overwrite {n m : ℕ} {cells : Cells} (hnm : n ≤ m) :
    resized n (overwrite (List.replicate m none) 0 (resized n cells)) = resized n cells := by
  have hlen : (resized n cells).length = n := length_resized n cells
  unfold overwrite
  rw [List.take_zero, List.nil_append, List.length_replicate, Nat.sub_zero, Nat.zero_add, hlen,
    List.take_of_length_le (by omega)]
  show (resized n cells ++ _).take n ++ _ = _
  rw [List.take_append_of_le_length (by omega), List.take_of_length_le (by omega),
    List.length_append, hlen]
  simp

theorem allocate_known {n : ℕ} :
    Triple (fun t => t = h) (allocate n)
      (fun p t => p = h.mem.next ∧ t = { h with mem := h.mem.alloc (List.replicate n none) }) E :=
  fun t ht => by
    rw [ht]
    exact ⟨rfl, rfl⟩

theorem loadCells_start {q : Option ℕ} {n : ℕ} (hq : q = none → n = 0) :
    Triple (fun t => t = h) (loadCells q n)
      (fun cells t => cells = resized n (h.mem.load q) ∧ t = h) E :=
  (loadCells_known hq E).post fun _ t ht => ⟨by rw [ht.1, ht.2], ht.2⟩

/-- The bytes that are stored at the beginning of a block of `m` cells that was never written. -/
theorem storeCells_known {p m : ℕ} {xs : Cells}
    (hblock : h.mem.load (some p) = List.replicate m none) :
    Triple (fun t => t = h) (storeCells (some p) 0 xs)
      (fun _ t => t = { h with mem := h.mem.put p (overwrite (List.replicate m none) 0 xs) })
      E := by
  refine Triple.modify fun t ht => ?_
  rw [ht, hblock]

/-- The copy that a frozen string makes of a shared buffer -/
theorem dedupString_known {s : ObjString} (hs : h.string? r = some s) (hfits : s.Fits)
    (hb : h.Bounded) (hchars : s.isShared = true → s.chars ≠ none) :
    Triple (fun t => t = h) (dedupString r)
      (fun _ h' => h'.contents r = h.contents r ∧ h'.isFrozen r = h.isFrozen r ∧
        ∀ y sy, h.string? y = some sy → ∃ sy', h'.string? y = some sy' ∧
          (sy'.chars = none ↔ sy.chars = none))
      fun _ _ => False := by
  obtain ⟨o, ho, hbody⟩ := Heap.body_of_string? hs
  refine Triple.bind_known (look_known fun t ht => by rw [ht]; exact hs) ?_
  refine Triple.ite (fun hshared => ?_) fun _ => Triple.pure fun t ht => ?_
  · have hsome := hchars hshared
    obtain ⟨q, hq⟩ := Option.ne_none_iff_exists'.mp hsome
    have hqlt : q < h.mem.next := hb r _ q (Heap.handle_of_string? hs) hq
    refine allocate_known.bind_known ?_
    refine (loadCells_start (fun hn => absurd hn hsome)).bind_known ?_
    refine (storeCells_known Blocks.load_alloc_self).bind fun _ => Triple.modify fun t ht => ?_
    have hobjs : t.objs = h.objs := by rw [ht]
    have hstring : ∀ y, t.string? y = h.string? y := fun y => by simp only [Heap.string?, hobjs]
    refine ⟨?_, ?_, fun y sy hy => ?_⟩
    · rw [contents_setBody (o := o) (by rw [hobjs, ho]), Heap.contents, ho, ht]
      show some (Contents.mk o.fields _ _) = some (Contents.mk o.fields _ _)
      rw [hbody]
      simp only [Blocks.load_put_self, Body.cells, Body.entries, hq,
        Blocks.load_alloc_of_ne (Nat.ne_of_lt hqlt)]
      rw [resized_overwrite (Nat.succ_le_succ hfits)]
    · simp [Heap.isFrozen, Heap.setBody, hobjs, ho]
    · by_cases hy' : y = r
      · subst hy'
        cases hs.symm.trans hy
        exact ⟨_, Heap.string?_setBody_self ((hstring y).trans hs), by simp [hsome]⟩
      · refine ⟨sy, ?_, Iff.rfl⟩
        rw [← hstring] at hy
        unfold Heap.string? at hy ⊢
        rwa [Heap.objs_setBody_of_ne hy']
  · rw [ht]
    exact ⟨rfl, rfl, fun y sy hy => ⟨sy, hy, Iff.rfl⟩⟩

/-- An error was thrown, and the contents of `r` are as they were. -/
def Calm (h : Heap) (r : ℕ) (e : Stop) (t : Heap) : Prop :=
  e.isThrown = true ∧ t.contents r = h.contents r

theorem calm {c : Exec α} {P : Heap → Prop} {Q : α → Heap → Prop} (hb : h.Bounded)
    (hr : r < h.objs.length) (hc : Triple P c Q (Raised h)) : Triple P c Q (Calm h r) :=
  hc.weaken (fun _ hp => hp) (fun _ _ hq => hq) fun _ _ he => ⟨he.1, he.2.contents hb hr⟩

theorem harmless_of_calm {c : Exec α} {Q : α → Heap → Prop}
    (hc : Triple (fun t => t = h) c Q (Calm h r))
    (hQ : ∀ a t, Q a t → t.contents r = h.contents r) : Harmless h r c :=
  harmless_of_triple hc hQ fun _ _ he => he

/-- If a shared string has a buffer, `dedupString` can copy it. -/
def Heap.CanCopy (h : Heap) (r : ℕ) : Prop :=
  ∀ s ∈ h.string? r, s.isShared = true → s.chars ≠ none

/-- A string has a buffer. -/
def Heap.HasBuffer (h : Heap) (r : ℕ) : Prop := ∀ s ∈ h.string? r, s.chars ≠ none

instance (h : Heap) (r : ℕ) : Decidable (h.CanCopy r) := by
  unfold Heap.CanCopy
  infer_instance

instance (h : Heap) (r : ℕ) : Decidable (h.HasBuffer r) := by
  unfold Heap.HasBuffer
  infer_instance

/-- A frozen object among those of a heap of a run. -/
structure Heap.Frozen (h : Heap) (r : ℕ) : Prop where
  frozen : h.isFrozen r = true
  bounded : h.Bounded
  fits : h.Fits

theorem Heap.Frozen.lt (hf : h.Frozen r) : r < h.objs.length := by
  by_contra hr
  have hfrozen := hf.frozen
  simp [isFrozen, List.getElem?_eq_none (Nat.le_of_not_lt hr)] at hfrozen

theorem Heap.Frozen.obj (hf : h.Frozen r) : ∃ o, h.objs[r]? = some o ∧ o.frozen = true := by
  have hfrozen := hf.frozen
  cases ho : h.objs[r]? with
  | none => simp [isFrozen, ho] at hfrozen
  | some o => exact ⟨o, rfl, by simpa [isFrozen, ho] using hfrozen⟩

theorem dedup_frozen {s : ObjString} (hf : h.Frozen r) (hs : h.string? r = some s)
    (hcopy : h.CanCopy r) :
    Triple (fun t => t = h) (dedupString r)
      (fun _ t => t.contents r = h.contents r ∧ t.isFrozen r = true ∧
        ∀ y sy, h.string? y = some sy → ∃ sy', t.string? y = some sy' ∧
          (sy'.chars = none ↔ sy.chars = none))
      (Calm h r) :=
  (dedupString_known hs (hf.fits.string hs) hf.bounded (hcopy s hs)).weaken (fun _ ht => ht)
    (fun _ _ ht => ⟨ht.1, ht.2.1.trans hf.frozen, ht.2.2⟩) fun _ _ he => he.elim

/-- The check of the flag behind `dedupString` -/
theorem throwIfFrozen_calm {what : String} {t : Heap} (hcontents : t.contents r = h.contents r)
    (hfrozen : t.isFrozen r = true) :
    Triple (fun s => s = t) (throwIfFrozen r what) (fun _ _ => False) (Calm h r) := by
  refine Triple.bind_known (Triple.get fun _ hs => ⟨hs, hs⟩) ?_
  refine Triple.ite (fun _ => Triple.stop fun s hs => ⟨rfl, ?_⟩) fun hnot => absurd hfrozen hnot
  rw [hs]
  exact hcontents

/-- `dedupString`, and a helper that checks the flag -/
theorem refuses_after_dedup {β : Type} {s : ObjString} {what : String} {f : Unit → Exec β}
    {g : β → Exec α} (hf : h.Frozen r) (hs : h.string? r = some s) (hcopy : h.CanCopy r) :
    Triple (fun t => t = h) (dedupString r >>= fun _ => (throwIfFrozen r what >>= f) >>= g)
      (fun _ _ => False) (Calm h r) := by
  refine (dedup_frozen hf hs hcopy).bind fun _ => Triple.start fun _ ht => ?_
  refine Triple.ends ?_
  exact (throwIfFrozen_calm ht.1 ht.2.1).ends

/-- A string without a buffer is read with its terminator. -/
theorem loadCells_crashes {P : Heap → Prop} {q : Option ℕ} {n : ℕ} {f : Cells → Exec α}
    (hq : q = none) :
    Triple P (loadCells q (n + 1) >>= f) (fun _ _ => False) fun e _ => e.isThrown = false := by
  refine Triple.ends ?_
  exact Triple.ends (Triple.ite (fun _ => Triple.stop fun _ _ => rfl)
    fun hnot => absurd ⟨hq, Nat.succ_ne_zero n⟩ hnot)

/-- There is no buffer to copy. -/
theorem dedup_crashes {f : Unit → Exec α} (hcopy : ¬ h.CanCopy r) :
    Triple (fun t => t = h) (dedupString r >>= f) (fun _ _ => False)
      fun e _ => e.isThrown = false := by
  refine Triple.ends ?_
  obtain ⟨s, hs, hshared, hchars⟩ : ∃ s, h.string? r = some s ∧ s.isShared = true ∧
      s.chars = none := by
    simpa [Heap.CanCopy] using hcopy
  refine Triple.bind_known (look_known fun t ht => by rw [ht]; exact hs) ?_
  refine Triple.ite (fun _ => ?_) fun hnot => absurd hshared hnot
  refine allocate_known.bind fun p => Triple.given fun _ => ?_
  exact loadCells_crashes hchars

theorem not_harmless_of_crash {c : Exec α}
    (hc : Triple (fun t => t = h) c (fun _ _ => False) fun e _ => e.isThrown = false) :
    ¬ Harmless h r c :=
  not_harmless_of_triple hc (fun _ _ hq => hq.elim) fun e _ he hthrown => by simp [he] at hthrown

theorem checkArity_passes {n : ℕ} (hn : args.length = n) :
    Triple (fun t => t = h) (checkArity (n + 1) (some (n + 1)) (.obj r :: args))
      (fun _ t => t = h) E := by
  refine Triple.ite (fun hnot => absurd ?_ hnot) fun _ => Triple.pure fun _ ht => ht
  simp [hn]

theorem checkArg_passes {v : Value} {expected : ArgType} {argnum : ℕ}
    (hv : h.isA v expected = true) :
    Triple (fun t => t = h) (checkArg v expected argnum) (fun _ t => t = h) E := by
  refine Triple.bind_known (Triple.get fun _ ht => ⟨ht, ht⟩) ?_
  exact Triple.ite (fun hnot => by simp [hv] at hnot) fun _ => Triple.pure fun _ ht => ht

/-- The number of arguments besides the receiver -/
theorem arity_eq {n : ℕ} (h : n + 1 ≤ (Value.obj r :: args).length ∧
    ∀ m ∈ some (n + 1), (Value.obj r :: args).length ≤ m) : args.length = n := by
  have hmax := h.2 (n + 1) rfl
  have hmin := h.1
  simp only [List.length_cons] at hmin hmax
  omega

theorem lxStringPush_frozen {s : ObjString} (hf : h.Frozen r) (hs : h.string? r = some s) :
    Harmless h r (lxStringPush env (.obj r :: args)) ↔
      (Native.stringPush.accepts h args = true → h.CanCopy r) := by
  constructor
  · intro hharmless haccepts
    by_contra hcopy
    simp only [Native.accepts, Bool.and_eq_true, beq_iff_eq] at haccepts
    obtain ⟨hn, hstring⟩ := haccepts
    obtain ⟨y, sy, hy, -⟩ := Heap.isA_string hstring
    refine not_harmless_of_crash (c := lxStringPush env (.obj r :: args)) ?_ hharmless
    refine (checkArity_passes hn).bind fun _ => (checkArg_passes hstring).bind fun _ => ?_
    have harg : arg (.obj r :: args) 1 = .obj y := hy
    rw [harg]
    exact dedup_crashes hcopy
  · intro hcopy
    refine harmless_of_calm (Q := fun _ _ => False) ?_ fun _ _ hq => hq.elim
    refine (calm hf.bounded hf.lt checkArity_known).bind fun _ => Triple.given fun hn => ?_
    refine (calm hf.bounded hf.lt checkArg_known).bind fun _ => Triple.given fun hstring => ?_
    have haccepts : Native.stringPush.accepts h args = true := by
      have hstring' : h.isA (arg args 0) .string = true := hstring
      simp [Native.accepts, arity_eq hn, hstring']
    obtain ⟨y, sy, hy, -⟩ := Heap.isA_string hstring
    rw [hy]
    exact refuses_after_dedup hf hs (hcopy haccepts)

theorem lxStringClear_frozen {s : ObjString} (hf : h.Frozen r) (hs : h.string? r = some s) :
    Harmless h r (lxStringClear env (.obj r :: args)) ↔
      (Native.stringClear.accepts h args = true → h.CanCopy r) := by
  constructor
  · intro hharmless haccepts
    by_contra hcopy
    refine not_harmless_of_crash (c := lxStringClear env (.obj r :: args)) ?_ hharmless
    refine (checkArity_passes (by simpa [Native.accepts] using haccepts)).bind fun _ => ?_
    exact dedup_crashes hcopy
  · intro hcopy
    refine harmless_of_calm (Q := fun _ _ => False) ?_ fun _ _ hq => hq.elim
    refine (calm hf.bounded hf.lt checkArity_known).bind fun _ => Triple.given fun hn => ?_
    have haccepts : Native.stringClear.accepts h args = true := by
      simpa [Native.accepts] using arity_eq hn
    exact refuses_after_dedup hf hs (hcopy haccepts)

theorem lxStringInsertAt_frozen {s : ObjString} (hf : h.Frozen r) (hs : h.string? r = some s) :
    Harmless h r (lxStringInsertAt env (.obj r :: args)) ↔
      (Native.stringInsertAt.accepts h args = true → h.CanCopy r) := by
  constructor
  · intro hharmless haccepts
    by_contra hcopy
    simp only [Native.accepts, Bool.and_eq_true, beq_iff_eq] at haccepts
    obtain ⟨⟨hn, hstring⟩, hnumber⟩ := haccepts
    obtain ⟨y, sy, hy, -⟩ := Heap.isA_string hstring
    refine not_harmless_of_crash (c := lxStringInsertAt env (.obj r :: args)) ?_ hharmless
    refine (checkArity_passes hn).bind fun _ => (checkArg_passes hstring).bind fun _ => ?_
    refine (checkArg_passes hnumber).bind fun _ => ?_
    have harg : arg (.obj r :: args) 1 = .obj y := hy
    rw [harg]
    exact dedup_crashes hcopy
  · intro hcopy
    refine harmless_of_calm (Q := fun _ _ => False) ?_ fun _ _ hq => hq.elim
    refine (calm hf.bounded hf.lt checkArity_known).bind fun _ => Triple.given fun hn => ?_
    refine (calm hf.bounded hf.lt checkArg_known).bind fun _ => Triple.given fun hstring => ?_
    refine (calm hf.bounded hf.lt checkArg_known).bind fun _ => Triple.given fun hnumber => ?_
    have haccepts : Native.stringInsertAt.accepts h args = true := by
      have hstring' : h.isA (arg args 0) .string = true := hstring
      have hnumber' : h.isA (arg args 1) .number = true := hnumber
      simp [Native.accepts, arity_eq hn, hstring', hnumber']
    obtain ⟨y, sy, hy, -⟩ := Heap.isA_string hstring
    rw [hy]
    exact refuses_after_dedup hf hs (hcopy haccepts)

/-- The string that an index is set to. -/
def Heap.ArgHasBuffer (h : Heap) (v : Value) : Prop :=
  match v with
  | .obj y => h.HasBuffer y
  | _ => True

instance (h : Heap) (v : Value) : Decidable (h.ArgHasBuffer v) := by
  unfold Heap.ArgHasBuffer
  split <;> infer_instance

theorem indexSetChars_calm {y : ℕ} {sy : ObjString} {index : ℤ} {t : Heap} {s : ObjString}
    (hcontents : t.contents r = h.contents r) (hfrozen : t.isFrozen r = true)
    (hs : t.string? r = some s) (hy : t.string? y = some sy) (hchars : sy.chars ≠ none) :
    Triple (fun t' => t' = t) (indexSetChars env r y index) (fun _ _ => False) (Calm h r) := by
  refine Triple.bind_known (look_known fun t' ht => by rw [ht]; exact hy) ?_
  refine (loadCells_start (fun hn => absurd hn hchars)).bind fun cs => Triple.given fun _ => ?_
  refine Triple.ite (fun _ => ?_) fun _ => ?_
  · refine Triple.bind (look_known (a := s) fun t' ht => by rw [ht]; exact hs) fun s'' =>
      Triple.given fun _ => ?_
    exact (throwIfFrozen_calm hcontents hfrozen).ends
  · exact (throwIfFrozen_calm hcontents hfrozen).ends

theorem indexSetChars_crashes {y : ℕ} {sy : ObjString} {index : ℤ} {t : Heap}
    (hy : t.string? y = some sy) (hchars : sy.chars = none) :
    Triple (fun t' => t' = t) (indexSetChars env r y index) (fun _ _ => False)
      fun e _ => e.isThrown = false := by
  refine Triple.bind_known (look_known fun t' ht => by rw [ht]; exact hy) ?_
  exact loadCells_crashes hchars

theorem lxStringOpIndexSet_frozen {s : ObjString} (hf : h.Frozen r)
    (hs : h.string? r = some s) :
    Harmless h r (lxStringOpIndexSet env (.obj r :: args)) ↔
      (Native.stringOpIndexSet.accepts h args = true →
        h.CanCopy r ∧ h.ArgHasBuffer (arg args 1)) := by
  constructor
  · intro hharmless haccepts
    simp only [Native.accepts, Bool.and_eq_true, beq_iff_eq] at haccepts
    obtain ⟨⟨hn, hnumber⟩, hstring⟩ := haccepts
    obtain ⟨y, sy, hy, hsy⟩ := Heap.isA_string hstring
    have harg : arg (.obj r :: args) 2 = .obj y := hy
    by_contra hnot
    refine not_harmless_of_crash (c := lxStringOpIndexSet env (.obj r :: args)) ?_ hharmless
    refine (checkArity_passes hn).bind fun _ => (checkArg_passes hnumber).bind fun _ => ?_
    refine (checkArg_passes hstring).bind fun _ => ?_
    rw [harg]
    by_cases hcopy : h.CanCopy r
    · have hbuffer : sy.chars = none := by
        simpa [hcopy, hy, Heap.ArgHasBuffer, Heap.HasBuffer, hsy] using hnot
      refine ((dedupString_known hs (hf.fits.string hs) hf.bounded (hcopy s hs)).weaken
        (fun _ ht => ht) (fun _ _ hq => hq) fun _ _ he => he.elim).bind fun _ =>
        Triple.start fun t ht => ?_
      obtain ⟨sy', hsy', hiff⟩ := ht.2.2 y sy hsy
      refine Triple.ends ?_
      exact indexSetChars_crashes hsy' (hiff.mpr hbuffer)
    · exact dedup_crashes hcopy
  · intro hspares
    refine harmless_of_calm (Q := fun _ _ => False) ?_ fun _ _ hq => hq.elim
    refine (calm hf.bounded hf.lt checkArity_known).bind fun _ => Triple.given fun hn => ?_
    refine (calm hf.bounded hf.lt checkArg_known).bind fun _ => Triple.given fun hnumber => ?_
    refine (calm hf.bounded hf.lt checkArg_known).bind fun _ => Triple.given fun hstring => ?_
    have haccepts : Native.stringOpIndexSet.accepts h args = true := by
      have hnumber' : h.isA (arg args 0) .number = true := hnumber
      have hstring' : h.isA (arg args 1) .string = true := hstring
      simp [Native.accepts, arity_eq hn, hnumber', hstring']
    obtain ⟨hcopy, hbuffer⟩ := hspares haccepts
    obtain ⟨y, sy, hy, hsy⟩ := Heap.isA_string hstring
    have hchars : sy.chars ≠ none := by
      have hy' : arg args 1 = .obj y := hy
      rw [hy'] at hbuffer
      exact hbuffer sy hsy
    rw [hy]
    refine (dedup_frozen hf hs hcopy).bind fun _ => Triple.start fun t ht => ?_
    obtain ⟨sy', hsy', hiff⟩ := ht.2.2 y sy hsy
    obtain ⟨s', hs', -⟩ := ht.2.2 r s hs
    refine Triple.ends ?_
    exact indexSetChars_calm ht.1 ht.2.1 hs' hsy' fun hnone => hchars (hiff.mp hnone)

/-- The pad is given to `pushCString`, which asserts that the string is not frozen. -/
theorem lxStringPadRight_frozen {s : ObjString} (hf : h.Frozen r) (hs : h.string? r = some s) :
    Harmless h r (lxStringPadRight env (.obj r :: args)) ↔
      (Native.stringPadRight.accepts h args = true → asNumber (arg args 0) ≤ s.length) := by
  constructor
  · intro hharmless haccepts
    simp only [Native.accepts, Bool.and_eq_true, beq_iff_eq] at haccepts
    obtain ⟨⟨hn, hnumber⟩, hstring⟩ := haccepts
    obtain ⟨y, sy, hy, hsy⟩ := Heap.isA_string hstring
    have harg : arg (.obj r :: args) 2 = .obj y := hy
    by_contra hpads
    refine not_harmless_of_crash (c := lxStringPadRight env (.obj r :: args)) ?_ hharmless
    refine (checkArity_passes hn).bind fun _ => (checkArg_passes hnumber).bind fun _ => ?_
    refine (checkArg_passes hstring).bind fun _ => ?_
    rw [harg]
    refine asObj_known.bind_known ?_
    refine Triple.bind_known (look_known fun t ht => by rw [ht]; exact hs) ?_
    refine Triple.ends ?_
    obtain ⟨m, hm⟩ : ∃ m, (asNumber (arg (.obj r :: args) 1) - s.length).toNat = m + 1 := by
      have hlen : (s.length : ℤ) < asNumber (arg (.obj r :: args) 1) := not_le.mp hpads
      exact ⟨(asNumber (arg (.obj r :: args) 1) - s.length).toNat - 1, by omega⟩
    rw [hm]
    refine Triple.ends ?_
    refine Triple.bind (look_known (a := sy) fun t ht => by rw [ht]; exact hsy) fun _ =>
      Triple.given fun _ => ?_
    refine Triple.bind_known (Triple.get fun _ ht => ⟨ht, ht⟩) ?_
    rw [hf.frozen]
    exact Triple.ends (Triple.stop fun _ _ => rfl)
  · intro hspares
    refine harmless_of_calm (Q := fun _ t => t = h) ?_ fun _ _ ht => by rw [ht]
    refine (calm hf.bounded hf.lt checkArity_known).bind fun _ => Triple.given fun hn => ?_
    refine (calm hf.bounded hf.lt checkArg_known).bind fun _ => Triple.given fun hnumber => ?_
    refine (calm hf.bounded hf.lt checkArg_known).bind fun _ => Triple.given fun hstring => ?_
    have hnumber' : h.isA (arg args 0) .number = true := hnumber
    have hstring' : h.isA (arg args 1) .string = true := hstring
    have hle := hspares (by simp [Native.accepts, arity_eq hn, hnumber', hstring'])
    obtain ⟨y, sy, hy, hsy⟩ := Heap.isA_string hstring
    rw [hy]
    refine asObj_known.bind_known ?_
    refine Triple.bind_known (look_known fun t ht => by rw [ht]; exact hs) ?_
    have hzero : (asNumber (arg (.obj r :: args) 1) - s.length).toNat = 0 :=
      Int.toNat_eq_zero.mpr (Int.sub_nonpos_of_le hle)
    rw [hzero]
    exact Triple.pure fun _ ht => ht

/-! ## `String#init` -/

/-- The string that `init` takes its bytes from, if it is there already. -/
def Heap.initRef (h : Heap) : List Value → Option ℕ
  | [] => h.strings.find? fun r => h.storage r == charCells [0]
  | .obj y :: _ => if (h.string? y).isSome then some y else none
  | _ => none

/-- The bytes of the string that `init` makes otherwise. -/
def initText (env : Env) : List Value → List UInt8
  | [] => []
  | v :: _ => env.shown v

/-- The bytes that `init` is given. A string that is not interned and that is given itself loses
its bytes before they are copied. -/
def Heap.initCells (env : Env) (h : Heap) (r : ℕ) (args : List Value) : Option Cells :=
  match h.initRef args with
  | some y => (h.string? y).map fun o =>
    if y = r ∧ o.isInterned = false then List.replicate (o.length + 1) none
    else (Body.string o).cells h.mem
  | none => some (charCells (initText env args ++ [0]))

@[simp] theorem resized_nil (n : ℕ) : resized n [] = List.replicate n none := by
  simp [resized]

theorem resized_replicate {n m : ℕ} :
    resized n (List.replicate m none) = List.replicate n none := by
  refine List.eq_replicate_iff.mpr ⟨length_resized _ _, fun c hc => ?_⟩
  rcases List.mem_append.mp hc with hold | hnew
  · exact List.eq_of_mem_replicate (List.mem_of_mem_take hold)
  · exact List.eq_of_mem_replicate hnew

theorem resized_length (cells : Cells) : resized cells.length cells = cells := by
  simp [resized]

theorem string?_of_obj {o : Obj} {s : ObjString} (ho : h.objs[r]? = some o)
    (hbody : o.body = .string s) : h.string? r = some s := by
  obtain ⟨frozen, builtin, fields, body⟩ := o
  cases hbody
  simp [Heap.string?, ho]

theorem takeChars_known {y : ℕ} {ob : Obj} {s o : ObjString} (hob : h.objs[r]? = some ob)
    (hbody : ob.body = .string s) (hy : h.string? y = some o) (hlen : s.length = o.length)
    (hfits : o.Fits) (hbound : ∀ q, o.chars = some q → q < h.mem.next) :
    Triple (fun t => t = h) (takeChars r y)
      (fun _ t => t.contents r = some ⟨ob.fields,
        if y = r ∧ o.isInterned = false then List.replicate (o.length + 1) none
        else (Body.string o).cells h.mem, []⟩) E := by
  have hs := string?_of_obj hob hbody
  have hr : r < h.objs.length := (List.getElem?_eq_some_iff.mp hob).1
  refine Triple.bind_known (look_known fun t ht => by rw [ht]; exact hs) ?_
  refine Triple.bind_known (look_known fun t ht => by rw [ht]; exact hy) ?_
  refine Triple.ite (fun hshare => Triple.modify fun t ht => ?_) fun hown =>
    Triple.ite (fun hsome => ?_) fun hnone => Triple.modify fun t ht => ?_
  · rw [Bool.and_eq_true] at hshare
    rw [ht, contents_setBody hob, if_neg (by simp [hshare.1])]
    simp only [Body.cells, Body.entries, hlen]
  · obtain ⟨q, hq⟩ := Option.isSome_iff_exists.mp hsome
    have hne : q ≠ h.mem.next := Nat.ne_of_lt (hbound q hq)
    refine allocate_known.bind_known ?_
    generalize ht₁ : Heap.setBody { h with mem := h.mem.alloc (List.replicate (o.capacity + 1) none) }
      r (.string { s with chars := some h.mem.next }) = t₁
    refine Triple.bind (Q := fun _ t => t = t₁) (Triple.modify fun t ht => by rw [ht, ← ht₁])
      fun _ => ?_
    have hmem : t₁.mem = h.mem.alloc (List.replicate (o.capacity + 1) none) := by rw [← ht₁]; rfl
    have hobj : t₁.objs[r]? = some { ob with body := .string { s with chars := some h.mem.next } } := by
      rw [← ht₁, Heap.setBody, List.getElem?_modify_eq, hob]
      rfl
    have hblock : t₁.mem.load (some h.mem.next) = List.replicate (o.capacity + 1) none := by
      rw [hmem]
      exact Blocks.load_alloc_self
    -- whatever was read is what the new buffer then has
    have hstore : ∀ cells, Triple (fun t => t = t₁)
        (storeCells (some h.mem.next) 0 (resized (s.length + 1) cells))
        (fun _ t => t.contents r = some ⟨ob.fields, resized (s.length + 1) cells, []⟩) E := by
      intro cells
      refine (storeCells_known hblock).post fun _ t ht => ?_
      rw [ht, Heap.contents, hobj]
      simp only [Option.map_some, Obj.contents, Body.cells, Body.entries, Blocks.load_put_self]
      rw [resized_overwrite (by rw [hlen]; exact Nat.succ_le_succ hfits)]
    by_cases hyr : y = r
    · subst hyr
      cases hs.symm.trans hy
      have hinterned : s.isInterned = false := by simpa [hsome] using hown
      refine Triple.bind (look_known (a := { s with chars := some h.mem.next }) fun t ht => by
        rw [ht]; exact string?_of_obj hobj rfl) fun o'' => Triple.given ?_
      rintro rfl
      refine (loadCells_start (fun hn => by cases hn)).bind_known ?_
      refine (hstore _).post fun _ t ht => ?_
      rw [ht, if_pos ⟨rfl, hinterned⟩, hblock, resized_replicate]
    · have hy₁ : t₁.string? y = some o := by
        rw [← hy, ← ht₁]
        unfold Heap.string?
        rw [Heap.objs_setBody_of_ne hyr]
      refine Triple.bind_known (look_known fun t ht => by rw [ht]; exact hy₁) ?_
      refine (loadCells_start (fun hn => by simp [hn] at hsome)).bind_known ?_
      refine (hstore _).post fun _ t ht => ?_
      rw [ht, if_neg (fun hc => hyr hc.1), hmem, hq, Blocks.load_alloc_of_ne hne, Body.cells, hq, hlen]
  · have hchars : o.chars = none := by simpa using hnone
    rw [ht, contents_setBody hob]
    simp [Body.cells, Body.entries, hlen, hchars]

/-- What `String#init` does with the string it has found or made -/
theorem initFrom_known {y : ℕ} {ob : Obj} {s o : ObjString} (hob : h.objs[r]? = some ob)
    (hbody : ob.body = .string s) (hy : h.string? y = some o) (hfits : o.Fits)
    (hbound : ∀ q, o.chars = some q → q < h.mem.next) {v : Value} :
    Triple (fun t => t = h) (do
        let s ← getString r
        let o ← getString y
        setString r { s with capacity := o.capacity, hash := o.hash, length := o.length }
        Command.modify fun h => h.setFrozen r false
        takeChars r y
        return v)
      (fun _ t => t.contents r = some ⟨ob.fields,
        if y = r ∧ o.isInterned = false then List.replicate (o.length + 1) none
        else (Body.string o).cells h.mem, []⟩) E := by
  have hs := string?_of_obj hob hbody
  refine Triple.bind_known (look_known fun t ht => by rw [ht]; exact hs) ?_
  refine Triple.bind_known (look_known fun t ht => by rw [ht]; exact hy) ?_
  generalize ht₁ : (h.setBody r (.string { s with
    capacity := o.capacity, hash := o.hash, length := o.length })).setFrozen r false = t₁
  refine Triple.bind (Q := fun _ t => t.setFrozen r false = t₁)
    (Triple.modify fun t ht => by rw [ht, ht₁]) fun _ => ?_
  refine Triple.bind (Q := fun _ t => t = t₁) (Triple.modify fun t ht => ht) fun _ => ?_
  have hmem : t₁.mem = h.mem := by rw [← ht₁]; rfl
  have hobj : t₁.objs[r]? = some { ob with frozen := false, body := .string { s with
      capacity := o.capacity, hash := o.hash, length := o.length } } := by
    rw [← ht₁, Heap.setFrozen, List.getElem?_modify_eq, Heap.setBody, List.getElem?_modify_eq, hob]
    rfl
  have hy₁ : ∃ o₁, t₁.string? y = some o₁ ∧ o₁.isInterned = o.isInterned ∧
      o₁.chars = o.chars ∧ o₁.length = o.length ∧ o₁.capacity = o.capacity := by
    by_cases hyr : y = r
    · subst hyr
      cases hs.symm.trans hy
      exact ⟨_, string?_of_obj hobj rfl, rfl, rfl, rfl, rfl⟩
    · refine ⟨o, ?_, rfl, rfl, rfl, rfl⟩
      rw [← hy, ← ht₁]
      unfold Heap.string? Heap.setFrozen
      rw [List.getElem?_modify_ne _ _ (Ne.symm hyr), Heap.objs_setBody_of_ne hyr]
  obtain ⟨o₁, hy₁, hinterned, hchars, hlength, hcapacity⟩ := hy₁
  refine Triple.bind (takeChars_known hobj rfl hy₁ hlength.symm ?_ ?_) fun _ =>
    Triple.pure fun t ht => ?_
  · unfold ObjString.Fits
    rw [hlength, hcapacity]
    exact hfits
  · rw [hmem, hchars]
    exact hbound
  · rw [ht, hinterned, hlength, hmem]
    simp only [Body.cells, hchars, hlength]

/-- A new string is made of some bytes. -/
structure MadeOf (h : Heap) (chars : List UInt8) (y : ℕ) (t : Heap) : Prop where
  adds : Extends h t
  new : h.objs.length ≤ y
  string : ∃ o, t.string? y = some o ∧ o.Fits ∧ (∀ q, o.chars = some q → q < t.mem.next) ∧
    (Body.string o).cells t.mem = charCells (chars ++ [0])

theorem copyString_known {chars : List UInt8} :
    Triple (fun t => t = h) (copyString chars)
      (fun n t => n = h.objs.length ∧ MadeOf h chars n t) E := by
  have hlength : (charCells (chars ++ [0])).length = chars.length + 1 := by simp [charCells]
  refine allocate_known.bind_known ?_
  refine (storeCells_known Blocks.load_alloc_self).bind fun _ => ?_
  intro t ht
  have hcells : overwrite (List.replicate (chars.length + 1) none) 0 (charCells (chars ++ [0])) =
      charCells (chars ++ [0]) := by
    unfold overwrite
    simp only [List.take_zero, List.nil_append, List.length_replicate, Nat.sub_zero, hlength]
    rw [List.take_of_length_le (Nat.le_of_eq hlength)]
    simp
  rw [hcells] at ht
  subst ht
  refine ⟨rfl, ?_, Nat.le_refl _, ⟨false, false, false, chars.length, some h.mem.next, 0,
    chars.length⟩, ?_, Nat.le_refl _, fun q hq => ?_, ?_⟩
  · exact (((Extends.refl h).alloc _).put (Nat.le_refl _) _).addObj _
  · simp [Heap.string?, Heap.addObj]
  · cases hq
    exact Nat.lt_succ_self _
  · show resized (chars.length + 1) (Blocks.load (Blocks.put _ _ _) (some h.mem.next)) = _
    rw [Blocks.load_put_self, ← hlength, resized_length]

/-- What `internedString` returns, if nobody has these bytes yet the next object. -/
def Heap.internedRef (h : Heap) (chars : List UInt8) : ℕ :=
  (h.strings.find? fun r => h.storage r == charCells (chars ++ [0])).getD h.objs.length

theorem internedString_known {chars : List UInt8} :
    Triple (fun t => t = h) (internedString chars)
      (fun n t => n = h.internedRef chars ∧ Extends h t ∧
        ((h.strings.find? fun r => h.storage r == charCells (chars ++ [0])) = none →
          MadeOf h chars n t) ∧
        ∀ y, (h.strings.find? fun r => h.storage r == charCells (chars ++ [0])) = some y → t = h)
      E := by
  refine Triple.bind_known (Triple.get fun _ ht => ⟨ht, ht⟩) ?_
  cases hfind : h.strings.find? fun r => h.storage r == charCells (chars ++ [0]) with
  | some y =>
    dsimp only
    refine Triple.pure fun t ht => ?_
    rw [ht]
    exact ⟨by simp [Heap.internedRef, hfind], Extends.refl h, nofun, fun _ _ => rfl⟩
  | none =>
    dsimp only
    refine copyString_known.bind fun n => Triple.given ?_
    rintro rfl
    refine Triple.bind (Q := fun _ => MadeOf h chars h.objs.length)
      (Triple.modify fun t ht => ⟨⟨ht.adds.objs, ht.adds.next, ht.adds.blocks⟩, ht.new, ht.string⟩)
      fun _ => Triple.start fun t ht => ?_
    obtain ⟨o, ho, hfits, hbound, hcells⟩ := ht.string
    refine Triple.bind_known (look_known fun t' ht' => by rw [ht']; exact ho) ?_
    refine Triple.bind (Q := fun _ t' => t' = t.setBody h.objs.length
      (.string { o with isInterned := true })) (Triple.modify fun t' ht' => by rw [ht']) fun _ => ?_
    refine Triple.bind (Q := fun _ => MadeOf h chars h.objs.length)
      (Triple.modify fun t' ht' => ?_) fun _ => Triple.pure fun t' ht' =>
        ⟨by simp [Heap.internedRef, hfind], ht'.adds, fun _ => ht', nofun⟩
    rw [ht']
    refine ⟨(ht.adds.modify ht.new _).modify ht.new _, Nat.le_refl _,
      { o with isInterned := true }, ?_, hfits, hbound, hcells⟩
    obtain ⟨ob, hob, hbody⟩ := Heap.body_of_string? ho
    refine string?_of_obj (o := { ob with frozen := true, body := .string _ }) ?_ rfl
    rw [Heap.setFrozen, List.getElem?_modify_eq, Heap.setBody, List.getElem?_modify_eq, hob]
    rfl

/-- The string that `init` takes its bytes from -/
theorem initSource_known (hlen : args.length ≤ 1) :
    Triple (fun t => t = h) (initSource env (.obj r :: args))
      (fun y t => (h.initRef args = some y ∧ t = h) ∨
        h.initRef args = none ∧ MadeOf h (initText env args) y t) E := by
  refine Triple.bind_known (Triple.get fun _ ht => ⟨ht, ht⟩) ?_
  match args with
  | [] =>
    refine internedString_known.post fun y t ht => ?_
    obtain ⟨rfl, -, hnew, hold⟩ := ht
    cases hfind : h.strings.find? fun r => h.storage r == charCells ([] ++ [0]) with
    | none => exact Or.inr ⟨hfind, hnew hfind⟩
    | some y =>
      refine Or.inl ⟨?_, hold y hfind⟩
      have hfound : (h.strings.find? fun r => h.storage r == charCells [0]) = some y := hfind
      show (h.strings.find? fun r => h.storage r == charCells [0]) = some
        ((h.strings.find? fun r => h.storage r == charCells [0]).getD h.objs.length)
      rw [hfound]
      rfl
  | [v] =>
    refine Triple.ite (fun hstring => ?_) fun hnot => ?_
    · obtain ⟨y, sy, rfl, hsy⟩ := Heap.isA_string hstring
      exact Triple.pure fun t ht => Or.inl ⟨by simp [Heap.initRef, hsy], ht⟩
    · have hnone : h.initRef [v] = none := by
        cases v with
        | obj y => simpa [Heap.initRef, Heap.isA] using hnot
        | _ => rfl
      exact copyString_known.post fun y t ht => Or.inr ⟨hnone, ht.2⟩

/-- A command that returns or throws and whose effect on `r` is known -/
theorem harmless_iff_of_ends {c : Exec α} {w : Contents}
    (hc : Triple (fun t => t = h) c (fun _ t => t.contents r = some w)
      fun e t => e.isThrown = true ∧ t.contents r = some w) :
    Harmless h r c ↔ h.contents r = some w := by
  constructor
  · intro hharmless
    by_contra hne
    refine not_harmless_of_triple hc (fun _ t ht hsame => ?_) (fun _ t he _ hsame => ?_) hharmless
    · exact hne (hsame.symm.trans ht)
    · exact hne (hsame.symm.trans he.2)
  · intro hsame
    exact harmless_of_triple hc (fun _ t ht => ht.trans hsame.symm) fun _ _ he =>
      ⟨he.1, he.2.trans hsame.symm⟩

theorem harmless_iff_of_contents {c : Exec α} {w : Contents}
    (hc : Triple (fun t => t = h) c (fun _ t => t.contents r = some w) fun _ _ => False) :
    Harmless h r c ↔ h.contents r = some w :=
  harmless_iff_of_ends (hc.weaken (fun _ ht => ht) (fun _ _ hq => hq) fun _ _ he => he.elim)

theorem lxStringInit_frozen {s : ObjString} (hf : h.Frozen r) (hs : h.string? r = some s) :
    Harmless h r (lxStringInit env (.obj r :: args)) ↔
      (args.length ≤ 1 → h.initCells env r args = some ((Body.string s).cells h.mem)) := by
  obtain ⟨ob, hob, hbody⟩ := Heap.body_of_string? hs
  have hcontents : h.contents r = some ⟨ob.fields, (Body.string s).cells h.mem, []⟩ := by
    rw [Heap.contents, hob, ← hbody]
    simp [Obj.contents, hbody, Body.entries]
  by_cases hlen : args.length ≤ 1
  · have harity : ∀ {E : Stop → Heap → Prop}, Triple (fun t => t = h)
        (checkArity 1 (some 2) (.obj r :: args)) (fun _ t => t = h) E := by
      intro E
      refine Triple.ite (fun hnot => absurd ?_ hnot) fun _ => Triple.pure fun _ ht => ht
      simpa using hlen
    simp only [hlen, true_imp_iff]
    cases href : h.initRef args with
    | none =>
      have hmade : Triple (fun t => t = h) (lxStringInit env (.obj r :: args))
          (fun _ t => t.contents r = some ⟨ob.fields, charCells (initText env args ++ [0]), []⟩)
          fun _ _ => False := by
        refine harity.bind fun _ => asObj_known.bind_known ?_
        refine (initSource_known hlen).bind fun y => Triple.start fun t ht => ?_
        rcases ht with ⟨hfound, -⟩ | ⟨-, hmade⟩
        · simp [href] at hfound
        · obtain ⟨o, ho, hfits, hbound, hcells⟩ := hmade.string
          have hob₁ : t.objs[r]? = some ob := (hmade.adds.obj hf.lt).trans hob
          refine (initFrom_known hob₁ hbody ho hfits hbound).post fun _ t' ht' => ?_
          have hne : y ≠ r := Nat.ne_of_gt (Nat.lt_of_lt_of_le hf.lt hmade.new)
          rw [ht', if_neg (fun hc => hne hc.1), hcells]
      rw [harmless_iff_of_contents hmade, hcontents, Heap.initCells, href]
      simp [eq_comm]
    | some y =>
      cases hy : h.string? y with
      | none =>
        refine iff_of_false (not_harmless_of_crash ?_) (by simp [Heap.initCells, href, hy])
        refine harity.bind fun _ => asObj_known.bind_known ?_
        refine (initSource_known hlen).bind fun y' => Triple.start fun t ht => ?_
        rcases ht with ⟨hfound, rfl⟩ | ⟨hmade, -⟩
        · cases href.symm.trans hfound
          refine Triple.bind (look_known (a := s) fun t' ht' => by rw [ht']; exact hs) fun _ =>
            Triple.given fun _ => ?_
          refine Triple.ends ?_
          refine Triple.look (fun t' o ht' ho => ?_) fun _ _ _ => rfl
          simp [ht', hy] at ho
        · simp [href] at hmade
      | some o =>
        have hfrom : Triple (fun t => t = h) (lxStringInit env (.obj r :: args))
            (fun _ t => t.contents r = some ⟨ob.fields,
              if y = r ∧ o.isInterned = false then List.replicate (o.length + 1) none
              else (Body.string o).cells h.mem, []⟩) fun _ _ => False := by
          refine harity.bind fun _ => asObj_known.bind_known ?_
          refine (initSource_known hlen).bind fun y' =>
            Triple.start fun t ht => ?_
          rcases ht with ⟨hfound, rfl⟩ | ⟨hmade, -⟩
          · cases href.symm.trans hfound
            exact initFrom_known hob hbody hy (hf.fits.string hy)
              fun q hq => hf.bounded y _ q (Heap.handle_of_string? hy) hq
          · simp [href] at hmade
        rw [harmless_iff_of_contents hfrom, hcontents, Heap.initCells, href]
        dsimp only
        rw [hy, Option.map_some]
        constructor
        · intro he
          exact (congrArg (Option.map Contents.cells) he).symm
        · intro he
          rw [Option.some.inj he]
  · refine iff_of_true ?_ fun h => absurd h hlen
    refine harmless_of_adds hf.bounded hf.lt (checkArity_known.bind fun _ => Triple.given
      fun harity => absurd ?_ hlen)
    have hmax := harity.2 2 rfl
    simpa using hmax

theorem lxStringDup_frozen {s : ObjString} (hf : h.Frozen r) (hs : h.string? r = some s) :
    Harmless h r (lxStringDup env (.obj r :: args)) ↔ (args.length = 0 → h.HasBuffer r) := by
  obtain ⟨ob, hob, hbody⟩ := Heap.body_of_string? hs
  constructor
  · intro hharmless hn
    by_contra hbuffer
    have hchars : s.chars = none := by simpa [Heap.HasBuffer, hs] using hbuffer
    refine not_harmless_of_crash (c := lxStringDup env (.obj r :: args)) ?_ hharmless
    refine (checkArity_passes hn).bind fun _ => asObj_known.bind_known ?_
    have hdup : Triple (fun t => t = h) (lxObjectDup env (.obj r :: args))
        (fun n t => t.string? r = some s ∧ ∃ d, t.string? n = some d)
        fun e _ => e.isThrown = false := by
      refine (checkArity_passes hn).bind fun _ => asObj_known.bind_known ?_
      refine Triple.bind_known (look_known fun t ht => by rw [ht]; exact hob) ?_
      refine (newObj_new.pre fun _ => extends_of_eq).post fun n t ht => ⟨?_, ?_⟩
      · rw [ht.2.1.string? hf.lt, hs]
      · exact ⟨_, string?_of_obj ht.2.2 (by rw [hbody]; rfl)⟩
    refine hdup.bind fun n => Triple.start fun t ht => ?_
    obtain ⟨hr, d, hd⟩ := ht
    refine Triple.bind_known (look_known fun t' ht' => by rw [ht']; exact hr) ?_
    refine Triple.bind (look_known (a := d) fun t' ht' => by rw [ht']; exact hd) fun d' =>
      Triple.given fun _ => ?_
    refine allocate_known.bind fun p => Triple.given fun _ => ?_
    exact loadCells_crashes hchars
  · intro hspares
    by_cases hn : args.length = 0
    · exact harmless_of_adds hf.bounded hf.lt
        ((lxStringDup_new hs (hspares hn s hs)).pre fun _ => extends_of_eq)
    · refine harmless_of_adds hf.bounded hf.lt (checkArity_known.bind fun _ =>
        Triple.given fun harity => absurd (arity_eq harity) hn)

/-! ## `Array#init` -/

/-- Any number of arguments is accepted. -/
theorem checkArity_open :
    Triple (fun t => t = h) (checkArity 1 none (.obj r :: args)) (fun _ t => t = h) E := by
  have hopen : 1 ≤ (Value.obj r :: args).length ∧
      ∀ m ∈ (none : Option ℕ), (Value.obj r :: args).length ≤ m := ⟨Nat.succ_pos _, nofun⟩
  unfold checkArity stopIf
  exact Triple.ite (fun hnot => absurd hopen hnot) fun _ => Triple.pure fun _ ht => ht

theorem lxArrayInit_known {a : ObjArray} {ob : Obj} (hob : h.objs[r]? = some ob)
    (hbody : ob.body = .array a) :
    Triple (fun t => t = h) (lxArrayInit env (.obj r :: args))
      (fun _ t => t.contents r = some ⟨ob.fields, argCells args, []⟩) E := by
  refine checkArity_open.bind fun _ => asObj_known.bind_known ?_
  have ha : h.array? r = some a := by
    obtain ⟨frozen, builtin, fields, body⟩ := ob
    cases hbody
    simp [Heap.array?, hob]
  refine Triple.bind_known (look_known fun t ht => by rw [ht]; exact ha) ?_
  have hinit : ∀ capa, Triple (fun t => t = h) (initValues env a capa)
      (fun a'' t => t.objs = h.objs ∧ Holds t.mem a'' []) E := by
    intro capa
    have hempty : ∀ t, t = h → t.objs = h.objs ∧ Holds t.mem (initValueArray a) [] := by
      rintro t rfl
      exact ⟨rfl, Holds.empty⟩
    refine Triple.ite (fun hcapa => Triple.ite (fun _ => Triple.pure hempty) fun _ => ?_)
      fun _ => Triple.pure hempty
    refine ((growArray_holds (a := initValueArray a) (Nat.zero_le capa)).pre hempty).bind
      fun p => Triple.pure fun _ h => h
  refine (hinit _).bind fun a₁ => writeAll_holds.bind fun a₂ => ?_
  refine Triple.bind (Q := fun _ t => t.contents r = some ⟨ob.fields, argCells args, []⟩)
    (Triple.modify fun t ht => ?_) fun _ => Triple.pure fun _ h => h
  rw [contents_setBody (o := ob) (by rw [ht.1, hob])]
  show some (Contents.mk ob.fields (resized a₂.count (t.mem.load a₂.values)) []) = _
  rw [ht.2.resized]
  rfl

theorem lxArrayInit_frozen {a : ObjArray} {ob : Obj} (hob : h.objs[r]? = some ob)
    (hbody : ob.body = .array a) :
    Harmless h r (lxArrayInit env (.obj r :: args)) ↔
      (Body.array a).cells h.mem = argCells args := by
  have hcontents : h.contents r = some ⟨ob.fields, (Body.array a).cells h.mem, []⟩ := by
    rw [Heap.contents, hob, ← hbody]
    simp [Obj.contents, hbody, Body.entries]
  rw [harmless_iff_of_contents (lxArrayInit_known hob hbody), hcontents]
  constructor
  · intro he
    exact congrArg Contents.cells (Option.some.inj he)
  · intro he
    rw [he]

/-! ## `Map#init` -/

/-- The pair that an element of the array stands for -/
def Heap.pairAt (h : Heap) (el : Option Cell) : Option (Value × Value) :=
  match cellValue el with
  | .obj x => (h.array? x).bind fun a =>
    if a.count = 2 then
      let cells := resized 2 (h.mem.load a.values)
      some (cellValue (cells[0]?).join, cellValue (cells[1]?).join)
    else none
  | _ => none

/-- The pairs that are set before an element is refused -/
def Heap.pairsOf (h : Heap) : Cells → Table
  | [] => []
  | el :: els =>
    match h.pairAt el with
    | some p => p :: h.pairsOf els
    | none => []

/-- The pairs that `init` is given -/
def Heap.initPairs (h : Heap) : List Value → Table
  | [.obj y] =>
    match h.array? y with
    | some a =>
      if h.isA (.obj y) .exactArray then h.pairsOf (resized a.count (h.mem.load a.values)) else []
    | none => []
  | _ => []

theorem pairOf_known {t : Heap} {el : Option Cell} (harrays : ∀ x, t.array? x = h.array? x)
    (hmem : t.mem = h.mem) (hfits : h.Fits) :
    Triple (fun t' => t' = t) (pairOf el) (fun p t' => h.pairAt el = some p ∧ t' = t)
      (fun e t' => (e.isThrown = true ∧ h.pairAt el = none) ∧ t' = t) := by
  refine Triple.bind_known (Triple.get fun _ ht => ⟨ht, ht⟩) ?_
  unfold Heap.pairAt
  cases cellValue el with
  | obj x =>
    simp only [harrays]
    cases ha : h.array? x with
    | none => exact Triple.stop fun t' ht => ⟨⟨rfl, rfl⟩, ht⟩
    | some a =>
      by_cases hcount : a.count = 2
      · have hload : a.values = none → 2 = 0 := fun hn => by
          have hzero := (hfits.array ha).loads hn
          omega
        refine Triple.bind (Q := fun _ t' => t' = t) (Triple.ite (fun hnot => absurd hcount hnot)
          fun _ => Triple.pure fun _ ht => ht) fun _ => ?_
        refine (loadCells_start hload).bind_known ?_
        refine Triple.pure fun t' ht => ⟨?_, ht⟩
        rw [hmem, Option.bind_some, if_pos hcount]
      · refine Triple.ends (Triple.ite (fun _ => Triple.stop fun t' ht => ⟨⟨rfl, ?_⟩, ht⟩)
          fun hnot => absurd hcount hnot)
        rw [Option.bind_some, if_neg hcount]
  | _ => exact Triple.stop fun t' ht => ⟨⟨rfl, rfl⟩, ht⟩

theorem array?_setBody_map {t t' : Table} (ht : h.map? r = some t) (x : ℕ) :
    (h.setBody r (.map t')).array? x = h.array? x := by
  by_cases hx : x = r
  · subst hx
    obtain ⟨o, ho, hbody⟩ := Heap.body_of_map? ht
    obtain ⟨frozen, builtin, fields, body⟩ := o
    cases hbody
    simp [Heap.array?, Heap.setBody, ho]
  · unfold Heap.array?
    rw [Heap.objs_setBody_of_ne hx]

theorem map?_setBody_self {t t' : Table} (ht : h.map? r = some t) :
    (h.setBody r (.map t')).map? r = some t' := by
  obtain ⟨o, ho, hbody⟩ := Heap.body_of_map? ht
  simp [Heap.map?, Heap.setBody, ho]

theorem setBody_setBody {b b' : Body} : (h.setBody r b).setBody r b' = h.setBody r b' := by
  unfold Heap.setBody
  rw [List.modify_modify_eq]
  rfl

/-- The pairs up to the first element that is refused are set. -/
theorem setPairs_known {t t₀ : Table} {els : Cells} (ht₀ : h.map? r = some t₀) (hfits : h.Fits) :
    Triple (fun t' => t' = h.setBody r (.map t)) (setPairs env r els)
      (fun _ t' => t' = h.setBody r (.map (tableSetAll env (h.pairsOf els) t)))
      (fun e t' => e.isThrown = true ∧
        t' = h.setBody r (.map (tableSetAll env (h.pairsOf els) t))) := by
  induction els generalizing t with
  | nil => exact Triple.pure fun _ h => h
  | cons el els ih =>
    have hpair : Triple (fun t' => t' = h.setBody r (.map t)) (pairOf el) _ _ :=
      pairOf_known (array?_setBody_map ht₀) rfl hfits
    refine Triple.bind (hpair.weaken (fun _ ht => ht) (fun _ _ hq => hq) fun e t' he => ?_)
      fun p => Triple.given fun hp => ?_
    · exact ⟨he.1.1, by rw [he.2, Heap.pairsOf, he.1.2]; rfl⟩
    · have hset : Triple (fun t' => t' = h.setBody r (.map t)) (mapSet env r p.1 p.2)
          (fun _ t' => t' = h.setBody r (.map (tableSet env p.1 p.2 t))) (fun _ _ => False) := by
        refine Triple.bind (look_known (a := t) fun t' ht => by rw [ht]; exact map?_setBody_self ht₀)
          fun t'' => Triple.given ?_
        rintro rfl
        exact Triple.modify fun t' ht => by rw [ht, setBody_setBody]
      have hall : tableSetAll env (h.pairsOf (el :: els)) t =
          tableSetAll env (h.pairsOf els) (tableSet env p.1 p.2 t) := by
        rw [Heap.pairsOf, hp]
        rfl
      rw [hall]
      exact (hset.weaken (fun _ ht => ht) (fun _ _ hq => hq) fun _ _ he => he.elim).bind fun _ => ih

theorem Heap.isA_exactArray {v : Value} (hv : h.isA v .exactArray = true) :
    ∃ y a, v = .obj y ∧ h.array? y = some a := by
  cases v with
  | obj y =>
    have hsome : (h.array? y).isSome = true := by
      simp only [isA, Bool.and_eq_true] at hv
      exact hv.1
    obtain ⟨a, ha⟩ := Option.isSome_iff_exists.mp hsome
    exact ⟨y, a, rfl, ha⟩
  | _ => cases hv

theorem lxMapInit_frozen {t : Table} (hf : h.Frozen r) (ht : h.map? r = some t) :
    Harmless h r (lxMapInit env (.obj r :: args)) ↔ HasPairs env (h.initPairs args) t := by
  obtain ⟨ob, hob, hbody⟩ := Heap.body_of_map? ht
  have hset : ∀ t', (h.setBody r (.map t')).contents r = some ⟨ob.fields, [], t'⟩ :=
    fun t' => contents_setBody hob
  have hcontents : h.contents r = some ⟨ob.fields, [], t⟩ := by
    rw [Heap.contents, hob]
    simp [Obj.contents, hbody, Body.cells, Body.entries]
  have hself : h = h.setBody r (.map t) := by
    obtain ⟨frozen, builtin, fields, body⟩ := ob
    cases hbody
    have hobjs : h.objs.modify r (fun o => { o with body := .map t }) = h.objs := by
      refine List.ext_getElem? fun i => ?_
      by_cases hi : i = r
      · rw [hi, List.getElem?_modify_eq, hob]
        rfl
      · exact List.getElem?_modify_ne _ _ (Ne.symm hi)
    rw [Heap.setBody, hobjs]
  have hinit : Triple (fun t' => t' = h) (lxMapInit env (.obj r :: args))
      (fun _ t' => t'.contents r = some ⟨ob.fields, [], tableSetAll env (h.initPairs args) t⟩)
      (fun e t' => e.isThrown = true ∧
        t'.contents r = some ⟨ob.fields, [], tableSetAll env (h.initPairs args) t⟩) := by
    refine checkArity_open.bind fun _ => asObj_known.bind_known ?_
    refine Triple.bind (look_known (a := t) fun t' ht' => by rw [ht']; exact ht) fun _ =>
      Triple.given fun _ => ?_
    rcases args with _ | ⟨v, _ | ⟨w, vs⟩⟩
    · refine Triple.pure fun t' ht' => ?_
      rw [ht', hcontents]
      rfl
    · by_cases harray : h.isA v .exactArray = true
      · obtain ⟨y, a, rfl, ha⟩ := Heap.isA_exactArray harray
        have hpairs : h.initPairs [.obj y] = h.pairsOf (resized a.count (h.mem.load a.values)) := by
          simp [Heap.initPairs, ha, harray]
        refine (checkArg_passes harray).bind fun _ => asObj_known.bind_known ?_
        refine Triple.bind_known (look_known fun t' ht' => by rw [ht']; exact ha) ?_
        refine (loadCells_start (hf.fits.array ha).loads).bind_known ?_
        have hset' : Triple _ (setPairs env r (resized a.count (h.mem.load a.values))) _ _ :=
          setPairs_known (t := t) ht hf.fits
        rw [← hself] at hset'
        rw [hpairs]
        exact (hset'.weaken (fun _ ht' => ht') (fun _ _ hq => by rw [hq]; exact hset _)
          fun _ _ he => ⟨he.1, by rw [he.2]; exact hset _⟩).bind fun _ => Triple.pure fun _ hq => hq
      · have hpairs : h.initPairs [v] = [] := by
          cases v with
          | obj y =>
            cases ha : h.array? y with
            | none => simp [Heap.initPairs, ha]
            | some a => simp [Heap.initPairs, ha, harray]
          | _ => rfl
        refine Triple.ends ?_
        refine Triple.bind (Q := fun h₁ t' => h₁ = h ∧ t' = h) (Triple.get fun _ ht' => ⟨ht', ht'⟩)
          fun h₁ => Triple.given ?_
        rintro rfl
        refine Triple.ite (fun _ => Triple.stop fun t' ht' => ⟨rfl, ?_⟩)
          fun hnot => absurd (by simpa using harray) hnot
        rw [ht', hcontents, hpairs]
        rfl
    · refine Triple.stop fun t' ht' => ⟨rfl, ?_⟩
      rw [ht', hcontents]
      cases v <;> rfl
  rw [harmless_iff_of_ends hinit, hcontents, ← tableSetAll_eq_self]
  constructor
  · intro he
    exact (congrArg Contents.entries (Option.some.inj he)).symm
  · intro he
    rw [he]

/-! ## Fields and maps -/

theorem Extends.cells {t : Heap} {ob : Obj} (he : Extends h t) (hb : h.Bounded)
    (hob : h.objs[r]? = some ob) : ob.body.cells t.mem = ob.body.cells h.mem := by
  refine Body.cells_congr fun g hg => ?_
  have hhandle : h.handle r = some g := by simp [Heap.handle, hob, hg]
  cases hp : g.addr with
  | none => rfl
  | some p => exact he.blocks p (hb r g p hhandle hp)

theorem contents_of_obj {ob : Obj} (hob : h.objs[r]? = some ob) :
    h.contents r = some ⟨ob.fields, ob.body.cells h.mem, ob.body.entries⟩ := by
  rw [Heap.contents, hob]
  rfl

/-- A field is set whatever the flags say. -/
theorem setProp_known {ob : Obj} {name val : Value} (hb : h.Bounded)
    (hob : h.objs[r]? = some ob) :
    Triple (Extends h) (setProp env r name val)
      (fun _ t => t.contents r =
        some ⟨tableSet env name val ob.fields, ob.body.cells h.mem, ob.body.entries⟩) E := by
  have hr : r < h.objs.length := (List.getElem?_eq_some_iff.mp hob).1
  refine Triple.bind_known (look_known fun t he => (he.obj hr).trans hob) ?_
  refine Triple.modify fun t he => ?_
  rw [contents_setFields ((he.obj hr).trans hob), he.cells hb hob]

theorem contents_eq_iff_fields {ob : Obj} {name val : Value} (hob : h.objs[r]? = some ob) :
    h.contents r =
        some ⟨tableSet env name val ob.fields, ob.body.cells h.mem, ob.body.entries⟩ ↔
      entryOf env name ob.fields = some (name, val) := by
  rw [contents_of_obj hob, ← tableSet_eq_self]
  constructor
  · intro he
    exact (congrArg Contents.fields (Option.some.inj he)).symm
  · intro he
    rw [he]

theorem setProp_frozen {ob : Obj} {name val : Value} (hf : h.Frozen r)
    (hob : h.objs[r]? = some ob) :
    Harmless h r (setProp env r name val) ↔ entryOf env name ob.fields = some (name, val) := by
  rw [harmless_iff_of_contents ((setProp_known hf.bounded hob).pre fun _ => extends_of_eq),
    contents_eq_iff_fields hob]

theorem lxErrInit_frozen {ob : Obj} (hf : h.Frozen r) (hob : h.objs[r]? = some ob) :
    Harmless h r (lxErrInit env (.obj r :: args)) ↔
      (args.length ≤ 1 → (arg args 0 = .nil ∨ h.isA (arg args 0) .string = true) →
        entryOf env (.obj (h.internedRef (cString "message"))) ob.fields =
          some (.obj (h.internedRef (cString "message")), arg args 0)) := by
  constructor
  · intro hharmless hlen hmessage
    have hinit : Triple (fun t => t = h) (lxErrInit env (.obj r :: args))
        (fun _ t => t.contents r = some ⟨tableSet env
          (.obj (h.internedRef (cString "message"))) (arg args 0) ob.fields,
          ob.body.cells h.mem, ob.body.entries⟩) fun _ _ => False := by
      have harity : Triple (fun t => t = h) (checkArity 1 (some 2) (.obj r :: args))
          (fun _ t => t = h) fun _ _ => False := by
        refine Triple.ite (fun hnot => absurd ?_ hnot) fun _ => Triple.pure fun _ ht => ht
        simpa using hlen
      have hcheck : Triple (fun t => t = h) (checkMessage (.obj r :: args)) (fun _ t => t = h)
          fun _ _ => False := by
        refine Triple.ite (fun _ => Triple.pure fun _ ht => ht) fun hnil => checkArg_passes ?_
        exact hmessage.resolve_left hnil
      refine harity.bind fun _ => asObj_known.bind_known ?_
      refine hcheck.bind fun _ => internedString_known.bind fun m => Triple.given ?_
      rintro rfl
      exact ((setProp_known hf.bounded hob).pre fun _ ht => ht.1).bind fun _ =>
        Triple.pure fun _ ht => ht
    exact (contents_eq_iff_fields hob).mp ((harmless_iff_of_contents hinit).mp hharmless)
  · intro hspares
    have hcalm : Triple (fun t => t = h) (lxErrInit env (.obj r :: args))
        (fun _ t => t.contents r = h.contents r) (Calm h r) := by
      refine (calm hf.bounded hf.lt checkArity_known).bind fun _ => Triple.given fun harity => ?_
      refine asObj_known.bind_known ?_
      have hcheck : Triple (fun t => t = h) (checkMessage (.obj r :: args))
          (fun _ t => (arg args 0 = .nil ∨ h.isA (arg args 0) .string = true) ∧ t = h)
          (Raised h) :=
        Triple.ite (fun hnil => Triple.pure fun _ ht => ⟨Or.inl hnil, ht⟩)
          fun _ => checkArg_known.post fun _ _ ht => ⟨Or.inr ht.1, ht.2⟩
      refine (calm hf.bounded hf.lt hcheck).bind fun _ => Triple.given fun hmessage => ?_
      have hlen : args.length ≤ 1 := by simpa using harity.2 2 rfl
      have hentry := hspares hlen hmessage
      refine internedString_known.bind fun m => Triple.given ?_
      rintro rfl
      refine ((setProp_known hf.bounded hob).pre fun _ ht => ht.1).bind fun _ =>
        Triple.pure fun _ ht => ?_
      rw [ht]
      exact ((contents_eq_iff_fields hob).mpr hentry).symm
    exact harmless_of_calm hcalm fun _ _ ht => ht

theorem setMap_known {ob : Obj} {t t' : Table} (hob : h.objs[r]? = some ob)
    (hbody : ob.body = .map t) :
    Triple (fun s => s = h) (getMap r >>= fun _ => setMap r t')
      (fun _ s => s.contents r = some ⟨ob.fields, [], t'⟩) E := by
  have ht : h.map? r = some t := by
    obtain ⟨frozen, builtin, fields, body⟩ := ob
    cases hbody
    simp [Heap.map?, hob]
  refine Triple.bind (look_known (a := t) fun s hs => by rw [hs]; exact ht) fun _ =>
    Triple.given fun _ => Triple.modify fun s hs => ?_
  rw [hs]
  exact contents_setBody hob

theorem harmless_setMap {ob : Obj} {t t' : Table} (hob : h.objs[r]? = some ob)
    (hbody : ob.body = .map t) :
    Harmless h r (getMap r >>= fun _ => setMap r t') ↔ t' = t := by
  rw [harmless_iff_of_contents (setMap_known hob hbody), contents_of_obj hob, hbody]
  constructor
  · intro he
    exact (congrArg Contents.entries (Option.some.inj he)).symm
  · intro he
    rw [he]
    rfl

theorem tableDelete_eq_self {key : Value} {t : Table} :
    tableDelete env key t = t ↔ entryOf env key t = none := by
  unfold tableDelete entryOf
  rw [List.filter_eq_self, List.find?_eq_none]
  simp

/-! ## Assertions and throws -/

theorem assertUnfrozen_aborts {f : Heap → Unit → Exec α} (hfrozen : h.isFrozen r = true) :
    Triple (fun t => t = h) (heap >>= fun h₁ => assert (!h₁.isFrozen r) >>= f h₁)
      (fun _ _ => False) fun e _ => e.isThrown = false := by
  refine Triple.bind_known (Triple.get fun _ ht => ⟨ht, ht⟩) ?_
  rw [hfrozen]
  exact Triple.ends (Triple.stop fun _ _ => rfl)

/-- A frozen error without a backtrace gets one. -/
theorem throwErrorVal_frozen {ob : Obj} (hf : h.Frozen r) (hob : h.objs[r]? = some ob) :
    Harmless h r (throwErrorVal env r) ↔
      (ob.body = .error false →
        (tableGet env (.obj (h.internedRef (cString "backtrace"))) ob.fields).getD .nil ≠ .nil) := by
  have hget : ∀ {E : Stop → Heap → Prop}, Triple (Extends h) (getObj r)
      (fun ob' t => ob' = ob ∧ Extends h t) E :=
    look_known fun t he => (he.obj hf.lt).trans hob
  have hthrow : ∀ e, Triple (Extends h) (throw e : Exec Unit) (fun _ => Extends h) (Raised h) :=
    fun e => raising (quietly_throw e) fun _ he => he
  constructor
  · intro hharmless hbody hnil
    refine not_harmless_of_triple (c := throwErrorVal env r) (Q := fun _ _ => False)
      (E := fun _ t => t.contents r ≠ h.contents r) ?_ (fun _ _ hq => hq.elim)
      (fun _ _ he _ => he) hharmless
    refine internedString_known.bind fun n => Triple.given ?_
    rintro rfl
    refine (hget.pre fun _ ht => ht.1).bind_known ?_
    rw [hbody]
    refine Triple.bind (Q := fun _ t => t.contents r ≠ h.contents r) ?_ fun _ =>
      Triple.stop fun _ ht => ht
    refine Triple.ite (fun _ => ?_) fun hnot => absurd hnil hnot
    refine newObj_new.bind fun ret => ?_
    refine ((setProp_known hf.bounded hob).pre fun _ ht => ht.2.1).post fun _ t ht hsame => ?_
    rw [ht] at hsame
    have hentry := (contents_eq_iff_fields hob).mp hsame.symm
    rw [entryOf] at hentry
    rw [tableGet, hentry] at hnil
    cases hnil
  · intro hspares
    refine harmless_of_adds hf.bounded hf.lt ?_
    refine internedString_known.bind fun n => Triple.given ?_
    rintro rfl
    refine (hget.pre fun _ ht => ht.1).bind_known ?_
    cases hbody : ob.body with
    | error controlFlow =>
      refine Triple.bind (Q := fun _ => Extends h) ?_ fun _ => hthrow _
      refine Triple.ite (fun hnil => ?_) fun _ => Triple.pure fun _ he => he
      cases controlFlow with
      | true => exact Triple.pure fun _ he => he
      | false => exact absurd hnil (hspares hbody)
    | _ => exact hthrow _

/-! ## The flag itself -/

theorem lxObjectFreeze_frozen (hf : h.Frozen r) :
    Harmless h r (lxObjectFreeze (.obj r :: args)) := by
  refine harmless_of_calm (Q := fun _ t => t.contents r = h.contents r) ?_ fun _ _ ht => ht
  refine (calm hf.bounded hf.lt checkArity_known).bind fun _ => Triple.given fun _ => ?_
  refine asObj_known.bind_known ?_
  refine Triple.bind (Q := fun _ t => t.contents r = h.contents r) (Triple.modify fun t ht => ?_)
    fun _ => Triple.pure fun _ ht => ht
  rw [ht, contents_setFrozen]

theorem lxObjectUnfreeze_frozen (hf : h.Frozen r) :
    Harmless h r (lxObjectUnfreeze (.obj r :: args)) := by
  refine harmless_of_calm (Q := fun _ t => t.contents r = h.contents r) ?_ fun _ _ ht => ht
  refine (calm hf.bounded hf.lt checkArity_known).bind fun _ => Triple.given fun _ => ?_
  refine asObj_known.bind_known ?_
  refine Triple.bind (Q := fun _ t => t.contents r = h.contents r) ?_
    fun _ => Triple.pure fun _ ht => ht
  refine (calm hf.bounded hf.lt heap_known).bind fun h₁ => Triple.given fun _ => ?_
  refine (calm hf.bounded hf.lt stopIf_known).bind fun _ => Triple.given fun _ => ?_
  refine Triple.modify fun t ht => ?_
  rw [ht, contents_setFrozen]

end Refusals

/-! ## Every native method -/

/-- The fields, the bytes or elements, and the entries of an object -/
def Heap.fieldsOf (h : Heap) (r : ℕ) : Table := (h.objs[r]?.map Obj.fields).getD []

def Heap.cellsOf (h : Heap) (r : ℕ) : Cells := (h.objs[r]?.map fun o => o.body.cells h.mem).getD []

def Heap.entriesOf (h : Heap) (r : ℕ) : Table := (h.map? r).getD []

def Value.isObj : Value → Bool
  | .obj _ => true
  | _ => false

/-- The call leaves the frozen object `r` as it is, and returns or throws. -/
def Native.Spares (env : Env) (h : Heap) (r : ℕ) (args : List Value) : Native → Prop
  -- what is used as a string is one
  | reads m => m.Casts h (.obj r :: args)
  | stringDup => args.length = 0 → h.HasBuffer r
  -- a shared buffer is copied before the flag is looked at
  | stringPush => Native.stringPush.accepts h args = true → h.CanCopy r
  | stringClear => Native.stringClear.accepts h args = true → h.CanCopy r
  | stringInsertAt => Native.stringInsertAt.accepts h args = true → h.CanCopy r
  | stringOpIndexSet =>
    Native.stringOpIndexSet.accepts h args = true → h.CanCopy r ∧ h.ArgHasBuffer (arg args 1)
  -- nothing is padded
  | stringPadRight =>
    Native.stringPadRight.accepts h args = true →
      asNumber (arg args 0) ≤ ((h.string? r).map ObjString.length).getD 0
  -- the contents that are written are those that are there
  | stringInit => args.length ≤ 1 → h.initCells env r args = some (h.cellsOf r)
  | arrayInit => h.cellsOf r = argCells args
  | mapInit => HasPairs env (h.initPairs args) (h.entriesOf r)
  | errInit =>
    args.length ≤ 1 → (arg args 0 = .nil ∨ h.isA (arg args 0) .string = true) →
      entryOf env (.obj (h.internedRef (cString "message"))) (h.fieldsOf r) =
        some (.obj (h.internedRef (cString "message")), arg args 0)
  -- the other map is used as an object before it is checked
  | mapMerge => args.length = 1 → (arg args 0).isObj = true
  | mapMergeWith => args.length = 1 → (arg args 0).isObj = true
  | _ => True

inductive BodyTag
  | string
  | array
  | map
  | error
  | plain
  deriving DecidableEq, Repr

def Body.tag : Body → BodyTag
  | .string _ => .string
  | .array _ => .array
  | .map _ => .map
  | .error _ => .error
  | .plain => .plain

/-- The type of the receiver of a method that is not one of `Object` -/
def Native.tag : Native → Option BodyTag
  | reads _ | objectDup | objectFreeze | objectUnfreeze | objectSetProperty => none
  | errInit => some .error
  | stringInit | stringPush | stringDup | stringClear | stringInsertAt | stringOpIndexSet
  | stringPadRight => some .string
  | arrayInit | arrayDup | arrayPush | arrayPop | arrayPushFront | arrayPopFront | arrayDelete
  | arrayDeleteAt | arrayClear | arraySort | arraySortBy | arrayOpIndexSet => some .array
  | mapInit | mapDup | mapSet | mapClear | mapMerge | mapMergeWith | mapDelete | mapRehash =>
    some .map

theorem mem_of_lookup {l : List (String × Native)} {name : String} {m : Native}
    (hm : l.lookup name = some m) : (name, m) ∈ l := by
  obtain ⟨before, after, hsplit, -⟩ := List.lookup_eq_some_iff.mp hm
  rw [hsplit]
  simp

theorem tag_of_lookup {b : Body} {name : String} {m : Native}
    (hm : b.methods.lookup name = some m) : m.tag = none ∨ m.tag = some b.tag := by
  have hmem := mem_of_lookup hm
  cases b with
  | string s =>
    have hall : ∀ e ∈ stringMethods ++ objectMethods, e.2.tag = none ∨ e.2.tag = some .string := by
      decide
    exact hall _ hmem
  | array a =>
    have hall : ∀ e ∈ arrayMethods ++ objectMethods, e.2.tag = none ∨ e.2.tag = some .array := by
      decide
    exact hall _ hmem
  | map t =>
    have hall : ∀ e ∈ mapMethods ++ objectMethods, e.2.tag = none ∨ e.2.tag = some .map := by
      decide
    exact hall _ hmem
  | error c =>
    have hall : ∀ e ∈ ("init", Native.errInit) :: objectMethods,
        e.2.tag = none ∨ e.2.tag = some .error := by
      decide
    exact hall _ hmem
  | plain =>
    have hall : ∀ e ∈ objectMethods, e.2.tag = none ∨ e.2.tag = some .plain := by
      decide
    exact hall _ hmem

section Every

variable {h : Heap} {r : ℕ} {env : Env} {args : List Value} {ob : Obj}

theorem array?_of_obj {a : ObjArray} (hob : h.objs[r]? = some ob) (hbody : ob.body = .array a) :
    h.array? r = some a := by
  obtain ⟨frozen, builtin, fields, body⟩ := ob
  cases hbody
  simp [Heap.array?, hob]

theorem map?_of_obj {t : Table} (hob : h.objs[r]? = some ob) (hbody : ob.body = .map t) :
    h.map? r = some t := by
  obtain ⟨frozen, builtin, fields, body⟩ := ob
  cases hbody
  simp [Heap.map?, hob]

/-- The methods that check their arity and then the flag -/
theorem harmless_of_refusal {α : Type} {c : Exec α} (hf : h.Frozen r)
    (hc : Triple (fun t => t = h) c (fun _ => Extends h) (Raised h)) : Harmless h r c :=
  harmless_of_adds hf.bounded hf.lt hc

/-- `other` is not an object. -/
theorem asObj_arg_crashes {α : Type} {v : Value} {f : ℕ → Exec α} (hv : v.isObj = false) :
    Triple (fun t => t = h) (asObj v >>= f) (fun _ _ => False) fun e _ => e.isThrown = false := by
  cases v with
  | obj x => cases hv
  | _ => exact Triple.stop fun _ _ => rfl

/-- The methods that take another map -/
theorem harmless_with_other {α : Type} {f : ℕ → ℕ → Exec α} (hf : h.Frozen r)
    (hobj : ∀ y, args = [.obj y] → Triple (fun t => t = h) (f r y) (fun _ => Extends h) (Raised h)) :
    Harmless h r (checkArity 2 (some 2) (.obj r :: args) >>= fun _ =>
        asObj (arg (.obj r :: args) 0) >>= fun self =>
        asObj (arg (.obj r :: args) 1) >>= fun other => f self other) ↔
      (args.length = 1 → (arg args 0).isObj = true) := by
  constructor
  · intro hharmless hn
    by_contra hv
    refine not_harmless_of_crash ?_ hharmless
    refine (checkArity_passes hn).bind fun _ => asObj_known.bind_known ?_
    exact asObj_arg_crashes (v := arg args 0) (by simpa using hv)
  · intro hspares
    refine harmless_of_refusal hf (checkArity_known.bind fun _ => Triple.given fun harity => ?_)
    have hn : args.length = 1 := arity_eq harity
    match args, hn with
    | [v], _ =>
      cases v with
      | obj y => exact hobj y rfl
      | _ => cases hspares rfl

theorem lxMapMerge_frozen {t : Table} (hf : h.Frozen r) (ht : h.map? r = some t) :
    Harmless h r (lxMapMerge env (.obj r :: args)) ↔
      (args.length = 1 → (arg args 0).isObj = true) := by
  refine harmless_with_other hf fun y hy => ?_
  subst hy
  refine checkArg_known.bind fun _ => Triple.given fun hmap => ?_
  exact lxMapMerge_rest ht hmap

theorem lxMapMergeWith_frozen (hf : h.Frozen r) :
    Harmless h r (lxMapMergeWith env (.obj r :: args)) ↔
      (args.length = 1 → (arg args 0).isObj = true) := by
  refine harmless_with_other hf fun y hy => ?_
  subst hy
  exact checkArg_known.bind fun _ => Triple.given fun _ => refusesMap hf.frozen

theorem checkArgs_passes {E : Stop → Heap → Prop} {checks : List (ℕ × ArgType × ℕ)}
    (hchecks : ∀ c ∈ checks, h.isA (arg args c.1) c.2.1 = true) :
    Triple (fun t => t = h) (checkArgs args checks) (fun _ t => t = h) E := by
  induction checks with
  | nil => exact Triple.pure fun _ ht => ht
  | cons c checks ih =>
    exact (checkArg_passes (hchecks c List.mem_cons_self)).bind fun _ =>
      ih fun c' hc' => hchecks c' (List.mem_cons_of_mem _ hc')

theorem castStrings_crashes {places : List ℕ} {i : ℕ} (hi : i ∈ places)
    (hnot : h.isA (arg args i) .string = false) :
    Triple (fun t => t = h) (castStrings args places) (fun _ _ => False)
      fun e _ => e.isThrown = false := by
  induction places with
  | nil => cases hi
  | cons j places ih =>
    cases hv : arg args j with
    | obj y =>
      rw [castStrings, hv]
      refine asObj_known.bind_known ?_
      cases hy : h.string? y with
      | none =>
        refine Triple.ends (Triple.look (fun t s ht hs => ?_) fun _ _ _ => rfl)
        rw [ht, hy] at hs
        cases hs
      | some s =>
        refine Triple.bind (look_known (a := s) fun t ht => by rw [ht]; exact hy) fun _ =>
          Triple.given fun _ => ih ?_
        refine (List.mem_cons.mp hi).resolve_left ?_
        rintro rfl
        simp [hv, Heap.isA, hy] at hnot
    | _ =>
      rw [castStrings, hv]
      exact Triple.stop fun _ _ => rfl

/-- A method that only reads fails where it takes something for a string that is none. -/
theorem Reader.call_frozen {m : Reader} (hf : h.Frozen r) :
    Harmless h r (m.call env (.obj r :: args)) ↔ m.Casts h (.obj r :: args) := by
  constructor
  · intro hharmless harity hchecks i hi
    by_contra hnot
    refine not_harmless_of_crash (c := m.call env (.obj r :: args)) ?_ hharmless
    have hpasses : Triple (fun t => t = h) (checkArity m.min m.max (.obj r :: args))
        (fun _ t => t = h) fun e _ => e.isThrown = false := by
      unfold checkArity stopIf
      exact Triple.ite (fun h => absurd harity h) fun _ => Triple.pure fun _ ht => ht
    refine hpasses.bind fun _ => asObj_known.bind fun _ => Triple.given fun _ => ?_
    refine (checkArgs_passes hchecks).bind fun _ => ?_
    exact (castStrings_crashes hi (by simpa using hnot)).ends
  · intro hcasts
    exact harmless_of_refusal hf (Reader.call_new hcasts)

theorem Native.call_frozen {m : Native} (hf : h.Frozen r) (hob : h.objs[r]? = some ob)
    (htag : m.tag = none ∨ m.tag = some ob.body.tag)
    (hstatic : ∀ a, h.array? r = some a → a.isStatic = false)
    (hsorted : ∀ l s, env.sorted l = some s → s.length = l.length) :
    Harmless h r (m.call env (.obj r :: args)) ↔ m.Spares env h r args := by
  have hfields : h.fieldsOf r = ob.fields := by simp [Heap.fieldsOf, hob]
  have hcells : h.cellsOf r = ob.body.cells h.mem := by simp [Heap.cellsOf, hob]
  have hstring : m.tag = some .string → ∃ s, h.string? r = some s ∧ ob.body = .string s := by
    intro hm
    cases hb : ob.body with
    | string s => exact ⟨s, string?_of_obj hob hb, rfl⟩
    | _ => simp [hm, hb, Body.tag] at htag
  have harray : m.tag = some .array → ∃ a, h.array? r = some a ∧ ob.body = .array a := by
    intro hm
    cases hb : ob.body with
    | array a => exact ⟨a, array?_of_obj hob hb, rfl⟩
    | _ => simp [hm, hb, Body.tag] at htag
  have hmap : m.tag = some .map → ∃ t, h.map? r = some t ∧ ob.body = .map t := by
    intro hm
    cases hb : ob.body with
    | map t => exact ⟨t, map?_of_obj hob hb, rfl⟩
    | _ => simp [hm, hb, Body.tag] at htag
  -- a method that checks the flag behind its arity
  have hrefuses : ∀ {c : Exec Value} {min : ℕ} {max : Option ℕ},
      Triple (fun t => t = h) c (fun _ => Extends h) (Raised h) →
      Harmless h r (checkArity min max (.obj r :: args) >>= fun _ => c) :=
    fun hc => harmless_of_refusal hf (refusesAfterArity hc)
  cases m with
  | reads m => exact Reader.call_frozen hf
  | objectDup =>
    refine iff_of_true (harmless_of_refusal hf ?_) trivial
    exact ((lxObjectDup_new hob).pre fun _ => extends_of_eq).bind fun _ =>
      Triple.pure fun _ ht => ht.2.1
  | objectFreeze => exact iff_of_true (lxObjectFreeze_frozen hf) trivial
  | objectUnfreeze => exact iff_of_true (lxObjectUnfreeze_frozen hf) trivial
  | objectSetProperty =>
    exact iff_of_true (harmless_of_refusal hf (lxObjectSetProperty_frozen hf.frozen)) trivial
  | errInit =>
    refine (lxErrInit_frozen hf hob).trans ?_
    rw [Native.Spares, hfields]
  | stringInit =>
    obtain ⟨s, hs, hbody⟩ := hstring rfl
    refine (lxStringInit_frozen hf hs).trans ?_
    rw [Native.Spares, hcells, hbody]
  | stringPush =>
    obtain ⟨s, hs, -⟩ := hstring rfl
    exact lxStringPush_frozen hf hs
  | stringDup =>
    obtain ⟨s, hs, -⟩ := hstring rfl
    exact lxStringDup_frozen hf hs
  | stringClear =>
    obtain ⟨s, hs, -⟩ := hstring rfl
    exact lxStringClear_frozen hf hs
  | stringInsertAt =>
    obtain ⟨s, hs, -⟩ := hstring rfl
    exact lxStringInsertAt_frozen hf hs
  | stringOpIndexSet =>
    obtain ⟨s, hs, -⟩ := hstring rfl
    exact lxStringOpIndexSet_frozen hf hs
  | stringPadRight =>
    obtain ⟨s, hs, -⟩ := hstring rfl
    refine (lxStringPadRight_frozen hf hs).trans ?_
    rw [Native.Spares, hs]
    rfl
  | arrayInit =>
    obtain ⟨a, -, hbody⟩ := harray rfl
    refine (lxArrayInit_frozen hob hbody).trans ?_
    rw [Native.Spares, hcells, hbody]
  | arrayDup =>
    obtain ⟨a, ha, -⟩ := harray rfl
    exact iff_of_true (harmless_of_refusal hf
      ((lxArrayDup_new ha (hf.fits.array ha)).pre fun _ => extends_of_eq)) trivial
  | arrayPush =>
    exact iff_of_true (hrefuses ((refusesArray hf.frozen).bind fun _ => Triple.pure fun _ he => he))
      trivial
  | arrayPop =>
    exact iff_of_true (hrefuses ((refusesArray hf.frozen).bind fun _ => Triple.pure fun _ he => he))
      trivial
  | arrayPushFront =>
    exact iff_of_true (hrefuses ((refusesArray hf.frozen).bind fun _ => Triple.pure fun _ he => he))
      trivial
  | arrayPopFront =>
    exact iff_of_true (hrefuses ((refusesArray hf.frozen).bind fun _ => Triple.pure fun _ he => he))
      trivial
  | arrayDelete =>
    exact iff_of_true (hrefuses ((refusesArray hf.frozen).bind fun _ => Triple.pure fun _ he => he))
      trivial
  | arrayDeleteAt =>
    exact iff_of_true (harmless_of_refusal hf (lxArrayDeleteAt_frozen hf.frozen)) trivial
  | arrayClear =>
    exact iff_of_true (hrefuses ((refusesArray hf.frozen).bind fun _ => Triple.pure fun _ he => he))
      trivial
  | arraySort =>
    obtain ⟨a, ha, -⟩ := harray rfl
    exact iff_of_true (hrefuses (((arraySort_new ha (hf.fits.array ha) (hstatic a ha)
      hsorted).pre fun _ => extends_of_eq).bind fun _ => Triple.pure fun _ he => he)) trivial
  | arraySortBy =>
    obtain ⟨a, ha, -⟩ := harray rfl
    exact iff_of_true (hrefuses (((arraySort_new ha (hf.fits.array ha) (hstatic a ha)
      hsorted).pre fun _ => extends_of_eq).bind fun _ => Triple.pure fun _ he => he)) trivial
  | arrayOpIndexSet =>
    obtain ⟨a, ha, -⟩ := harray rfl
    exact iff_of_true (harmless_of_refusal hf (lxArrayOpIndexSet_frozen ha hf.frozen)) trivial
  | mapInit =>
    obtain ⟨t, ht, -⟩ := hmap rfl
    refine (lxMapInit_frozen hf ht).trans ?_
    rw [Native.Spares, Heap.entriesOf, ht]
    rfl
  | mapDup =>
    obtain ⟨t, ht, -⟩ := hmap rfl
    exact iff_of_true (harmless_of_refusal hf (((lxMapDup_new ht).pre fun _ =>
      extends_of_eq).bind fun _ => Triple.pure fun _ he => he.2.1)) trivial
  | mapSet =>
    exact iff_of_true (hrefuses ((throwIfFrozen_frozen hf.frozen).ends))
      trivial
  | mapClear =>
    exact iff_of_true (hrefuses ((throwIfFrozen_frozen hf.frozen).ends))
      trivial
  | mapMerge =>
    obtain ⟨t, ht, -⟩ := hmap rfl
    exact lxMapMerge_frozen hf ht
  | mapMergeWith => exact lxMapMergeWith_frozen hf
  | mapDelete =>
    exact iff_of_true (hrefuses ((throwIfFrozen_frozen hf.frozen).ends))
      trivial
  | mapRehash =>
    exact iff_of_true (hrefuses ((throwIfFrozen_frozen hf.frozen).ends))
      trivial

end Every

/-! ## Every operation -/

/-- What a program or the virtual machine does to an object: a call of a native method (`init` and
the index assignment among them), an assignment of a property, a helper of `object.c`, a throw -/
inductive Action
  | calls (name : String) (args : List Value)
  | setsProperty (propName rval : Value)
  | pushString (pushed : ℕ)
  | clearString
  | stringInsertAt (insert : ℕ) (pos : ℤ) (replaceAt : Bool)
  | stringIndexSet (index : ℤ) (c : UInt8)
  | pushCString (chars : List UInt8) (lenToAdd : ℕ)
  | insertCString (chars : List UInt8) (lenToAdd : ℕ) (pos : ℤ) (replaceAt : Bool)
  | pushCStringVFmt (sbuf : List UInt8)
  | clearObjString
  | arrayPush (el : Value)
  | arrayPushFront (el : Value)
  | arrayDelete (el : Value)
  | arrayDeleteAt (idx : ℤ)
  | arrayPop
  | arrayPopFront
  | arrayClear
  | mapSet (key val : Value)
  | mapDelete (key : Value)
  | mapClear
  | setProp (propName val : Value)
  | throws
  deriving DecidableEq, Repr

def Action.exec (env : Env) (r : ℕ) : Action → Exec Unit
  | calls name args => do let _ ← callMethod env r name args
  | setsProperty propName rval => propertySet env r propName rval
  | pushString pushed => Objects.pushString env r pushed
  | clearString => Objects.clearString env r
  | stringInsertAt insert pos replaceAt => Objects.stringInsertAt env r insert pos replaceAt
  | stringIndexSet index c => Objects.stringIndexSet r index (some (.char c))
  | pushCString chars lenToAdd => Objects.pushCString env r (.bytes chars) lenToAdd
  | insertCString chars lenToAdd pos replaceAt =>
    Objects.insertCString env r (.bytes chars) lenToAdd pos replaceAt
  | pushCStringVFmt sbuf => Objects.pushCStringVFmt env r sbuf
  | clearObjString => Objects.clearObjString env r
  | arrayPush el => Objects.arrayPush env r el
  | arrayPushFront el => Objects.arrayPushFront env r el
  | arrayDelete el => do let _ ← Objects.arrayDelete env r el
  | arrayDeleteAt idx => do let _ ← Objects.arrayDeleteAt env r idx
  | arrayPop => do let _ ← Objects.arrayPop env r
  | arrayPopFront => do let _ ← Objects.arrayPopFront env r
  | arrayClear => Objects.arrayClear env r
  | mapSet key val => Objects.mapSet env r key val
  | mapDelete key => Objects.mapDelete env r key
  | mapClear => Objects.mapClear r
  | setProp propName val => Objects.setProp env r propName val
  | throws => throwErrorVal env r

/-- A helper gets an object of its type. -/
def Action.applies (h : Heap) (r : ℕ) : Action → Bool
  | pushString _ | clearString | stringInsertAt _ _ _ | stringIndexSet _ _ | pushCString _ _
  | insertCString _ _ _ _ | pushCStringVFmt _ | clearObjString => (h.string? r).isSome
  | arrayPush _ | arrayPushFront _ | arrayDelete _ | arrayDeleteAt _ | arrayPop | arrayPopFront
  | arrayClear => (h.array? r).isSome
  | mapSet _ _ | mapDelete _ | mapClear => (h.map? r).isSome
  | calls _ _ | setsProperty _ _ | setProp _ _ | throws => true

/-- The operation leaves the frozen object `r` as it is, and returns or throws. -/
def Action.Spares (env : Env) (h : Heap) (r : ℕ) : Action → Prop
  | calls name args => ∀ m ∈ h.methodOf r name, m.Spares env h r args
  -- these assert that the string is not frozen
  | pushCString _ _ | insertCString _ _ _ _ | pushCStringVFmt _ | clearObjString => False
  -- these do not look at the flag
  | mapSet key val => entryOf env key (h.entriesOf r) = some (key, val)
  | mapDelete key => entryOf env key (h.entriesOf r) = none
  | mapClear => h.entriesOf r = []
  | setProp propName val => entryOf env propName (h.fieldsOf r) = some (propName, val)
  -- the backtrace of an error is set at its first throw
  | throws => ∀ ob ∈ h.objs[r]?, ob.body = .error false →
      (tableGet env (.obj (h.internedRef (cString "backtrace"))) ob.fields).getD .nil ≠ .nil
  | _ => True

section Actions

variable {h : Heap} {r : ℕ} {env : Env} {ob : Obj} {act : Action}

theorem harmless_discard {α : Type} {c : Exec α} :
    Harmless h r (c >>= fun _ => pure ()) ↔ Harmless h r c := by
  unfold Harmless
  rw [bind_apply]
  cases hc : c h with
  | mk res t =>
    cases res <;> exact Iff.rfl

theorem harmless_congr {α : Type} {c d : Exec α} (hcd : c h = d h) :
    Harmless h r c ↔ Harmless h r d := by
  unfold Harmless
  rw [hcd]

theorem callMethod_frozen {name : String} {args : List Value} (hf : h.Frozen r)
    (hob : h.objs[r]? = some ob) (hstatic : ∀ a, h.array? r = some a → a.isStatic = false)
    (hsorted : ∀ l s, env.sorted l = some s → s.length = l.length) :
    Harmless h r (callMethod env r name args) ↔
      ∀ m ∈ h.methodOf r name, m.Spares env h r args := by
  have hmethod : h.methodOf r name = ob.body.methods.lookup name := by
    simp [Heap.methodOf, hob]
  rw [hmethod]
  cases hm : ob.body.methods.lookup name with
  | none =>
    have hget : callMethod env r name args h = _ := bind_of_ok (look_of_some hob)
    rw [hm] at hget
    rw [harmless_congr hget]
    refine iff_of_true (harmless_of_refusal hf ?_) fun m hm' => by cases hm'
    exact Triple.stop fun _ ht => ⟨rfl, extends_of_eq ht⟩
  | some m =>
    have hget : callMethod env r name args h = _ := bind_of_ok (look_of_some hob)
    rw [hm] at hget
    rw [harmless_congr hget, Native.call_frozen hf hob (tag_of_lookup hm) hstatic hsorted]
    simp

theorem Action.exec_frozen (hf : h.Frozen r) (happlies : act.applies h r = true)
    (hstatic : ∀ a, h.array? r = some a → a.isStatic = false)
    (hsorted : ∀ l s, env.sorted l = some s → s.length = l.length) :
    Harmless h r (act.exec env r) ↔ act.Spares env h r := by
  obtain ⟨ob, hob, -⟩ := hf.obj
  have hfields : h.fieldsOf r = ob.fields := by simp [Heap.fieldsOf, hob]
  have hrefuses : ∀ {α : Type} {what : String} {f : Unit → Exec α},
      Harmless h r (throwIfFrozen r what >>= f) := fun {_ _ _} =>
    harmless_of_refusal hf ((throwIfFrozen_frozen hf.frozen).ends)
  have haborts : ∀ {α : Type} {f : Heap → Unit → Exec α},
      ¬ Harmless h r (heap >>= fun h₁ => assert (!h₁.isFrozen r) >>= f h₁) := fun {_ _} =>
    not_harmless_of_crash (assertUnfrozen_aborts hf.frozen)
  have hmap : (h.map? r).isSome = true → ∃ t, h.entriesOf r = t ∧ ob.body = .map t := by
    intro hsome
    obtain ⟨t, ht⟩ := Option.isSome_iff_exists.mp hsome
    obtain ⟨o, ho, hb⟩ := Heap.body_of_map? ht
    cases hob.symm.trans ho
    exact ⟨t, by simp [Heap.entriesOf, ht], hb⟩
  cases act with
  | calls name args => exact harmless_discard.trans (callMethod_frozen hf hob hstatic hsorted)
  | setsProperty propName rval =>
    exact iff_of_true (harmless_of_refusal hf (propertySet_frozen hf.frozen)) trivial
  | pushString pushed => exact iff_of_true hrefuses trivial
  | clearString => exact iff_of_true hrefuses trivial
  | stringInsertAt insert pos replaceAt => exact iff_of_true hrefuses trivial
  | stringIndexSet index c =>
    obtain ⟨s, hs⟩ := Option.isSome_iff_exists.mp happlies
    refine iff_of_true (harmless_of_refusal hf ?_) trivial
    refine Triple.bind (look_known (a := s) fun t ht => by rw [ht]; exact hs) fun _ =>
      Triple.given fun _ => ?_
    exact (throwIfFrozen_frozen hf.frozen).ends
  | pushCString chars lenToAdd => exact iff_of_false haborts id
  | insertCString chars lenToAdd pos replaceAt => exact iff_of_false haborts id
  | pushCStringVFmt sbuf => exact iff_of_false haborts id
  | clearObjString => exact iff_of_false haborts id
  | arrayPush el => exact iff_of_true hrefuses trivial
  | arrayPushFront el => exact iff_of_true hrefuses trivial
  | arrayDelete el => exact iff_of_true (harmless_discard.mpr hrefuses) trivial
  | arrayDeleteAt idx => exact iff_of_true (harmless_discard.mpr hrefuses) trivial
  | arrayPop => exact iff_of_true (harmless_discard.mpr hrefuses) trivial
  | arrayPopFront => exact iff_of_true (harmless_discard.mpr hrefuses) trivial
  | arrayClear => exact iff_of_true hrefuses trivial
  | mapSet key val =>
    obtain ⟨t, ht, hbody⟩ := hmap happlies
    have hget : getMap r h = (.ok t, h) := look_of_some (map?_of_obj hob hbody)
    have hset : Objects.mapSet env r key val h =
        (getMap r >>= fun _ => setMap r (tableSet env key val t)) h := by
      simp only [Objects.mapSet, bind_apply, hget]
    show Harmless h r (Objects.mapSet env r key val) ↔ entryOf env key (h.entriesOf r) = _
    rw [harmless_congr hset, harmless_setMap hob hbody, ht, tableSet_eq_self]
  | mapDelete key =>
    obtain ⟨t, ht, hbody⟩ := hmap happlies
    have hget : getMap r h = (.ok t, h) := look_of_some (map?_of_obj hob hbody)
    have hdelete : Objects.mapDelete env r key h =
        (getMap r >>= fun _ => setMap r (tableDelete env key t)) h := by
      simp only [Objects.mapDelete, bind_apply, hget]
    show Harmless h r (Objects.mapDelete env r key) ↔ entryOf env key (h.entriesOf r) = _
    rw [harmless_congr hdelete, harmless_setMap hob hbody, ht, tableDelete_eq_self]
  | mapClear =>
    obtain ⟨t, ht, hbody⟩ := hmap happlies
    show Harmless h r (getMap r >>= fun _ => setMap r []) ↔ h.entriesOf r = []
    rw [harmless_setMap hob hbody, ht, eq_comm]
  | setProp propName val =>
    show Harmless h r (Objects.setProp env r propName val) ↔
      entryOf env propName (h.fieldsOf r) = _
    rw [setProp_frozen hf hob, hfields]
  | throws =>
    show Harmless h r (throwErrorVal env r) ↔ ∀ ob ∈ h.objs[r]?, _
    rw [throwErrorVal_frozen hf hob, hob]
    simp

end Actions

/-! ## Runs -/

section Runs

variable {h : Heap} {r : ℕ} {env : Env}

theorem Op.apart_other (op : Op) (h : Heap) : op.Apart .other h := by
  intro hwrites
  cases op with
  | invokes self name args =>
    cases hm : h.methodOf self name with
    | none => simp [Op.writesInPlace, hm] at hwrites
    | some m => simp [Op.writesInPlace, hm, Native.writesInPlace] at hwrites
  | _ => simp [Op.writesInPlace] at hwrites

theorem fits_empty : Heap.empty.Fits := nofun

/-- What an object that a program has frozen is like. -/
theorem frozen_of_run {es : List (Env × Op)} (hrun : run step Heap.empty es = some h)
    (hfrozen : h.isFrozen r = true) : h.Frozen r := by
  have halways : Always step (fun t => t.Bounded ∧ t.Fits) Heap.empty es := by
    refine always_of_each (I := fun t => Sound .other t.mem.next t.handle ∧ t.Fits)
      (Q := fun _ _ _ => True) ?_ ?_ ?_ ?_
    · exact fun t hinv => ⟨hinv.1.bounded, hinv.2⟩
    · rintro t ⟨env, op⟩ t' ⟨hsound, hfits⟩ - hstep
      have hr : op.receiver.all (· == op.receiver.getD 0) = true := by cases op.receiver <;> simp
      exact ⟨(step_spec hsound (op.apart_other t) hr hstep).1, step_fits hfits hstep⟩
    · exact ⟨sound_empty, fits_empty⟩
    · exact each_true _ _
  obtain ⟨hbounded, hfits⟩ := halways.end hrun
  exact ⟨hfrozen, hbounded, hfits⟩

/-- In every run, an operation leaves a frozen object as it is, and returns or throws, exactly when
it spares it. The constants of array literals are no objects of a program, and `qsort` puts the
elements that it gets in another order. -/
theorem frozen_unchanged_iff {es : List (Env × Op)} (hrun : run step Heap.empty es = some h)
    (hfrozen : h.isFrozen r = true) (act : Action) (happlies : act.applies h r = true)
    (hstatic : ∀ a, h.array? r = some a → a.isStatic = false)
    (hsorted : ∀ l s, env.sorted l = some s → s.length = l.length) :
    Harmless h r (act.exec env r) ↔ act.Spares env h r :=
  act.exec_frozen (frozen_of_run hrun hfrozen) happlies hstatic hsorted

/-- The program `"a".freeze()` -/
def freezesString : List (Env × Op) :=
  [(Env.moving, .makes (.string [97])), (Env.moving, .invokes 0 "freeze" [])]

def Heap.withFrozen : Heap := (run step Heap.empty freezesString).getD Heap.empty

theorem withFrozen_of_run : run step Heap.empty freezesString = some Heap.withFrozen := by
  have hsome : (run step Heap.empty freezesString).isSome = true := by decide +kernel
  obtain ⟨h, hh⟩ := Option.isSome_iff_exists.mp hsome
  simp [Heap.withFrozen, hh]

/-- `padRight` to the length that the string has -/
theorem frozen_unchanged_padRight :
    Harmless Heap.withFrozen 0 ((Action.calls "padRight" [.number 1, .obj 0]).exec Env.moving 0) ↔
      (Action.calls "padRight" [.number 1, .obj 0]).Spares Env.moving Heap.withFrozen 0 :=
  frozen_unchanged_iff withFrozen_of_run (by decide +kernel) _ rfl
    (fun a ha => by
      have hnone : Heap.withFrozen.array? 0 = none := by decide +kernel
      rw [hnone] at ha
      cases ha)
    (by
      rintro l s hs
      cases hs
      rfl)

/-- `init` empties it. -/
theorem init_changes_frozen :
    ¬ ∀ (es : List (Env × Op)) (h : Heap) (r : ℕ) (env : Env) (act : Action),
      run step Heap.empty es = some h → h.isFrozen r = true → act.applies h r = true →
        Harmless h r (act.exec env r) := by
  intro hall
  have hinit := hall freezesString Heap.withFrozen 0 Env.moving (.calls "init" [])
    withFrozen_of_run (by decide +kernel) rfl
  revert hinit
  decide +kernel

end Runs

end Clox.Objects
