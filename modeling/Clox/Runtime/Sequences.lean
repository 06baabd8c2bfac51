import Clox.Runtime.Frozen
import Mathlib.Data.List.InsertIdx

/-! # Arrays as sequences

What the mutators of an array do to its elements, against the operations on lists that they stand
for: all of them throw for a frozen array, and `pushFront`, `deleteAt` and `fill` have cases of
their own where the elements are not those of the list.
-/

namespace Clox.Objects

open Commands Command Sharing

/-! ## `Array.fill` -/

/-- `writeValueArrayBulk` -/
def writeValueArrayBulk (ary : ObjArray) (offset num : ℕ) (fill : Option Cell) : Exec ObjArray := do
  assert (ary.values ≠ none)
  storeCells ary.values offset (List.replicate num fill)
  return { ary with count := ary.count + num }

/-- The values of the new array; one is written where there is no `initValueArrayWithCapa`. -/
def fillValues (env : Env) (ary : ObjArray) (capaNum : ℤ) (fill : Value) : Exec ObjArray :=
  if capaNum > 1 then do
    let ary ← initValueArrayWithCapa env ary capaNum.toNat
    writeValueArrayBulk ary 0 capaNum.toNat (some (.value fill))
  else
    writeValueArrayEnd env (initValueArray ary) (some (.value fill))

def lxArrayFillStatic (env : Env) (args : List Value) : Exec Value := do
  checkArity 2 (some 3) args
  checkArg (arg args 1) .number 1
  let ret ← newArray
  let ary ← getArray ret
  let ary ← fillValues env ary (asNumber (arg args 1)) (arg args 2)
  setArray ret ary
  return .obj ret

/-! ## The operations on lists -/

inductive Mutator
  | push (el : Value)
  | pop
  | pushFront (el : Value)
  | popFront
  | delete (el : Value)
  | deleteAt (idx : ℤ)
  | clear

namespace Mutator

/-- The method, called on `self`. -/
def call (env : Env) (self : ℕ) : Mutator → Exec Value
  | push el => lxArrayPush env [.obj self, el]
  | pop => lxArrayPop env [.obj self]
  | pushFront el => lxArrayPushFront env [.obj self, el]
  | popFront => lxArrayPopFront env [.obj self]
  | delete el => lxArrayDelete env [.obj self, el]
  | deleteAt idx => lxArrayDeleteAt env [.obj self, .number idx]
  | clear => lxArrayClear env [.obj self]

/-- The place that an index means; a negative one is counted from the end. -/
def place (idx : ℤ) (n : ℕ) : Option ℕ :=
  let k := if idx < 0 then idx + n else idx
  if 0 ≤ k ∧ k < n then some k.toNat else none

/-- Where `delete` finds its element. -/
def found (env : Env) (el : Value) (els : List Value) : Option ℕ :=
  els.findIdx? fun v => env.keyOf el == env.keyOf v

/-- The elements afterwards. -/
def after (env : Env) (els : List Value) : Mutator → List Value
  | push el => els ++ [el]
  | pop => els.dropLast
  | pushFront el => el :: els
  | popFront => els.tail
  | delete el => (found env el els).elim els els.eraseIdx
  | deleteAt idx => (place idx els.length).elim els els.eraseIdx
  | clear => []

/-- The element that comes back, or the array itself. -/
def result (env : Env) (self : ℕ) (els : List Value) : Mutator → Value
  | push _ | pushFront _ | clear => .obj self
  | pop => els.getLast?.getD .nil
  | popFront => els.head?.getD .nil
  | delete el => ((found env el els).map fun i => Value.number i).getD .nil
  | deleteAt idx => ((place idx els.length).bind (els[·]?)).getD .nil

end Mutator

/-- The object is an array of these elements, with room for them. -/
def IsArray (r : ℕ) (xs : Cells) (t : Heap) : Prop := ∃ a, t.array? r = some a ∧ Holds t.mem a xs

/-- The method returns, with the element and the elements of the operation on lists. -/
def Mutator.Correct (env : Env) (h : Heap) (r : ℕ) (els : List Value) (m : Mutator) : Prop :=
  ∃ t, m.call env r h = (.ok (m.result env r els), t) ∧ IsArray r (argCells (m.after env els)) t

/-- `Array.fill` returns an array of `n` times the value. -/
def FillCorrect (env : Env) (h : Heap) (klass : Value) (n : ℤ) (fill : List Value) : Prop :=
  ∃ r t, lxArrayFillStatic env (klass :: .number n :: fill) h = (.ok (.obj r), t) ∧
    IsArray r (argCells (List.replicate n.toNat (arg fill 0))) t

section Known

variable {env : Env} {h : Heap} {r : ℕ} {a : ObjArray} {xs rest : Cells} {l : List Obj}
  {α : Type} {E : Stop → Heap → Prop}

theorem IsArray.inj {ys : Cells} {t : Heap} (hx : IsArray r xs t) (hy : IsArray r ys t) :
    xs = ys := by
  obtain ⟨a, ha, hxs⟩ := hx
  obtain ⟨b, hb, hys⟩ := hy
  cases ha.symm.trans hb
  rw [← hxs.cells, ← hys.cells]

/-- A command that never returns. -/
theorem never_returns {c : Exec α} {w : α} {P : Heap → Prop}
    (hc : Triple (fun t => t = h) c (fun _ _ => False) E) : ¬ ∃ t, c h = (.ok w, t) ∧ P t := by
  rintro ⟨t, heq, -⟩
  have hcs := hc h rfl
  rw [heq] at hcs
  exact hcs

theorem throwIfFrozen_thawed {what : String} (hf : h.isFrozen r = false) :
    Triple (fun t => t = h) (throwIfFrozen r what) (fun _ t => t = h) E := by
  rintro t rfl
  simp [throwIfFrozen, heap, stopIf, hf, bind_apply]

/-- The array has a block of its own; the spare cells of a copy were never written. -/
def Own (r : ℕ) (a : ObjArray) (xs rest : Cells) (a' : ObjArray) (t : Heap) : Prop :=
  t.array? r = some a' ∧ ∃ rest', Stored t.mem a' xs rest' ∧
    if a.isShared then ∃ n, rest' = List.replicate n none else rest' = rest

theorem array?_setBody {b : ObjArray} {t : Heap} (hobjs : t.objs = h.objs)
    (ha : h.array? r = some a) : (t.setBody r (.array b)).array? r = some b := by
  refine Heap.array?_setBody_self (a := a) ?_
  unfold Heap.array? at ha ⊢
  rwa [hobjs]

theorem setArray_holds {b : ObjArray} {ys : Cells} (ha : h.array? r = some a) :
    Triple (fun t => t.objs = h.objs ∧ Holds t.mem b ys) (setArray r b)
      (fun _ => IsArray r ys) E :=
  Triple.modify fun _ ht => ⟨b, array?_setBody ht.1 ha, ht.2⟩

theorem arrayDedup_stored (ha : h.array? r = some a) (hs : Stored h.mem a xs rest) :
    Triple (fun t => t = h) (arrayDedup env r)
      (fun _ t => ∃ a', Own r a xs rest a' t) E := by
  refine Triple.bind (look_known (a := a) fun t ht => by rw [ht]; exact ha) fun a₁ =>
    Triple.given ?_
  rintro rfl
  refine Triple.ite (fun hshared => ?_) fun hown => Triple.pure fun t ht => ?_
  · have hnone : a₁.values = none → a₁.count = 0 := hs.fits.loads
    refine (loadCells_start hnone).bind_known ?_
    rw [hs.load]
    have hempty : ∀ t, t = h → t.objs = h.objs ∧
        Stored t.mem (initValueArray a₁) [] (List.replicate 0 none) := by
      rintro t rfl
      exact ⟨rfl, Stored.empty⟩
    refine (writeAll_stored.pre hempty).bind fun a₂ => Triple.modify fun t ht => ?_
    obtain ⟨hobjs, n, hstored⟩ := ht
    refine ⟨_, array?_setBody hobjs ha, List.replicate n none, hstored.congr rfl rfl rfl, ?_⟩
    rw [if_pos hshared]
    exact ⟨n, rfl⟩
  · rw [ht]
    exact ⟨a₁, ha, rest, hs, by rw [if_neg hown]⟩

/-- A mutator, from where it has its array: behind the flag and the copy. -/
theorem mutator_known {c : ObjArray → Exec α} {Q : α → Heap → Prop} (ha : h.array? r = some a)
    (hs : Stored h.mem a xs rest) (hf : h.isFrozen r = false)
    (hc : ∀ a', Triple (Own r a xs rest a') (c a') Q E) :
    Triple (fun t => t = h)
      (do throwIfFrozen r "Array"; arrayDedup env r; let ary ← getArray r; c ary) Q E := by
  refine (throwIfFrozen_thawed hf).bind fun _ => (arrayDedup_stored ha hs).bind fun _ => ?_
  refine Triple.of_exists fun a' => (look_known (a := a') fun t ht => ht.1).bind fun a'' =>
    Triple.given ?_
  rintro rfl
  exact hc a''

/-- What is left to say of a mutator: which array it makes of the one that it has. -/
theorem replace_some {a' : ObjArray} {c : Exec ObjArray} {P : Cells → Prop}
    (hc : ∀ l rest', (if a.isShared then ∃ n, rest' = List.replicate n none else rest' = rest) →
      ∃ ys, P ys ∧ Triple (fun t => t.objs = l ∧ Stored t.mem a' xs rest') c
        (fun b t => t.objs = l ∧ Holds t.mem b ys) E) :
    Triple (Own r a xs rest a') (c >>= fun b => setArray r b)
      (fun _ t => ∃ ys, P ys ∧ IsArray r ys t) E := by
  refine Triple.start fun t ⟨ha', rest', hstored, hrest⟩ => ?_
  obtain ⟨ys, hys, hcs⟩ := hc t.objs rest' hrest
  refine (hcs.pre fun s hs => ?_).bind fun b => (setArray_holds ha').post fun _ s hs => ⟨ys, hys, hs⟩
  rw [hs]
  exact ⟨rfl, hstored⟩

theorem replace_known {a' : ObjArray} {c : Exec ObjArray} {ys : Cells}
    (hc : ∀ l rest', Triple (fun t => t.objs = l ∧ Stored t.mem a' xs rest') c
      (fun b t => t.objs = l ∧ Holds t.mem b ys) E) :
    Triple (Own r a xs rest a') (c >>= fun b => setArray r b) (fun _ => IsArray r ys) E := by
  refine (replace_some (P := (· = ys)) fun l rest' _ => ⟨ys, rfl, hc l rest'⟩).post fun _ t ht => ?_
  obtain ⟨_, rfl, hx⟩ := ht
  exact hx

theorem arrayPush_known {el : Value} (ha : h.array? r = some a) (hs : Stored h.mem a xs rest)
    (hf : h.isFrozen r = false) :
    Triple (fun t => t = h) (arrayPush env r el)
      (fun _ => IsArray r (xs ++ [some (.value el)])) E :=
  mutator_known ha hs hf fun _ => replace_known fun _ _ =>
    writeValueArrayEnd_stored.post fun _ _ h => ⟨h.1, h.2.holds⟩

theorem arrayClear_known (ha : h.array? r = some a) (hs : Stored h.mem a xs rest)
    (hf : h.isFrozen r = false) :
    Triple (fun t => t = h) (arrayClear env r) (fun _ => IsArray r []) E := by
  refine mutator_known ha hs hf fun a' => replace_known fun l rest' => ?_
  unfold freeValueArray freeArray
  cases a'.values with
  | none => exact Triple.pure fun t ht => ⟨ht.1, Holds.empty⟩
  | some p =>
    refine Triple.bind (Q := fun _ t => t.objs = l) (Triple.modify fun t ht => ht.1) fun _ =>
      Triple.pure fun t ht => ⟨ht, Holds.empty⟩

/-! ## At the front -/

/-- The elements of an array that got a value at its front. -/
def pushedFront (el : Option Cell) (capacity : ℕ) (xs rest : Cells) : Cells :=
  (movedOne el (xs ++ spareCells capacity rest)).take (xs.length + 1)

theorem append_singleton_eq_cons_iff {β : Type} {c y : β} {zs : List β} :
    zs ++ [c] = y :: zs ↔ ∀ e ∈ y :: zs, e = c := by
  induction zs generalizing y with
  | nil =>
    simp only [List.nil_append, List.cons.injEq, and_true, List.mem_singleton, forall_eq]
    exact eq_comm
  | cons z zs ih =>
    rw [List.cons_append, List.cons.injEq, ih]
    constructor
    · rintro ⟨rfl, hall⟩
      exact List.forall_mem_cons.mpr ⟨hall z List.mem_cons_self, hall⟩
    · intro hall
      have hrest := (List.forall_mem_cons.mp hall).2
      exact ⟨(hrest z List.mem_cons_self).trans (hall y List.mem_cons_self).symm, hrest⟩

/-- The elements behind the first are all the same, and so is the next spare cell: they do not have
to move. -/
theorem pushedFront_eq_iff {el : Option Cell} {capacity : ℕ} (hxs : none ∉ xs) :
    pushedFront el capacity xs rest = el :: xs ↔
      xs.length ≤ 1 ∨ ∀ e ∈ xs.tail, rest.head? = some e := by
  obtain ⟨c, cs, hspare⟩ := List.exists_cons_of_ne_nil (spareCells_ne_nil capacity rest)
  have hhead : ∀ e, e ≠ none → (e = c ↔ rest.head? = some e) := by
    intro e he
    unfold spareCells at hspare
    split at hspare
    · rename_i hnil
      have hc : c = none := List.eq_of_mem_replicate (hspare ▸ List.mem_cons_self)
      rw [hnil, hc]
      exact iff_of_false he (by simp)
    · rw [hspare, List.head?_cons, Option.some.injEq, eq_comm]
  unfold pushedFront
  rw [hspare]
  match xs, hxs with
  | [], _ => cases cs <;> simp [movedOne]
  | [x], _ => simp [movedOne]
  | x :: y :: zs, hxs =>
    have htake : (zs ++ c :: cs).take (zs.length + 1) = zs ++ [c] := by
      simp [List.take_append, List.take_of_length_le (Nat.le_succ zs.length)]
    show el :: x :: (zs ++ c :: cs).take (zs.length + 1) = el :: x :: y :: zs ↔ _
    rw [htake, List.cons.injEq, List.cons.injEq, append_singleton_eq_cons_iff]
    have htail : (∀ e ∈ y :: zs, e = c) ↔ ∀ e ∈ y :: zs, rest.head? = some e :=
      forall₂_congr fun e he => hhead e fun hn => hxs (hn ▸ List.mem_cons_of_mem x he)
    simpa using htail

/-- A value can be put before the elements: there is one at most, or none of the others has to
move. -/
def FrontRoom (a : ObjArray) (xs rest : Cells) : Prop :=
  xs.length ≤ 1 ∨ a.isShared = false ∧ ∀ e ∈ xs.tail, rest.head? = some e

/-- The spare cells of a copy are no help. -/
theorem frontRoom_iff {rest' : Cells} (hxs : none ∉ xs)
    (hrest : if a.isShared then ∃ n, rest' = List.replicate n none else rest' = rest) :
    FrontRoom a xs rest ↔ xs.length ≤ 1 ∨ ∀ e ∈ xs.tail, rest'.head? = some e := by
  unfold FrontRoom
  by_cases hshared : a.isShared = true
  · rw [if_pos hshared] at hrest
    obtain ⟨n, rfl⟩ := hrest
    refine or_congr_right' fun hlen => iff_of_false (by simp [hshared]) fun hall => ?_
    match xs, hxs with
    | [], _ => exact hlen (Nat.zero_le 1)
    | [x], _ => exact hlen (Nat.le_refl 1)
    | x :: y :: zs, hxs =>
      have hhead := hall y List.mem_cons_self
      have hy : y = none := List.eq_of_mem_replicate (List.mem_of_mem_head? hhead)
      exact hxs (hy ▸ List.mem_cons_of_mem x List.mem_cons_self)
  · rw [if_neg hshared] at hrest
    rw [hrest]
    simp [hshared]

theorem arrayPushFront_known {el : Value} (ha : h.array? r = some a)
    (hs : Stored h.mem a xs rest) (hf : h.isFrozen r = false) (hxs : none ∉ xs) :
    Triple (fun t => t = h) (arrayPushFront env r el)
      (fun _ t => ∃ ys, (ys = some (.value el) :: xs ↔ FrontRoom a xs rest) ∧ IsArray r ys t) E := by
  refine mutator_known ha hs hf fun a' => replace_some fun l rest' hrest => ?_
  refine ⟨pushedFront (some (.value el)) a'.capacity xs rest', ?_, ?_⟩
  · rw [pushedFront_eq_iff hxs, frontRoom_iff hxs hrest]
  · refine (writeValueArrayBeg_stored ?_ (List.take_append_drop (xs.length + 1) _).symm).post
      fun _ _ h => ⟨h.1, h.2.holds⟩
    have hspare := List.length_pos_of_ne_nil (spareCells_ne_nil a'.capacity rest')
    rw [List.length_take, length_movedOne, List.length_append]
    omega

/-! ## Taking out -/

/-- An element is taken out, and the others keep their order. -/
theorem removeValueArray_known {a' : ObjArray} {i : ℕ} (hi : i < xs.length) :
    Triple (fun t => t.objs = l ∧ Stored t.mem a' xs rest) (removeValueArray a' i)
      (fun b t => t.objs = l ∧ Holds t.mem b (xs.eraseIdx i)) E := by
  have hsplit : xs = xs.take i ++ xs[i] :: xs.drop (i + 1) := by
    rw [← List.drop_eq_getElem_cons hi, List.take_append_drop]
  have hlen : (xs.take i).length = i := List.length_take_of_le (Nat.le_of_lt hi)
  have hremove : Triple (fun t => t.objs = l ∧
      Stored t.mem a' (xs.take i ++ xs[i] :: xs.drop (i + 1)) rest)
        (removeValueArray a' (xs.take i).length) _ E := removeValueArray_stored
  rw [← hsplit, hlen, ← List.eraseIdx_eq_take_drop_succ] at hremove
  exact hremove.post fun _ _ ⟨hobjs, _, h⟩ => ⟨hobjs, h.holds⟩

/-- The array after an element was taken out; what is returned was read before. -/
theorem take_known {a' : ObjArray} {w : α} {i : ℕ} (hi : i < xs.length) :
    Triple (Own r a xs rest a')
      (do let ary ← removeValueArray a' i; setArray r ary; return w)
      (fun u t => u = w ∧ IsArray r (xs.eraseIdx i) t) E := by
  have hset : Triple (Own r a xs rest a') (removeValueArray a' i >>= fun b => setArray r b)
      (fun _ => IsArray r (xs.eraseIdx i)) E :=
    replace_known fun _ _ => removeValueArray_known hi
  rw [← Command.bind_assoc]
  exact hset.bind fun _ => Triple.pure fun t ht => ⟨rfl, ht⟩

theorem Own.isArray {a' : ObjArray} {t : Heap} (ht : Own r a xs rest a' t) : IsArray r xs t := by
  obtain ⟨ha, rest', hstored, -⟩ := ht
  exact ⟨a', ha, hstored.holds⟩

/-- The elements are read; the number of them is known. -/
theorem loadCells_own {a' : ObjArray} :
    Triple (Own r a xs rest a') (loadCells a'.values a'.count)
      (fun values t => (values = xs ∧ a'.count = xs.length) ∧ Own r a xs rest a' t) E := by
  refine Triple.of_imp (p := (a'.values = none → a'.count = 0))
    (fun t ⟨_, _, hstored, _⟩ => hstored.fits.loads) fun hnone => ?_
  refine (loadCells_known hnone E).post fun values t ⟨hvalues, ht⟩ => ?_
  obtain ⟨ha, rest', hstored, hrest⟩ := ht
  rw [hvalues, hstored.load]
  exact ⟨⟨rfl, hstored.count⟩, ha, rest', hstored, hrest⟩

theorem arrayTake_known {front : Bool} (ha : h.array? r = some a) (hs : Stored h.mem a xs rest)
    (hf : h.isFrozen r = false) :
    Triple (fun t => t = h) (arrayTake env r front)
      (fun v t => v = (if front then xs.head? else xs.getLast?).getD (some (.value .nil)) ∧
        IsArray r (if front then xs.tail else xs.dropLast) t) E := by
  refine mutator_known ha hs hf fun a' => ?_
  refine Triple.of_imp (p := a'.count = xs.length) (fun t ⟨_, _, hstored, _⟩ => hstored.count)
    fun hcount => ?_
  refine Triple.ite (fun hzero => Triple.pure fun t ht => ?_) fun hpos => ?_
  · have hnil : xs = [] := List.eq_nil_of_length_eq_zero (hcount ▸ hzero)
    have hx := ht.isArray
    rw [hnil] at hx ⊢
    cases front <;> exact ⟨rfl, hx⟩
  · refine loadCells_own.bind fun values => Triple.given ?_
    rintro ⟨rfl, -⟩
    rw [hcount] at hpos ⊢
    have hi : (if front then 0 else values.length - 1) < values.length := by
      split <;> omega
    refine (take_known hi).post fun v t ⟨hv, ht⟩ => ?_
    rw [hv]
    cases front with
    | true =>
      obtain ⟨c, hc⟩ : ∃ c, values[0]? = some c := ⟨_, List.getElem?_eq_getElem hi⟩
      rw [if_pos rfl, List.eraseIdx_zero] at ht
      exact ⟨by simp [List.head?_eq_getElem?, hc], ht⟩
    | false =>
      obtain ⟨c, hc⟩ : ∃ c, values[values.length - 1]? = some c := ⟨_, List.getElem?_eq_getElem hi⟩
      rw [if_neg Bool.false_ne_true, List.eraseIdx_length_sub_one] at ht
      exact ⟨by simp [List.getLast?_eq_getElem?, hc], ht⟩

/-- `arrayDelete` compares the values in the cells. -/
theorem findIdx?_argCells (p : Value → Bool) (els : List Value) :
    (argCells els).findIdx? (fun | some (.value v) => p v | _ => false) = els.findIdx? p := by
  rw [argCells, List.findIdx?_map]
  rfl

theorem eraseIdx_argCells (els : List Value) (i : ℕ) :
    (argCells els).eraseIdx i = argCells (els.eraseIdx i) :=
  List.eraseIdx_map ..

theorem arrayDelete_known {els : List Value} {el : Value} (ha : h.array? r = some a)
    (hs : Stored h.mem a (argCells els) rest) (hf : h.isFrozen r = false) :
    Triple (fun t => t = h) (arrayDelete env r el)
      (fun i t => i = Mutator.found env el els ∧
        IsArray r (argCells ((Mutator.found env el els).elim els els.eraseIdx)) t) E := by
  refine mutator_known ha hs hf fun a' => ?_
  refine loadCells_own.bind fun values => Triple.given ?_
  rintro ⟨rfl, -⟩
  dsimp only
  generalize hidx : List.findIdx? _ (argCells els) = idx
  have hfound : idx = Mutator.found env el els := hidx.symm.trans (findIdx?_argCells _ els)
  rw [← hfound]
  cases idx with
  | none => exact Triple.pure fun t ht => ⟨rfl, ht.isArray⟩
  | some i =>
    have hi : i < (argCells els).length := by
      rw [argCells, List.length_map]
      exact (List.findIdx?_eq_some_iff_getElem.mp hfound.symm).1
    exact (take_known hi).post fun j t ht => ⟨ht.1, eraseIdx_argCells els i ▸ ht.2⟩

theorem arrayDeleteAt_known {els : List Value} {idx : ℤ} (hidx : 0 ≤ idx)
    (ha : h.array? r = some a) (hs : Stored h.mem a (argCells els) rest)
    (hf : h.isFrozen r = false) :
    Triple (fun t => t = h) (arrayDeleteAt env r idx)
      (fun v t => v = (Mutator.place idx els.length).map (fun i => (argCells els)[i]?.join) ∧
        IsArray r (argCells ((Mutator.place idx els.length).elim els els.eraseIdx)) t) E := by
  refine mutator_known ha hs hf fun a' => ?_
  refine Triple.of_imp (p := a'.count = els.length) (fun t ⟨_, _, hstored, _⟩ => ?_)
    fun hcount => ?_
  · rw [hstored.count, argCells, List.length_map]
  refine Triple.ite (fun hneg => absurd hidx (not_le.mpr hneg)) fun _ => ?_
  unfold Mutator.place
  rw [if_neg (not_lt.mpr hidx), ← hcount]
  refine Triple.ite (fun hlt => ?_) fun hge => Triple.pure fun t ht => ?_
  · rw [if_pos ⟨hidx, hlt⟩]
    have hi : idx.toNat < (argCells els).length := by
      rw [argCells, List.length_map]
      omega
    refine loadCells_own.bind fun values => Triple.given ?_
    rintro ⟨rfl, -⟩
    refine (take_known hi).post fun v t ht => ⟨ht.1, ?_⟩
    rw [eraseIdx_argCells] at ht
    exact ht.2
  · rw [if_neg (fun h => hge h.2)]
    exact ⟨rfl, ht.isArray⟩

theorem arrayDeleteAt_wild {idx : ℤ} (hidx : idx < 0) (ha : h.array? r = some a)
    (hs : Stored h.mem a xs rest) (hf : h.isFrozen r = false) :
    Triple (fun t => t = h) (arrayDeleteAt env r idx) (fun _ _ => False)
      fun e _ => e = .wild := by
  refine mutator_known ha hs hf fun a' => ?_
  rw [if_pos hidx]
  exact Triple.stop fun _ _ => rfl

/-! ## The methods -/

/-- A method that begins with `CHECK_ARITY` and `AS_ARRAY` of the receiver. -/
theorem method_known {n : ℕ} {args : List Value} {c : ℕ → Exec α} {Q : α → Heap → Prop}
    (harity : args.length = n) (hc : Triple (fun t => t = h) (c r) Q E) :
    Triple (fun t => t = h)
      (do checkArity (n + 1) (some (n + 1)) (.obj r :: args)
          let self ← asObj (arg (.obj r :: args) 0)
          c self) Q E := by
  refine (checkArity_passes harity).bind fun _ => asObj_known.bind_known ?_
  exact hc

theorem cellValue_getD {v : Option Value} :
    cellValue ((v.map fun v => some (Cell.value v)).getD (some (.value .nil))) = v.getD .nil := by
  cases v <;> rfl

end Known

namespace Mutator

variable {env : Env} {h : Heap} {r : ℕ} {a : ObjArray} {els : List Value} {m : Mutator}

/-- What the array needs for the method: of an index that it is not negative, of a value for the
front that no other one has to move. -/
def Room (h : Heap) (a : ObjArray) (els : List Value) : Mutator → Prop
  | pushFront _ => els.length ≤ 1 ∨ a.isShared = false ∧
      ∀ v ∈ els.tail, (h.mem.load a.values)[a.count]? = some (some (.value v))
  | deleteAt idx => 0 ≤ idx
  | _ => True

theorem correct_of_known
    (hm : Triple (fun t => t = h) (m.call env r)
      (fun v t => v = m.result env r els ∧ IsArray r (argCells (m.after env els)) t)
      fun _ _ => False) : m.Correct env h r els := by
  have hms := hm h rfl
  unfold Correct
  cases hcall : m.call env r h with
  | mk res t =>
    rw [hcall] at hms
    cases res with
    | error e => exact hms.elim
    | ok v =>
      obtain ⟨rfl, ht⟩ := hms
      exact ⟨t, rfl, ht⟩

theorem argCells_tail : (argCells els).tail = argCells els.tail := by
  cases els <;> rfl

theorem none_notMem_argCells : none ∉ argCells els := by
  simp [argCells]

/-- All mutators but `pushFront`, and `deleteAt` from the end -/
theorem correct_of_thawed (ha : h.array? r = some a) (hels : Holds h.mem a (argCells els))
    (hf : h.isFrozen r = false) (hroom : m.Room h a els) (hm : ∀ el, m ≠ pushFront el) :
    m.Correct env h r els := by
  have hs := hels.stored
  refine correct_of_known ?_
  cases m with
  | push el =>
    refine method_known rfl ((arrayPush_known ha hs hf).bind fun _ => Triple.pure ?_)
    intro t ht
    refine ⟨rfl, ?_⟩
    show IsArray r (argCells (els ++ [el])) t
    rw [argCells, List.map_append]
    exact ht
  | pop =>
    refine method_known rfl ((arrayTake_known ha hs hf).bind fun v => Triple.pure ?_)
    rintro t ⟨rfl, ht⟩
    refine ⟨?_, ?_⟩
    · rw [if_neg Bool.false_ne_true, argCells, List.getLast?_map, cellValue_getD]
      rfl
    · rw [if_neg Bool.false_ne_true, argCells, ← List.map_dropLast] at ht
      exact ht
  | pushFront el => exact absurd rfl (hm el)
  | popFront =>
    refine method_known rfl ((arrayTake_known ha hs hf).bind fun v => Triple.pure ?_)
    rintro t ⟨rfl, ht⟩
    refine ⟨?_, ?_⟩
    · rw [if_pos rfl, argCells, List.head?_map, cellValue_getD]
      rfl
    · rw [if_pos rfl, argCells_tail] at ht
      exact ht
  | delete el =>
    refine method_known rfl ((arrayDelete_known ha hs hf).bind fun v => Triple.pure ?_)
    rintro t ⟨rfl, ht⟩
    exact ⟨rfl, ht⟩
  | deleteAt idx =>
    refine method_known rfl ((checkArg_passes rfl).bind fun _ =>
      (arrayDeleteAt_known hroom ha hs hf).bind fun v => Triple.pure ?_)
    rintro t ⟨rfl, ht⟩
    refine ⟨?_, ht⟩
    show _ = ((place idx els.length).bind (els[·]?)).getD .nil
    cases place idx els.length with
    | none => rfl
    | some i =>
      show cellValue (argCells els)[i]?.join = els[i]?.getD .nil
      rw [argCells, List.getElem?_map]
      cases els[i]? <;> rfl
  | clear =>
    refine method_known rfl ((arrayClear_known ha hs hf).bind fun _ => Triple.pure ?_)
    exact fun t ht => ⟨rfl, ht⟩

theorem room_pushFront {el : Value} :
    (pushFront el).Room h a els ↔
      FrontRoom a (argCells els) ((h.mem.load a.values).drop a.count) := by
  unfold Room FrontRoom
  rw [argCells_tail, List.head?_drop, argCells, argCells, List.length_map, List.forall_mem_map]

theorem pushFront_correct_iff {el : Value} (ha : h.array? r = some a)
    (hels : Holds h.mem a (argCells els)) (hf : h.isFrozen r = false) :
    (pushFront el).Correct env h r els ↔ (pushFront el).Room h a els := by
  have hcall : Triple (fun t => t = h) ((pushFront el).call env r)
      (fun v t => v = .obj r ∧ ∃ ys, (ys = some (.value el) :: argCells els ↔
        (pushFront el).Room h a els) ∧ IsArray r ys t) fun _ _ => False := by
    rw [room_pushFront]
    refine method_known rfl ((arrayPushFront_known ha hels.stored hf none_notMem_argCells).bind
      fun _ => Triple.pure fun t ht => ⟨rfl, ht⟩)
  have hms := hcall h rfl
  unfold Correct
  cases heq : (pushFront el).call env r h with
  | mk res t =>
    rw [heq] at hms
    cases res with
    | error e => exact hms.elim
    | ok v =>
      obtain ⟨rfl, ys, hys, hx⟩ := hms
      rw [← hys]
      constructor
      · rintro ⟨t', heq', hx'⟩
        cases heq'
        exact hx.inj hx'
      · rintro rfl
        exact ⟨t, rfl, hx⟩

theorem frozen_not_correct (hf : h.isFrozen r = true) : ¬ m.Correct env h r els := by
  have hthrow : ∀ {α : Type} {f : Unit → Exec α}, Triple (fun t => t = h)
      (throwIfFrozen r "Array" >>= f) (fun _ _ => False) (Raised h) := fun {_ _} =>
    (throwIfFrozen_frozen hf).ends
  refine never_returns (E := Raised h) ?_
  cases m with
  | push el => exact method_known rfl (hthrow.ends)
  | pop => exact method_known rfl (hthrow.ends)
  | pushFront el => exact method_known rfl (hthrow.ends)
  | popFront => exact method_known rfl (hthrow.ends)
  | delete el => exact method_known rfl (hthrow.ends)
  | deleteAt idx =>
    exact method_known rfl ((checkArg_passes rfl).bind fun _ => hthrow.ends)
  | clear => exact method_known rfl (hthrow.ends)

theorem deleteAt_not_correct {idx : ℤ} (ha : h.array? r = some a)
    (hels : Holds h.mem a (argCells els)) (hf : h.isFrozen r = false) (hidx : idx < 0) :
    ¬ (deleteAt idx).Correct env h r els :=
  never_returns (method_known rfl ((checkArg_passes rfl).bind fun _ =>
    (arrayDeleteAt_wild hidx ha hels.stored hf).ends))

/-- A mutator is the operation on lists exactly if the array can be modified and has what the
method needs. -/
theorem correct_iff (ha : h.array? r = some a) (hels : Holds h.mem a (argCells els)) :
    m.Correct env h r els ↔ h.isFrozen r = false ∧ m.Room h a els := by
  cases hf : h.isFrozen r with
  | true => exact iff_of_false (frozen_not_correct hf) nofun
  | false =>
    by_cases hpush : ∃ el, m = pushFront el
    · obtain ⟨el, rfl⟩ := hpush
      rw [pushFront_correct_iff ha hels hf]
      exact (and_iff_right rfl).symm
    · by_cases hroom : m.Room h a els
      · exact iff_of_true (correct_of_thawed ha hels hf hroom fun el hm => hpush ⟨el, hm⟩)
          ⟨rfl, hroom⟩
      · refine iff_of_false ?_ fun h => hroom h.2
        cases m with
        | deleteAt idx => exact deleteAt_not_correct ha hels hf (not_le.mp hroom)
        | pushFront el => exact absurd ⟨el, rfl⟩ hpush
        | _ => exact absurd trivial hroom

end Mutator

/-! ## `fill` -/

section Fill

variable {env : Env} {h : Heap} {E : Stop → Heap → Prop}

theorem fillValues_known {n : ℤ} {v : Value} {l : List Obj} :
    Triple (fun t => t.objs = l) (fillValues env ⟨false, false, none, 0, 0⟩ n v)
      (fun b t => t.objs = l ∧ Holds t.mem b (argCells (List.replicate (max 1 n).toNat v))) E := by
  have hempty : ∀ t : Heap, t.objs = l →
      t.objs = l ∧ Stored t.mem ⟨false, false, none, 0, 0⟩ [] [] := fun _ ht => ⟨ht, Stored.empty⟩
  refine Triple.ite (fun hn => ?_) fun hn => ?_
  · have hmax : max 1 n = n := max_eq_right (by omega)
    have hcapa : ¬ n.toNat = 0 := by omega
    have hinit : Triple (fun t : Heap => t.objs = l)
        (initValueArrayWithCapa env ⟨false, false, none, 0, 0⟩ n.toNat)
        (fun b t => t.objs = l ∧ Stored t.mem b [] (List.replicate n.toNat none)) E := by
      refine Triple.ite (fun hz => absurd hz hcapa) fun _ => ?_
      refine ((growArray_stored (a := initValueArray ⟨false, false, none, 0, 0⟩)
        (Nat.zero_le n.toNat)).pre hempty).bind fun p => Triple.pure fun t ht => ?_
      exact ht
    refine hinit.bind fun b => Triple.of_imp (fun t ht => ht.2.values_ne_none ?_)
      fun ⟨p, hvalues⟩ => ?_
    · simp [hcapa]
    have hassert : assert (b.values ≠ none) = pure () := by simp [assert, hvalues]
    unfold writeValueArrayBulk
    rw [hassert, storeCells_some hvalues]
    rintro t ⟨hobjs, ht⟩
    have hcells : overwrite (t.mem.load (some p)) 0
        (List.replicate n.toNat (some (.value v))) = argCells (List.replicate n.toNat v) ++ [] := by
      rw [← hvalues, ht.block]
      simp [overwrite, argCells]
    simp only [bind_apply, modify_apply, pure_apply, hcells, hmax]
    refine ⟨hobjs, (ht.put hvalues ?_ ?_).holds⟩
    · rw [ht.count]
      simp [argCells]
    · simp [argCells]
  · have hone : (max 1 n).toNat = 1 := by omega
    rw [hone]
    exact ((writeValueArrayEnd_stored (a := initValueArray ⟨false, false, none, 0, 0⟩)).pre
      hempty).post fun b t ht => ⟨ht.1, ht.2.holds⟩

theorem lxArrayFillStatic_known {klass : Value} {n : ℤ} {fill : List Value}
    (hfill : fill.length ≤ 1) :
    Triple (fun t => t = h) (lxArrayFillStatic env (klass :: .number n :: fill))
      (fun v t => v = .obj h.objs.length ∧
        IsArray h.objs.length (argCells (List.replicate (max 1 n).toNat (arg fill 0))) t) E := by
  have harity : 2 ≤ (klass :: .number n :: fill).length ∧
      ∀ m ∈ some 3, (klass :: .number n :: fill).length ≤ m := by
    simp only [List.length_cons, Option.mem_some_iff, forall_eq']
    omega
  refine Triple.bind (Q := fun _ t => t = h) (Triple.ite (fun hnot => absurd harity hnot) fun _ =>
    Triple.pure fun _ ht => ht) fun _ => ?_
  refine (checkArg_passes rfl).bind fun _ => ?_
  let new : Obj := ⟨false, true, [], .array ⟨false, false, none, 0, 0⟩⟩
  have hget : (h.addObj new).array? h.objs.length = some ⟨false, false, none, 0, 0⟩ := by
    simp [Heap.array?, Heap.addObj, new]
  have hnew : Triple (fun t => t = h) newArray
      (fun r t => r = h.objs.length ∧ t = h.addObj new) E := by
    rintro t rfl
    exact ⟨rfl, rfl⟩
  refine hnew.bind_known ?_
  refine (look_known (a := ⟨false, false, none, 0, 0⟩) fun t ht => by rw [ht]; exact hget).bind
    fun a => Triple.given ?_
  rintro rfl
  refine (fillValues_known.pre fun t ht => congrArg Heap.objs ht).bind fun b => ?_
  exact (setArray_holds hget).bind fun _ => Triple.pure fun t ht => ⟨rfl, ht⟩

theorem fillCorrect_iff {klass : Value} {n : ℤ} {fill : List Value} (hfill : fill.length ≤ 1) :
    FillCorrect env h klass n fill ↔ 1 ≤ n := by
  have hknown : Triple (fun t => t = h) (lxArrayFillStatic env (klass :: .number n :: fill)) _
      fun _ _ => False := lxArrayFillStatic_known hfill
  have hcall := hknown h rfl
  unfold FillCorrect
  cases heq : lxArrayFillStatic env (klass :: .number n :: fill) h with
  | mk res t =>
    rw [heq] at hcall
    cases res with
    | error e => exact hcall.elim
    | ok v =>
      obtain ⟨rfl, hx⟩ := hcall
      constructor
      · rintro ⟨r, t', heq', hx'⟩
        cases heq'
        have hlen := congrArg List.length (hx.inj hx')
        simp only [argCells, List.length_map, List.length_replicate] at hlen
        omega
      · intro hn
        rw [max_eq_right hn] at hx
        exact ⟨_, t, rfl, hx⟩

end Fill

/-! ## Every mutator -/

section Mutators

variable {env : Env} {h : Heap} {r : ℕ} {a : ObjArray} {els : List Value}

/-- The mutators are the operations on lists for an array that can be modified; `pushFront` needs
one element at most or elements that are all the same, `deleteAt` an index from the front and
`fill` a positive number. -/
theorem mutators_correct_iff (ha : h.array? r = some a) (hels : Holds h.mem a (argCells els)) :
    (∀ m : Mutator, m.Correct env h r els ↔ h.isFrozen r = false ∧ m.Room h a els) ∧
      ∀ klass n fill, fill.length ≤ 1 → (FillCorrect env h klass n fill ↔ 1 ≤ n) :=
  ⟨fun _ => Mutator.correct_iff ha hels, fun _ _ _ hfill => fillCorrect_iff hfill⟩

def oneTwoThree : ObjArray := ⟨false, false, some 0, 8, 3⟩

/-- The array `[1, 2, 3]` -/
def Heap.withNumbers : Heap where
  objs := [⟨false, true, [], .array oneTwoThree⟩]
  mem := Blocks.empty.alloc
    (argCells [.number 1, .number 2, .number 3] ++ List.replicate 5 none)
  strings := []

theorem withNumbers_holds :
    Holds Heap.withNumbers.mem oneTwoThree (argCells [.number 1, .number 2, .number 3]) := by
  refine ⟨⟨by decide, nofun⟩, fun p hp => ?_, rfl, rfl, rfl⟩
  cases hp
  exact Nat.zero_lt_one

theorem mutators_correct_numbers :
    (∀ m : Mutator, m.Correct Env.moving Heap.withNumbers 0 [.number 1, .number 2, .number 3] ↔
        Heap.withNumbers.isFrozen 0 = false ∧
          m.Room Heap.withNumbers oneTwoThree [.number 1, .number 2, .number 3]) ∧
      ∀ klass n fill, fill.length ≤ 1 →
        (FillCorrect Env.moving Heap.withNumbers klass n fill ↔ 1 ≤ n) :=
  mutators_correct_iff rfl withNumbers_holds

/-- `[1, 2, 3].pushFront(100)` gives `[100, 1, 3]` and a cell that was never written. -/
theorem pushFront_loses_element :
    ¬ ∀ (env : Env) (h : Heap) (r : ℕ) (a : ObjArray) (els : List Value) (m : Mutator),
      h.array? r = some a → Holds h.mem a (argCells els) → h.isFrozen r = false →
        m.Correct env h r els := by
  intro hall
  have hpush := hall Env.moving Heap.withNumbers 0 oneTwoThree _ (.pushFront (.number 100)) rfl
    withNumbers_holds rfl
  obtain ⟨-, hroom⟩ := (Mutator.correct_iff rfl withNumbers_holds).mp hpush
  rcases hroom with hlen | ⟨-, hall⟩
  · exact absurd hlen (by decide)
  · exact absurd (hall (.number 2) List.mem_cons_self) (by decide)

end Mutators

end Clox.Objects
