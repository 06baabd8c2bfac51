import Clox.Runtime.Sizes

/-! # Operations that only add

What the operations do that make an object and change none: the heap behind them is the heap
before them with new objects and new blocks, and they return or throw. A native method that reads
a frozen object, copies it or refuses to change it is such an operation.
-/

namespace Clox.Objects

open Commands Command Sharing

/-! ## Extensions of a heap -/

/-- `h` is `h₀` with new objects and new blocks. -/
structure Extends (h₀ h : Heap) : Prop where
  objs : h₀.objs <+: h.objs
  next : h₀.mem.next ≤ h.mem.next
  blocks : ∀ p < h₀.mem.next, h.mem.load (some p) = h₀.mem.load (some p)

def Stop.isThrown : Stop → Bool
  | thrown _ => true
  | _ => false

/-- An error was thrown, and nothing was changed. -/
def Raised (h₀ : Heap) (e : Stop) (h : Heap) : Prop := e.isThrown = true ∧ Extends h₀ h

section Extends

variable {h₀ h : Heap} {r x n p : ℕ}

theorem Extends.refl (h : Heap) : Extends h h := ⟨List.prefix_refl _, Nat.le_refl _, fun _ _ => rfl⟩

theorem Extends.trans {h₁ : Heap} (he : Extends h₀ h₁) (he' : Extends h₁ h) : Extends h₀ h :=
  ⟨he.objs.trans he'.objs, Nat.le_trans he.next he'.next, fun p hp =>
    (he'.blocks p (Nat.lt_of_lt_of_le hp he.next)).trans (he.blocks p hp)⟩

theorem Extends.length (he : Extends h₀ h) : h₀.objs.length ≤ h.objs.length := he.objs.length_le

theorem Extends.obj (he : Extends h₀ h) (hr : r < h₀.objs.length) : h.objs[r]? = h₀.objs[r]? :=
  (List.prefix_iff_getElem?.mp he.objs r hr).trans (List.getElem?_eq_getElem hr).symm

theorem Extends.string? (he : Extends h₀ h) (hr : r < h₀.objs.length) :
    h.string? r = h₀.string? r := by
  unfold Heap.string?
  rw [he.obj hr]

theorem Extends.array? (he : Extends h₀ h) (hr : r < h₀.objs.length) :
    h.array? r = h₀.array? r := by
  unfold Heap.array?
  rw [he.obj hr]

theorem Extends.map? (he : Extends h₀ h) (hr : r < h₀.objs.length) : h.map? r = h₀.map? r := by
  unfold Heap.map?
  rw [he.obj hr]

theorem Extends.addObj (he : Extends h₀ h) (o : Obj) : Extends h₀ (h.addObj o) :=
  ⟨he.objs.trans (List.prefix_append _ _), he.next, he.blocks⟩

/-- The objects from `h₀.objs.length` on are new. -/
theorem Extends.modify (he : Extends h₀ h) (hn : h₀.objs.length ≤ n) (f : Obj → Obj) :
    Extends h₀ { h with objs := h.objs.modify n f } := by
  refine ⟨?_, he.next, he.blocks⟩
  refine List.prefix_iff_getElem?.mpr fun i hi => ?_
  rw [← List.prefix_iff_getElem?.mp he.objs i hi]
  exact List.getElem?_modify_ne f h.objs (by omega)

theorem Extends.alloc (he : Extends h₀ h) (cells : Cells) :
    Extends h₀ { h with mem := h.mem.alloc cells } := by
  refine ⟨he.objs, Nat.le_succ_of_le he.next, fun p hp => ?_⟩
  rw [← he.blocks p hp]
  exact Blocks.load_alloc_of_ne (Nat.ne_of_lt (Nat.lt_of_lt_of_le hp he.next))

theorem Extends.put (he : Extends h₀ h) (hp : h₀.mem.next ≤ p) (cells : Cells) :
    Extends h₀ { h with mem := h.mem.put p cells } := by
  refine ⟨he.objs, he.next, fun q hq => ?_⟩
  rw [← he.blocks q hq]
  exact Blocks.load_put_of_ne (by omega)

theorem Extends.free (he : Extends h₀ h) (hp : h₀.mem.next ≤ p) :
    Extends h₀ { h with mem := h.mem.free p } := by
  refine ⟨he.objs, he.next, fun q hq => ?_⟩
  rw [← he.blocks q hq]
  exact Blocks.load_free_of_ne (by omega)

end Extends

/-! ## Commands -/

section Commands

variable {h₀ : Heap} {x n : ℕ} {env : Env} {args : List Value} {P : Heap → Prop}

/-- Stops of `B` are throws only. -/
def Throws (e : Stop) : Prop := e.isThrown = true

theorem raising {α : Type} {c : Exec α} (hc : Quiet Throws c) (hP : ∀ h, P h → Extends h₀ h) :
    Triple P c (fun _ => P) (Raised h₀) :=
  hc.triple fun h hh _ he => ⟨he, hP h hh⟩

theorem quietly_throw {α : Type} (e : Thrown) : Quiet Throws (throw e : Exec α) :=
  Quiet.stop rfl

theorem quietly_stopIf (p : Prop) [Decidable p] (e : Thrown) :
    Quiet Throws (stopIf p (.thrown e)) :=
  Quiet.ite (Quiet.stop rfl) (Quiet.pure _)

theorem quietly_checkArity (min : ℕ) (max : Option ℕ) (args : List Value) :
    Quiet Throws (checkArity min max args) :=
  quietly_stopIf _ _

/-- The reading of an object that is known to be there. -/
theorem look_known {α : Type} {f : Heap → Option α} {e : Stop} {a : α}
    {E : Stop → Heap → Prop} (ha : ∀ h, P h → f h = some a) :
    Triple P (Command.look f e) (fun a' h => a' = a ∧ P h) E :=
  Triple.look (fun h _ hh ha' => ⟨Option.some.inj (ha'.symm.trans (ha h hh)), hh⟩)
    fun h hh hn => by simp [ha h hh] at hn

/-! ## Memory and objects -/

theorem allocate_new {n : ℕ} {E : Stop → Heap → Prop} :
    Triple (Extends h₀) (allocate n) (fun p h => h₀.mem.next ≤ p ∧ Extends h₀ h) E :=
  fun _ he => ⟨he.next, he.alloc _⟩

/-- A store to a block that is new. -/
theorem storeCells_new {q : Option ℕ} {i : ℕ} {xs : Cells}
    (hP : ∀ h cells p, q = some p → P h → P { h with mem := h.mem.put p cells })
    (hq : q = none → xs = []) (E : Stop → Heap → Prop) :
    Triple P (storeCells q i xs) (fun _ => P) E := by
  cases q with
  | none => exact Triple.ite (fun _ => Triple.pure fun _ h => h) fun hxs => absurd (hq rfl) hxs
  | some p => exact Triple.modify fun h hh => hP h _ p rfl hh

theorem Extends.stored {q : Option ℕ} (hq : ∀ p, q = some p → h₀.mem.next ≤ p) :
    ∀ h cells p, q = some p → Extends h₀ h → Extends h₀ { h with mem := h.mem.put p cells } :=
  fun _ cells p hp he => he.put (hq p hp) cells

theorem growArray_new {q : Option ℕ} {n : ℕ} (hq : ∀ p, q = some p → h₀.mem.next ≤ p) :
    Triple (Extends h₀) (growArray env q n) (fun p h => h₀.mem.next ≤ p ∧ Extends h₀ h)
      (Raised h₀) := by
  unfold growArray
  split
  · exact allocate_new
  · rename_i p
    have hp := hq p rfl
    intro h he
    simp only [bind_apply, heap, get_apply]
    by_cases hstays : env.stays p n = true
    · simp only [hstays, if_true, bind_apply, modify_apply, pure_apply]
      exact ⟨hp, he.put hp _⟩
    · simp only [hstays, Bool.false_eq_true, if_false, bind_apply, modify_apply, pure_apply]
      exact ⟨he.next, (he.alloc _).free hp⟩

@[simp] theorem length_resized (n : ℕ) (cells : Cells) : (resized n cells).length = n := by
  simp only [resized, List.length_append, List.length_take, List.length_replicate]
  omega

/-- The cells of a block that is there, or of none if none are wanted. -/
theorem loadCells_known {q : Option ℕ} {n : ℕ} (hq : q = none → n = 0)
    (E : Stop → Heap → Prop) :
    Triple P (loadCells q n) (fun cells h => cells = resized n (h.mem.load q) ∧ P h) E := by
  have hstop : ¬ (q = none ∧ n ≠ 0) := fun h => h.2 (hq h.1)
  refine Triple.bind (Q := fun _ => P) (Triple.ite (fun h => absurd h hstop) fun _ =>
    Triple.pure fun _ h => h) fun _ => ?_
  exact fun h hh => ⟨rfl, hh⟩

theorem newObj_new {o : Obj} {E : Stop → Heap → Prop} :
    Triple (Extends h₀) (newObj o)
      (fun n h => h₀.objs.length ≤ n ∧ Extends h₀ h ∧ h.objs[n]? = some o) E :=
  fun _ he => ⟨he.length, he.addObj o, by simp [Heap.addObj]⟩

theorem setString_new {s : ObjString} (hn : h₀.objs.length ≤ n) (hP : ∀ h, P h → Extends h₀ h) :
    Triple P (setString n s) (fun _ => Extends h₀) (Raised h₀) :=
  Triple.modify fun h hh => (hP h hh).modify hn _

theorem setArray_new {a : ObjArray} (hn : h₀.objs.length ≤ n) (hP : ∀ h, P h → Extends h₀ h) :
    Triple P (setArray n a) (fun _ => Extends h₀) (Raised h₀) :=
  Triple.modify fun h hh => (hP h hh).modify hn _

theorem setMap_new {t : Table} (hn : h₀.objs.length ≤ n) (hP : ∀ h, P h → Extends h₀ h) :
    Triple P (setMap n t) (fun _ => Extends h₀) (Raised h₀) :=
  Triple.modify fun h hh => (hP h hh).modify hn _

/-- The new string is known to be one. -/
theorem copyString_new {chars : List UInt8} :
    Triple (Extends h₀) (copyString chars)
      (fun n h => h₀.objs.length ≤ n ∧ Extends h₀ h ∧ (h.string? n).isSome) (Raised h₀) := by
  refine allocate_new.bind fun p => Triple.given fun hp => ?_
  have hfresh : ∀ q, some p = some q → h₀.mem.next ≤ q := by
    intro q hq
    cases hq
    exact hp
  refine (storeCells_new (Extends.stored hfresh) (fun h => by cases h) _).bind fun _ => ?_
  · exact newObj_new.post fun n h hh => ⟨hh.1, hh.2.1, by simp [Heap.string?, hh.2.2]⟩

/-- An array that is built has a block of its own, which is new. -/
def ObjArray.New (h₀ : Heap) (a : ObjArray) : Prop :=
  a.Fits ∧ ∀ p, a.values = some p → h₀.mem.next ≤ p

theorem ObjArray.New.empty {isShared isStatic : Bool} :
    ObjArray.New h₀ ⟨isShared, isStatic, none, 0, 0⟩ :=
  ⟨⟨Nat.le_refl 0, fun _ => rfl⟩, nofun⟩

theorem writeValueArrayEnd_new {a : ObjArray} {v : Option Cell} (ha : a.New h₀) :
    Triple (Extends h₀) (writeValueArrayEnd env a v)
      (fun a' h => (a'.New h₀ ∧ a'.count = a.count + 1) ∧ Extends h₀ h) (Raised h₀) := by
  have hroom := le_growCapacity a.capacity
  have hgrow : Triple (Extends h₀) (growValues env a)
      (fun a' h => (a'.count = a.count ∧ a.count + 1 ≤ a'.capacity ∧ a'.values ≠ none ∧
        ∀ p, a'.values = some p → h₀.mem.next ≤ p) ∧ Extends h₀ h) (Raised h₀) := by
    refine Triple.ite (fun _ => ?_) fun hfull => Triple.pure fun _ h =>
      ⟨⟨rfl, Nat.le_of_not_lt hfull, fun hnone => ?_, ha.2⟩, h⟩
    · refine (growArray_new ha.2).bind fun p => Triple.given fun hp =>
        Triple.pure fun _ h => ⟨⟨rfl, ?_, nofun, fun q hq => ?_⟩, h⟩
      · exact Nat.le_trans (Nat.succ_le_succ ha.1.1) hroom
      · cases hq
        exact hp
    · have hzero := ha.1.2 hnone
      omega
  refine hgrow.bind fun a' => Triple.given fun ha' => ?_
  refine (storeCells_new (Extends.stored ha'.2.2.2) (fun hn => absurd hn ha'.2.2.1) _).bind
    fun _ => Triple.pure fun _ h => ⟨⟨⟨⟨?_, fun hn => absurd hn ha'.2.2.1⟩, ha'.2.2.2⟩, ?_⟩, h⟩
  · show a'.count + 1 ≤ a'.capacity
    rw [ha'.1]
    exact ha'.2.1
  · show a'.count + 1 = a.count + 1
    rw [ha'.1]

theorem writeAll_new {a : ObjArray} {l : Cells} (ha : a.New h₀) :
    Triple (Extends h₀) (l.foldlM (writeValueArrayEnd env) a)
      (fun a' h => (a'.New h₀ ∧ a'.count = a.count + l.length) ∧ Extends h₀ h)
      (Raised h₀) := by
  induction l generalizing a with
  | nil => exact Triple.pure fun _ h => ⟨⟨ha, rfl⟩, h⟩
  | cons v l ih =>
    rw [List.foldlM_cons]
    refine (writeValueArrayEnd_new ha).bind fun a' => Triple.given fun ha' => ?_
    refine (ih ha'.1).post fun a'' h hh => ⟨⟨hh.1.1, ?_⟩, hh.2⟩
    rw [hh.1.2, ha'.2, List.length_cons]
    omega

theorem newArray_new :
    Triple (Extends h₀) newArray (fun n h => h₀.objs.length ≤ n ∧ Extends h₀ h) (Raised h₀) :=
  newObj_new.post fun _ _ hh => ⟨hh.1, hh.2.1⟩

theorem newMap_new :
    Triple (Extends h₀) newMap
      (fun n h => h₀.objs.length ≤ n ∧ Extends h₀ h ∧ h.map? n = some []) (Raised h₀) :=
  newObj_new.post fun _ _ hh => ⟨hh.1, hh.2.1, by simp [Heap.map?, hh.2.2]⟩

theorem make_new {m : Made} :
    Triple (Extends h₀) (make env m) (fun _ => Extends h₀) (Raised h₀) := by
  cases m with
  | value v => exact Triple.pure fun _ h => h
  | string chars => exact copyString_new.bind fun _ => Triple.pure fun _ h => h.2.1
  | array els =>
    refine newArray_new.bind fun n => Triple.given fun hn => ?_
    refine (writeAll_new ObjArray.New.empty).bind fun a => Triple.given fun _ => ?_
    exact (setArray_new hn fun _ h => h).bind fun _ => Triple.pure fun _ h => h
  | map entries =>
    refine newMap_new.bind fun n => Triple.given fun hn => ?_
    refine (look_known fun _ hh => hh.2).bind fun t => Triple.given fun _ => ?_
    exact (setMap_new hn fun _ h => h.1).bind fun _ => Triple.pure fun _ h => h
  | plain => exact newObj_new.bind fun _ => Triple.pure fun _ h => h.2.1

/-! ## Arguments -/

theorem asObj_known {r : ℕ} {E : Stop → Heap → Prop} :
    Triple P (asObj (.obj r)) (fun x h => x = r ∧ P h) E :=
  Triple.pure fun _ h => ⟨rfl, h⟩

theorem heap_known :
    Triple (fun h => h = h₀) heap (fun h₁ h => h₁ = h₀ ∧ h = h₀) (Raised h₀) :=
  Triple.get fun _ h => ⟨h, h⟩

theorem stopIf_known {p : Prop} [Decidable p] {e : Thrown} :
    Triple (fun h => h = h₀) (stopIf p (.thrown e)) (fun _ h => ¬ p ∧ h = h₀) (Raised h₀) := by
  refine Triple.ite (fun _ => Triple.stop fun h hh => ?_) fun hp => Triple.pure fun _ h => ⟨hp, h⟩
  rw [hh]
  exact ⟨rfl, Extends.refl h₀⟩

theorem checkArity_known {min : ℕ} {max : Option ℕ} :
    Triple (fun h => h = h₀) (checkArity min max args)
      (fun _ h => (min ≤ args.length ∧ ∀ m ∈ max, args.length ≤ m) ∧ h = h₀) (Raised h₀) :=
  stopIf_known.post fun _ _ h => ⟨Decidable.not_not.mp h.1, h.2⟩

theorem checkArg_known {v : Value} {expected : ArgType} {argnum : ℕ} :
    Triple (fun h => h = h₀) (checkArg v expected argnum)
      (fun _ h => h₀.isA v expected = true ∧ h = h₀) (Raised h₀) := by
  refine heap_known.bind_known ?_
  exact stopIf_known.post fun _ _ h => ⟨by simpa using h.1, h.2⟩

theorem checkArgs_known {checks : List (ℕ × ArgType × ℕ)} :
    Triple (fun h => h = h₀) (checkArgs args checks)
      (fun _ h => (∀ c ∈ checks, h₀.isA (arg args c.1) c.2.1 = true) ∧ h = h₀)
      (Raised h₀) := by
  induction checks with
  | nil => exact Triple.pure fun _ h => ⟨nofun, h⟩
  | cons c checks ih =>
    refine checkArg_known.bind fun _ => Triple.given fun hc => ih.post fun _ h hh => ⟨?_, hh.2⟩
    intro c' hc'
    rcases List.mem_cons.mp hc' with heq | hmem
    · rw [heq]
      exact hc
    · exact hh.1 c' hmem

theorem Heap.isA_string {h : Heap} {v : Value} (hv : h.isA v .string = true) :
    ∃ r s, v = .obj r ∧ h.string? r = some s := by
  cases v with
  | obj r =>
    obtain ⟨s, hs⟩ := Option.isSome_iff_exists.mp (show (h.string? r).isSome = true from hv)
    exact ⟨r, s, rfl, hs⟩
  | _ => cases hv

theorem castStrings_known {places : List ℕ}
    (hplaces : ∀ i ∈ places, h₀.isA (arg args i) .string = true) :
    Triple (fun h => h = h₀) (castStrings args places) (fun _ h => h = h₀) (Raised h₀) := by
  induction places with
  | nil => exact Triple.pure fun _ h => h
  | cons i places ih =>
    obtain ⟨r, s, hr, hs⟩ := Heap.isA_string (hplaces i List.mem_cons_self)
    rw [castStrings, hr]
    refine asObj_known.bind_known ?_
    refine Triple.bind (look_known (a := s) fun h hh => ?_) fun _ => Triple.given fun _ => ?_
    · rw [hh]
      exact hs
    · exact ih fun j hj => hplaces j (List.mem_cons_of_mem _ hj)

/-! ## Native methods that add -/

/-- What a method takes for a string without a check is one, if its checks pass. -/
def Reader.Casts (m : Reader) (h : Heap) (args : List Value) : Prop :=
  m.min ≤ args.length ∧ (∀ n ∈ m.max, args.length ≤ n) →
    (∀ c ∈ m.checks, h.isA (arg args c.1) c.2.1 = true) →
    ∀ i ∈ m.unchecked, h.isA (arg args i) .string = true

theorem extends_of_eq {h : Heap} (hh : h = h₀) : Extends h₀ h := by
  rw [hh]
  exact Extends.refl h₀

theorem Reader.call_new {m : Reader} {r : ℕ} (hm : m.Casts h₀ (.obj r :: args)) :
    Triple (fun h => h = h₀) (m.call env (.obj r :: args)) (fun _ => Extends h₀)
      (Raised h₀) := by
  refine checkArity_known.bind fun _ => Triple.given fun harity => ?_
  refine checkArgs_known.bind fun _ => Triple.given fun hchecks => ?_
  refine (castStrings_known (hm harity hchecks)).bind fun _ => ?_
  split
  · exact (raising (quietly_throw _) fun _ => extends_of_eq).post fun _ _ => extends_of_eq
  · exact make_new.pre fun _ => extends_of_eq

section Receiver

variable {r : ℕ}

/-- The new object is blank. -/
theorem lxObjectDup_new {o : Obj} (ho : h₀.objs[r]? = some o) :
    Triple (Extends h₀) (lxObjectDup env (.obj r :: args))
      (fun n h => h₀.objs.length ≤ n ∧ Extends h₀ h ∧
        h.objs[n]? = some ⟨false, o.builtin, tableSetAll env o.fields [], o.body.blank⟩)
      (Raised h₀) := by
  have hlt : r < h₀.objs.length := (List.getElem?_eq_some_iff.mp ho).1
  refine (raising (quietly_checkArity _ _ _) fun _ h => h).bind fun _ => ?_
  refine asObj_known.bind_known ?_
  refine Triple.bind (look_known (a := o) fun h he => ?_) fun o' => Triple.given ?_
  · rw [he.obj hlt]
    exact ho
  · rintro rfl
    exact newObj_new

/-- A copy of a string that has a buffer -/
theorem lxStringDup_new {s : ObjString} (hs : h₀.string? r = some s) (hchars : s.chars ≠ none) :
    Triple (Extends h₀) (lxStringDup env (.obj r :: args)) (fun _ => Extends h₀)
      (Raised h₀) := by
  obtain ⟨o, ho, hb⟩ := Heap.body_of_string? hs
  have hlt : r < h₀.objs.length := (List.getElem?_eq_some_iff.mp ho).1
  refine (raising (quietly_checkArity _ _ _) fun _ h => h).bind fun _ => ?_
  refine (lxObjectDup_new ho).bind fun n => Triple.given fun hn => ?_
  refine (look_known (a := s) fun h he => (he.1.string? hlt).trans hs).bind_known ?_
  refine Triple.bind (look_known (a := ⟨false, false, false, 0, none, 0, 0⟩)
    fun h he => by simp [Heap.string?, he.2, hb, Body.blank]) fun d => Triple.given fun _ => ?_
  refine (allocate_new.pre fun _ h => h.1).bind fun p => Triple.given fun hp => ?_
  refine (loadCells_known (fun h => absurd h hchars) _).bind fun _ => Triple.of_imp
    (fun _ h => trivial) fun _ => ?_
  refine ((storeCells_new (q := some p) (Extends.stored fun q hq => ?_) (fun h => by cases h)
    _).pre fun _ h => h.2).bind fun _ => ?_
  · cases hq
    exact hp
  · exact (setString_new hn fun _ h => h).bind fun _ => Triple.pure fun _ h => h

theorem ObjArray.Fits.loads {a : ObjArray} (ha : a.Fits) (hn : a.values = none) : a.count = 0 := by
  have hcapacity := ha.2 hn
  have hcount := ha.1
  omega

theorem lxArrayDup_new {a : ObjArray} (ha : h₀.array? r = some a) (hfits : a.Fits) :
    Triple (Extends h₀) (lxArrayDup env (.obj r :: args)) (fun _ => Extends h₀)
      (Raised h₀) := by
  obtain ⟨o, ho, hb⟩ := Heap.body_of_array? ha
  have hlt : r < h₀.objs.length := (List.getElem?_eq_some_iff.mp ho).1
  refine (raising (quietly_checkArity _ _ _) fun _ h => h).bind fun _ => ?_
  refine (lxObjectDup_new ho).bind fun n => Triple.given fun hn => ?_
  refine (look_known (a := a) fun h he => (he.1.array? hlt).trans ha).bind_known ?_
  refine Triple.bind (look_known (a := ⟨false, false, none, 0, 0⟩)
    fun h he => by simp [Heap.array?, he.2, hb, Body.blank]) fun d => Triple.given ?_
  rintro rfl
  refine (loadCells_known hfits.loads _).bind fun vs => Triple.of_imp (fun _ h => trivial)
    fun _ => ?_
  refine ((writeAll_new ObjArray.New.empty).pre fun _ h => h.2.1).bind fun a'' =>
    Triple.given fun _ => ?_
  exact (setArray_new hn fun _ h => h).bind fun _ => Triple.pure fun _ h => h

/-- The array that `arrayDup` makes is known. -/
theorem arrayDup_new {a : ObjArray} (ha : h₀.array? r = some a) (hfits : a.Fits)
    (hstatic : a.isStatic = false) :
    Triple (Extends h₀) (arrayDup env r)
      (fun n h => Extends h₀ h ∧ ∃ a', h.array? n = some a' ∧ a'.New h₀) (Raised h₀) := by
  have hlt : r < h₀.objs.length := Heap.lt_of_handle (Heap.handle_of_array? ha)
  have hnew : Triple (Extends h₀) newArray
      (fun n h => h₀.objs.length ≤ n ∧ Extends h₀ h ∧ (h.array? n).isSome) (Raised h₀) :=
    newObj_new.post fun _ _ hh => ⟨hh.1, hh.2.1, by simp [Heap.array?, hh.2.2]⟩
  refine hnew.bind fun n => Triple.given fun hn => ?_
  refine (look_known (a := a) fun h he => (he.1.array? hlt).trans ha).bind fun a' =>
    Triple.given ?_
  rintro rfl
  have hdup : Triple (fun h => Extends h₀ h ∧ (h.array? n).isSome) (dupValues env n a')
      (fun _ h => Extends h₀ h ∧ ∃ a', h.array? n = some a' ∧ a'.New h₀) (Raised h₀) := by
    refine Triple.ite (fun h => by simp [hstatic] at h) fun _ => Triple.start fun h₁ hh₁ => ?_
    obtain ⟨a₁, ha₁⟩ := Option.isSome_iff_exists.mp hh₁.2
    have hlt₁ : n < h₁.objs.length := Heap.lt_of_handle (Heap.handle_of_array? ha₁)
    refine (loadCells_known hfits.loads _).bind fun vs => ?_
    have hempty : ObjArray.New h₁ ⟨false, false, none, 0, 0⟩ := ObjArray.New.empty
    refine ((writeAll_new hempty).weaken
      (fun h hh => extends_of_eq hh.2) (fun _ _ h => h)
      fun e h he => ⟨he.1, hh₁.1.trans he.2⟩).bind fun a'' => Triple.given fun ha'' => ?_
    refine Triple.modify fun h he => ⟨(hh₁.1.trans he).modify hn _, a'', ?_, ha''.1.1, fun p hp =>
      Nat.le_trans hh₁.1.next (ha''.1.2 p hp)⟩
    exact Heap.array?_setBody_self ((he.array? hlt₁).trans ha₁)
  exact hdup.bind fun _ => Triple.pure fun _ h => h

/-- The sort of an array sorts a copy of it. -/
theorem arraySort_new {a : ObjArray} (ha : h₀.array? r = some a) (hfits : a.Fits)
    (hstatic : a.isStatic = false)
    (hsorted : ∀ l s, env.sorted l = some s → s.length = l.length) :
    Triple (Extends h₀) (arraySort env r) (fun _ => Extends h₀) (Raised h₀) := by
  refine (arrayDup_new ha hfits hstatic).bind fun n => ?_
  have hget : Triple
      (fun h => Extends h₀ h ∧ ∃ a', h.array? n = some a' ∧ a'.New h₀) (getArray n)
      (fun a' h => a'.New h₀ ∧ Extends h₀ h) (Raised h₀) := by
    refine Triple.look (fun h a' hh ha' => ⟨?_, hh.1⟩) fun h hh hnone => ?_
    · obtain ⟨-, a₁, ha₁, hnew⟩ := hh
      cases ha₁.symm.trans ha'
      exact hnew
    · obtain ⟨-, a₁, ha₁, -⟩ := hh
      simp [ha₁] at hnone
  refine hget.bind fun a' => Triple.given fun ha' => ?_
  refine (loadCells_known ha'.1.loads _).bind fun vs => Triple.of_imp (p := vs.length = a'.count)
    (fun _ h => by rw [h.1, length_resized]) fun hlength => ?_
  split
  · exact (raising (quietly_throw _) fun _ h => h.2).post fun _ _ h => h.2
  · rename_i s hs
    refine ((storeCells_new (Extends.stored ha'.2) (fun hn => ?_) _).pre fun _ h => h.2).bind
      fun _ => Triple.pure fun _ h => h
    have hnil : s.length = 0 := by rw [hsorted vs s hs, hlength, ha'.1.loads hn]
    exact List.eq_nil_of_length_eq_zero hnil

theorem lxMapDup_new {t : Table} (ht : h₀.map? r = some t) :
    Triple (Extends h₀) (lxMapDup env (.obj r :: args))
      (fun n h => h₀.objs.length ≤ n ∧ Extends h₀ h ∧ (h.map? n).isSome) (Raised h₀) := by
  obtain ⟨o, ho, hb⟩ := Heap.body_of_map? ht
  have hlt : r < h₀.objs.length := (List.getElem?_eq_some_iff.mp ho).1
  refine (raising (quietly_checkArity _ _ _) fun _ h => h).bind fun _ => ?_
  refine (lxObjectDup_new ho).bind fun n => Triple.given fun hn => ?_
  refine (look_known (a := t) fun h he => (he.1.map? hlt).trans ht).bind_known ?_
  refine Triple.bind (look_known (a := []) fun h he => by simp [Heap.map?, he.2, hb, Body.blank])
    fun d => Triple.given fun _ => ?_
  refine Triple.bind (Q := fun _ h => Extends h₀ h ∧ (h.map? n).isSome)
    (Triple.modify fun h hh => ⟨hh.1.modify hn _, ?_⟩) fun _ => Triple.pure fun _ h => ⟨hn, h⟩
  simp [Heap.map?, Heap.setBody, hh.2]

/-- What `Map#merge` does after its checks -/
theorem lxMapMerge_rest {t : Table} {other : ℕ} (ht : h₀.map? r = some t)
    (hmap : h₀.isA (.obj other) .map = true) :
    Triple (fun h => h = h₀) (do
        let ret ← lxMapDup env [.obj r]
        let otherMap ← getMap other
        let retMap ← getMap ret
        setMap ret (tableSetAll env otherMap retMap)
        return Value.obj ret)
      (fun _ => Extends h₀) (Raised h₀) := by
  obtain ⟨t', ht'⟩ := Option.isSome_iff_exists.mp
    (show (h₀.map? other).isSome = true from hmap)
  obtain ⟨o, ho, -⟩ := Heap.body_of_map? ht'
  have hlt : other < h₀.objs.length := (List.getElem?_eq_some_iff.mp ho).1
  refine ((lxMapDup_new ht).pre fun _ => extends_of_eq).bind fun n => Triple.given fun hn => ?_
  refine (look_known (a := t') fun h he => (he.1.map? hlt).trans ht').bind fun _ =>
    Triple.given fun _ => ?_
  refine Triple.bind (Q := fun _ => Extends h₀) (Triple.look (fun _ _ hh _ => hh.1)
    fun h hh hnone => by simp [hnone] at hh) fun m => ?_
  exact (setMap_new hn fun _ h => h).bind fun _ => Triple.pure fun _ h => h

end Receiver

end Commands

end Clox.Objects
