import Clox.Runtime.CopyOnWrite

/-! # Lengths and capacities

What holds of every heap of a run, whatever the program does: a string is not longer than its
capacity, an array has no more elements than its capacity, and one without storage has no
capacity.
-/

namespace Clox.Objects

open Commands Command Sharing

def ObjString.Fits (s : ObjString) : Prop := s.length ≤ s.capacity

def ObjArray.Fits (a : ObjArray) : Prop :=
  a.count ≤ a.capacity ∧ (a.values = none → a.capacity = 0)

def Body.Fits : Body → Prop
  | .string s => s.Fits
  | .array a => a.Fits
  | _ => True

def Heap.Fits (h : Heap) : Prop := ∀ o ∈ h.objs, o.body.Fits

/-! ## Updates of the heap -/

namespace Heap

variable {h : Heap} {r x : ℕ} {b : Body}

theorem Fits.string {s : ObjString} (hf : h.Fits) (hs : h.string? r = some s) : s.Fits := by
  unfold string? at hs
  split at hs
  · rename_i heq
    cases hs
    exact hf _ (List.mem_of_getElem? heq)
  · cases hs

theorem Fits.array {a : ObjArray} (hf : h.Fits) (ha : h.array? r = some a) : a.Fits := by
  unfold array? at ha
  split at ha
  · rename_i heq
    cases ha
    exact hf _ (List.mem_of_getElem? heq)
  · cases ha

theorem Fits.modify {f : Obj → Obj} (hf : h.Fits) (ho : ∀ o ∈ h.objs, (f o).body.Fits) :
    ∀ o ∈ h.objs.modify x f, o.body.Fits := by
  intro o ho'
  obtain ⟨i, hi⟩ := List.getElem?_of_mem ho'
  rw [List.getElem?_modify] at hi
  obtain ⟨o₀, ho₀, rfl⟩ := Option.map_eq_some_iff.mp hi
  have hmem := List.mem_of_getElem? ho₀
  by_cases hx : x = i
  · simpa [hx] using ho o₀ hmem
  · simpa [hx] using hf o₀ hmem

theorem Fits.setBody (hf : h.Fits) (hb : b.Fits) : (h.setBody x b).Fits := hf.modify fun _ _ => hb

theorem Fits.setFields {t : Table} (hf : h.Fits) : (h.setFields x t).Fits := hf.modify hf

theorem Fits.setFrozen {frozen : Bool} (hf : h.Fits) : (h.setFrozen x frozen).Fits := hf.modify hf

theorem Fits.addObj {o : Obj} (hf : h.Fits) (ho : o.body.Fits) : (h.addObj o).Fits := by
  intro o' ho'
  rcases List.mem_append.mp ho' with hold | hnew
  · exact hf o' hold
  · rw [List.mem_singleton.mp hnew]
    exact ho

end Heap

/-! ## Commands -/

/-- The command keeps the sizes of the heap right, and so does what it leaves when it stops. -/
def Fitting {α : Type} (c : Exec α) : Prop :=
  Triple Heap.Fits c (fun _ => Heap.Fits) fun _ => Heap.Fits

section Commands

variable {α β : Type} {r x : ℕ} {env : Env} {args : List Value}

theorem Fitting.bind {c : Exec α} {f : α → Exec β} (hc : Fitting c) (hf : ∀ a, Fitting (f a)) :
    Fitting (c >>= f) :=
  Triple.bind hc hf

theorem Fitting.pure (a : α) : Fitting (pure a) := Triple.pure fun _ h => h

theorem Fitting.ite {p : Prop} [Decidable p] {c d : Exec α} (hc : Fitting c) (hd : Fitting d) :
    Fitting (if p then c else d) :=
  Triple.ite (fun _ => hc) fun _ => hd

theorem Fitting.of_quiet {B : Stop → Prop} {c : Exec α} (hc : Quiet B c) : Fitting c :=
  hc.triple fun _ h _ _ => h

theorem Fitting.modify {f : Heap → Heap} (hf : ∀ h, h.Fits → (f h).Fits) :
    Fitting (Command.modify f) :=
  Triple.modify hf

/-! ## Memory and objects -/

theorem fitting_mem {f : Heap → Blocks Cell} :
    Fitting (Command.modify fun h => { h with mem := f h }) :=
  Fitting.modify fun _ h => h

theorem allocate_fits {n : ℕ} : Fitting (allocate n) :=
  (Fitting.of_quiet quiet_heap).bind fun _ => fitting_mem.bind fun _ => Fitting.pure _

theorem growArray_fits {p : Option ℕ} {n : ℕ} : Fitting (growArray env p n) := by
  unfold growArray
  split
  · exact allocate_fits
  · refine (Fitting.of_quiet quiet_heap).bind fun _ => Fitting.ite ?_ ?_
    · exact fitting_mem.bind fun _ => Fitting.pure _
    · exact fitting_mem.bind fun _ => Fitting.pure _

theorem freeArray_fits {p : Option ℕ} : Fitting (freeArray p) := by
  unfold freeArray
  split
  · exact Fitting.pure _
  · exact fitting_mem

theorem storeCells_fits {p : Option ℕ} {i : ℕ} {xs : Cells} : Fitting (storeCells p i xs) := by
  unfold storeCells
  split
  · exact Fitting.ite (Fitting.pure _) (Triple.stop fun _ h => h)
  · exact fitting_mem

theorem loadCells_fits {p : Option ℕ} {n : ℕ} : Fitting (loadCells p n) :=
  Fitting.of_quiet (quiet_loadCells p n)

theorem getString_fits :
    Triple Heap.Fits (getString x) (fun s h => s.Fits ∧ h.Fits) fun _ => Heap.Fits :=
  Triple.look (fun _ _ hf hs => ⟨hf.string hs, hf⟩) fun _ hf _ => hf

theorem getArray_fits :
    Triple Heap.Fits (getArray x) (fun a h => a.Fits ∧ h.Fits) fun _ => Heap.Fits :=
  Triple.look (fun _ _ hf ha => ⟨hf.array ha, hf⟩) fun _ hf _ => hf

theorem setString_fits {s : ObjString} (hs : s.Fits) : Fitting (setString x s) :=
  Fitting.modify fun _ hf => hf.setBody hs

theorem setArray_fits {a : ObjArray} (ha : a.Fits) : Fitting (setArray x a) :=
  Fitting.modify fun _ hf => hf.setBody ha

theorem setMap_fits {t : Table} : Fitting (setMap x t) :=
  Fitting.modify fun _ hf => hf.setBody trivial

theorem newObj_fits {o : Obj} (ho : o.body.Fits) : Fitting (newObj o) :=
  (Fitting.of_quiet quiet_heap).bind fun _ =>
    (Fitting.modify fun _ hf => hf.addObj ho).bind fun _ => Fitting.pure _

theorem blank_fits (b : Body) : b.blank.Fits := by
  cases b with
  | string s => exact Nat.le_refl 0
  | array a => exact ⟨Nat.le_refl 0, fun _ => rfl⟩
  | _ => trivial

/-! ## Strings -/

theorem copyString_fits {chars : List UInt8} : Fitting (copyString chars) :=
  allocate_fits.bind fun _ => storeCells_fits.bind fun _ => newObj_fits (Nat.le_refl chars.length)

theorem internedString_fits {chars : List UInt8} : Fitting (internedString chars) := by
  refine (Fitting.of_quiet quiet_heap).bind fun h₁ => ?_
  split
  · exact Fitting.pure _
  · refine copyString_fits.bind fun n => ?_
    refine Fitting.bind (Fitting.modify fun _ hf => hf) fun _ => ?_
    refine Triple.bind getString_fits fun s => Triple.given fun hs => ?_
    refine (setString_fits (s := { s with isInterned := true }) hs).bind fun _ => ?_
    exact Fitting.bind (Fitting.modify fun _ hf => hf.setFrozen) fun _ => Fitting.pure _

/-- There is room for `newLen` bytes, and the length is that of before. -/
theorem growChars_fits {s : ObjString} {newLen : ℕ} :
    Triple (fun h => h.Fits ∧ h.string? x = some s) (growChars env x newLen)
      (fun s' h => (newLen ≤ s'.capacity ∧ s'.length = s.length) ∧ h.Fits)
      fun _ => Heap.Fits := by
  have hget : Triple (fun h => h.Fits ∧ h.string? x = some s) (getString x)
      (fun s' h => (s' = s ∧ s.Fits) ∧ h.Fits) fun _ => Heap.Fits :=
    Triple.look (fun _ _ hh hs =>
      ⟨⟨Option.some.inj (hs.symm.trans hh.2), hh.1.string hh.2⟩, hh.1⟩) fun _ hh _ => hh.1
  refine hget.bind fun s' => Triple.given ?_
  rintro ⟨rfl, hs⟩
  refine Triple.ite (fun _ => ?_) fun hroom =>
    Triple.pure fun _ h => ⟨⟨Nat.le_of_not_lt hroom, rfl⟩, h⟩
  refine Triple.bind growArray_fits fun p => Triple.bind (setString_fits ?_) fun _ =>
    Triple.pure fun _ h => ⟨⟨Nat.le_max_left _ _, rfl⟩, h⟩
  exact Nat.le_trans hs (Nat.le_trans (by unfold growCapacity; split <;> omega)
    (Nat.le_max_right newLen (growCapacity s'.capacity)))

theorem copyChars_fits {dest : Option ℕ} {src : Source} {i k n : ℕ} :
    Fitting (copyChars dest i src k n) := by
  induction n generalizing k with
  | zero => exact Fitting.pure _
  | succ n ih =>
    exact (Fitting.of_quiet (quiet_charAt src k)).bind fun _ => storeCells_fits.bind fun _ => ih

/-- `AS_STRING` of a string that is then known -/
theorem getString_fits_eq :
    Triple Heap.Fits (getString x) (fun s h => h.Fits ∧ h.string? x = some s)
      fun _ => Heap.Fits :=
  Triple.look (fun _ _ hf hs => ⟨hf, hs⟩) fun _ hf _ => hf

theorem pushCString_fits {src : Source} {n : ℕ} : Fitting (pushCString env x src n) := by
  refine (Fitting.of_quiet quiet_heap).bind fun _ => ?_
  refine (Fitting.of_quiet (quiet_assert _)).bind fun _ => ?_
  refine Fitting.ite (Fitting.pure _) ?_
  refine Triple.bind getString_fits_eq fun s => Triple.bind growChars_fits fun s' =>
    Triple.given fun hs => ?_
  refine copyChars_fits.bind fun _ => storeCells_fits.bind fun _ => setString_fits ?_
  show s'.length + n ≤ s'.capacity
  rw [hs.2]
  exact hs.1

theorem insertCString_fits {src : Source} {n : ℕ} {pos : ℤ} {replaceAt : Bool} :
    Fitting (insertCString env x src n pos replaceAt) := by
  refine (Fitting.of_quiet quiet_heap).bind fun _ => ?_
  refine (Fitting.of_quiet (quiet_assert _)).bind fun _ => ?_
  refine Triple.bind getString_fits_eq fun s => ?_
  refine Triple.bind (Q := fun _ h => h.Fits ∧ h.string? x = some s)
    ((quiet_assert _).triple fun _ h _ _ => h.1) fun _ => ?_
  refine Triple.ite (fun _ => pushCString_fits.pre fun _ h => h.1) fun _ => ?_
  refine Triple.ite (fun _ => Triple.pure fun _ h => h.1) fun _ => ?_
  refine Triple.bind growChars_fits fun s' => Triple.given fun hs => ?_
  refine loadCells_fits.bind fun _ => storeCells_fits.bind fun _ => ?_
  exact copyChars_fits.bind fun _ => storeCells_fits.bind fun _ => setString_fits hs.1

theorem clearObjString_fits : Fitting (clearObjString env x) :=
  (Fitting.of_quiet quiet_heap).bind fun _ => (Fitting.of_quiet (quiet_assert _)).bind fun _ =>
    (Fitting.of_quiet (quiet_getString x)).bind fun _ => growArray_fits.bind fun _ =>
    storeCells_fits.bind fun _ => setString_fits (Nat.le_refl 0)

theorem dedupString_fits : Fitting (dedupString x) := by
  refine Triple.bind getString_fits fun s => Triple.given fun hs => ?_
  refine Fitting.ite ?_ (Fitting.pure _)
  exact allocate_fits.bind fun _ => loadCells_fits.bind fun _ => storeCells_fits.bind fun _ =>
    setString_fits hs

theorem throwIfFrozen_fits {what : String} : Fitting (throwIfFrozen x what) :=
  Fitting.of_quiet (quiet_throwIfFrozen x what)

theorem pushString_fits {y : ℕ} : Fitting (pushString env x y) :=
  throwIfFrozen_fits.bind fun _ => (Fitting.of_quiet (quiet_getString y)).bind fun _ =>
    pushCString_fits

theorem clearString_fits : Fitting (clearString env x) :=
  throwIfFrozen_fits.bind fun _ => clearObjString_fits

theorem stringInsertAt_fits {y : ℕ} {pos : ℤ} {replaceAt : Bool} :
    Fitting (stringInsertAt env x y pos replaceAt) :=
  throwIfFrozen_fits.bind fun _ => (Fitting.of_quiet (quiet_getString y)).bind fun _ =>
    insertCString_fits

theorem stringIndexSet_fits {index : ℤ} {c : Option Cell} :
    Fitting (stringIndexSet x index c) := by
  refine Triple.bind getString_fits fun s => Triple.given fun hs => ?_
  refine throwIfFrozen_fits.bind fun _ => ?_
  refine (Fitting.of_quiet (quiet_stopIf _ (by simp))).bind fun _ => ?_
  refine loadCells_fits.bind fun _ => storeCells_fits.bind fun _ => ?_
  exact Fitting.ite (setString_fits hs) (Fitting.pure _)

/-! ## Arrays -/

theorem le_growCapacity (n : ℕ) : n + 1 ≤ growCapacity n := by
  unfold growCapacity
  split <;> omega

theorem growValues_fits {a : ObjArray} (ha : a.Fits) :
    Triple Heap.Fits (growValues env a)
      (fun a' h => (a'.count = a.count ∧ a.count + 1 ≤ a'.capacity ∧ a'.values ≠ none) ∧ h.Fits)
      fun _ => Heap.Fits := by
  have hcount := le_growCapacity a.capacity
  refine Triple.ite (fun _ => ?_) fun hroom => Triple.pure fun _ h => ⟨⟨rfl, ?_, fun hnone => ?_⟩, h⟩
  · refine Triple.bind growArray_fits fun p => Triple.pure fun _ h => ⟨⟨rfl, ?_, nofun⟩, h⟩
    exact Nat.le_trans (Nat.succ_le_succ ha.1) hcount
  · exact Nat.le_of_not_lt hroom
  · have hzero := ha.2 hnone
    omega

theorem writeValueArrayEnd_fits {a : ObjArray} {v : Option Cell} (ha : a.Fits) :
    Triple Heap.Fits (writeValueArrayEnd env a v) (fun a' h => a'.Fits ∧ h.Fits)
      fun _ => Heap.Fits := by
  refine Triple.bind (growValues_fits ha) fun a' => Triple.given fun ha' => ?_
  refine Triple.bind storeCells_fits fun _ => Triple.pure fun _ h => ⟨⟨?_, fun hn => ?_⟩, h⟩
  · show a'.count + 1 ≤ a'.capacity
    rw [ha'.1]
    exact ha'.2.1
  · exact absurd hn ha'.2.2

theorem writeAll_fits {a : ObjArray} {l : Cells} (ha : a.Fits) :
    Triple Heap.Fits (l.foldlM (writeValueArrayEnd env) a) (fun a' h => a'.Fits ∧ h.Fits)
      fun _ => Heap.Fits :=
  (Triple.foldlM (Q := fun (a : ObjArray) (h : Heap) => a.Fits ∧ h.Fits) fun _ _ _ =>
    Triple.given writeValueArrayEnd_fits).pre fun _ h => ⟨ha, h⟩

theorem writeValueArrayBeg_fits {a : ObjArray} {v : Option Cell} (ha : a.Fits) :
    Triple Heap.Fits (writeValueArrayBeg env a v) (fun a' h => a'.Fits ∧ h.Fits)
      fun _ => Heap.Fits := by
  refine Triple.bind (growValues_fits ha) fun a' => Triple.given fun ha' => ?_
  refine Triple.bind loadCells_fits fun _ => Triple.bind storeCells_fits fun _ => ?_
  refine Triple.bind storeCells_fits fun _ => Triple.pure fun _ h => ⟨⟨?_, fun hn => ?_⟩, h⟩
  · show a'.count + 1 ≤ a'.capacity
    rw [ha'.1]
    exact ha'.2.1
  · exact absurd hn ha'.2.2

theorem ObjArray.Fits.remove {a : ObjArray} (ha : a.Fits) :
    ({ a with count := a.count - 1 } : ObjArray).Fits :=
  ⟨Nat.le_trans (Nat.sub_le _ _) ha.1, ha.2⟩

theorem removeValueArray_fits {a : ObjArray} {idx : ℕ} (ha : a.Fits) :
    Triple Heap.Fits (removeValueArray a idx) (fun a' h => a'.Fits ∧ h.Fits)
      fun _ => Heap.Fits := by
  refine Triple.bind (Fitting.of_quiet (quiet_assert _)) fun _ => ?_
  refine Triple.ite (fun _ => Triple.pure fun _ h => ⟨ha, h⟩) fun _ => ?_
  refine Triple.ite (fun _ => Triple.pure fun _ h => ⟨ha.remove, h⟩) fun _ => ?_
  exact Triple.bind loadCells_fits fun _ => Triple.bind storeCells_fits fun _ =>
    Triple.pure fun _ h => ⟨ha.remove, h⟩

theorem initValueArray_fits (a : ObjArray) : (initValueArray a).Fits :=
  ⟨Nat.le_refl 0, fun _ => rfl⟩

theorem arrayDedup_fits : Fitting (arrayDedup env x) := by
  refine (Fitting.of_quiet (quiet_getArray x)).bind fun a => Fitting.ite ?_ (Fitting.pure _)
  refine loadCells_fits.bind fun _ => ?_
  exact Triple.bind (writeAll_fits (initValueArray_fits a)) fun _ => Triple.given fun ha =>
    setArray_fits ha

theorem newArray_fits : Fitting newArray :=
  newObj_fits (o := ⟨false, true, [], .array ⟨false, false, none, 0, 0⟩⟩)
    ⟨Nat.le_refl 0, fun _ => rfl⟩

theorem arrayDup_fits : Fitting (arrayDup env x) := by
  refine newArray_fits.bind fun n => ?_
  refine Triple.bind getArray_fits fun o => Triple.given fun ho => ?_
  refine Fitting.bind (Fitting.ite (setArray_fits ho) ?_) fun _ => Fitting.pure _
  refine loadCells_fits.bind fun _ => ?_
  exact Triple.bind (writeAll_fits ⟨Nat.le_refl 0, fun _ => rfl⟩) fun _ =>
    Triple.given setArray_fits

theorem arraySort_fits : Fitting (arraySort env x) := by
  refine arrayDup_fits.bind fun _ => (Fitting.of_quiet (quiet_getArray _)).bind fun _ => ?_
  refine loadCells_fits.bind fun _ => ?_
  split
  · exact Fitting.of_quiet (quiet_throw _)
  · exact storeCells_fits.bind fun _ => Fitting.pure _

/-- The beginning that the mutators of an array have in common. -/
theorem changeArray_fits {f : ObjArray → Exec α} (hf : ∀ a, a.Fits → Fitting (f a)) :
    Fitting (throwIfFrozen x "Array" >>= fun _ => arrayDedup env x >>= fun _ =>
      getArray x >>= f) :=
  throwIfFrozen_fits.bind fun _ => arrayDedup_fits.bind fun _ =>
    Triple.bind getArray_fits fun a => Triple.given (hf a)

theorem arrayPush_fits {el : Value} : Fitting (arrayPush env x el) :=
  changeArray_fits fun _ ha => Triple.bind (writeValueArrayEnd_fits ha) fun _ =>
    Triple.given setArray_fits

theorem arrayPushFront_fits {el : Value} : Fitting (arrayPushFront env x el) :=
  changeArray_fits fun _ ha => Triple.bind (writeValueArrayBeg_fits ha) fun _ =>
    Triple.given setArray_fits

theorem arrayDelete_fits {el : Value} : Fitting (arrayDelete env x el) := by
  refine changeArray_fits fun _ ha => loadCells_fits.bind fun _ => ?_
  dsimp only
  split
  · exact Fitting.pure _
  · exact Triple.bind (removeValueArray_fits ha) fun _ => Triple.given fun ha' =>
      (setArray_fits ha').bind fun _ => Fitting.pure _

theorem arrayDeleteAt_fits {idx : ℤ} : Fitting (arrayDeleteAt env x idx) := by
  refine changeArray_fits fun _ ha => Fitting.ite (Triple.stop fun _ h => h) ?_
  refine Fitting.ite (loadCells_fits.bind fun _ => ?_) (Fitting.pure _)
  exact Triple.bind (removeValueArray_fits ha) fun _ => Triple.given fun ha' =>
    (setArray_fits ha').bind fun _ => Fitting.pure _

theorem arrayTake_fits {front : Bool} : Fitting (arrayTake env x front) := by
  refine changeArray_fits fun _ ha => Fitting.ite (Fitting.pure _) ?_
  refine loadCells_fits.bind fun _ => ?_
  exact Triple.bind (removeValueArray_fits ha) fun _ => Triple.given fun ha' =>
    (setArray_fits ha').bind fun _ => Fitting.pure _

theorem arrayClear_fits : Fitting (arrayClear env x) := by
  refine changeArray_fits fun a _ => ?_
  have hfree : Triple Heap.Fits (freeValueArray a) (fun a' h => a'.Fits ∧ h.Fits)
      fun _ => Heap.Fits :=
    Triple.bind freeArray_fits fun _ => Triple.pure fun _ h => ⟨initValueArray_fits a, h⟩
  exact Triple.bind hfree fun _ => Triple.given setArray_fits

/-! ## Native methods -/

theorem checkArity_fits {min : ℕ} {max : Option ℕ} : Fitting (checkArity min max args) :=
  Fitting.of_quiet (quiet_checkArity min max args)

theorem asObj_fits {v : Value} : Fitting (asObj v) := Fitting.of_quiet (quiet_asObj v)

theorem checkArg_fits {v : Value} {expected : ArgType} {argnum : ℕ} :
    Fitting (checkArg v expected argnum) :=
  Fitting.of_quiet (quiet_checkArg v expected argnum)

theorem getMap_fits : Fitting (getMap x) := Fitting.of_quiet (quiet_getMap x)

theorem newMap_fits : Fitting newMap := newObj_fits trivial

theorem setProp_fits {name val : Value} : Fitting (setProp env x name val) :=
  (Fitting.of_quiet (quiet_getObj x)).bind fun _ => Fitting.modify fun _ hf => hf.setFields

theorem propertySet_fits {name val : Value} : Fitting (propertySet env x name val) :=
  (Fitting.of_quiet (quiet_getObj x)).bind fun _ =>
    (Fitting.of_quiet (quiet_stopIf _ (tame_thrown _))).bind fun _ =>
    Fitting.modify fun _ hf => hf.setFields

theorem mapSet_fits {key val : Value} : Fitting (mapSet env x key val) :=
  getMap_fits.bind fun _ => setMap_fits

theorem make_fits {m : Made} : Fitting (make env m) := by
  cases m with
  | value v => exact Fitting.pure _
  | string chars => exact copyString_fits.bind fun _ => Fitting.pure _
  | array els =>
    refine newArray_fits.bind fun n => ?_
    exact Triple.bind (writeAll_fits ⟨Nat.le_refl 0, fun _ => rfl⟩) fun _ =>
      Triple.given fun ha => (setArray_fits ha).bind fun _ => Fitting.pure _
  | map entries =>
    exact newMap_fits.bind fun _ => getMap_fits.bind fun _ => setMap_fits.bind fun _ =>
      Fitting.pure _
  | plain =>
    exact (newObj_fits (o := ⟨false, true, [], .plain⟩) trivial).bind fun _ => Fitting.pure _

theorem Reader.call_fits {m : Reader} : Fitting (m.call env args) := by
  refine checkArity_fits.bind fun _ => asObj_fits.bind fun _ => ?_
  refine (Fitting.of_quiet (quiet_checkArgs args m.checks)).bind fun _ => ?_
  refine (Fitting.of_quiet (quiet_castStrings args m.unchecked)).bind fun _ => ?_
  split
  · exact Fitting.of_quiet (quiet_throw _)
  · exact make_fits

theorem lxObjectDup_fits : Fitting (lxObjectDup env args) :=
  checkArity_fits.bind fun _ => asObj_fits.bind fun _ =>
    (Fitting.of_quiet (quiet_getObj _)).bind fun o => newObj_fits (blank_fits o.body)

theorem lxObjectFreeze_fits : Fitting (lxObjectFreeze args) :=
  checkArity_fits.bind fun _ => asObj_fits.bind fun _ =>
    Fitting.bind (Fitting.modify fun _ hf => hf.setFrozen) fun _ => Fitting.pure _

theorem lxObjectUnfreeze_fits : Fitting (lxObjectUnfreeze args) := by
  refine checkArity_fits.bind fun _ => asObj_fits.bind fun x => ?_
  have hunfreeze : Fitting (objUnfreeze x) :=
    (Fitting.of_quiet quiet_heap).bind fun _ =>
      (Fitting.of_quiet (quiet_stopIf _ (tame_thrown _))).bind fun _ =>
      Fitting.modify fun _ hf => hf.setFrozen
  exact hunfreeze.bind fun _ => Fitting.pure _

theorem lxObjectSetProperty_fits : Fitting (lxObjectSetProperty env args) :=
  checkArity_fits.bind fun _ => asObj_fits.bind fun _ => checkArg_fits.bind fun _ =>
    propertySet_fits.bind fun _ => Fitting.pure _

theorem lxErrInit_fits : Fitting (lxErrInit env args) :=
  checkArity_fits.bind fun _ => asObj_fits.bind fun _ =>
    (Fitting.of_quiet (quiet_checkMessage args)).bind fun _ => internedString_fits.bind fun _ =>
    setProp_fits.bind fun _ => Fitting.pure _

theorem initSource_fits : Fitting (initSource env args) := by
  refine (Fitting.of_quiet quiet_heap).bind fun _ => ?_
  split
  · exact internedString_fits
  · exact Fitting.ite asObj_fits copyString_fits

theorem takeChars_fits {y : ℕ} : Fitting (takeChars x y) := by
  refine Triple.bind getString_fits fun s => Triple.given fun hs => ?_
  refine (Fitting.of_quiet (quiet_getString y)).bind fun o => ?_
  refine Fitting.ite (setString_fits hs) (Fitting.ite ?_ (setString_fits hs))
  refine allocate_fits.bind fun p => (setString_fits (s := { s with chars := some p }) hs).bind
    fun _ => ?_
  exact (Fitting.of_quiet (quiet_getString y)).bind fun _ => loadCells_fits.bind fun _ =>
    storeCells_fits

theorem lxStringInit_fits : Fitting (lxStringInit env args) := by
  refine checkArity_fits.bind fun _ => asObj_fits.bind fun x => initSource_fits.bind fun y => ?_
  refine Triple.bind getString_fits fun s => Triple.given fun _ => ?_
  refine Triple.bind getString_fits fun o => Triple.given fun ho => ?_
  have hset : ({ s with capacity := o.capacity, hash := o.hash, length := o.length } :
      ObjString).Fits := ho
  refine (setString_fits hset).bind fun _ => ?_
  refine Fitting.bind (Fitting.modify fun _ hf => hf.setFrozen) fun _ => ?_
  exact takeChars_fits.bind fun _ => Fitting.pure _

theorem lxStringPush_fits : Fitting (lxStringPush env args) :=
  checkArity_fits.bind fun _ => asObj_fits.bind fun _ => checkArg_fits.bind fun _ =>
    asObj_fits.bind fun _ => dedupString_fits.bind fun _ => pushString_fits.bind fun _ =>
    Fitting.pure _

theorem lxStringDup_fits : Fitting (lxStringDup env args) := by
  refine checkArity_fits.bind fun _ => asObj_fits.bind fun x => lxObjectDup_fits.bind fun n => ?_
  refine Triple.bind getString_fits fun s => Triple.given fun hs => ?_
  refine (Fitting.of_quiet (quiet_getString n)).bind fun d => ?_
  exact allocate_fits.bind fun _ => loadCells_fits.bind fun _ => storeCells_fits.bind fun _ =>
    (setString_fits (x := n) (s := ⟨false, false, d.isShared, s.length, _, s.hash, s.capacity⟩)
      hs).bind fun _ => Fitting.pure _

theorem lxStringClear_fits : Fitting (lxStringClear env args) :=
  checkArity_fits.bind fun _ => asObj_fits.bind fun _ => dedupString_fits.bind fun _ =>
    clearString_fits.bind fun _ => Fitting.pure _

theorem lxStringInsertAt_fits : Fitting (lxStringInsertAt env args) :=
  checkArity_fits.bind fun _ => asObj_fits.bind fun _ => checkArg_fits.bind fun _ =>
    checkArg_fits.bind fun _ => asObj_fits.bind fun _ => dedupString_fits.bind fun _ =>
    stringInsertAt_fits.bind fun _ => Fitting.pure _

theorem lxStringOpIndexSet_fits : Fitting (lxStringOpIndexSet env args) := by
  have hchars : ∀ x y i, Fitting (indexSetChars env x y i) := fun x y i =>
    (Fitting.of_quiet (quiet_getString y)).bind fun _ => loadCells_fits.bind fun _ =>
      Fitting.ite stringIndexSet_fits stringInsertAt_fits
  exact checkArity_fits.bind fun _ => asObj_fits.bind fun _ => checkArg_fits.bind fun _ =>
    checkArg_fits.bind fun _ => asObj_fits.bind fun _ => dedupString_fits.bind fun _ =>
    (hchars _ _ _).bind fun _ => Fitting.pure _

theorem lxStringPadRight_fits : Fitting (lxStringPadRight env args) := by
  have hpad : ∀ x y, Fitting (padOnce env x y) := fun x y =>
    (Fitting.of_quiet (quiet_getString y)).bind fun _ => pushCString_fits
  exact checkArity_fits.bind fun _ => asObj_fits.bind fun _ => checkArg_fits.bind fun _ =>
    checkArg_fits.bind fun _ => asObj_fits.bind fun _ =>
    (Fitting.of_quiet (quiet_getString _)).bind fun _ =>
    Fitting.bind (Triple.times (hpad _ _)) fun _ => Fitting.pure _

theorem initValues_fits {a : ObjArray} {capa : ℕ} :
    Triple Heap.Fits (initValues env a capa) (fun a' h => a'.Fits ∧ h.Fits)
      fun _ => Heap.Fits := by
  refine Triple.ite (fun _ => Triple.ite (fun _ => ?_) fun _ => ?_) fun _ => ?_
  · exact Triple.pure fun _ h => ⟨initValueArray_fits a, h⟩
  · exact Triple.bind growArray_fits fun _ =>
      Triple.pure fun _ h => ⟨⟨Nat.zero_le _, nofun⟩, h⟩
  · exact Triple.pure fun _ h => ⟨initValueArray_fits a, h⟩

theorem lxArrayInit_fits : Fitting (lxArrayInit env args) := by
  refine checkArity_fits.bind fun _ => asObj_fits.bind fun _ => ?_
  refine (Fitting.of_quiet (quiet_getArray _)).bind fun _ => ?_
  refine Triple.bind initValues_fits fun _ => Triple.given fun ha => ?_
  exact Triple.bind (writeAll_fits ha) fun _ => Triple.given fun ha' =>
    (setArray_fits ha').bind fun _ => Fitting.pure _

theorem lxArrayDup_fits : Fitting (lxArrayDup env args) := by
  refine checkArity_fits.bind fun _ => asObj_fits.bind fun _ => lxObjectDup_fits.bind fun _ => ?_
  refine (Fitting.of_quiet (quiet_getArray _)).bind fun _ => ?_
  refine Triple.bind getArray_fits fun _ => Triple.given fun ha => ?_
  refine loadCells_fits.bind fun _ => ?_
  exact Triple.bind (writeAll_fits ha) fun _ => Triple.given fun ha' =>
    (setArray_fits ha').bind fun _ => Fitting.pure _

theorem lxArrayOpIndexSet_fits : Fitting (lxArrayOpIndexSet args) := by
  refine checkArity_fits.bind fun _ => asObj_fits.bind fun _ => ?_
  refine (Fitting.of_quiet (quiet_getArray _)).bind fun _ => checkArg_fits.bind fun _ => ?_
  refine throwIfFrozen_fits.bind fun _ => (Fitting.of_quiet (quiet_getArray _)).bind fun _ => ?_
  refine Fitting.ite (Fitting.pure _) (Fitting.ite ?_ (Fitting.pure _))
  exact storeCells_fits.bind fun _ => Fitting.pure _

theorem setPairs_fits {els : Cells} : Fitting (setPairs env x els) := by
  induction els with
  | nil => exact Fitting.pure _
  | cons el els ih =>
    exact (Fitting.of_quiet (quiet_pairOf el)).bind fun _ => mapSet_fits.bind fun _ => ih

theorem lxMapInit_fits : Fitting (lxMapInit env args) := by
  refine checkArity_fits.bind fun _ => asObj_fits.bind fun _ => getMap_fits.bind fun _ => ?_
  split
  · exact Fitting.pure _
  · exact checkArg_fits.bind fun _ => asObj_fits.bind fun _ =>
      (Fitting.of_quiet (quiet_getArray _)).bind fun _ => loadCells_fits.bind fun _ =>
      setPairs_fits.bind fun _ => Fitting.pure _
  · exact Fitting.of_quiet (quiet_throw _)

theorem lxMapDup_fits : Fitting (lxMapDup env args) :=
  checkArity_fits.bind fun _ => lxObjectDup_fits.bind fun _ => asObj_fits.bind fun _ =>
    getMap_fits.bind fun _ => getMap_fits.bind fun _ => setMap_fits.bind fun _ => Fitting.pure _

theorem lxMapMerge_fits : Fitting (lxMapMerge env args) :=
  checkArity_fits.bind fun _ => asObj_fits.bind fun _ => asObj_fits.bind fun _ =>
    checkArg_fits.bind fun _ => lxMapDup_fits.bind fun _ => getMap_fits.bind fun _ =>
    getMap_fits.bind fun _ => setMap_fits.bind fun _ => Fitting.pure _

theorem lxMapMergeWith_fits : Fitting (lxMapMergeWith env args) :=
  checkArity_fits.bind fun _ => asObj_fits.bind fun _ => asObj_fits.bind fun _ =>
    checkArg_fits.bind fun _ => throwIfFrozen_fits.bind fun _ => getMap_fits.bind fun _ =>
    getMap_fits.bind fun _ => setMap_fits.bind fun _ => Fitting.pure _

theorem Native.call_fits (m : Native) : Fitting (m.call env args) := by
  cases m with
  | reads m => exact Reader.call_fits
  | objectDup => exact lxObjectDup_fits.bind fun _ => Fitting.pure _
  | objectFreeze => exact lxObjectFreeze_fits
  | objectUnfreeze => exact lxObjectUnfreeze_fits
  | objectSetProperty => exact lxObjectSetProperty_fits
  | errInit => exact lxErrInit_fits
  | stringInit => exact lxStringInit_fits
  | stringPush => exact lxStringPush_fits
  | stringDup => exact lxStringDup_fits
  | stringClear => exact lxStringClear_fits
  | stringInsertAt => exact lxStringInsertAt_fits
  | stringOpIndexSet => exact lxStringOpIndexSet_fits
  | stringPadRight => exact lxStringPadRight_fits
  | arrayInit => exact lxArrayInit_fits
  | arrayDup => exact lxArrayDup_fits
  | arrayPush =>
    exact checkArity_fits.bind fun _ => asObj_fits.bind fun _ => arrayPush_fits.bind fun _ =>
      Fitting.pure _
  | arrayPop =>
    exact checkArity_fits.bind fun _ => asObj_fits.bind fun _ => arrayTake_fits.bind fun _ =>
      Fitting.pure _
  | arrayPushFront =>
    exact checkArity_fits.bind fun _ => asObj_fits.bind fun _ => arrayPushFront_fits.bind fun _ =>
      Fitting.pure _
  | arrayPopFront =>
    exact checkArity_fits.bind fun _ => asObj_fits.bind fun _ => arrayTake_fits.bind fun _ =>
      Fitting.pure _
  | arrayDelete =>
    exact checkArity_fits.bind fun _ => asObj_fits.bind fun _ => arrayDelete_fits.bind fun _ =>
      Fitting.pure _
  | arrayDeleteAt =>
    exact checkArity_fits.bind fun _ => asObj_fits.bind fun _ => checkArg_fits.bind fun _ =>
      arrayDeleteAt_fits.bind fun _ => Fitting.pure _
  | arrayClear =>
    exact checkArity_fits.bind fun _ => asObj_fits.bind fun _ => arrayClear_fits.bind fun _ =>
      Fitting.pure _
  | arraySort =>
    exact checkArity_fits.bind fun _ => asObj_fits.bind fun _ => arraySort_fits.bind fun _ =>
      Fitting.pure _
  | arraySortBy =>
    exact checkArity_fits.bind fun _ => asObj_fits.bind fun _ => arraySort_fits.bind fun _ =>
      Fitting.pure _
  | arrayOpIndexSet => exact lxArrayOpIndexSet_fits
  | mapInit => exact lxMapInit_fits
  | mapDup => exact lxMapDup_fits.bind fun _ => Fitting.pure _
  | mapSet =>
    exact checkArity_fits.bind fun _ => asObj_fits.bind fun _ => throwIfFrozen_fits.bind fun _ =>
      mapSet_fits.bind fun _ => Fitting.pure _
  | mapClear =>
    exact checkArity_fits.bind fun _ => asObj_fits.bind fun _ => throwIfFrozen_fits.bind fun _ =>
      (getMap_fits.bind fun _ => setMap_fits).bind fun _ => Fitting.pure _
  | mapMerge => exact lxMapMerge_fits
  | mapMergeWith => exact lxMapMergeWith_fits
  | mapDelete =>
    exact checkArity_fits.bind fun _ => asObj_fits.bind fun _ => throwIfFrozen_fits.bind fun _ =>
      getMap_fits.bind fun _ => setMap_fits.bind fun _ => Fitting.pure _
  | mapRehash =>
    exact checkArity_fits.bind fun _ => asObj_fits.bind fun _ => throwIfFrozen_fits.bind fun _ =>
      getMap_fits.bind fun _ => setMap_fits.bind fun _ => Fitting.pure _

/-! ## Operations -/

theorem callMethod_fits {name : String} : Fitting (callMethod env x name args) := by
  refine (Fitting.of_quiet (quiet_getObj x)).bind fun o => ?_
  split
  · exact Native.call_fits _
  · exact Fitting.of_quiet (quiet_throw _)

theorem construct_fits {b : Body} : Fitting (construct env b args) :=
  (newObj_fits (o := ⟨false, true, [], b.blank⟩) (blank_fits b)).bind fun _ =>
    callMethod_fits.bind fun _ => Fitting.pure _

theorem setStatic_fits : Fitting (setStatic x) :=
  Triple.bind getString_fits fun s => Triple.given fun hs =>
    setString_fits (s := { s with isStatic := true }) hs

theorem opString_fits {isStatic : Bool} : Fitting (opString env x isStatic) := by
  have hmark : Fitting (markStatic x isStatic) := Fitting.ite setStatic_fits (Fitting.pure _)
  have hfreeze : ∀ y, Fitting (freezeStatic y isStatic) := fun y =>
    Fitting.ite (Fitting.bind (Fitting.modify fun _ hf => hf.setFrozen) fun _ => setStatic_fits)
      (Fitting.pure _)
  exact hmark.bind fun _ => construct_fits.bind fun _ => (hfreeze _).bind fun _ => Fitting.pure _

theorem throwErrorVal_fits : Fitting (throwErrorVal env x) := by
  refine internedString_fits.bind fun _ => (Fitting.of_quiet (quiet_getObj x)).bind fun o => ?_
  have honce : ∀ b c t, Fitting (setBacktraceOnce env x b c t) := by
    intro b c t
    refine Fitting.ite (Fitting.ite (Fitting.pure _) ?_) (Fitting.pure _)
    exact newArray_fits.bind fun _ => setProp_fits
  split
  · exact (honce _ _ _).bind fun _ => Fitting.of_quiet (quiet_throw _)
  · exact Fitting.of_quiet (quiet_throw _)

theorem Op.exec_fits (op : Op) : Fitting (op.exec env) := by
  cases op with
  | interns chars => exact internedString_fits.bind fun _ => Fitting.pure _
  | arrayConstant els =>
    refine Fitting.bind ?_ fun _ => Fitting.pure _
    refine newArray_fits.bind fun n => ?_
    exact Triple.bind (writeAll_fits ⟨Nat.le_refl 0, fun _ => rfl⟩) fun _ =>
      Triple.given fun ha => (setArray_fits ha).bind fun _ => Fitting.pure _
  | opString strLit isStatic => exact opString_fits.bind fun _ => Fitting.pure _
  | opDuparray ary => exact arrayDup_fits.bind fun _ => Fitting.pure _
  | makes m => exact make_fits.bind fun _ => Fitting.pure _
  | constructs body args => exact construct_fits.bind fun _ => Fitting.pure _
  | invokes self name args => exact callMethod_fits.bind fun _ => Fitting.pure _
  | setsProperty obj propName rval => exact propertySet_fits
  | throws err => exact throwErrorVal_fits

end Commands

theorem step_fits {h h' : Heap} {e : Env × Op} (hf : h.Fits) (hstep : step h e = some h') :
    h'.Fits := by
  unfold step at hstep
  split at hstep
  · have hleft : (e.2.exec e.1 h).2.Fits := Triple.after e.2.exec_fits hf
    split at hstep
    · rename_i heq
      cases hstep
      rwa [heq] at hleft
    · rename_i heq
      cases hstep
      rwa [heq] at hleft
    · rename_i heq
      cases hstep
      rwa [heq] at hleft
    · cases hstep
    · cases hstep
  · cases hstep

end Clox.Objects
