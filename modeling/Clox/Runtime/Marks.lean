import Clox.Runtime.Sizes

/-! # Lengths and hashes of strings

A string remembers its hash. What an operation can do to the length and to the hash of a string,
whatever it does to the bytes: a native method leaves both as they are, or resets the hash. The
string that `String#init` is called on and the one that `String#dup` makes are the exceptions.
-/

namespace Clox.Objects

open Commands Command Sharing

/-! ## Strings since the beginning of an operation -/

/-- The string `s` at `j` has the length and the hash of the string of before, or its hash was
reset; `j` is of no interest if it is in `X`. -/
def Known (X : Set ℕ) (h₀ : Heap) (j : ℕ) (s : ObjString) : Prop :=
  j ∈ X ∨ s.hash = 0 ∨ ∃ s₀, h₀.string? j = some s₀ ∧ s₀.length = s.length ∧ s₀.hash = s.hash

def Since (X : Set ℕ) (h₀ h : Heap) : Prop := ∀ j s, h.string? j = some s → Known X h₀ j s

namespace Heap

variable {h h' : Heap} {r x j : ℕ} {b : Body} {o : Obj} {s : ObjString}

theorem string?_iff : h.string? j = some s ↔ h.objs[j]?.map Obj.body = some (.string s) := by
  constructor
  · intro hs
    rcases body_of_string? hs with ⟨o, ho, hb⟩
    rw [ho, Option.map_some, hb]
  · intro hb
    rcases Option.map_eq_some_iff.mp hb with ⟨⟨frozen, builtin, fields, body⟩, ho, rfl⟩
    rw [string?, ho]

theorem string?_congr (hbody : h'.objs[j]?.map Obj.body = h.objs[j]?.map Obj.body) :
    h'.string? j = h.string? j := by
  refine Option.ext fun s => ?_
  rw [string?_iff, string?_iff, hbody]

@[simp] theorem string?_setFields {t : Table} : (h.setFields x t).string? j = h.string? j :=
  string?_congr (body_setFields j)

@[simp] theorem string?_setFrozen {frozen : Bool} :
    (h.setFrozen x frozen).string? j = h.string? j :=
  string?_congr (body_setFrozen j)

theorem string?_setBody_of_ne (hj : j ≠ x) : (h.setBody x b).string? j = h.string? j :=
  string?_congr (by rw [objs_setBody_of_ne hj])

theorem body_of_setBody (hs : (h.setBody x b).string? x = some s) : b = .string s := by
  rw [string?_iff, setBody, List.getElem?_modify] at hs
  cases ho : h.objs[x]? with
  | none => simp [ho] at hs
  | some o => simpa [ho] using hs

theorem string?_setBody (hs : (h.setBody x b).string? j = some s) :
    j = x ∧ b = .string s ∨ h.string? j = some s := by
  by_cases hj : j = x
  · left
    subst hj
    exact ⟨rfl, body_of_setBody hs⟩
  · right
    rwa [string?_setBody_of_ne hj] at hs

theorem string?_addObj (hs : (h.addObj o).string? j = some s) :
    j = h.objs.length ∧ o.body = .string s ∨ h.string? j = some s := by
  rw [string?_iff] at hs ⊢
  rcases Nat.lt_trichotomy j h.objs.length with hlt | heq | hgt
  · right
    rwa [objs_addObj_of_lt hlt] at hs
  · left
    refine ⟨heq, ?_⟩
    subst heq
    simpa [addObj] using hs
  · rw [List.getElem?_eq_none (by rw [length_addObj]; omega)] at hs
    cases hs

theorem lt_of_string? (hs : h.string? j = some s) : j < h.objs.length :=
  lt_of_handle (handle_of_string? hs)

end Heap

section Since

variable {X : Set ℕ} {h₀ h : Heap} {x : ℕ} {b : Body} {o : Obj} {s s' : ObjString}

theorem Since.refl (h : Heap) : Since X h h := fun _ s hs => .inr (.inr ⟨s, hs, rfl, rfl⟩)

theorem Since.mono {Y : Set ℕ} (hXY : X ⊆ Y) (hh : Since X h₀ h) : Since Y h₀ h := by
  intro j s hs
  rcases hh j s hs with hX | hknown
  · exact .inl (hXY hX)
  · exact .inr hknown

/-- The length and the hash are all that counts. -/
theorem Known.congr (hs : Known X h₀ x s) (hlength : s'.length = s.length)
    (hhash : s'.hash = s.hash) : Known X h₀ x s' := by
  unfold Known at hs ⊢
  rw [hlength, hhash]
  exact hs

theorem Since.setBody (hh : Since X h₀ h) (hb : ∀ s, b = .string s → Known X h₀ x s) :
    Since X h₀ (h.setBody x b) := by
  intro j s hs
  rcases Heap.string?_setBody hs with ⟨rfl, hbody⟩ | hold
  · exact hb s hbody
  · exact hh j s hold

theorem Since.addObj (hh : Since X h₀ h)
    (ho : ∀ s, o.body = .string s → h.objs.length ∈ X ∨ s.hash = 0) :
    Since X h₀ (h.addObj o) := by
  intro j s hs
  rcases Heap.string?_addObj hs with ⟨rfl, hbody⟩ | hold
  · rcases ho s hbody with hX | hzero
    · exact .inl hX
    · exact .inr (.inl hzero)
  · exact hh j s hold

end Since

/-! ## Commands -/

/-- The command keeps what is known of the strings, and so does what it leaves when it stops. -/
def Marking {α : Type} (X : Set ℕ) (h₀ : Heap) (c : Exec α) : Prop :=
  Triple (Since X h₀) c (fun _ => Since X h₀) fun _ => Since X h₀

section Commands

variable {α β : Type} {X : Set ℕ} {h₀ : Heap} {x : ℕ} {env : Env} {args : List Value}

theorem Marking.bind {c : Exec α} {f : α → Exec β} (hc : Marking X h₀ c)
    (hf : ∀ a, Marking X h₀ (f a)) : Marking X h₀ (c >>= f) :=
  Triple.bind hc hf

theorem Marking.pure (a : α) : Marking X h₀ (pure a) := Triple.pure fun _ h => h

theorem Marking.ite {p : Prop} [Decidable p] {c d : Exec α} (hc : Marking X h₀ c)
    (hd : Marking X h₀ d) : Marking X h₀ (if p then c else d) :=
  Triple.ite (fun _ => hc) fun _ => hd

theorem Marking.of_quiet {B : Stop → Prop} {c : Exec α} (hc : Quiet B c) : Marking X h₀ c :=
  hc.triple fun _ h _ _ => h

theorem marking_mem {f : Heap → Blocks Cell} :
    Marking X h₀ (Command.modify fun h => { h with mem := f h }) :=
  Triple.modify fun _ h => h

theorem marking_setFields {t : Table} :
    Marking X h₀ (Command.modify fun h => h.setFields x t) := by
  refine Triple.modify fun h hh j s hs => ?_
  rw [Heap.string?_setFields] at hs
  exact hh j s hs

theorem marking_setFrozen {frozen : Bool} :
    Marking X h₀ (Command.modify fun h => h.setFrozen x frozen) := by
  refine Triple.modify fun h hh j s hs => ?_
  rw [Heap.string?_setFrozen] at hs
  exact hh j s hs

theorem allocate_marks {n : ℕ} : Marking X h₀ (allocate n) :=
  (Marking.of_quiet quiet_heap).bind fun _ => marking_mem.bind fun _ => Marking.pure _

theorem growArray_marks {p : Option ℕ} {n : ℕ} : Marking X h₀ (growArray env p n) := by
  unfold growArray
  split
  · exact allocate_marks
  · refine (Marking.of_quiet quiet_heap).bind fun _ => Marking.ite ?_ ?_
    · exact marking_mem.bind fun _ => Marking.pure _
    · exact marking_mem.bind fun _ => Marking.pure _

theorem freeArray_marks {p : Option ℕ} : Marking X h₀ (freeArray p) := by
  unfold freeArray
  split
  · exact Marking.pure _
  · exact marking_mem

theorem loadCells_marks {p : Option ℕ} {n : ℕ} : Marking X h₀ (loadCells p n) :=
  Marking.of_quiet (quiet_loadCells p n)

theorem storeCells_marks {p : Option ℕ} {i : ℕ} {xs : Cells} :
    Marking X h₀ (storeCells p i xs) := by
  unfold storeCells
  split
  · exact Marking.ite (Marking.pure _) (Triple.stop fun _ h => h)
  · exact marking_mem

theorem getString_marks : Triple (Since X h₀) (getString x)
    (fun s h => Known X h₀ x s ∧ Since X h₀ h) fun _ => Since X h₀ :=
  Triple.look (fun _ _ hh hs => ⟨hh _ _ hs, hh⟩) fun _ hh _ => hh

theorem getArray_marks : Marking X h₀ (getArray x) := Marking.of_quiet (quiet_getArray x)

theorem setString_marks {s : ObjString} (hs : Known X h₀ x s) : Marking X h₀ (setString x s) := by
  refine Triple.modify fun h hh => hh.setBody fun s' hs' => ?_
  cases hs'
  exact hs

theorem setArray_marks {a : ObjArray} : Marking X h₀ (setArray x a) :=
  Triple.modify fun _ hh => hh.setBody (by simp)

theorem setMap_marks {t : Table} : Marking X h₀ (setMap x t) :=
  Triple.modify fun _ hh => hh.setBody (by simp)

theorem newObj_marks {o : Obj} (ho : ∀ s, o.body = .string s → s.hash = 0) :
    Marking X h₀ (newObj o) := by
  refine (Marking.of_quiet quiet_heap).bind fun _ => ?_
  refine Marking.bind (Triple.modify fun h hh => hh.addObj fun s hs => ?_) fun _ => Marking.pure _
  exact .inr (ho s hs)

theorem hash_of_blank {b : Body} {s : ObjString} (hs : b.blank = .string s) : s.hash = 0 := by
  cases b with
  | string s =>
    cases hs
    rfl
  | _ => cases hs

/-! ## Strings -/

theorem copyString_marks {chars : List UInt8} : Marking X h₀ (copyString chars) := by
  refine allocate_marks.bind fun p => storeCells_marks.bind fun _ => newObj_marks ?_
  intro s hs
  cases hs
  rfl

theorem internedString_marks {chars : List UInt8} : Marking X h₀ (internedString chars) := by
  refine (Marking.of_quiet quiet_heap).bind fun h₁ => ?_
  split
  · exact Marking.pure _
  · refine copyString_marks.bind fun n => ?_
    refine Marking.bind (Triple.modify fun _ hh => hh) fun _ => ?_
    refine Triple.bind getString_marks fun s => Triple.given fun hs => ?_
    refine (setString_marks (s := { s with isInterned := true }) (hs.congr rfl rfl)).bind fun _ => ?_
    exact marking_setFrozen.bind fun _ => Marking.pure _

theorem growChars_marks {newLen : ℕ} : Marking X h₀ (growChars env x newLen) := by
  refine Triple.bind getString_marks fun s => Triple.given fun hs => Marking.ite ?_ (Marking.pure _)
  refine growArray_marks.bind fun p => ?_
  exact (setString_marks (s := ⟨s.isStatic, s.isInterned, s.isShared, s.length, some p, s.hash, _⟩)
    (hs.congr rfl rfl)).bind fun _ => Marking.pure _

theorem copyChars_marks {dest : Option ℕ} {src : Source} {i k n : ℕ} :
    Marking X h₀ (copyChars dest i src k n) := by
  induction n generalizing k with
  | zero => exact Marking.pure _
  | succ n ih =>
    exact (Marking.of_quiet (quiet_charAt src k)).bind fun _ => storeCells_marks.bind fun _ => ih

theorem pushCString_marks {src : Source} {n : ℕ} : Marking X h₀ (pushCString env x src n) := by
  refine (Marking.of_quiet quiet_heap).bind fun _ => (Marking.of_quiet (quiet_assert _)).bind
    fun _ => Marking.ite (Marking.pure _) ?_
  refine (Marking.of_quiet (quiet_getString x)).bind fun s => growChars_marks.bind fun s' => ?_
  exact copyChars_marks.bind fun _ => storeCells_marks.bind fun _ =>
    setString_marks (.inr (.inl rfl))

theorem insertCString_marks {src : Source} {n : ℕ} {pos : ℤ} {replaceAt : Bool} :
    Marking X h₀ (insertCString env x src n pos replaceAt) := by
  refine (Marking.of_quiet quiet_heap).bind fun _ => (Marking.of_quiet (quiet_assert _)).bind
    fun _ => (Marking.of_quiet (quiet_getString x)).bind fun s => ?_
  refine (Marking.of_quiet (quiet_assert _)).bind fun _ => Marking.ite pushCString_marks ?_
  refine Marking.ite (Marking.pure _) (growChars_marks.bind fun s' => ?_)
  refine loadCells_marks.bind fun _ => storeCells_marks.bind fun _ => ?_
  exact copyChars_marks.bind fun _ => storeCells_marks.bind fun _ =>
    setString_marks (.inr (.inl rfl))

theorem clearObjString_marks : Marking X h₀ (clearObjString env x) :=
  (Marking.of_quiet quiet_heap).bind fun _ => (Marking.of_quiet (quiet_assert _)).bind fun _ =>
    (Marking.of_quiet (quiet_getString x)).bind fun _ => growArray_marks.bind fun _ =>
    storeCells_marks.bind fun _ => setString_marks (.inr (.inl rfl))

theorem dedupString_marks : Marking X h₀ (dedupString x) := by
  refine Triple.bind getString_marks fun s => Triple.given fun hs => Marking.ite ?_ (Marking.pure _)
  exact allocate_marks.bind fun _ => loadCells_marks.bind fun _ => storeCells_marks.bind fun _ =>
    setString_marks (hs.congr rfl rfl)

theorem throwIfFrozen_marks {what : String} : Marking X h₀ (throwIfFrozen x what) :=
  Marking.of_quiet (quiet_throwIfFrozen x what)

theorem pushString_marks {y : ℕ} : Marking X h₀ (pushString env x y) :=
  throwIfFrozen_marks.bind fun _ => (Marking.of_quiet (quiet_getString y)).bind fun _ =>
    pushCString_marks

theorem clearString_marks : Marking X h₀ (clearString env x) :=
  throwIfFrozen_marks.bind fun _ => clearObjString_marks

theorem stringInsertAt_marks {y : ℕ} {pos : ℤ} {replaceAt : Bool} :
    Marking X h₀ (stringInsertAt env x y pos replaceAt) :=
  throwIfFrozen_marks.bind fun _ => (Marking.of_quiet (quiet_getString y)).bind fun _ =>
    insertCString_marks

theorem stringIndexSet_marks {index : ℤ} {c : Option Cell} :
    Marking X h₀ (stringIndexSet x index c) := by
  refine (Marking.of_quiet (quiet_getString x)).bind fun s => throwIfFrozen_marks.bind fun _ => ?_
  refine (Marking.of_quiet (quiet_stopIf _ (by simp))).bind fun _ => ?_
  refine loadCells_marks.bind fun _ => storeCells_marks.bind fun _ => ?_
  exact Marking.ite (setString_marks (.inr (.inl rfl))) (Marking.pure _)

/-! ## Arrays -/

theorem growValues_marks {a : ObjArray} : Marking X h₀ (growValues env a) :=
  Marking.ite (growArray_marks.bind fun _ => Marking.pure _) (Marking.pure _)

theorem writeValueArrayEnd_marks {a : ObjArray} {v : Option Cell} :
    Marking X h₀ (writeValueArrayEnd env a v) :=
  growValues_marks.bind fun _ => storeCells_marks.bind fun _ => Marking.pure _

theorem writeAll_marks {a : ObjArray} {l : Cells} :
    Marking X h₀ (l.foldlM (writeValueArrayEnd env) a) :=
  Triple.foldlM (Q := fun _ => Since X h₀) fun _ _ _ => writeValueArrayEnd_marks

theorem writeValueArrayBeg_marks {a : ObjArray} {v : Option Cell} :
    Marking X h₀ (writeValueArrayBeg env a v) :=
  growValues_marks.bind fun _ => loadCells_marks.bind fun _ => storeCells_marks.bind fun _ =>
    storeCells_marks.bind fun _ => Marking.pure _

theorem removeValueArray_marks {a : ObjArray} {idx : ℕ} :
    Marking X h₀ (removeValueArray a idx) := by
  refine (Marking.of_quiet (quiet_assert _)).bind fun _ => Marking.ite (Marking.pure _) ?_
  refine Marking.ite (Marking.pure _) ?_
  exact loadCells_marks.bind fun _ => storeCells_marks.bind fun _ => Marking.pure _

theorem arrayDedup_marks : Marking X h₀ (arrayDedup env x) := by
  refine getArray_marks.bind fun a => Marking.ite ?_ (Marking.pure _)
  exact loadCells_marks.bind fun _ => writeAll_marks.bind fun _ => setArray_marks

theorem newArray_marks : Marking X h₀ newArray := newObj_marks (by simp)

theorem arrayDup_marks : Marking X h₀ (arrayDup env x) := by
  refine newArray_marks.bind fun n => getArray_marks.bind fun o => ?_
  refine Marking.bind (Marking.ite setArray_marks ?_) fun _ => Marking.pure _
  exact loadCells_marks.bind fun _ => writeAll_marks.bind fun _ => setArray_marks

theorem arraySort_marks : Marking X h₀ (arraySort env x) := by
  refine arrayDup_marks.bind fun _ => getArray_marks.bind fun _ => loadCells_marks.bind fun _ => ?_
  split
  · exact Marking.of_quiet (quiet_throw _)
  · exact storeCells_marks.bind fun _ => Marking.pure _

/-- The beginning that the mutators of an array have in common. -/
theorem changeArray_marks {f : ObjArray → Exec α} (hf : ∀ a, Marking X h₀ (f a)) :
    Marking X h₀ (throwIfFrozen x "Array" >>= fun _ => arrayDedup env x >>= fun _ =>
      getArray x >>= f) :=
  throwIfFrozen_marks.bind fun _ => arrayDedup_marks.bind fun _ => getArray_marks.bind hf

theorem arrayPush_marks {el : Value} : Marking X h₀ (arrayPush env x el) :=
  changeArray_marks fun _ => writeValueArrayEnd_marks.bind fun _ => setArray_marks

theorem arrayPushFront_marks {el : Value} : Marking X h₀ (arrayPushFront env x el) :=
  changeArray_marks fun _ => writeValueArrayBeg_marks.bind fun _ => setArray_marks

theorem arrayDelete_marks {el : Value} : Marking X h₀ (arrayDelete env x el) := by
  refine changeArray_marks fun _ => loadCells_marks.bind fun _ => ?_
  dsimp only
  split
  · exact Marking.pure _
  · exact removeValueArray_marks.bind fun _ => setArray_marks.bind fun _ => Marking.pure _

theorem arrayDeleteAt_marks {idx : ℤ} : Marking X h₀ (arrayDeleteAt env x idx) := by
  refine changeArray_marks fun _ => Marking.ite (Triple.stop fun _ h => h) ?_
  refine Marking.ite (loadCells_marks.bind fun _ => ?_) (Marking.pure _)
  exact removeValueArray_marks.bind fun _ => setArray_marks.bind fun _ => Marking.pure _

theorem arrayTake_marks {front : Bool} : Marking X h₀ (arrayTake env x front) := by
  refine changeArray_marks fun _ => Marking.ite (Marking.pure _) ?_
  exact loadCells_marks.bind fun _ => removeValueArray_marks.bind fun _ =>
    setArray_marks.bind fun _ => Marking.pure _

theorem arrayClear_marks : Marking X h₀ (arrayClear env x) :=
  changeArray_marks fun _ => (freeArray_marks.bind fun _ => Marking.pure _).bind fun _ =>
    setArray_marks

/-! ## Native methods -/

theorem checkArity_marks {min : ℕ} {max : Option ℕ} : Marking X h₀ (checkArity min max args) :=
  Marking.of_quiet (quiet_checkArity min max args)

theorem asObj_marks {v : Value} : Marking X h₀ (asObj v) := Marking.of_quiet (quiet_asObj v)

theorem checkArg_marks {v : Value} {expected : ArgType} {argnum : ℕ} :
    Marking X h₀ (checkArg v expected argnum) :=
  Marking.of_quiet (quiet_checkArg v expected argnum)

theorem getMap_marks : Marking X h₀ (getMap x) := Marking.of_quiet (quiet_getMap x)

theorem newMap_marks : Marking X h₀ newMap := newObj_marks (by simp)

theorem setProp_marks {name val : Value} : Marking X h₀ (setProp env x name val) :=
  (Marking.of_quiet (quiet_getObj x)).bind fun _ => marking_setFields

theorem propertySet_marks {name val : Value} : Marking X h₀ (propertySet env x name val) :=
  (Marking.of_quiet (quiet_getObj x)).bind fun _ =>
    (Marking.of_quiet (quiet_stopIf _ (tame_thrown _))).bind fun _ => marking_setFields

theorem mapSet_marks {key val : Value} : Marking X h₀ (mapSet env x key val) :=
  getMap_marks.bind fun _ => setMap_marks

theorem make_marks {m : Made} : Marking X h₀ (make env m) := by
  cases m with
  | value v => exact Marking.pure _
  | string chars => exact copyString_marks.bind fun _ => Marking.pure _
  | array els =>
    exact newArray_marks.bind fun _ => writeAll_marks.bind fun _ => setArray_marks.bind fun _ =>
      Marking.pure _
  | map entries =>
    exact newMap_marks.bind fun _ => getMap_marks.bind fun _ => setMap_marks.bind fun _ =>
      Marking.pure _
  | plain => exact (newObj_marks (by simp)).bind fun _ => Marking.pure _

theorem Reader.call_marks {m : Reader} : Marking X h₀ (m.call env args) := by
  refine checkArity_marks.bind fun _ => asObj_marks.bind fun _ => ?_
  refine (Marking.of_quiet (quiet_checkArgs args m.checks)).bind fun _ => ?_
  refine (Marking.of_quiet (quiet_castStrings args m.unchecked)).bind fun _ => ?_
  split
  · exact Marking.of_quiet (quiet_throw _)
  · exact make_marks

theorem lxObjectDup_marks : Marking X h₀ (lxObjectDup env args) :=
  checkArity_marks.bind fun _ => asObj_marks.bind fun _ =>
    (Marking.of_quiet (quiet_getObj _)).bind fun _ => newObj_marks fun _ => hash_of_blank

theorem lxObjectFreeze_marks : Marking X h₀ (lxObjectFreeze args) :=
  checkArity_marks.bind fun _ => asObj_marks.bind fun _ => marking_setFrozen.bind fun _ =>
    Marking.pure _

theorem lxObjectUnfreeze_marks : Marking X h₀ (lxObjectUnfreeze args) := by
  refine checkArity_marks.bind fun _ => asObj_marks.bind fun x => ?_
  have hunfreeze : Marking X h₀ (objUnfreeze x) :=
    (Marking.of_quiet quiet_heap).bind fun _ =>
      (Marking.of_quiet (quiet_stopIf _ (tame_thrown _))).bind fun _ => marking_setFrozen
  exact hunfreeze.bind fun _ => Marking.pure _

theorem lxObjectSetProperty_marks : Marking X h₀ (lxObjectSetProperty env args) :=
  checkArity_marks.bind fun _ => asObj_marks.bind fun _ => checkArg_marks.bind fun _ =>
    propertySet_marks.bind fun _ => Marking.pure _

theorem lxErrInit_marks : Marking X h₀ (lxErrInit env args) :=
  checkArity_marks.bind fun _ => asObj_marks.bind fun _ =>
    (Marking.of_quiet (quiet_checkMessage args)).bind fun _ => internedString_marks.bind fun _ =>
    setProp_marks.bind fun _ => Marking.pure _

theorem initSource_marks : Marking X h₀ (initSource env args) := by
  refine (Marking.of_quiet quiet_heap).bind fun _ => ?_
  split
  · exact internedString_marks
  · exact Marking.ite asObj_marks copyString_marks

theorem takeChars_marks {y : ℕ} : Marking X h₀ (takeChars x y) := by
  refine Triple.bind getString_marks fun s => Triple.given fun hs => ?_
  refine (Marking.of_quiet (quiet_getString y)).bind fun o => ?_
  refine Marking.ite (setString_marks (hs.congr rfl rfl))
    (Marking.ite ?_ (setString_marks (hs.congr rfl rfl)))
  refine allocate_marks.bind fun p =>
    (setString_marks (s := { s with chars := some p }) (hs.congr rfl rfl)).bind fun _ => ?_
  exact (Marking.of_quiet (quiet_getString y)).bind fun _ => loadCells_marks.bind fun _ =>
    storeCells_marks

/-- The string that it is called on is no longer known. -/
theorem lxStringInit_marks (hself : ∀ x, arg args 0 = .obj x → x ∈ X) :
    Marking X h₀ (lxStringInit env args) := by
  refine checkArity_marks.bind fun _ => ?_
  have hasObj : Triple (Since X h₀) (asObj (arg args 0)) (fun x h => x ∈ X ∧ Since X h₀ h)
      fun _ => Since X h₀ := by
    unfold asObj
    split
    · rename_i x hx
      exact Triple.pure fun _ h => ⟨hself x hx, h⟩
    · exact Triple.stop fun _ h => h
  refine Triple.bind hasObj fun x => Triple.given fun hx => initSource_marks.bind fun y => ?_
  refine (Marking.of_quiet (quiet_getString x)).bind fun _ =>
    (Marking.of_quiet (quiet_getString y)).bind fun _ => (setString_marks (.inl hx)).bind fun _ => ?_
  exact marking_setFrozen.bind fun _ => takeChars_marks.bind fun _ => Marking.pure _

theorem lxStringPush_marks : Marking X h₀ (lxStringPush env args) :=
  checkArity_marks.bind fun _ => asObj_marks.bind fun _ => checkArg_marks.bind fun _ =>
    asObj_marks.bind fun _ => dedupString_marks.bind fun _ => pushString_marks.bind fun _ =>
    Marking.pure _

theorem lxStringClear_marks : Marking X h₀ (lxStringClear env args) :=
  checkArity_marks.bind fun _ => asObj_marks.bind fun _ => dedupString_marks.bind fun _ =>
    clearString_marks.bind fun _ => Marking.pure _

theorem lxStringInsertAt_marks : Marking X h₀ (lxStringInsertAt env args) :=
  checkArity_marks.bind fun _ => asObj_marks.bind fun _ => checkArg_marks.bind fun _ =>
    checkArg_marks.bind fun _ => asObj_marks.bind fun _ => dedupString_marks.bind fun _ =>
    stringInsertAt_marks.bind fun _ => Marking.pure _

theorem indexSetChars_marks {y : ℕ} {i : ℤ} : Marking X h₀ (indexSetChars env x y i) :=
  (Marking.of_quiet (quiet_getString y)).bind fun _ => loadCells_marks.bind fun _ =>
    Marking.ite stringIndexSet_marks stringInsertAt_marks

theorem lxStringOpIndexSet_marks : Marking X h₀ (lxStringOpIndexSet env args) :=
  checkArity_marks.bind fun _ => asObj_marks.bind fun _ => checkArg_marks.bind fun _ =>
    checkArg_marks.bind fun _ => asObj_marks.bind fun _ => dedupString_marks.bind fun _ =>
    indexSetChars_marks.bind fun _ => Marking.pure _

theorem padOnce_marks {y : ℕ} : Marking X h₀ (padOnce env x y) :=
  (Marking.of_quiet (quiet_getString y)).bind fun _ => pushCString_marks

theorem lxStringPadRight_marks : Marking X h₀ (lxStringPadRight env args) :=
  checkArity_marks.bind fun _ => asObj_marks.bind fun _ => checkArg_marks.bind fun _ =>
    checkArg_marks.bind fun _ => asObj_marks.bind fun _ =>
    (Marking.of_quiet (quiet_getString _)).bind fun _ =>
    Marking.bind (Triple.times padOnce_marks) fun _ => Marking.pure _

theorem initValues_marks {a : ObjArray} {capa : ℕ} : Marking X h₀ (initValues env a capa) :=
  Marking.ite (Marking.ite (Marking.pure _) (growArray_marks.bind fun _ => Marking.pure _))
    (Marking.pure _)

theorem lxArrayInit_marks : Marking X h₀ (lxArrayInit env args) :=
  checkArity_marks.bind fun _ => asObj_marks.bind fun _ => getArray_marks.bind fun _ =>
    initValues_marks.bind fun _ => writeAll_marks.bind fun _ => setArray_marks.bind fun _ =>
    Marking.pure _

theorem lxArrayDup_marks : Marking X h₀ (lxArrayDup env args) :=
  checkArity_marks.bind fun _ => asObj_marks.bind fun _ => lxObjectDup_marks.bind fun _ =>
    getArray_marks.bind fun _ => getArray_marks.bind fun _ => loadCells_marks.bind fun _ =>
    writeAll_marks.bind fun _ => setArray_marks.bind fun _ => Marking.pure _

theorem lxArrayOpIndexSet_marks : Marking X h₀ (lxArrayOpIndexSet args) := by
  refine checkArity_marks.bind fun _ => asObj_marks.bind fun _ => getArray_marks.bind fun _ => ?_
  refine checkArg_marks.bind fun _ => throwIfFrozen_marks.bind fun _ => getArray_marks.bind
    fun _ => ?_
  refine Marking.ite (Marking.pure _) (Marking.ite ?_ (Marking.pure _))
  exact storeCells_marks.bind fun _ => Marking.pure _

theorem setPairs_marks {els : Cells} : Marking X h₀ (setPairs env x els) := by
  induction els with
  | nil => exact Marking.pure _
  | cons el els ih =>
    exact (Marking.of_quiet (quiet_pairOf el)).bind fun _ => mapSet_marks.bind fun _ => ih

theorem lxMapInit_marks : Marking X h₀ (lxMapInit env args) := by
  refine checkArity_marks.bind fun _ => asObj_marks.bind fun _ => getMap_marks.bind fun _ => ?_
  split
  · exact Marking.pure _
  · exact checkArg_marks.bind fun _ => asObj_marks.bind fun _ => getArray_marks.bind fun _ =>
      loadCells_marks.bind fun _ => setPairs_marks.bind fun _ => Marking.pure _
  · exact Marking.of_quiet (quiet_throw _)

theorem lxMapDup_marks : Marking X h₀ (lxMapDup env args) :=
  checkArity_marks.bind fun _ => lxObjectDup_marks.bind fun _ => asObj_marks.bind fun _ =>
    getMap_marks.bind fun _ => getMap_marks.bind fun _ => setMap_marks.bind fun _ => Marking.pure _

theorem lxMapMerge_marks : Marking X h₀ (lxMapMerge env args) :=
  checkArity_marks.bind fun _ => asObj_marks.bind fun _ => asObj_marks.bind fun _ =>
    checkArg_marks.bind fun _ => lxMapDup_marks.bind fun _ => getMap_marks.bind fun _ =>
    getMap_marks.bind fun _ => setMap_marks.bind fun _ => Marking.pure _

theorem lxMapMergeWith_marks : Marking X h₀ (lxMapMergeWith env args) :=
  checkArity_marks.bind fun _ => asObj_marks.bind fun _ => asObj_marks.bind fun _ =>
    checkArg_marks.bind fun _ => throwIfFrozen_marks.bind fun _ => getMap_marks.bind fun _ =>
    getMap_marks.bind fun _ => setMap_marks.bind fun _ => Marking.pure _

/-- Every native method but `String#init` and `String#dup` keeps what is known. -/
theorem Native.call_marks (m : Native) (hinit : m ≠ .stringInit) (hdup : m ≠ .stringDup) :
    Marking X h₀ (m.call env args) := by
  cases m with
  | reads m => exact Reader.call_marks
  | objectDup => exact lxObjectDup_marks.bind fun _ => Marking.pure _
  | objectFreeze => exact lxObjectFreeze_marks
  | objectUnfreeze => exact lxObjectUnfreeze_marks
  | objectSetProperty => exact lxObjectSetProperty_marks
  | errInit => exact lxErrInit_marks
  | stringInit => exact absurd rfl hinit
  | stringPush => exact lxStringPush_marks
  | stringDup => exact absurd rfl hdup
  | stringClear => exact lxStringClear_marks
  | stringInsertAt => exact lxStringInsertAt_marks
  | stringOpIndexSet => exact lxStringOpIndexSet_marks
  | stringPadRight => exact lxStringPadRight_marks
  | arrayInit => exact lxArrayInit_marks
  | arrayDup => exact lxArrayDup_marks
  | arrayPush =>
    exact checkArity_marks.bind fun _ => asObj_marks.bind fun _ => arrayPush_marks.bind fun _ =>
      Marking.pure _
  | arrayPop =>
    exact checkArity_marks.bind fun _ => asObj_marks.bind fun _ => arrayTake_marks.bind fun _ =>
      Marking.pure _
  | arrayPushFront =>
    exact checkArity_marks.bind fun _ => asObj_marks.bind fun _ => arrayPushFront_marks.bind
      fun _ => Marking.pure _
  | arrayPopFront =>
    exact checkArity_marks.bind fun _ => asObj_marks.bind fun _ => arrayTake_marks.bind fun _ =>
      Marking.pure _
  | arrayDelete =>
    exact checkArity_marks.bind fun _ => asObj_marks.bind fun _ => arrayDelete_marks.bind fun _ =>
      Marking.pure _
  | arrayDeleteAt =>
    exact checkArity_marks.bind fun _ => asObj_marks.bind fun _ => checkArg_marks.bind fun _ =>
      arrayDeleteAt_marks.bind fun _ => Marking.pure _
  | arrayClear =>
    exact checkArity_marks.bind fun _ => asObj_marks.bind fun _ => arrayClear_marks.bind fun _ =>
      Marking.pure _
  | arraySort =>
    exact checkArity_marks.bind fun _ => asObj_marks.bind fun _ => arraySort_marks.bind fun _ =>
      Marking.pure _
  | arraySortBy =>
    exact checkArity_marks.bind fun _ => asObj_marks.bind fun _ => arraySort_marks.bind fun _ =>
      Marking.pure _
  | arrayOpIndexSet => exact lxArrayOpIndexSet_marks
  | mapInit => exact lxMapInit_marks
  | mapDup => exact lxMapDup_marks.bind fun _ => Marking.pure _
  | mapSet =>
    exact checkArity_marks.bind fun _ => asObj_marks.bind fun _ => throwIfFrozen_marks.bind
      fun _ => mapSet_marks.bind fun _ => Marking.pure _
  | mapClear =>
    exact checkArity_marks.bind fun _ => asObj_marks.bind fun _ => throwIfFrozen_marks.bind
      fun _ => (getMap_marks.bind fun _ => setMap_marks).bind fun _ => Marking.pure _
  | mapMerge => exact lxMapMerge_marks
  | mapMergeWith => exact lxMapMergeWith_marks
  | mapDelete =>
    exact checkArity_marks.bind fun _ => asObj_marks.bind fun _ => throwIfFrozen_marks.bind
      fun _ => getMap_marks.bind fun _ => setMap_marks.bind fun _ => Marking.pure _
  | mapRehash =>
    exact checkArity_marks.bind fun _ => asObj_marks.bind fun _ => throwIfFrozen_marks.bind
      fun _ => getMap_marks.bind fun _ => setMap_marks.bind fun _ => Marking.pure _

end Commands

end Clox.Objects
