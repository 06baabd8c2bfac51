import Clox.Runtime.Natives
import Clox.Lib.Interleaving

/-! # Copy on write

Literals and `dup` share storage; whoever writes first makes a copy of it. What an operation of
an object does to the storage of the others: the invariant is `Sound`, that two objects have the
same block only if both are marked.
-/

namespace Clox.Objects

open Commands Command Sharing Interleaving

/-! ## The heap under its primitive updates -/

namespace Heap

variable {h h' : Heap} {r x : ℕ} {b : Body} {o : Obj}

theorem storage_congr (hbody : h'.objs[r]?.map Obj.body = h.objs[r]?.map Obj.body)
    (hload : ∀ g, h.handle r = some g → h'.mem.load g.addr = h.mem.load g.addr) :
    h'.storage r = h.storage r := by
  unfold storage
  rw [hbody]
  unfold handle at hload
  cases hr : h.objs[r]? with
  | none => rfl
  | some o =>
    rw [hr] at hload
    cases hb : o.body with
    | string s => simp [hb, hload _ (by simp [hb, Body.handle]; rfl)]
    | array a => simp [hb, hload _ (by simp [hb, Body.handle]; rfl)]
    | map t => simp [hb]
    | error c => simp [hb]
    | plain => simp [hb]

theorem lt_of_handle {g : Handle Kind} (hg : h.handle r = some g) : r < h.objs.length := by
  by_contra hr
  simp [handle, List.getElem?_eq_none (Nat.le_of_not_lt hr)] at hg

theorem body_modify {f : Obj → Obj} (hf : ∀ o, (f o).body = o.body) (r : ℕ) :
    (h.objs.modify x f)[r]?.map Obj.body = h.objs[r]?.map Obj.body := by
  rw [List.getElem?_modify]
  cases h.objs[r]? with
  | none => rfl
  | some o =>
    by_cases hx : x = r
    · simp [hx, hf]
    · simp [hx]

theorem handle_eq (h : Heap) (r : ℕ) :
    h.handle r = (h.objs[r]?.map Obj.body).bind Body.handle := by
  rw [handle, Option.bind_map]
  rfl

theorem body_setFields {t : Table} (r : ℕ) :
    (h.setFields x t).objs[r]?.map Obj.body = h.objs[r]?.map Obj.body :=
  body_modify (f := fun o => { o with fields := t }) (fun _ => rfl) r

theorem body_setFrozen {frozen : Bool} (r : ℕ) :
    (h.setFrozen x frozen).objs[r]?.map Obj.body = h.objs[r]?.map Obj.body :=
  body_modify (f := fun o => { o with frozen }) (fun _ => rfl) r

@[simp] theorem handle_setFields {t : Table} : (h.setFields x t).handle = h.handle := by
  funext r
  rw [handle_eq, handle_eq, body_setFields]

@[simp] theorem handle_setFrozen {frozen : Bool} : (h.setFrozen x frozen).handle = h.handle := by
  funext r
  rw [handle_eq, handle_eq, body_setFrozen]

@[simp] theorem storage_setFields {t : Table} : (h.setFields x t).storage = h.storage := by
  funext r
  exact storage_congr (body_setFields r) fun _ _ => rfl

@[simp] theorem storage_setFrozen {frozen : Bool} :
    (h.setFrozen x frozen).storage = h.storage := by
  funext r
  exact storage_congr (body_setFrozen r) fun _ _ => rfl

@[simp] theorem length_setBody : (h.setBody x b).objs.length = h.objs.length :=
  List.length_modify ..

@[simp] theorem length_setFields {t : Table} : (h.setFields x t).objs.length = h.objs.length :=
  List.length_modify ..

@[simp] theorem length_setFrozen {frozen : Bool} :
    (h.setFrozen x frozen).objs.length = h.objs.length :=
  List.length_modify ..

@[simp] theorem length_addObj : (h.addObj o).objs.length = h.objs.length + 1 := by
  simp [addObj]

@[simp] theorem mem_setBody : (h.setBody x b).mem = h.mem := rfl

@[simp] theorem mem_setFields {t : Table} : (h.setFields x t).mem = h.mem := rfl

@[simp] theorem mem_setFrozen {frozen : Bool} : (h.setFrozen x frozen).mem = h.mem := rfl

@[simp] theorem mem_addObj : (h.addObj o).mem = h.mem := rfl

theorem objs_setBody_of_ne (hr : r ≠ x) : (h.setBody x b).objs[r]? = h.objs[r]? := by
  rw [setBody, List.getElem?_modify]
  simp [Ne.symm hr]

theorem storage_setBody_of_ne (hr : r ≠ x) : (h.setBody x b).storage r = h.storage r :=
  storage_congr (by rw [objs_setBody_of_ne hr]) fun _ _ => rfl

theorem handle_setBody {g : Handle Kind} (hx : x < h.objs.length) (hb : b.handle = some g) :
    (h.setBody x b).handle = Function.update h.handle x (some g) := by
  funext r
  by_cases hr : r = x
  · subst hr
    rw [Function.update_self, handle, setBody, List.getElem?_modify,
      List.getElem?_eq_getElem hx]
    simpa using hb
  · rw [Function.update_of_ne hr, handle, handle, objs_setBody_of_ne hr]

theorem objs_addObj_of_lt (hr : r < h.objs.length) : (h.addObj o).objs[r]? = h.objs[r]? :=
  List.getElem?_append_left hr

theorem storage_addObj_of_lt (hr : r < h.objs.length) : (h.addObj o).storage r = h.storage r :=
  storage_congr (by rw [objs_addObj_of_lt hr]) fun _ _ => rfl

theorem handle_addObj : (h.addObj o).handle =
    Function.update h.handle h.objs.length o.body.handle := by
  funext r
  by_cases hr : r = h.objs.length
  · subst hr
    simp [handle, addObj]
  · rw [Function.update_of_ne hr]
    rcases Nat.lt_or_gt_of_ne hr with hlt | hgt
    · rw [handle, handle, objs_addObj_of_lt hlt]
    · rw [handle, handle, List.getElem?_eq_none (by rw [length_addObj]; omega),
        List.getElem?_eq_none (Nat.le_of_lt hgt)]

theorem body_of_string? {s : ObjString} (hs : h.string? r = some s) :
    ∃ o, h.objs[r]? = some o ∧ o.body = .string s := by
  unfold string? at hs
  split at hs
  · rename_i heq
    cases hs
    exact ⟨_, heq, rfl⟩
  · cases hs

theorem body_of_array? {a : ObjArray} (ha : h.array? r = some a) :
    ∃ o, h.objs[r]? = some o ∧ o.body = .array a := by
  unfold array? at ha
  split at ha
  · rename_i heq
    cases ha
    exact ⟨_, heq, rfl⟩
  · cases ha

theorem body_of_map? {t : Table} (ht : h.map? r = some t) :
    ∃ o, h.objs[r]? = some o ∧ o.body = .map t := by
  unfold map? at ht
  split at ht
  · rename_i heq
    cases ht
    exact ⟨_, heq, rfl⟩
  · cases ht

theorem handle_of_string? {s : ObjString} (hs : h.string? r = some s) :
    h.handle r = some ⟨.string, s.chars, s.isShared || s.isInterned⟩ := by
  obtain ⟨o, ho, hb⟩ := body_of_string? hs
  simp [handle, ho, hb, Body.handle]

theorem handle_of_array? {a : ObjArray} (ha : h.array? r = some a) :
    h.handle r = some ⟨.array, a.values, a.isShared || a.isStatic⟩ := by
  obtain ⟨o, ho, hb⟩ := body_of_array? ha
  simp [handle, ho, hb, Body.handle]

theorem string?_setBody_self {s s' : ObjString} (hs : h.string? x = some s) :
    (h.setBody x (.string s')).string? x = some s' := by
  have hx := lt_of_handle (handle_of_string? hs)
  rw [string?, setBody, List.getElem?_modify, List.getElem?_eq_getElem hx]
  simp

theorem storage_of_string? {s : ObjString} (hs : h.string? r = some s) :
    h.storage r = (h.mem.load s.chars).take (s.length + 1) := by
  obtain ⟨o, ho, hb⟩ := body_of_string? hs
  simp [storage, ho, hb]

/-- Only the buffer and the length count. -/
theorem storage_setBody_self {s s' : ObjString} (hs : h.string? x = some s)
    (hchars : s'.chars = s.chars) (hlength : s'.length = s.length) :
    (h.setBody x (.string s')).storage x = h.storage x := by
  rw [storage_of_string? (string?_setBody_self hs), storage_of_string? hs, hchars, hlength]
  rfl

theorem array?_setBody_self {a a' : ObjArray} (ha : h.array? x = some a) :
    (h.setBody x (.array a')).array? x = some a' := by
  have hx := lt_of_handle (handle_of_array? ha)
  rw [array?, setBody, List.getElem?_modify, List.getElem?_eq_getElem hx]
  simp

theorem array?_addObj {a : ObjArray} (ha : (h.addObj o).array? r = some a) :
    h.array? r = some a ∨ o.body = .array a := by
  rcases Nat.lt_trichotomy r h.objs.length with hlt | heq | hgt
  · left
    unfold array? at ha ⊢
    rwa [objs_addObj_of_lt hlt] at ha
  · right
    subst heq
    unfold array? at ha
    split at ha
    · rename_i hobj
      cases ha
      rw [addObj, List.getElem?_concat_length] at hobj
      cases hobj
      rfl
    · cases ha
  · have hnone : (h.addObj o).objs[r]? = none :=
      List.getElem?_eq_none (by rw [length_addObj]; omega)
    simp [array?, hnone] at ha

theorem handle_of_map? {t : Table} (ht : h.map? r = some t) : h.handle r = none := by
  obtain ⟨o, ho, hb⟩ := body_of_map? ht
  simp [handle, ho, hb, Body.handle]

theorem handle_setBody_of_none (hx : h.handle x = none) (hb : b.handle = none) :
    (h.setBody x b).handle = h.handle := by
  funext r
  by_cases hr : r = x
  · subst hr
    rw [handle, setBody, List.getElem?_modify, hx]
    cases h.objs[r]? with
    | none => rfl
    | some o => simpa using hb
  · rw [handle, handle, objs_setBody_of_ne hr]

theorem handle_addObj_of_none (ho : o.body.handle = none) : (h.addObj o).handle = h.handle := by
  have hnew : h.handle h.objs.length = none := by
    simp [handle]
  rw [handle_addObj, ho, ← hnew, Function.update_eq_self]

end Heap

/-! ## What an operation of one object may change -/

/-- Since `h₀` nothing happened to the objects of kind `k` other than `r`, new objects apart. -/
structure Near (k : Kind) (r : ℕ) (h₀ h : Heap) : Prop where
  sound : Sound k h.mem.next h.handle
  grows : h₀.objs.length ≤ h.objs.length
  kept : ∀ j g, j ≠ r → h₀.handle j = some g → g.kind = k →
    h.handle j = some g ∧ h.storage j = h₀.storage j

/-- The objects that may change: `r` and the new ones. -/
def Free (r : ℕ) (h₀ : Heap) (x : ℕ) : Prop := x = r ∨ h₀.objs.length ≤ x

section Near

variable {k : Kind} {r x p : ℕ} {h₀ h h' : Heap} {mine : Kind}

theorem Near.refl (h : Sound k h₀.mem.next h₀.handle) : Near k r h₀ h₀ :=
  ⟨h, Nat.le_refl _, fun _ _ _ hj _ => ⟨hj, rfl⟩⟩

theorem Free.ne {j : ℕ} {g : Handle Kind} (hx : Free r h₀ x) (hj : j ≠ r)
    (hg : h₀.handle j = some g) : j ≠ x := by
  rintro rfl
  rcases hx with rfl | hx
  · exact hj rfl
  · exact absurd (Heap.lt_of_handle hg) (Nat.not_lt.mpr hx)

theorem Near.congr (hn : Near k r h₀ h) (hhandle : h'.handle = h.handle)
    (hstorage : ∀ j, h.handle j ≠ none → h'.storage j = h.storage j)
    (hnext : h'.mem.next = h.mem.next) (hlen : h.objs.length ≤ h'.objs.length) :
    Near k r h₀ h' := by
  constructor
  · rw [hhandle, hnext]
    exact hn.sound
  · exact Nat.le_trans hn.grows hlen
  · intro j g hj hg hk
    obtain ⟨hhj, hsj⟩ := hn.kept j g hj hg hk
    refine ⟨hhandle ▸ hhj, ?_⟩
    rw [hstorage j (by simp [hhj]), hsj]

theorem Near.setFields (hn : Near k r h₀ h) (x : ℕ) (t : Table) :
    Near k r h₀ (h.setFields x t) :=
  hn.congr (by simp) (by simp) (by simp) (by simp)

theorem Near.setFrozen (hn : Near k r h₀ h) (x : ℕ) (frozen : Bool) :
    Near k r h₀ (h.setFrozen x frozen) :=
  hn.congr (by simp) (by simp) (by simp) (by simp)

theorem Near.setMap (hn : Near k r h₀ h) {t t' : Table} (ht : h.map? x = some t) :
    Near k r h₀ (h.setBody x (.map t')) := by
  have hx := Heap.handle_of_map? ht
  refine hn.congr (Heap.handle_setBody_of_none hx rfl) (fun j hj => ?_) (by simp) (by simp)
  refine Heap.storage_setBody_of_ne ?_
  rintro rfl
  exact hj hx

theorem Near.setBody (hn : Near k r h₀ h) (hx : Free r h₀ x) {b : Body} {g : Handle Kind}
    (hlt : x < h.objs.length) (hb : b.handle = some g)
    (hsound : Sound k h.mem.next (Function.update h.handle x (some g))) :
    Near k r h₀ (h.setBody x b) := by
  constructor
  · rw [Heap.handle_setBody hlt hb]
    exact hsound
  · rw [Heap.length_setBody]
    exact hn.grows
  · intro j gj hj hgj hk
    have hjx := hx.ne hj hgj
    obtain ⟨hhj, hsj⟩ := hn.kept j gj hj hgj hk
    rw [Heap.handle_setBody hlt hb, Function.update_of_ne hjx, Heap.storage_setBody_of_ne hjx]
    exact ⟨hhj, hsj⟩

theorem Near.addObj (hn : Near k r h₀ h) {o : Obj}
    (hsound : Sound k h.mem.next (h.addObj o).handle) : Near k r h₀ (h.addObj o) := by
  constructor
  · exact hsound
  · rw [Heap.length_addObj]
    exact Nat.le_succ_of_le hn.grows
  · intro j g hj hg hk
    have hlt : j < h.objs.length := Nat.lt_of_lt_of_le (Heap.lt_of_handle hg) hn.grows
    obtain ⟨hhj, hsj⟩ := hn.kept j g hj hg hk
    rw [Heap.handle_addObj, Function.update_of_ne (Nat.ne_of_lt hlt),
      Heap.storage_addObj_of_lt hlt]
    exact ⟨hhj, hsj⟩

/-- Only a block that nobody else has is touched. -/
theorem Near.mem (hn : Near k r h₀ h) (hx : Free r h₀ x) {m : Blocks Cell}
    (hnext : h.mem.next ≤ m.next)
    (hload : ∀ j g, j ≠ x → h.handle j = some g → g.kind = k →
      m.load g.addr = h.mem.load g.addr) : Near k r h₀ { h with mem := m } := by
  constructor
  · exact hn.sound.mono hnext
  · exact hn.grows
  · intro j g hj hg hk
    obtain ⟨hhj, hsj⟩ := hn.kept j g hj hg hk
    refine ⟨hhj, ?_⟩
    rw [← hsj]
    refine Heap.storage_congr (h := h) rfl fun g' hg' => ?_
    cases hhj.symm.trans hg'
    exact hload j g (hx.ne hj hg) hhj hk

theorem Near.put (hn : Near k r h₀ h) (hx : Free r h₀ x) (hp : Spare k mine x p h.handle)
    (cells : Cells) : Near k r h₀ { h with mem := h.mem.put p cells } := by
  refine hn.mem hx (Nat.le_refl _) fun j g hj hg hk => ?_
  cases hq : g.addr with
  | none => rfl
  | some q =>
    refine Blocks.load_put_of_ne ?_
    rintro rfl
    exact (hp j g hj hg hq).1 hk

theorem Near.free (hn : Near k r h₀ h) (hx : Free r h₀ x) (hp : Spare k mine x p h.handle) :
    Near k r h₀ { h with mem := h.mem.free p } := by
  refine hn.mem hx (Nat.le_refl _) fun j g hj hg hk => ?_
  cases hq : g.addr with
  | none => rfl
  | some q =>
    refine Blocks.load_free_of_ne ?_
    rintro rfl
    exact (hp j g hj hg hq).1 hk

theorem Near.alloc (hn : Near k r h₀ h) (cells : Cells) :
    Near k r h₀ { h with mem := h.mem.alloc cells } := by
  refine hn.mem (Or.inl rfl) (Nat.le_succ _) fun j g _ hg _ => ?_
  cases hq : g.addr with
  | none => rfl
  | some q => exact Blocks.load_alloc_of_ne (Nat.ne_of_lt (hn.sound.bounded j g q hg hq))

end Near

/-! ## Commands that only read -/

/-- A stop that leaves the memory intact. -/
def Tame (s : Stop) : Prop := s ≠ .wild

@[simp] theorem tame_thrown (e : Thrown) : Tame (.thrown e) := nofun

@[simp] theorem tame_aborted : Tame .aborted := nofun

@[simp] theorem tame_segfault : Tame .segfault := nofun

theorem quiet_heap : Quiet Tame heap := Quiet.get

theorem quiet_assert (b : Bool) : Quiet Tame (assert b) := Quiet.ite (Quiet.pure _) (Quiet.stop tame_aborted)

theorem quiet_throw {α : Type} (e : Thrown) : Quiet Tame (throw e : Exec α) :=
  Quiet.stop (tame_thrown e)

theorem quiet_stopIf (p : Prop) [Decidable p] {s : Stop} (hs : Tame s) :
    Quiet Tame (stopIf p s) :=
  Quiet.ite (Quiet.stop hs) (Quiet.pure _)

theorem quiet_loadCells (p : Option ℕ) (n : ℕ) : Quiet Tame (loadCells p n) :=
  (quiet_stopIf _ (by simp)).bind fun _ => quiet_heap.bind fun _ => Quiet.pure _

theorem quiet_asObj (v : Value) : Quiet Tame (asObj v) := by
  unfold asObj
  split
  · exact Quiet.pure _
  · exact Quiet.stop tame_segfault

theorem quiet_getObj (r : ℕ) : Quiet Tame (getObj r) := Quiet.look tame_segfault

theorem quiet_getString (r : ℕ) : Quiet Tame (getString r) := Quiet.look tame_segfault

theorem quiet_getArray (r : ℕ) : Quiet Tame (getArray r) := Quiet.look tame_segfault

theorem quiet_getMap (r : ℕ) : Quiet Tame (getMap r) := Quiet.look tame_segfault

theorem quiet_throwIfFrozen (r : ℕ) (what : String) : Quiet Tame (throwIfFrozen r what) :=
  quiet_heap.bind fun _ => quiet_stopIf _ (by simp)

theorem quiet_charAt (src : Source) (k : ℕ) : Quiet Tame (src.charAt k) := by
  cases src with
  | bytes chars => exact Quiet.pure _
  | pointer p => exact (quiet_loadCells p (k + 1)).bind fun _ => Quiet.pure _

theorem quiet_checkArity (min : ℕ) (max : Option ℕ) (args : List Value) :
    Quiet Tame (checkArity min max args) :=
  quiet_stopIf _ (by simp)

theorem quiet_checkArg (v : Value) (expected : ArgType) (argnum : ℕ) :
    Quiet Tame (checkArg v expected argnum) :=
  quiet_heap.bind fun _ => quiet_stopIf _ (by simp)

theorem quiet_checkArgs (args : List Value) (checks : List (ℕ × ArgType × ℕ)) :
    Quiet Tame (checkArgs args checks) := by
  induction checks with
  | nil => exact Quiet.pure _
  | cons c checks ih => exact (quiet_checkArg _ _ _).bind fun _ => ih

theorem quiet_castStrings (args : List Value) (places : List ℕ) :
    Quiet Tame (castStrings args places) := by
  induction places with
  | nil => exact Quiet.pure _
  | cons i places ih => exact (quiet_asObj _).bind fun _ => (quiet_getString _).bind fun _ => ih

theorem quiet_checkMessage (args : List Value) : Quiet Tame (checkMessage args) :=
  Quiet.ite (Quiet.pure _) (quiet_checkArg _ _ _)

theorem quiet_pairOf (el : Option Cell) : Quiet Tame (pairOf el) := by
  refine quiet_heap.bind fun h => ?_
  split
  · split
    · exact (quiet_stopIf _ (by simp)).bind fun _ => (quiet_loadCells _ _).bind fun _ => Quiet.pure _
    · exact quiet_throw _
  · exact quiet_throw _

/-! ## Storage of a string -/

section Strings

variable {k : Kind} {r x : ℕ} {h₀ : Heap} {env : Env}

/-- Where an operation stops, the memory is intact and nothing else was changed either. -/
def Stopped (k : Kind) (r : ℕ) (h₀ : Heap) (e : Stop) (h : Heap) : Prop := Tame e ∧ Near k r h₀ h

/-- A reading command in the middle of an operation. -/
theorem reading {α : Type} {c : Exec α} {P : Heap → Prop} (hc : Quiet Tame c)
    (hP : ∀ h, P h → Near k r h₀ h) : Triple P c (fun _ => P) (Stopped k r h₀) :=
  hc.triple fun h hh _ he => ⟨he, hP h hh⟩

/-- What a command changes, if anything, is what may be changed. -/
def Stays {α : Type} (k : Kind) (r : ℕ) (h₀ : Heap) (c : Exec α) : Prop :=
  Triple (Near k r h₀) c (fun _ => Near k r h₀) (Stopped k r h₀)

theorem stays {α : Type} {c : Exec α} (hc : Quiet Tame c) : Stays k r h₀ c :=
  reading hc fun _ h => h

theorem getString_near : Triple (Near k r h₀) (getString x)
    (fun s h => Near k r h₀ h ∧ h.string? x = some s) (Stopped k r h₀) :=
  Triple.look (fun _ _ hn hs => ⟨hn, hs⟩) fun _ hn _ => ⟨tame_segfault, hn⟩

/-- `x` is the string `s` and, as far as `k` is concerned, has the buffer for itself. -/
def OwnString (k : Kind) (r : ℕ) (h₀ : Heap) (x : ℕ) (s : ObjString) (h : Heap) : Prop :=
  Near k r h₀ h ∧ h.string? x = some s ∧ ∀ p, s.chars = some p → Spare k .string x p h.handle

/-- A block that nobody has yet. -/
def Unheld (p : ℕ) (h : Heap) : Prop :=
  p < h.mem.next ∧ ∀ j g, h.handle j = some g → g.addr ≠ some p

theorem Unheld.spare {p : ℕ} {h : Heap} {mine : Kind} (hp : Unheld p h) :
    Spare k mine x p h.handle :=
  spare_of_alone fun j g _ hj => hp.2 j g hj

/-- What holds in the middle of an operation and does not speak of the blocks. -/
structure Local (k : Kind) (r : ℕ) (h₀ : Heap) (P : Heap → Prop) : Prop where
  near : ∀ h, P h → Near k r h₀ h
  mem : ∀ h m, Near k r h₀ { h with mem := m } → h.mem.next ≤ m.next → P h → P { h with mem := m }

theorem Local.refl : Local k r h₀ (Near k r h₀) := ⟨fun _ h => h, fun _ _ h _ _ => h⟩

theorem OwnString.local (s : ObjString) : Local k r h₀ (OwnString k r h₀ x s) :=
  ⟨fun _ h => h.1, fun _ _ hn _ h => ⟨hn, h.2⟩⟩

theorem Local.unheld {P : Heap → Prop} (hP : Local k r h₀ P) (p : ℕ) :
    Local k r h₀ fun h => P h ∧ Unheld p h :=
  ⟨fun h hh => hP.near h hh.1, fun h m hn hle hh =>
    ⟨hP.mem h m hn hle hh.1, Nat.lt_of_lt_of_le hh.2.1 hle, hh.2.2⟩⟩

section Memory

variable {P : Heap → Prop} (mine : Kind)

theorem allocate_spec {n : ℕ} (hP : Local k r h₀ P) :
    Triple P (allocate n) (fun p h => P h ∧ Unheld p h) (Stopped k r h₀) := by
  intro h hh
  have hn := hP.near h hh
  refine ⟨hP.mem h _ (hn.alloc _) (Nat.le_succ _) hh, Nat.lt_succ_self _, fun j g hj hg => ?_⟩
  exact absurd (hn.sound.bounded j g _ hj hg) (Nat.lt_irrefl _)

theorem storeCells_spec {q : Option ℕ} {i : ℕ} {xs : Cells} (hP : Local k r h₀ P)
    (hx : Free r h₀ x) (hq : ∀ h, P h → ∀ p, q = some p → Spare k mine x p h.handle) :
    Triple P (storeCells q i xs) (fun _ => P) (Stopped k r h₀) := by
  unfold storeCells
  split
  · exact Triple.ite (fun _ => Triple.pure fun _ hh => hh) fun _ => Triple.stop fun h hh => ⟨tame_segfault, hP.near h hh⟩
  · rename_i p
    refine Triple.modify fun h hh => ?_
    exact hP.mem h _ ((hP.near h hh).put hx (hq h hh p rfl) _) (Nat.le_refl _) hh

/-- `realloc` gives a block that nobody else has. -/
theorem growArray_spec {q : Option ℕ} {n : ℕ} (hP : Local k r h₀ P) (hx : Free r h₀ x)
    (hq : ∀ h, P h → ∀ p, q = some p → p < h.mem.next ∧ Spare k mine x p h.handle) :
    Triple P (growArray env q n)
      (fun p h => P h ∧ p < h.mem.next ∧ Spare k mine x p h.handle) (Stopped k r h₀) := by
  unfold growArray
  split
  · refine (allocate_spec hP).post fun p h hh => ⟨hh.1, hh.2.1, hh.2.spare⟩
  · rename_i p
    intro h hh
    have hn := hP.near h hh
    obtain ⟨hlt, hspare⟩ := hq h hh p rfl
    simp only [bind_apply, heap, get_apply]
    by_cases hstays : env.stays p n = true
    · simp only [hstays, if_true, bind_apply, modify_apply, pure_apply]
      exact ⟨hP.mem h _ (hn.put hx hspare _) (Nat.le_refl _) hh, hlt, hspare⟩
    · simp only [hstays, Bool.false_eq_true, if_false, bind_apply, modify_apply, pure_apply]
      have hfree := (hn.alloc (resized n (h.mem.load (some p)))).free hx hspare
      refine ⟨hP.mem h _ hfree (Nat.le_succ _) hh, Nat.lt_succ_self _, ?_⟩
      exact hn.sound.spare_of_le (Nat.le_refl _)

end Memory

/-- A string takes a buffer that nobody else has. -/
theorem setString_spec {s s' : ObjString} (hx : Free r h₀ x) :
    Triple (fun h => Near k r h₀ h ∧ h.string? x = some s ∧
        ∀ p, s'.chars = some p → p < h.mem.next ∧ Spare k .string x p h.handle)
      (setString x s') (fun _ => OwnString k r h₀ x s') (Stopped k r h₀) := by
  refine Triple.modify fun h ⟨hn, hs, hp⟩ => ?_
  have hlt := Heap.lt_of_handle (Heap.handle_of_string? hs)
  refine ⟨hn.setBody hx hlt rfl (hn.sound.hold hp), Heap.string?_setBody_self hs, fun p hc => ?_⟩
  rw [Heap.handle_setBody hlt rfl]
  exact (hp p hc).2.update

theorem OwnString.bound {s : ObjString} {h : Heap} (hs : OwnString k r h₀ x s h) {p : ℕ}
    (hp : s.chars = some p) : p < h.mem.next ∧ Spare k .string x p h.handle :=
  ⟨hs.1.sound.bounded x _ p (Heap.handle_of_string? hs.2.1) hp, hs.2.2 p hp⟩

theorem OwnString.eq {s s' : ObjString} {h : Heap} (hs : OwnString k r h₀ x s h)
    (hs' : h.string? x = some s') : s' = s :=
  Option.some.inj (hs'.symm.trans hs.2.1)

/-- `AS_STRING` of a string that is known -/
theorem getString_spec {s : ObjString} :
    Triple (fun h => Near k r h₀ h ∧ h.string? x = some s) (getString x)
      (fun s' h => s' = s ∧ Near k r h₀ h ∧ h.string? x = some s) (Stopped k r h₀) :=
  Triple.look (fun _ _ hh hs' => ⟨Option.some.inj (hs'.symm.trans hh.2), hh⟩) fun _ hh _ => ⟨tame_segfault, hh.1⟩

theorem getString_own {s : ObjString} :
    Triple (OwnString k r h₀ x s) (getString x)
      (fun s' h => s' = s ∧ OwnString k r h₀ x s h) (Stopped k r h₀) :=
  Triple.look (fun _ _ hs hs' => ⟨hs.eq hs', hs⟩) fun _ hs _ => ⟨tame_segfault, hs.1⟩

theorem growChars_spec {s : ObjString} {newLen : ℕ} (hx : Free r h₀ x) :
    Triple (OwnString k r h₀ x s) (growChars env x newLen)
      (fun s' h => OwnString k r h₀ x s' h) (Stopped k r h₀) := by
  refine getString_own.bind fun s' => Triple.of_imp (fun _ h => h.1) ?_
  rintro rfl
  refine Triple.ite (fun _ => ?_) fun _ => Triple.pure fun _ h => h.2
  refine (growArray_spec .string (OwnString.local s') hx fun h hs p hp => hs.bound hp).pre
    (fun _ h => h.2) |>.bind fun p => ?_
  refine ((setString_spec (s := s') hx).pre ?_).bind fun _ => Triple.pure fun _ h => h
  intro h ⟨hs, hlt, hspare⟩
  refine ⟨hs.1, hs.2.1, fun q hq => ?_⟩
  cases hq
  exact ⟨hlt, hspare⟩

/-- `x` is a string that has its buffer for itself. -/
def Owns (k : Kind) (r : ℕ) (h₀ : Heap) (x : ℕ) (h : Heap) : Prop := ∃ s, OwnString k r h₀ x s h

/-- A change of the string that keeps its buffer, or gives it one that nobody else has. -/
theorem setString_owns {s s' : ObjString} (hx : Free r h₀ x) (hs : s'.chars = s.chars) :
    Triple (OwnString k r h₀ x s) (setString x s') (fun _ => Owns k r h₀ x)
      (Stopped k r h₀) :=
  (setString_spec (s := s) hx).weaken
    (fun _ hown => ⟨hown.1, hown.2.1, fun _ hp => hown.bound (hs ▸ hp)⟩)
    (fun _ _ h => ⟨s', h⟩) fun _ _ h => h

theorem setString_fresh {s s' : ObjString} {p : ℕ} (hx : Free r h₀ x) (hp : s'.chars = some p) :
    Triple (fun h => Near k r h₀ h ∧ h.string? x = some s ∧ p < h.mem.next ∧
        Spare k .string x p h.handle)
      (setString x s') (fun _ => Owns k r h₀ x) (Stopped k r h₀) := by
  refine (setString_spec (s := s) hx).weaken (fun h hh => ⟨hh.1, hh.2.1, fun q hq => ?_⟩)
    (fun _ _ h => ⟨s', h⟩) fun _ _ h => h
  cases hp.symm.trans hq
  exact hh.2.2

theorem Owns.near {h : Heap} (hs : Owns k r h₀ x h) : Near k r h₀ h := hs.elim fun _ h => h.1

theorem copyChars_spec {s : ObjString} {src : Source} {i j n : ℕ} (hx : Free r h₀ x) :
    Triple (OwnString k r h₀ x s) (copyChars s.chars i src j n)
      (fun _ => OwnString k r h₀ x s) (Stopped k r h₀) := by
  induction n generalizing j with
  | zero => exact Triple.pure fun _ h => h
  | succ n ih =>
    refine (reading (quiet_charAt src j) fun _ h => h.1).bind fun _ => ?_
    refine (storeCells_spec .string (OwnString.local s) hx fun h hs p hp => hs.2.2 p hp).bind
      fun _ => ?_
    exact ih

theorem pushCString_spec {src : Source} {n : ℕ} (hx : Free r h₀ x) :
    Triple (Owns k r h₀ x) (pushCString env x src n) (fun _ => Owns k r h₀ x)
      (Stopped k r h₀) := by
  refine Triple.of_exists fun s => ?_
  have hnear : ∀ h, OwnString k r h₀ x s h → Near k r h₀ h := fun _ h => h.1
  refine (reading quiet_heap hnear).bind fun _ => (reading (quiet_assert _) hnear).bind fun _ => ?_
  refine Triple.ite (fun _ => Triple.pure fun _ h => ⟨s, h⟩) fun _ => ?_
  refine (reading (quiet_getString x) hnear).bind fun _ => (growChars_spec hx).bind fun s' => ?_
  refine (copyChars_spec hx).bind fun _ => ?_
  refine (storeCells_spec .string (OwnString.local s') hx fun h hs p hp => hs.2.2 p hp).bind fun _ => ?_
  exact setString_owns hx rfl

theorem insertCString_spec {src : Source} {n : ℕ} {pos : ℤ} {replaceAt : Bool}
    (hx : Free r h₀ x) :
    Triple (Owns k r h₀ x) (insertCString env x src n pos replaceAt) (fun _ => Owns k r h₀ x)
      (Stopped k r h₀) := by
  refine Triple.of_exists fun s => ?_
  have hnear : ∀ h, OwnString k r h₀ x s h → Near k r h₀ h := fun _ h => h.1
  refine (reading quiet_heap hnear).bind fun _ => (reading (quiet_assert _) hnear).bind fun _ => ?_
  refine (reading (quiet_getString x) hnear).bind fun s₁ => ?_
  refine (reading (quiet_assert _) hnear).bind fun _ => ?_
  refine Triple.ite (fun _ => (pushCString_spec hx).pre fun _ h => ⟨s, h⟩) fun _ => ?_
  refine Triple.ite (fun _ => Triple.pure fun _ h => ⟨s, h⟩) fun _ => ?_
  refine (growChars_spec hx).bind fun s' => ?_
  have hnear' : ∀ h, OwnString k r h₀ x s' h → Near k r h₀ h := fun _ h => h.1
  have hstore : ∀ {i : ℕ} {xs : Cells}, Triple (OwnString k r h₀ x s')
      (storeCells s'.chars i xs) (fun _ => OwnString k r h₀ x s') (Stopped k r h₀) :=
    storeCells_spec .string (OwnString.local s') hx fun h hs p hp => hs.2.2 p hp
  refine (reading (quiet_loadCells _ _) hnear').bind fun _ => hstore.bind fun _ => ?_
  refine (copyChars_spec hx).bind fun _ => ?_
  exact hstore.bind fun _ => setString_owns hx rfl

theorem clearObjString_spec (hx : Free r h₀ x) :
    Triple (Owns k r h₀ x) (clearObjString env x) (fun _ => Owns k r h₀ x)
      (Stopped k r h₀) := by
  refine Triple.of_exists fun s => ?_
  have hnear : ∀ h, OwnString k r h₀ x s h → Near k r h₀ h := fun _ h => h.1
  refine (reading quiet_heap hnear).bind fun _ => (reading (quiet_assert _) hnear).bind fun _ => ?_
  refine getString_own.bind fun s' => Triple.of_imp (fun _ h => h.1) ?_
  rintro rfl
  refine ((growArray_spec .string (OwnString.local s') hx fun h hs p hp => hs.bound hp).pre
    fun _ h => h.2).bind fun p => ?_
  have hlocal : Local k r h₀ fun h => OwnString k r h₀ x s' h ∧ p < h.mem.next ∧
      Spare k .string x p h.handle :=
    ⟨fun _ h => h.1.1, fun _ _ hn hle h =>
      ⟨⟨hn, h.1.2⟩, Nat.lt_of_lt_of_le h.2.1 hle, h.2.2⟩⟩
  refine (storeCells_spec .string hlocal hx fun h hs q hq => ?_).bind fun _ => ?_
  · cases hq
    exact hs.2.2
  · exact (setString_fresh (s := s') hx rfl).pre fun h hs => ⟨hs.1.1, hs.1.2.1, hs.2⟩

/-- `x` has its buffer for itself, or is frozen. -/
def Ready (k : Kind) (r : ℕ) (h₀ : Heap) (x : ℕ) (h : Heap) : Prop :=
  Owns k r h₀ x h ∨ Near k r h₀ h ∧ h.isFrozen x = true

theorem Ready.near {h : Heap} (hr : Ready k r h₀ x h) : Near k r h₀ h :=
  hr.elim Owns.near And.left

theorem throwIfFrozen_spec {P : Heap → Prop} {what : String} (hP : ∀ h, P h → Near k r h₀ h) :
    Triple P (throwIfFrozen x what) (fun _ h => P h ∧ h.isFrozen x = false)
      (Stopped k r h₀) := by
  intro h hh
  rw [throwIfFrozen, bind_apply]
  simp only [heap, get_apply, stopIf]
  cases hf : h.isFrozen x with
  | false => exact ⟨hh, hf⟩
  | true => exact ⟨tame_thrown _, hP h hh⟩

theorem Ready.owns {h : Heap} (hr : Ready k r h₀ x h) (hf : h.isFrozen x = false) :
    Owns k r h₀ x h := by
  rcases hr with hr | ⟨-, hfrozen⟩
  · exact hr
  · simp [hf] at hfrozen

theorem throwIfFrozen_ready {what : String} :
    Triple (Ready k r h₀ x) (throwIfFrozen x what) (fun _ => Owns k r h₀ x) (Stopped k r h₀) :=
  (throwIfFrozen_spec fun _ => Ready.near).post fun _ _ h => h.1.owns h.2

theorem pushString_spec {y : ℕ} (hx : Free r h₀ x) :
    Triple (Ready k r h₀ x) (pushString env x y) (fun _ => Owns k r h₀ x)
      (Stopped k r h₀) :=
  throwIfFrozen_ready.bind fun _ =>
    (reading (quiet_getString y) fun _ => Owns.near).bind fun _ => pushCString_spec hx

theorem clearString_spec (hx : Free r h₀ x) :
    Triple (Ready k r h₀ x) (clearString env x) (fun _ => Owns k r h₀ x)
      (Stopped k r h₀) :=
  throwIfFrozen_ready.bind fun _ => clearObjString_spec hx

theorem stringInsertAt_spec {y : ℕ} {pos : ℤ} {replaceAt : Bool} (hx : Free r h₀ x) :
    Triple (Ready k r h₀ x) (stringInsertAt env x y pos replaceAt) (fun _ => Owns k r h₀ x)
      (Stopped k r h₀) :=
  throwIfFrozen_ready.bind fun _ =>
    (reading (quiet_getString y) fun _ => Owns.near).bind fun _ => insertCString_spec hx

theorem stringIndexSet_spec {index : ℤ} {c : Option Cell} (hx : Free r h₀ x) :
    Triple (Ready k r h₀ x) (stringIndexSet x index c) (fun _ => Owns k r h₀ x)
      (Stopped k r h₀) := by
  have hget : Triple (Ready k r h₀ x) (getString x)
      (fun s h => Ready k r h₀ x h ∧ h.string? x = some s) (Stopped k r h₀) :=
    Triple.look (fun _ _ hr hs => ⟨hr, hs⟩) fun _ hr _ => ⟨tame_segfault, hr.near⟩
  have hthrow : ∀ s, Triple (fun h => Ready k r h₀ x h ∧ h.string? x = some s)
      (throwIfFrozen x "String") (fun _ => OwnString k r h₀ x s) (Stopped k r h₀) := by
    intro s
    refine (throwIfFrozen_spec fun _ h => h.1.near).post fun _ h hh => ?_
    obtain ⟨s', hs'⟩ := hh.1.1.owns hh.2
    cases hs'.eq hh.1.2
    exact hs'
  refine hget.bind fun s => (hthrow s).bind fun _ => ?_
  have hnear : ∀ h, OwnString k r h₀ x s h → Near k r h₀ h := fun _ h => h.1
  refine (reading (quiet_stopIf _ (by simp)) hnear).bind fun _ => ?_
  refine (reading (quiet_loadCells _ _) hnear).bind fun _ => ?_
  refine (storeCells_spec .string (OwnString.local s) hx fun h hs p hp => hs.2.2 p hp).bind fun _ => ?_
  refine Triple.ite (fun _ => ?_) fun _ => Triple.pure fun _ h => ⟨s, h⟩
  exact setString_owns hx rfl

/-- After `dedupString` the string has its buffer for itself, unless the buffer is one that an
interned string let others have. -/
theorem dedupString_spec {s : ObjString} (hx : Free r h₀ x)
    (hs : ∀ h, Near k r h₀ h → h.string? x = some s → s.isShared = false →
      ∀ p, s.chars = some p → Spare k .string x p h.handle) :
    Triple (fun h => Near k r h₀ h ∧ h.string? x = some s) (dedupString x)
      (fun _ => Owns k r h₀ x) (Stopped k r h₀) := by
  refine getString_spec.bind fun s' => Triple.of_imp (fun _ h => h.1) ?_
  rintro rfl
  refine Triple.ite (fun _ => ?_) fun hshared => ?_
  · have hlocal : Local k r h₀ fun h => Near k r h₀ h ∧ h.string? x = some s' :=
      ⟨fun _ h => h.1, fun _ _ hn _ h => ⟨hn, h.2⟩⟩
    refine ((allocate_spec hlocal).pre fun _ h => h.2).bind fun p => ?_
    refine (reading (quiet_loadCells _ _) fun _ h => h.1.1).bind fun _ => ?_
    refine (storeCells_spec .string (hlocal.unheld p) hx fun h hh q hq => ?_).bind
      fun _ => ?_
    · cases hq
      exact hh.2.spare
    · exact (setString_fresh (s := s') hx rfl).pre fun h hh =>
        ⟨hh.1.1, hh.1.2, hh.2.1, hh.2.spare⟩
  · refine Triple.pure fun h hh => ⟨s', hh.2.1, hh.2.2, ?_⟩
    exact hs h hh.2.1 hh.2.2 (by simpa using hshared)

end Strings

/-! ## Storage of an array -/

section Arrays

variable {k : Kind} {r x : ℕ} {h₀ : Heap} {env : Env}

/-- `x` is an array, and apart from `x` nobody has the block of `a`, which is to be stored in
`x`. -/
def Draft (k : Kind) (r : ℕ) (h₀ : Heap) (x : ℕ) (a : ObjArray) (h : Heap) : Prop :=
  Near k r h₀ h ∧ (h.array? x).isSome ∧
    ∀ p, a.values = some p → p < h.mem.next ∧ Spare k .array x p h.handle

/-- `x` is an array that has its storage for itself. -/
def OwnsArray (k : Kind) (r : ℕ) (h₀ : Heap) (x : ℕ) (h : Heap) : Prop :=
  Near k r h₀ h ∧ ∃ a, h.array? x = some a ∧ ∀ p, a.values = some p → Spare k .array x p h.handle

theorem Draft.near {a : ObjArray} {h : Heap} (hd : Draft k r h₀ x a h) : Near k r h₀ h := hd.1

theorem OwnsArray.near {h : Heap} (hd : OwnsArray k r h₀ x h) : Near k r h₀ h := hd.1

theorem Draft.local (a : ObjArray) : Local k r h₀ (Draft k r h₀ x a) :=
  ⟨fun _ h => h.1, fun _ _ hn hle h =>
    ⟨hn, h.2.1, fun p hp => ⟨Nat.lt_of_lt_of_le (h.2.2 p hp).1 hle, (h.2.2 p hp).2⟩⟩⟩

theorem Draft.of_none {a : ObjArray} {h : Heap} (hn : Near k r h₀ h) (hx : (h.array? x).isSome)
    (ha : a.values = none) : Draft k r h₀ x a h :=
  ⟨hn, hx, fun p hp => by simp [ha] at hp⟩

/-- Only the block counts. -/
theorem Draft.congr {a a' : ObjArray} {h : Heap} (hd : Draft k r h₀ x a h)
    (ha : a'.values = a.values) : Draft k r h₀ x a' h :=
  ⟨hd.1, hd.2.1, fun p hp => hd.2.2 p (ha ▸ hp)⟩

theorem Draft.take {a : ObjArray} {p : ℕ} {h : Heap} (hd : Draft k r h₀ x a h)
    (hp : p < h.mem.next ∧ Spare k .array x p h.handle) {a' : ObjArray} (ha : a'.values = some p) :
    Draft k r h₀ x a' h := by
  refine ⟨hd.1, hd.2.1, fun q hq => ?_⟩
  cases ha.symm.trans hq
  exact hp

theorem storeCells_draft {a : ObjArray} {i : ℕ} {xs : Cells} (hx : Free r h₀ x) :
    Triple (Draft k r h₀ x a) (storeCells a.values i xs) (fun _ => Draft k r h₀ x a)
      (Stopped k r h₀) :=
  storeCells_spec .array (Draft.local a) hx fun _ hd p hp => (hd.2.2 p hp).2

theorem growValues_spec {a : ObjArray} (hx : Free r h₀ x) :
    Triple (Draft k r h₀ x a) (growValues env a) (fun a' => Draft k r h₀ x a')
      (Stopped k r h₀) := by
  refine Triple.ite (fun _ => ?_) fun _ => Triple.pure fun _ h => h
  refine (growArray_spec .array (Draft.local a) hx fun h hd p hp => hd.2.2 p hp).bind fun p => ?_
  exact Triple.pure fun h hd => hd.1.take hd.2 rfl

theorem writeValueArrayEnd_spec {a : ObjArray} {v : Option Cell} (hx : Free r h₀ x) :
    Triple (Draft k r h₀ x a) (writeValueArrayEnd env a v) (fun a' => Draft k r h₀ x a')
      (Stopped k r h₀) :=
  (growValues_spec hx).bind fun _ => (storeCells_draft hx).bind fun _ =>
    Triple.pure fun _ hd => hd.congr rfl

theorem writeAll_spec {a : ObjArray} {l : Cells} (hx : Free r h₀ x) :
    Triple (Draft k r h₀ x a) (l.foldlM (writeValueArrayEnd env) a)
      (fun a' => Draft k r h₀ x a') (Stopped k r h₀) :=
  Triple.foldlM fun _ _ _ => writeValueArrayEnd_spec hx

theorem writeValueArrayBeg_spec {a : ObjArray} {v : Option Cell} (hx : Free r h₀ x) :
    Triple (Draft k r h₀ x a) (writeValueArrayBeg env a v) (fun a' => Draft k r h₀ x a')
      (Stopped k r h₀) :=
  (growValues_spec hx).bind fun _ =>
    (reading (quiet_loadCells _ _) fun _ => Draft.near).bind fun _ =>
    (storeCells_draft hx).bind fun _ => (storeCells_draft hx).bind fun _ =>
    Triple.pure fun _ hd => hd.congr rfl

theorem removeValueArray_spec {a : ObjArray} {idx : ℕ} (hx : Free r h₀ x) :
    Triple (Draft k r h₀ x a) (removeValueArray a idx) (fun a' => Draft k r h₀ x a')
      (Stopped k r h₀) := by
  refine (reading (quiet_assert _) fun _ => Draft.near).bind fun _ => ?_
  refine Triple.ite (fun _ => Triple.pure fun _ h => h) fun _ => ?_
  refine Triple.ite (fun _ => Triple.pure fun _ h => h.congr rfl) fun _ => ?_
  refine (reading (quiet_loadCells _ _) fun _ => Draft.near).bind fun _ => ?_
  exact (storeCells_draft hx).bind fun _ => Triple.pure fun _ h => h.congr rfl

theorem freeValueArray_spec {a : ObjArray} (hx : Free r h₀ x) :
    Triple (Draft k r h₀ x a) (freeValueArray a) (fun a' => Draft k r h₀ x a')
      (Stopped k r h₀) := by
  have hfree : Triple (Draft k r h₀ x a) (freeArray a.values)
      (fun _ h => Near k r h₀ h ∧ (h.array? x).isSome) (Stopped k r h₀) := by
    unfold freeArray
    split
    · exact Triple.pure fun _ h => ⟨h.1, h.2.1⟩
    · rename_i p hp
      exact Triple.modify fun h hd => ⟨hd.1.free hx (hd.2.2 p hp).2, hd.2.1⟩
  exact hfree.bind fun _ => Triple.pure fun _ h => Draft.of_none h.1 h.2 rfl

theorem setArray_spec {a : ObjArray} (hx : Free r h₀ x) :
    Triple (Draft k r h₀ x a) (setArray x a) (fun _ => OwnsArray k r h₀ x)
      (Stopped k r h₀) := by
  refine Triple.modify fun h ⟨hn, hsome, hp⟩ => ?_
  obtain ⟨a₀, ha₀⟩ := Option.isSome_iff_exists.mp hsome
  have hlt := Heap.lt_of_handle (Heap.handle_of_array? ha₀)
  refine ⟨hn.setBody hx hlt rfl (hn.sound.hold hp), a, Heap.array?_setBody_self ha₀, fun p hc => ?_⟩
  rw [Heap.handle_setBody hlt rfl]
  exact (hp p hc).2.update

theorem OwnsArray.draft {h : Heap} (ho : OwnsArray k r h₀ x h) {a : ObjArray}
    (ha : h.array? x = some a) : Draft k r h₀ x a h := by
  obtain ⟨hn, a', ha', hp⟩ := ho
  cases ha'.symm.trans ha
  refine ⟨hn, by simp [ha], fun p hv => ⟨?_, hp p hv⟩⟩
  exact hn.sound.bounded x _ p (Heap.handle_of_array? ha) hv

/-- `AS_ARRAY` of an array that has its storage for itself -/
theorem getArray_own :
    Triple (OwnsArray k r h₀ x) (getArray x) (fun a => Draft k r h₀ x a) (Stopped k r h₀) :=
  Triple.look (fun _ _ ho ha => ho.draft ha) fun _ ho _ => ⟨tame_segfault, ho.1⟩

theorem getArray_spec {a : ObjArray} :
    Triple (fun h => Near k r h₀ h ∧ h.array? x = some a) (getArray x)
      (fun a' h => a' = a ∧ Near k r h₀ h ∧ h.array? x = some a) (Stopped k r h₀) :=
  Triple.look (fun _ _ hh ha' => ⟨Option.some.inj (ha'.symm.trans hh.2), hh⟩) fun _ hh _ => ⟨tame_segfault, hh.1⟩

/-- After `arrayDedup` the array has its storage for itself, unless it let others have it. -/
theorem arrayDedup_spec {a : ObjArray} (hx : Free r h₀ x)
    (ha : ∀ h, Near k r h₀ h → h.array? x = some a → a.isShared = false →
      ∀ p, a.values = some p → Spare k .array x p h.handle) :
    Triple (fun h => Near k r h₀ h ∧ h.array? x = some a) (arrayDedup env x)
      (fun _ => OwnsArray k r h₀ x) (Stopped k r h₀) := by
  refine getArray_spec.bind fun a' => Triple.of_imp (fun _ h => h.1) ?_
  rintro rfl
  refine Triple.ite (fun _ => ?_) fun hshared => ?_
  · refine (reading (quiet_loadCells _ _) fun _ h => h.2.1).bind fun vs => ?_
    refine ((writeAll_spec (l := vs) hx).pre fun h hh =>
      Draft.of_none hh.2.1 (by simp [hh.2.2]) rfl).bind fun a'' => ?_
    exact (setArray_spec hx).pre fun h hd => hd.congr rfl
  · exact Triple.pure fun h hh => ⟨hh.2.1, a', hh.2.2, ha h hh.2.1 hh.2.2 (by simpa using hshared)⟩

end Arrays

/-! ## New objects -/

section New

variable {k : Kind} {r x p : ℕ} {h₀ h : Heap} {env : Env} {o : Obj}

theorem sound_addObj (hs : Sound k h.mem.next h.handle)
    (ho : ∀ g p, o.body.handle = some g → g.addr = some p → Unheld p h) :
    Sound k h.mem.next (h.addObj o).handle := by
  cases hb : o.body.handle with
  | none =>
    rw [Heap.handle_addObj_of_none hb]
    exact hs
  | some g =>
    rw [Heap.handle_addObj, hb]
    exact hs.hold fun p hp => ⟨(ho g p hb hp).1, (ho g p hb hp).spare⟩

theorem newObj_spec {P : Heap → Prop} (hP : ∀ h, P h → Near k r h₀ h)
    (ho : ∀ h, P h → ∀ g p, o.body.handle = some g → g.addr = some p → Unheld p h) :
    Triple P (newObj o)
      (fun n h => Near k r h₀ h ∧ Free r h₀ n ∧ h.objs[n]? = some o ∧
        ∀ j g, j ≠ n → h.handle j = some g → ∀ p, o.body.handle.bind Handle.addr = some p →
          g.addr ≠ some p)
      (Stopped k r h₀) := by
  intro h hh
  have hn := hP h hh
  refine ⟨hn.addObj (sound_addObj hn.sound (ho h hh)), Or.inr hn.grows, by simp [Heap.addObj], ?_⟩
  intro j g hj hg p hp
  obtain ⟨g', hg', hp'⟩ := Option.bind_eq_some_iff.mp hp
  rw [Heap.handle_addObj, Function.update_of_ne hj] at hg
  exact (ho h hh g' p hg' hp').2 j g hg

theorem allocateString_spec {length : ℕ} :
    Triple (fun h => Near k r h₀ h ∧ Unheld p h) (allocateString (some p) length)
      (fun n h => Free r h₀ n ∧ Owns k r h₀ n h) (Stopped k r h₀) := by
  refine (newObj_spec (fun _ h => h.1) fun h hh g q hg hq => ?_).post fun n h hh => ?_
  · cases hg
    cases hq
    exact hh.2
  · obtain ⟨hn, hfree, hobj, halone⟩ := hh
    refine ⟨hfree, _, hn, by simp [Heap.string?, hobj]; rfl, fun q hq => ?_⟩
    cases hq
    exact spare_of_alone fun j g hj hg => halone j g hj hg p rfl

theorem copyString_spec {chars : List UInt8} :
    Triple (Near k r h₀) (copyString chars) (fun n h => Free r h₀ n ∧ Owns k r h₀ n h)
      (Stopped k r h₀) := by
  refine (allocate_spec Local.refl).bind fun p => ?_
  refine (storeCells_spec (x := r) .string (Local.refl.unheld p) (Or.inl rfl)
    fun h hh q hq => ?_).bind fun _ => allocateString_spec
  cases hq
  exact hh.2.spare

theorem internedString_spec {chars : List UInt8} :
    Stays k r h₀ (internedString chars) := by
  refine (stays quiet_heap).bind fun h₁ => ?_
  split
  · exact Triple.pure fun _ h => h
  · refine copyString_spec.bind fun n => Triple.of_imp (fun _ h => h.1) fun hfree => ?_
    have hadd : Triple (fun h => Free r h₀ n ∧ Owns k r h₀ n h)
        (Command.modify fun h : Heap => { h with strings := h.strings ++ [n] })
        (fun _ => Owns k r h₀ n) (Stopped k r h₀) :=
      Triple.modify fun h ⟨_, s, hs⟩ =>
        ⟨s, hs.1.congr rfl (fun _ _ => rfl) rfl (Nat.le_refl _), hs.2.1, hs.2.2⟩
    refine hadd.bind fun _ => Triple.of_exists fun s => getString_own.bind fun s' =>
      Triple.of_imp (fun _ h => h.1) ?_
    rintro rfl
    refine Triple.bind (Q := fun _ => Owns k r h₀ n)
      (Triple.pre (setString_owns (s := s') hfree rfl) fun _ h => h.2) fun _ => ?_
    exact (Triple.modify (Q := fun _ => Near k r h₀) fun h hh => hh.near.setFrozen _ _).bind
      fun _ => Triple.pure fun _ h => h

end New

end Clox.Objects
