import Clox.Runtime.CopyOnWrite
import Mathlib.Logic.Encodable.Basic

/-! # Strings and arrays are independent

What each native method, each literal and each construction may change: its own object and what
it makes. From it, that in a run a string or an array changes only by its own methods. The
exceptions are `Array#[]=`, which writes to the storage that `OP_DUPARRAY` shared,
`String#padRight`, which writes to the buffer of an interned string, and an interned string that
is written to itself.
-/

namespace Clox.Objects

open Commands Command Sharing Interleaving

section Natives

variable {k : Kind} {r x : ℕ} {h₀ : Heap} {env : Env} {args : List Value} {P : Heap → Prop}

/-! ## Methods that do not depend on the flags -/

theorem asObj_spec {v : Value} (hP : ∀ h, P h → Near k r h₀ h) :
    Triple P (asObj v) (fun x h => v = .obj x ∧ P h) (Stopped k r h₀) := by
  unfold asObj
  split
  · exact Triple.pure fun _ h => ⟨rfl, h⟩
  · exact Triple.stop fun h hh => ⟨tame_segfault, hP h hh⟩

theorem setProp_spec {name val : Value} : Stays k r h₀ (setProp env x name val) :=
  (stays (quiet_getObj x)).bind fun _ => Triple.modify fun _ h => h.setFields _ _

theorem propertySet_spec {name val : Value} : Stays k r h₀ (propertySet env x name val) :=
  (stays (quiet_getObj x)).bind fun _ =>
    (stays (quiet_stopIf _ (by simp))).bind fun _ =>
    Triple.modify fun _ h => h.setFields _ _

theorem getMap_spec :
    Triple (Near k r h₀) (getMap x) (fun t h => Near k r h₀ h ∧ h.map? x = some t)
      (Stopped k r h₀) :=
  Triple.look (fun _ _ hn ht => ⟨hn, ht⟩) fun _ hn _ => ⟨tame_segfault, hn⟩

theorem setMap_spec {t t' : Table} :
    Triple (fun h => Near k r h₀ h ∧ h.map? x = some t) (setMap x t') (fun _ => Near k r h₀)
      (Stopped k r h₀) :=
  Triple.modify fun _ h => h.1.setMap h.2

theorem mapSet_spec {key val : Value} : Stays k r h₀ (mapSet env x key val) :=
  getMap_spec.bind fun _ => setMap_spec

theorem newMap_spec : Stays k r h₀ newMap :=
  (newObj_spec (fun _ h => h) fun _ _ g _ hg => by cases hg).post fun _ _ h => h.1

theorem newArray_spec :
    Triple (Near k r h₀) newArray
      (fun n h => Free r h₀ n ∧ Near k r h₀ h ∧ h.array? n = some ⟨false, false, none, 0, 0⟩)
      (Stopped k r h₀) := by
  refine (newObj_spec (fun _ h => h) fun _ _ g p hg hp => ?_).post fun n h hh =>
    ⟨hh.2.1, hh.1, ?_⟩
  · cases hg
    cases hp
  · simp [Heap.array?, hh.2.2.1]

theorem make_spec {m : Made} : Stays k r h₀ (make env m) := by
  cases m with
  | value v => exact Triple.pure fun _ h => h
  | string chars => exact copyString_spec.bind fun _ => Triple.pure fun _ h => h.2.near
  | array els =>
    refine newArray_spec.bind fun n => Triple.of_imp (fun _ h => h.1) fun hfree => ?_
    refine ((writeAll_spec hfree).pre fun h hh =>
      Draft.of_none hh.2.1 (by simp [hh.2.2]) rfl).bind fun _ => ?_
    exact (setArray_spec hfree).bind fun _ => Triple.pure fun _ h => h.near
  | map entries =>
    exact newMap_spec.bind fun _ => getMap_spec.bind fun _ => setMap_spec.bind fun _ =>
      Triple.pure fun _ h => h
  | plain =>
    exact (newObj_spec (fun _ h => h) fun _ _ g _ hg => by cases hg).bind fun _ =>
      Triple.pure fun _ h => h.1

theorem Reader.call_spec {m : Reader} : Stays k r h₀ (m.call env args) := by
  refine (stays (quiet_checkArity _ _ _)).bind fun _ => ?_
  refine (stays (quiet_asObj _)).bind fun _ => ?_
  refine (stays (quiet_checkArgs _ _)).bind fun _ => ?_
  refine (stays (quiet_castStrings _ _)).bind fun _ => ?_
  split
  · exact stays (quiet_throw _)
  · exact make_spec

/-- The new object is blank. -/
theorem lxObjectDup_spec :
    Triple (Near k r h₀) (lxObjectDup env args)
      (fun n h => Free r h₀ n ∧ Near k r h₀ h ∧
        ∃ b : Body, h.objs[n]?.map Obj.body = some b.blank)
      (Stopped k r h₀) := by
  refine (stays (quiet_checkArity _ _ _)).bind fun _ => ?_
  refine (stays (quiet_asObj _)).bind fun _ => ?_
  refine (stays (quiet_getObj _)).bind fun o => ?_
  refine (newObj_spec (fun _ h => h) fun _ _ g p hg hp => ?_).post fun n h hh =>
    ⟨hh.2.1, hh.1, o.body, by simp [hh.2.2.1]⟩
  cases hb : o.body <;> simp [hb, Body.blank, Body.handle] at hg <;> subst hg <;> cases hp

theorem lxObjectFreeze_spec : Stays k r h₀ (lxObjectFreeze args) :=
  (stays (quiet_checkArity _ _ _)).bind fun _ =>
    (stays (quiet_asObj _)).bind fun _ =>
    (Triple.modify (Q := fun _ => Near k r h₀) fun _ h => h.setFrozen _ _).bind fun _ =>
    Triple.pure fun _ h => h

theorem lxObjectUnfreeze_spec : Stays k r h₀ (lxObjectUnfreeze args) := by
  refine (stays (quiet_checkArity _ _ _)).bind fun _ => ?_
  refine (stays (quiet_asObj _)).bind fun x => ?_
  have hunfreeze : Stays k r h₀ (objUnfreeze x) :=
    (stays quiet_heap).bind fun _ =>
      (stays (quiet_stopIf _ (by simp))).bind fun _ =>
      Triple.modify fun _ h => h.setFrozen _ _
  exact hunfreeze.bind fun _ => Triple.pure fun _ h => h

theorem lxObjectSetProperty_spec : Stays k r h₀ (lxObjectSetProperty env args) :=
  (stays (quiet_checkArity _ _ _)).bind fun _ =>
    (stays (quiet_asObj _)).bind fun _ =>
    (stays (quiet_checkArg _ _ _)).bind fun _ =>
    propertySet_spec.bind fun _ => Triple.pure fun _ h => h

theorem lxErrInit_spec : Stays k r h₀ (lxErrInit env args) :=
  (stays (quiet_checkArity _ _ _)).bind fun _ =>
    (stays (quiet_asObj _)).bind fun _ =>
    (stays (quiet_checkMessage _)).bind fun _ =>
    internedString_spec.bind fun _ => setProp_spec.bind fun _ => Triple.pure fun _ h => h

theorem initSource_spec : Stays k r h₀ (initSource env args) := by
  refine (stays quiet_heap).bind fun _ => ?_
  split
  · exact internedString_spec
  · refine Triple.ite (fun _ => stays (quiet_asObj _)) fun _ => ?_
    exact copyString_spec.post fun _ _ h => h.2.near

theorem takeChars_spec {y : ℕ} (hx : Free r h₀ x) : Stays k r h₀ (takeChars x y) := by
  have hget' : ∀ s, Triple (fun h => Near k r h₀ h ∧ h.string? x = some s) (getString y)
      (fun o h => (Near k r h₀ h ∧ h.string? x = some s) ∧ h.string? y = some o)
      (Stopped k r h₀) := fun s =>
    Triple.look (fun _ _ hn hs => ⟨hn, hs⟩) fun _ hn _ => ⟨tame_segfault, hn.1⟩
  refine getString_near.bind fun s => (hget' s).bind fun o => ?_
  refine Triple.ite (fun hshare => ?_) fun _ => Triple.ite (fun _ => ?_) fun _ => ?_
  · rw [Bool.and_eq_true] at hshare
    refine Triple.modify fun h ⟨⟨hn, hs⟩, ho⟩ => ?_
    refine hn.setBody hx (Heap.lt_of_handle (Heap.handle_of_string? hs)) rfl ?_
    exact hn.sound.borrow (Heap.handle_of_string? ho) rfl rfl rfl (by simp [hshare.1])
  · have hlocal : Local k r h₀ fun h => Near k r h₀ h ∧ h.string? x = some s :=
      ⟨fun _ h => h.1, fun _ _ hn _ h => ⟨hn, h.2⟩⟩
    refine ((allocate_spec hlocal).pre fun _ h => h.1).bind fun p => ?_
    refine ((setString_spec (s := s) hx).pre fun h hh => ⟨hh.1.1, hh.1.2, fun q hq => ?_⟩).bind
      fun _ => ?_
    · cases hq
      exact ⟨hh.2.1, hh.2.spare⟩
    · refine (reading (quiet_getString y) fun _ h => h.1).bind fun _ => ?_
      refine (reading (quiet_loadCells _ _) fun _ h => h.1).bind fun _ => ?_
      refine (storeCells_spec .string (OwnString.local _) hx fun h hs q hq => ?_).post
        fun _ _ h => h.1
      cases hq
      exact hs.2.2 p rfl
  · exact (setString_spec (s := s) hx).weaken (fun h hh => ⟨hh.1.1, hh.1.2, fun q hq => by cases hq⟩)
      (fun _ _ h => h.1) fun _ _ h => h

theorem lxStringInit_spec (hself : ∀ x, arg args 0 = .obj x → Free r h₀ x) :
    Stays k r h₀ (lxStringInit env args) := by
  refine (stays (quiet_checkArity _ _ _)).bind fun _ => ?_
  refine (asObj_spec fun _ h => h).bind fun x => Triple.of_imp (fun _ h => h.1) fun hx => ?_
  have hfree := hself x hx
  refine (initSource_spec.pre fun _ h => h.2).bind fun y => ?_
  refine getString_near.bind fun s => (reading (quiet_getString y) fun _ h => h.1).bind fun o => ?_
  have hset : Triple (fun h => Near k r h₀ h ∧ h.string? x = some s)
      (setString x { s with capacity := o.capacity, hash := o.hash, length := o.length })
      (fun _ => Near k r h₀) (Stopped k r h₀) := by
    refine Triple.modify fun h ⟨hn, hs⟩ => ?_
    refine hn.setBody hfree (Heap.lt_of_handle (Heap.handle_of_string? hs)) rfl ?_
    exact hn.sound.keep (Heap.handle_of_string? hs) rfl rfl id
  refine hset.bind fun _ => ?_
  refine (Triple.modify (Q := fun _ => Near k r h₀) fun _ h => h.setFrozen _ _).bind fun _ => ?_
  exact (takeChars_spec hfree).bind fun _ => Triple.pure fun _ h => h

theorem lxStringDup_spec : Stays k r h₀ (lxStringDup env args) := by
  refine (stays (quiet_checkArity _ _ _)).bind fun _ => ?_
  refine (stays (quiet_asObj _)).bind fun x => ?_
  refine lxObjectDup_spec.bind fun n => Triple.of_imp (fun _ h => h.1) fun hfree => ?_
  refine ((stays (quiet_getString x)).pre fun _ h => h.2.1).bind fun _ => ?_
  refine getString_near.bind fun s => ?_
  have hlocal : Local k r h₀ fun h => Near k r h₀ h ∧ h.string? n = some s :=
    ⟨fun _ h => h.1, fun _ _ hn _ h => ⟨hn, h.2⟩⟩
  refine (allocate_spec hlocal).bind fun p => ?_
  refine (reading (quiet_loadCells _ _) fun _ h => h.1.1).bind fun _ => ?_
  refine (storeCells_spec .string (hlocal.unheld p) hfree fun h hh q hq => ?_).bind
    fun _ => ?_
  · cases hq
    exact hh.2.spare
  · refine ((setString_fresh (s := s) hfree rfl).pre fun h hh =>
      ⟨hh.1.1, hh.1.2, hh.2.1, hh.2.spare⟩).bind fun _ => Triple.pure fun _ h => h.near

theorem lxArrayInit_spec (hself : ∀ x, arg args 0 = .obj x → Free r h₀ x) :
    Stays k r h₀ (lxArrayInit env args) := by
  refine (stays (quiet_checkArity _ _ _)).bind fun _ => ?_
  refine (asObj_spec fun _ h => h).bind fun x => Triple.of_imp (fun _ h => h.1) fun hx => ?_
  have hfree := hself x hx
  have hget : Triple (fun h => arg args 0 = .obj x ∧ Near k r h₀ h) (getArray x)
      (fun a h => Draft k r h₀ x (initValueArray a) h) (Stopped k r h₀) :=
    Triple.look (fun _ _ hn ha => Draft.of_none hn.2 (by simp [ha]) rfl)
      fun _ hn _ => ⟨tame_segfault, hn.2⟩
  have hcapa : ∀ a capa, Triple (Draft k r h₀ x (initValueArray a))
      (initValueArrayWithCapa env a capa) (fun a' => Draft k r h₀ x a') (Stopped k r h₀) := by
    intro a capa
    refine Triple.ite (fun _ => Triple.pure fun _ h => h) fun _ => ?_
    have hgrow : Triple (Draft k r h₀ x (initValueArray a)) (growArray env none capa)
        (fun p h => Draft k r h₀ x (initValueArray a) h ∧ p < h.mem.next ∧
          Spare k .array x p h.handle) (Stopped k r h₀) :=
      growArray_spec .array (Draft.local _) hfree fun h _ p hp => by cases hp
    exact hgrow.bind fun p => Triple.pure fun h hd => hd.1.take hd.2 rfl
  have hinit : ∀ a capa, Triple (Draft k r h₀ x (initValueArray a)) (initValues env a capa)
      (fun a' => Draft k r h₀ x a') (Stopped k r h₀) := fun a capa =>
    Triple.ite (fun _ => hcapa a capa) fun _ => Triple.pure fun _ h => h
  refine hget.bind fun a => (hinit a _).bind fun a' => (writeAll_spec hfree).bind fun a'' => ?_
  exact (setArray_spec hfree).bind fun _ => Triple.pure fun _ h => h.near

theorem values_of_blank {h : Heap} {n : ℕ} {b : Body} {a : ObjArray}
    (hb : h.objs[n]?.map Obj.body = some b.blank) (ha : h.array? n = some a) :
    a.values = none := by
  unfold Heap.array? at ha
  split at ha
  · rename_i heq
    rw [heq] at hb
    cases ha
    cases b <;> simp [Body.blank] at hb
    simp [hb]
  · cases ha

theorem lxArrayDup_spec : Stays k r h₀ (lxArrayDup env args) := by
  refine (stays (quiet_checkArity _ _ _)).bind fun _ => ?_
  refine (stays (quiet_asObj _)).bind fun x => ?_
  refine lxObjectDup_spec.bind fun n => Triple.of_imp (fun _ h => h.1) fun hfree => ?_
  refine (reading (quiet_getArray x) fun _ h => h.2.1).bind fun selfAry => ?_
  have hget : Triple (fun h => Free r h₀ n ∧ Near k r h₀ h ∧
      ∃ b : Body, h.objs[n]?.map Obj.body = some b.blank) (getArray n)
      (fun a h => Draft k r h₀ n a h) (Stopped k r h₀) :=
    Triple.look (fun _ _ hh ha =>
        Draft.of_none hh.2.1 (by simp [ha]) (hh.2.2.elim fun _ hb => values_of_blank hb ha))
      fun _ hh _ => ⟨tame_segfault, hh.2.1⟩
  refine hget.bind fun a => (reading (quiet_loadCells _ _) fun _ => Draft.near).bind fun vs => ?_
  refine (writeAll_spec hfree).bind fun _ => (setArray_spec hfree).bind fun _ => ?_
  exact Triple.pure fun _ h => h.near

/-- The storage of an array constant is shared, that of another array is copied. -/
theorem dupValues_spec {n : ℕ} {o : ObjArray} (hn : Free r h₀ n) :
    Triple (fun h => Near k r h₀ h ∧ (h.array? n).isSome ∧ h.array? x = some o)
      (dupValues env n o)
      (fun _ h => Near k r h₀ h ∧ (o.isStatic = false → OwnsArray k r h₀ n h))
      (Stopped k r h₀) := by
  refine Triple.ite (fun hstatic => ?_) fun _ => ?_
  · refine Triple.modify fun h ⟨hnear, hsome, hx⟩ => ⟨?_, fun hs => by simp [hstatic] at hs⟩
    obtain ⟨a, ha⟩ := Option.isSome_iff_exists.mp hsome
    refine hnear.setBody hn (Heap.lt_of_handle (Heap.handle_of_array? ha)) rfl ?_
    exact hnear.sound.borrow (Heap.handle_of_array? hx) rfl rfl rfl (by simp [hstatic])
  · refine (reading (quiet_loadCells _ _) fun _ h => h.1).bind fun vs => ?_
    refine ((writeAll_spec (l := vs) hn).pre fun h hh =>
      Draft.of_none hh.1 hh.2.1 rfl).bind fun _ => ?_
    exact (setArray_spec hn).post fun _ _ h => ⟨h.near, fun _ => h⟩

theorem arrayDup_spec {p : Prop} :
    Triple (fun h => Near k r h₀ h ∧ (p → ∀ a, h.array? x = some a → a.isStatic = false))
      (arrayDup env x) (fun n h => Free r h₀ n ∧ Near k r h₀ h ∧ (p → OwnsArray k r h₀ n h))
      (Stopped k r h₀) := by
  have hnew : Triple
      (fun h => Near k r h₀ h ∧ (p → ∀ a, h.array? x = some a → a.isStatic = false)) newArray
      (fun n h => Free r h₀ n ∧ Near k r h₀ h ∧ (h.array? n).isSome ∧
        (p → ∀ a, h.array? x = some a → a.isStatic = false)) (Stopped k r h₀) := by
    intro h ⟨hn, hstatic⟩
    obtain ⟨hfree, hnear, hblank⟩ := newArray_spec h hn
    refine ⟨hfree, hnear, by rw [hblank]; rfl, fun hp a ha => ?_⟩
    rcases Heap.array?_addObj ha with hold | hbody
    · exact hstatic hp a hold
    · cases hbody
      rfl
  refine hnew.bind fun n => Triple.of_imp (fun _ h => h.1) fun hfree => ?_
  have hget : Triple (fun h => Free r h₀ n ∧ Near k r h₀ h ∧ (h.array? n).isSome ∧
        (p → ∀ a, h.array? x = some a → a.isStatic = false)) (getArray x)
      (fun o h => (p → o.isStatic = false) ∧ Near k r h₀ h ∧ (h.array? n).isSome ∧
        h.array? x = some o) (Stopped k r h₀) :=
    Triple.look (fun _ o hh ho => ⟨fun hp => hh.2.2.2 hp o ho, hh.2.1, hh.2.2.1, ho⟩)
      fun _ hh _ => ⟨tame_segfault, hh.2.1⟩
  refine hget.bind fun o => Triple.of_imp (fun _ h => h.1) fun hstatic => ?_
  refine ((dupValues_spec (x := x) hfree).pre fun _ h => h.2).bind fun _ => ?_
  exact Triple.pure fun _ h => ⟨hfree, h.1, fun hp => h.2 (hstatic hp)⟩

theorem setPairs_spec {els : Cells} : Stays k r h₀ (setPairs env x els) := by
  induction els with
  | nil => exact Triple.pure fun _ h => h
  | cons el els ih =>
    exact (stays (quiet_pairOf el)).bind fun _ => mapSet_spec.bind fun _ => ih

theorem lxMapInit_spec : Stays k r h₀ (lxMapInit env args) := by
  refine (stays (quiet_checkArity _ _ _)).bind fun _ => ?_
  refine (stays (quiet_asObj _)).bind fun x => ?_
  refine (stays (quiet_getMap x)).bind fun _ => ?_
  split
  · exact Triple.pure fun _ h => h
  · refine (stays (quiet_checkArg _ _ _)).bind fun _ => ?_
    refine (stays (quiet_asObj _)).bind fun y => ?_
    refine (stays (quiet_getArray y)).bind fun _ => ?_
    refine (stays (quiet_loadCells _ _)).bind fun _ => ?_
    exact setPairs_spec.bind fun _ => Triple.pure fun _ h => h
  · exact stays (quiet_throw _)

theorem lxMapDup_spec : Stays k r h₀ (lxMapDup env args) := by
  refine (stays (quiet_checkArity _ _ _)).bind fun _ => ?_
  refine lxObjectDup_spec.bind fun n => Triple.of_imp (fun _ h => h.1) fun _ => ?_
  refine ((stays (quiet_asObj _)).pre fun _ h => h.2.1).bind fun x => ?_
  refine (stays (quiet_getMap x)).bind fun _ => ?_
  exact getMap_spec.bind fun _ => setMap_spec.bind fun _ => Triple.pure fun _ h => h

theorem lxMapSet_spec : Stays k r h₀ (lxMapSet env args) :=
  (stays (quiet_checkArity _ _ _)).bind fun _ =>
    (stays (quiet_asObj _)).bind fun _ =>
    (stays (quiet_throwIfFrozen _ _)).bind fun _ =>
    mapSet_spec.bind fun _ => Triple.pure fun _ h => h

theorem mapClear_spec : Stays k r h₀ (mapClear x) :=
  getMap_spec.bind fun _ => setMap_spec

theorem lxMapClear_spec : Stays k r h₀ (lxMapClear args) :=
  (stays (quiet_checkArity _ _ _)).bind fun _ =>
    (stays (quiet_asObj _)).bind fun _ =>
    (stays (quiet_throwIfFrozen _ _)).bind fun _ =>
    mapClear_spec.bind fun _ => Triple.pure fun _ h => h

theorem lxMapMerge_spec : Stays k r h₀ (lxMapMerge env args) := by
  refine (stays (quiet_checkArity _ _ _)).bind fun _ => ?_
  refine (stays (quiet_asObj _)).bind fun self => ?_
  refine (stays (quiet_asObj _)).bind fun other => ?_
  refine (stays (quiet_checkArg _ _ _)).bind fun _ => ?_
  refine lxMapDup_spec.bind fun ret => ?_
  refine (stays (quiet_getMap other)).bind fun _ => ?_
  exact getMap_spec.bind fun _ => setMap_spec.bind fun _ => Triple.pure fun _ h => h

theorem lxMapMergeWith_spec : Stays k r h₀ (lxMapMergeWith env args) := by
  refine (stays (quiet_checkArity _ _ _)).bind fun _ => ?_
  refine (stays (quiet_asObj _)).bind fun self => ?_
  refine (stays (quiet_asObj _)).bind fun other => ?_
  refine (stays (quiet_checkArg _ _ _)).bind fun _ => ?_
  refine (stays (quiet_throwIfFrozen _ _)).bind fun _ => ?_
  refine (stays (quiet_getMap other)).bind fun _ => ?_
  exact getMap_spec.bind fun _ => setMap_spec.bind fun _ => Triple.pure fun _ h => h

theorem lxMapDelete_spec : Stays k r h₀ (lxMapDelete env args) :=
  (stays (quiet_checkArity _ _ _)).bind fun _ =>
    (stays (quiet_asObj _)).bind fun _ =>
    (stays (quiet_throwIfFrozen _ _)).bind fun _ =>
    getMap_spec.bind fun _ => setMap_spec.bind fun _ => Triple.pure fun _ h => h

theorem lxMapRehash_spec : Stays k r h₀ (lxMapRehash env args) :=
  (stays (quiet_checkArity _ _ _)).bind fun _ =>
    (stays (quiet_asObj _)).bind fun _ =>
    (stays (quiet_throwIfFrozen _ _)).bind fun _ =>
    getMap_spec.bind fun _ => setMap_spec.bind fun _ => Triple.pure fun _ h => h

/-! ## Literals, constructions and errors -/

/-- `init` of a new object -/
theorem init_spec (hx : Free r h₀ x) : Stays k r h₀ (callMethod env x "init" args) := by
  have hself : ∀ y, arg (.obj x :: args) 0 = .obj y → Free r h₀ y := by
    intro y hy
    cases hy
    exact hx
  refine (stays (quiet_getObj x)).bind fun o => ?_
  cases hb : o.body with
  | string s => exact lxStringInit_spec hself
  | array a => exact lxArrayInit_spec hself
  | map t => exact lxMapInit_spec
  | error c => exact lxErrInit_spec
  | plain => exact Reader.call_spec

theorem construct_spec {b : Body} :
    Triple (Near k r h₀) (construct env b args) (fun n h => Free r h₀ n ∧ Near k r h₀ h)
      (Stopped k r h₀) := by
  refine (newObj_spec (fun _ h => h) fun _ _ g p hg hp => ?_).bind fun n =>
    Triple.of_imp (fun _ h => h.2.1) fun hfree => ?_
  · cases b <;> simp [Body.blank, Body.handle] at hg <;> subst hg <;> cases hp
  · exact ((init_spec hfree).pre fun _ h => h.1).bind fun _ => Triple.pure fun _ h => ⟨hfree, h⟩

theorem arrayConstant_spec {els : List Value} : Stays k r h₀ (arrayConstant env els) := by
  refine newArray_spec.bind fun n => Triple.of_imp (fun _ h => h.1) fun hfree => ?_
  refine ((writeAll_spec hfree).pre fun h hh =>
    Draft.of_none hh.2.1 (by simp [hh.2.2]) rfl).bind fun _ => ?_
  exact (setArray_spec hfree).bind fun _ => Triple.pure fun _ h => h.near

/-- The flag says nothing about the buffer. -/
theorem setStatic_spec : Stays k r h₀ (setStatic x) := by
  refine getString_near.bind fun s => Triple.modify fun h ⟨hn, hs⟩ => ?_
  have hhandle := Heap.handle_of_string? hs
  refine hn.congr ?_ (fun j _ => ?_) rfl (Nat.le_of_eq (Heap.length_setBody).symm)
  · rw [Heap.handle_setBody (Heap.lt_of_handle hhandle) rfl]
    exact (congrArg _ hhandle.symm).trans (Function.update_eq_self ..)
  · by_cases hj : j = x
    · subst hj
      exact Heap.storage_setBody_self hs rfl rfl
    · exact Heap.storage_setBody_of_ne hj

theorem markStatic_spec {isStatic : Bool} : Stays k r h₀ (markStatic x isStatic) :=
  Triple.ite (fun _ => setStatic_spec) fun _ => Triple.pure fun _ h => h

theorem freezeStatic_spec {isStatic : Bool} : Stays k r h₀ (freezeStatic x isStatic) :=
  Triple.ite
    (fun _ => (Triple.modify (Q := fun _ => Near k r h₀) fun _ h => h.setFrozen _ _).bind
      fun _ => setStatic_spec)
    fun _ => Triple.pure fun _ h => h

theorem opString_spec {isStatic : Bool} : Stays k r h₀ (opString env x isStatic) :=
  markStatic_spec.bind fun _ => construct_spec.bind fun _ =>
    (freezeStatic_spec.pre fun _ h => h.2).bind fun _ => Triple.pure fun _ h => h

theorem opDuparray_spec : Stays k r h₀ (arrayDup env x) :=
  (arrayDup_spec (p := False)).weaken (fun _ h => ⟨h, False.elim⟩) (fun _ _ h => h.2.1)
    fun _ _ h => h

theorem throwErrorVal_spec : Stays k r h₀ (throwErrorVal env x) := by
  refine internedString_spec.bind fun name => (stays (quiet_getObj x)).bind fun o => ?_
  have honce : ∀ b c t, Stays k r h₀ (setBacktraceOnce env x b c t) := by
    intro b c t
    refine Triple.ite (fun _ => Triple.ite (fun _ => Triple.pure fun _ h => h) fun _ => ?_)
      fun _ => Triple.pure fun _ h => h
    exact newArray_spec.bind fun _ => setProp_spec.pre fun _ h => h.2.1
  split
  · exact (honce _ _ _).bind fun _ => stays (quiet_throw _)
  · exact stays (quiet_throw _)

end Natives

/-! ## Methods that write to their object -/

/-- No other object has the block of `r`. -/
def Heap.Alone (h : Heap) (r : ℕ) : Prop :=
  ∀ j < h.objs.length, j ≠ r → (h.handle r).bind Handle.addr = none ∨
    (h.handle j).bind Handle.addr ≠ (h.handle r).bind Handle.addr

instance (h : Heap) (r : ℕ) : Decidable (h.Alone r) := by
  unfold Heap.Alone
  infer_instance

theorem Heap.Alone.spare {h : Heap} {r p : ℕ} {g : Handle Kind} {k mine : Kind}
    (ha : h.Alone r) (hg : h.handle r = some g) (hp : g.addr = some p) :
    Spare k mine r p h.handle := by
  refine spare_of_alone fun j gj hj hgj hpj => ?_
  have hcase := ha j (lt_of_handle hgj) hj
  rw [hg, hgj] at hcase
  simp [hp, hpj] at hcase

section Mutators

variable {k : Kind} {r : ℕ} {h₀ : Heap} {env : Env} {args : List Value}

/-- The unfrozen string is interned and not shared: `dedupString` makes no copy. -/
def Heap.uncopied (h : Heap) (r : ℕ) : Bool :=
  !h.isFrozen r && (h.string? r).any fun s => s.isInterned && !s.isShared

/-- `padRight` of the arguments writes to the unfrozen string, whose buffer others may have. -/
def Heap.pads (h : Heap) (r : ℕ) (args : List Value) : Bool :=
  !h.isFrozen r && (h.string? r).any fun s =>
    (s.isShared || s.isInterned) && decide ((s.length : ℤ) < asNumber (arg args 0))

/-- The checks of the arguments that come before a write in place. -/
def Native.accepts (h : Heap) (args : List Value) : Native → Bool
  | stringPush => args.length == 1 && h.isA (arg args 0) .string
  | stringClear => args.length == 0
  | stringInsertAt => args.length == 2 && h.isA (arg args 0) .string && h.isA (arg args 1) .number
  | stringOpIndexSet =>
    args.length == 2 && h.isA (arg args 0) .number && h.isA (arg args 1) .string
  | stringPadRight => args.length == 2 && h.isA (arg args 0) .number && h.isA (arg args 1) .string
  | arrayOpIndexSet => args.length == 2 && h.isA (arg args 0) .number
  | _ => true

section Strings

variable (hs : Sound k h₀.mem.next h₀.handle)

include hs

/-- A reading command at the beginning of an operation. -/
theorem checking {α : Type} {c : Exec α} (hc : Quiet Tame c) :
    Triple (fun h => h = h₀) c (fun _ h => h = h₀) (Stopped k r h₀) :=
  reading hc fun h hh => by
    rw [hh]
    exact Near.refl hs

/-- `CHECK_ARITY` of a method that takes `n` arguments besides the receiver -/
theorem checkArity_start {n : ℕ} :
    Triple (fun h => h = h₀) (checkArity (n + 1) (some (n + 1)) (.obj r :: args))
      (fun _ h => args.length = n ∧ h = h₀) (Stopped k r h₀) := by
  refine Triple.ite (fun _ => Triple.stop fun h hh => ?_) fun hn => Triple.pure fun _ h => ⟨?_, h⟩
  · rw [hh]
    exact ⟨tame_thrown _, Near.refl hs⟩
  · have harity := Decidable.not_not.mp hn
    have hmax := harity.2 (n + 1) rfl
    have hmin := harity.1
    simp only [List.length_cons] at hmin hmax
    omega

theorem checkArg_start {v : Value} {expected : ArgType} {argnum : ℕ} :
    Triple (fun h => h = h₀) (checkArg v expected argnum)
      (fun _ h => h₀.isA v expected = true ∧ h = h₀) (Stopped k r h₀) := by
  refine Triple.bind (Q := fun a h => a = h₀ ∧ h = h₀) (Triple.get fun _ h => ⟨h, h⟩) fun a =>
    Triple.given ?_
  rintro rfl
  refine Triple.ite (fun _ => Triple.stop fun h hh => ?_) fun hn => Triple.pure fun _ h => ⟨?_, h⟩
  · rw [hh]
    exact ⟨tame_thrown _, Near.refl hs⟩
  · simpa using hn

/-- `AS_STRING` of the receiver -/
theorem getString_start :
    Triple (fun h => h = h₀) (getString r) (fun s h => h₀.string? r = some s ∧ h = h₀)
      (Stopped k r h₀) :=
  Triple.look (fun h _ hh hr => ⟨hh ▸ hr, hh⟩) fun h hh _ => by
    rw [hh]
    exact ⟨tame_segfault, Near.refl hs⟩

/-- `AS_ARRAY` of the receiver -/
theorem getArray_start :
    Triple (fun h => h = h₀) (getArray r) (fun a h => h₀.array? r = some a ∧ h = h₀)
      (Stopped k r h₀) :=
  Triple.look (fun h _ hh hr => ⟨hh ▸ hr, hh⟩) fun h hh _ => by
    rw [hh]
    exact ⟨tame_segfault, Near.refl hs⟩

theorem pushCString_frozen {src : Source} {n : ℕ} (hfrozen : h₀.isFrozen r = true) :
    Triple (fun h => h = h₀) (pushCString env r src n) (fun _ _ => False)
      (Stopped k r h₀) := by
  refine Triple.bind (Q := fun a h => a = h₀ ∧ h = h₀) (Triple.get fun _ h => ⟨h, h⟩) fun a =>
    Triple.of_imp (fun _ h => h.1) ?_
  rintro rfl
  rw [hfrozen]
  refine Triple.bind (Q := fun _ _ => False) (Triple.stop fun h hh => ?_) fun _ _ h => h.elim
  rw [hh.2]
  exact ⟨tame_aborted, Near.refl hs⟩

theorem dedupString_ready (halone : k = .string → h₀.uncopied r = true → h₀.Alone r) :
    Triple (fun h => h = h₀) (dedupString r) (fun _ => Ready k r h₀ r) (Stopped k r h₀) := by
  by_cases hshared : (h₀.string? r).any ObjString.isShared = true
  · obtain ⟨s, hr, hsh⟩ := (Option.any_eq_true ..).mp hshared
    have hcopy : Triple (fun h => Near k r h₀ h ∧ h.string? r = some s) (dedupString r) _ _ :=
      dedupString_spec (Or.inl rfl) fun _ _ _ hf => by simp [hsh] at hf
    refine hcopy.weaken (fun h hh => ?_) (fun _ _ => Or.inl) fun _ _ h => h
    rw [hh]
    exact ⟨Near.refl hs, hr⟩
  · refine (getString_start hs).bind fun s => Triple.given fun hr => ?_
    have hsh : s.isShared = false := by simpa [hr] using hshared
    refine Triple.ite (fun h => by simp [hsh] at h) fun _ => Triple.pure fun h hh => ?_
    rw [hh]
    cases hfrozen : h₀.isFrozen r with
    | true => exact Or.inr ⟨Near.refl hs, hfrozen⟩
    | false =>
      refine Or.inl ⟨s, Near.refl hs, hr, fun p hp => ?_⟩
      by_cases hown : k = .string ∧ s.isInterned = true
      · have hcopies : h₀.uncopied r = true := by simp [Heap.uncopied, hr, hfrozen, hown.2, hsh]
        exact (halone hown.1 hcopies).spare (Heap.handle_of_string? hr) hp
      · refine hs.spare_of_unguarded (Heap.handle_of_string? hr) hp fun hk => ?_
        have hinterned : s.isInterned = false := by simpa [hk.symm] using hown
        simp [hsh, hinterned]

theorem lxStringPush_spec
    (halone : k = .string → (Native.stringPush.accepts h₀ args && h₀.uncopied r) = true →
      h₀.Alone r) :
    Triple (fun h => h = h₀) (lxStringPush env (.obj r :: args)) (fun _ => Near k r h₀)
      (Stopped k r h₀) := by
  refine (checkArity_start hs).bind fun _ => Triple.given fun hn => ?_
  refine (checkArg_start hs).bind fun _ => Triple.given fun hstring => ?_
  refine (checking hs (quiet_asObj _)).bind fun _ => ?_
  refine (dedupString_ready hs fun hk hcopies => halone hk ?_).bind fun _ => ?_
  · have hstring' : h₀.isA (arg args 0) .string = true := hstring
    simp [Native.accepts, hn, hstring', hcopies]
  · exact (pushString_spec (Or.inl rfl)).bind fun _ => Triple.pure fun _ h => h.near

theorem lxStringClear_spec
    (halone : k = .string → (Native.stringClear.accepts h₀ args && h₀.uncopied r) = true →
      h₀.Alone r) :
    Triple (fun h => h = h₀) (lxStringClear env (.obj r :: args)) (fun _ => Near k r h₀)
      (Stopped k r h₀) := by
  refine (checkArity_start hs).bind fun _ => Triple.given fun hn => ?_
  refine (dedupString_ready hs fun hk hcopies => halone hk ?_).bind fun _ => ?_
  · simp [Native.accepts, hn, hcopies]
  · exact (clearString_spec (Or.inl rfl)).bind fun _ => Triple.pure fun _ h => h.near

theorem lxStringInsertAt_spec
    (halone : k = .string → (Native.stringInsertAt.accepts h₀ args && h₀.uncopied r) = true →
      h₀.Alone r) :
    Triple (fun h => h = h₀) (lxStringInsertAt env (.obj r :: args)) (fun _ => Near k r h₀)
      (Stopped k r h₀) := by
  refine (checkArity_start hs).bind fun _ => Triple.given fun hn => ?_
  refine (checkArg_start hs).bind fun _ => Triple.given fun hstring => ?_
  refine (checkArg_start hs).bind fun _ => Triple.given fun hnumber => ?_
  refine (checking hs (quiet_asObj _)).bind fun _ => ?_
  refine (dedupString_ready hs fun hk hcopies => halone hk ?_).bind fun _ => ?_
  · have hstring' : h₀.isA (arg args 0) .string = true := hstring
    have hnumber' : h₀.isA (arg args 1) .number = true := hnumber
    simp [Native.accepts, hn, hstring', hnumber', hcopies]
  · exact (stringInsertAt_spec (Or.inl rfl)).bind fun _ => Triple.pure fun _ h => h.near

theorem lxStringOpIndexSet_spec
    (halone : k = .string → (Native.stringOpIndexSet.accepts h₀ args && h₀.uncopied r) = true →
      h₀.Alone r) :
    Triple (fun h => h = h₀) (lxStringOpIndexSet env (.obj r :: args)) (fun _ => Near k r h₀)
      (Stopped k r h₀) := by
  have hchars : ∀ y i, Triple (Ready k r h₀ r) (indexSetChars env r y i)
      (fun _ => Owns k r h₀ r) (Stopped k r h₀) := fun y i =>
    (reading (quiet_getString y) fun _ => Ready.near).bind fun _ =>
      (reading (quiet_loadCells _ _) fun _ => Ready.near).bind fun _ =>
      Triple.ite (fun _ => stringIndexSet_spec (Or.inl rfl)) fun _ =>
        stringInsertAt_spec (Or.inl rfl)
  refine (checkArity_start hs).bind fun _ => Triple.given fun hn => ?_
  refine (checkArg_start hs).bind fun _ => Triple.given fun hnumber => ?_
  refine (checkArg_start hs).bind fun _ => Triple.given fun hstring => ?_
  refine (checking hs (quiet_asObj _)).bind fun _ => ?_
  refine (dedupString_ready hs fun hk hcopies => halone hk ?_).bind fun _ => ?_
  · have hnumber' : h₀.isA (arg args 0) .number = true := hnumber
    have hstring' : h₀.isA (arg args 1) .string = true := hstring
    simp [Native.accepts, hn, hnumber', hstring', hcopies]
  · exact (hchars _ _).bind fun _ => Triple.pure fun _ h => h.near

/-- The pad is written to the buffer as it is; the string is frozen, or the buffer is its own. -/
theorem lxStringPadRight_spec
    (halone : k = .string → (Native.stringPadRight.accepts h₀ args && h₀.pads r args) = true →
      h₀.Alone r) :
    Triple (fun h => h = h₀) (lxStringPadRight env (.obj r :: args)) (fun _ => Near k r h₀)
      (Stopped k r h₀) := by
  refine (checkArity_start hs).bind fun _ => Triple.given fun hn' => ?_
  refine (checkArg_start hs).bind fun _ => Triple.given fun hnumber => ?_
  refine (checkArg_start hs).bind fun _ => Triple.given fun hstring => ?_
  refine (checking hs (quiet_asObj _)).bind fun padStr => ?_
  refine (getString_start hs).bind fun s => Triple.given fun hr => ?_
  refine Triple.bind (Q := fun _ => Near k r h₀) ?_ fun _ => Triple.pure fun _ h => h
  have haccepts : Native.stringPadRight.accepts h₀ args = true := by
    have hnumber' : h₀.isA (arg args 0) .number = true := hnumber
    have hstring' : h₀.isA (arg args 1) .string = true := hstring
    simp [Native.accepts, hn', hnumber', hstring']
  generalize hn : (asNumber (arg (.obj r :: args) 1) - s.length).toNat = n
  cases n with
  | zero =>
    refine Triple.pure fun h hh => ?_
    rw [hh]
    exact Near.refl hs
  | succ n =>
    cases hfrozen : h₀.isFrozen r with
    | true =>
      refine Triple.ends ?_
      exact (checking hs (quiet_getString _)).bind fun _ => pushCString_frozen hs hfrozen
    | false =>
      have hpad : Triple (Owns k r h₀ r) (padOnce env r padStr) (fun _ => Owns k r h₀ r)
          (Stopped k r h₀) :=
        (reading (quiet_getString _) fun _ => Owns.near).bind fun _ => pushCString_spec (Or.inl rfl)
      refine (Triple.times hpad).weaken (fun h hh => ?_) (fun _ _ h => h.near) fun _ _ h => h
      rw [hh]
      refine ⟨s, Near.refl hs, hr, fun p hp => ?_⟩
      by_cases hguard : k = .string ∧ (s.isShared || s.isInterned) = true
      · have hpads : h₀.pads r args = true := by
          have hlen : (s.length : ℤ) < asNumber (arg args 0) := by
            have harg : arg (.obj r :: args) 1 = arg args 0 := rfl
            rw [harg] at hn
            omega
          simp only [Heap.pads, hfrozen, hr, Option.any_some, hguard.2, hlen]
          rfl
        exact (halone hguard.1 (by rw [haccepts, hpads]; rfl)).spare (Heap.handle_of_string? hr) hp
      · refine hs.spare_of_unguarded (Heap.handle_of_string? hr) hp fun hk => ?_
        simpa [hk.symm] using hguard

end Strings

/-! ## Arrays that are written -/

/-- Where an operation stops nothing else was changed; that memory outside of a block was
written has the reason `w`. -/
def Left (k : Kind) (r : ℕ) (h₀ : Heap) (w : Prop) (e : Stop) (h : Heap) : Prop :=
  Near k r h₀ h ∧ (e = .wild → w)

theorem Stopped.left {w : Prop} {e : Stop} {h : Heap} (he : Stopped k r h₀ e h) :
    Left k r h₀ w e h :=
  ⟨he.2, fun hw => absurd hw he.1⟩

theorem leaves {α : Type} {w : Prop} {P : Heap → Prop} {Q : α → Heap → Prop} {c : Exec α}
    (hc : Triple P c Q (Stopped k r h₀)) : Triple P c Q (Left k r h₀ w) :=
  hc.weaken (fun _ h => h) (fun _ _ h => h) fun _ _ => Stopped.left

section Arrays

variable (hs : Sound k h₀.mem.next h₀.handle)
  (hstatic : ∀ a, h₀.array? r = some a → a.isStatic = false)

include hs hstatic

theorem arrayDedup_own : Triple (fun h => h = h₀) (arrayDedup env r) (fun _ => OwnsArray k r h₀ r)
      (Stopped k r h₀) := by
  by_cases hshared : (h₀.array? r).any ObjArray.isShared = true
  · obtain ⟨a, hr, hsh⟩ := (Option.any_eq_true ..).mp hshared
    have hcopy : Triple (fun h => Near k r h₀ h ∧ h.array? r = some a) (arrayDedup env r) _ _ :=
      arrayDedup_spec (Or.inl rfl) fun _ _ _ hf => by simp [hsh] at hf
    refine hcopy.pre fun h hh => ?_
    rw [hh]
    exact ⟨Near.refl hs, hr⟩
  · refine (getArray_start hs).bind fun a => Triple.given fun hr => ?_
    have hsh : a.isShared = false := by simpa [hr] using hshared
    refine Triple.ite (fun h => by simp [hsh] at h) fun _ => Triple.pure fun h hh => ?_
    rw [hh]
    refine ⟨Near.refl hs, a, hr, fun p hp => ?_⟩
    exact hs.spare_of_unguarded (Heap.handle_of_array? hr) hp fun _ => by
      simp [hsh, hstatic a hr]

/-- The beginning that the mutators of an array have in common. -/
theorem changeArray_spec {α : Type} {w : Prop} {f : ObjArray → Exec α}
    (hf : h₀.isFrozen r = false → ∀ a,
      Triple (Draft k r h₀ r a) (f a) (fun _ => Near k r h₀) (Left k r h₀ w)) :
    Triple (fun h => h = h₀)
      (throwIfFrozen r "Array" >>= fun _ => arrayDedup env r >>= fun _ => getArray r >>= f)
      (fun _ => Near k r h₀) (Left k r h₀ w) := by
  have hthrow : Triple (fun h => h = h₀) (throwIfFrozen r "Array")
      (fun _ h => h = h₀ ∧ h.isFrozen r = false) (Stopped k r h₀) :=
    throwIfFrozen_spec fun h hh => by
      rw [hh]
      exact Near.refl hs
  refine (leaves hthrow).bind fun _ =>
    Triple.of_imp (p := h₀.isFrozen r = false) (fun h hh => hh.1 ▸ hh.2) fun hfrozen => ?_
  refine (leaves ((arrayDedup_own hs hstatic).pre fun _ h => h.1)).bind fun _ => ?_
  exact (leaves getArray_own).bind fun a => hf hfrozen a

theorem arrayPush_spec {w : Prop} {el : Value} :
    Triple (fun h => h = h₀) (arrayPush env r el) (fun _ => Near k r h₀) (Left k r h₀ w) :=
  changeArray_spec hs hstatic fun _ _ => leaves <|
    (writeValueArrayEnd_spec (Or.inl rfl)).bind fun _ =>
    (setArray_spec (Or.inl rfl)).post fun _ _ h => h.near

theorem arrayPushFront_spec {w : Prop} {el : Value} :
    Triple (fun h => h = h₀) (arrayPushFront env r el) (fun _ => Near k r h₀)
      (Left k r h₀ w) :=
  changeArray_spec hs hstatic fun _ _ => leaves <|
    (writeValueArrayBeg_spec (Or.inl rfl)).bind fun _ =>
    (setArray_spec (Or.inl rfl)).post fun _ _ h => h.near

theorem arrayDelete_spec {w : Prop} {el : Value} :
    Triple (fun h => h = h₀) (arrayDelete env r el) (fun _ => Near k r h₀)
      (Left k r h₀ w) := by
  refine changeArray_spec hs hstatic fun _ a => leaves ?_
  refine (reading (quiet_loadCells _ _) fun _ => Draft.near).bind fun _ => ?_
  dsimp only
  split
  · exact Triple.pure fun _ => Draft.near
  · exact (removeValueArray_spec (Or.inl rfl)).bind fun _ =>
      (setArray_spec (Or.inl rfl)).bind fun _ => Triple.pure fun _ h => h.near

/-- A negative index is not refused. -/
theorem arrayDeleteAt_spec {idx : ℤ} :
    Triple (fun h => h = h₀) (arrayDeleteAt env r idx) (fun _ => Near k r h₀)
      (Left k r h₀ (h₀.isFrozen r = false ∧ idx < 0)) := by
  refine changeArray_spec hs hstatic fun hfrozen a => ?_
  refine Triple.ite (fun hidx => Triple.stop fun _ hd => ⟨hd.near, fun _ => ⟨hfrozen, hidx⟩⟩)
    fun _ => ?_
  refine Triple.ite (fun _ => leaves ?_) fun _ => Triple.pure fun _ => Draft.near
  exact (reading (quiet_loadCells _ _) fun _ => Draft.near).bind fun _ =>
    (removeValueArray_spec (Or.inl rfl)).bind fun _ =>
    (setArray_spec (Or.inl rfl)).bind fun _ => Triple.pure fun _ h => h.near

theorem arrayTake_spec {w : Prop} {front : Bool} :
    Triple (fun h => h = h₀) (arrayTake env r front) (fun _ => Near k r h₀)
      (Left k r h₀ w) := by
  refine changeArray_spec hs hstatic fun _ a => leaves ?_
  refine Triple.ite (fun _ => Triple.pure fun _ => Draft.near) fun _ => ?_
  exact (reading (quiet_loadCells _ _) fun _ => Draft.near).bind fun _ =>
    (removeValueArray_spec (Or.inl rfl)).bind fun _ =>
    (setArray_spec (Or.inl rfl)).bind fun _ => Triple.pure fun _ h => h.near

theorem arrayClear_spec {w : Prop} :
    Triple (fun h => h = h₀) (arrayClear env r) (fun _ => Near k r h₀) (Left k r h₀ w) :=
  changeArray_spec hs hstatic fun _ _ => leaves <|
    (freeValueArray_spec (Or.inl rfl)).bind fun _ =>
    (setArray_spec (Or.inl rfl)).post fun _ _ h => h.near

theorem arraySort_spec :
    Triple (fun h => h = h₀) (arraySort env r) (fun _ => Near k r h₀) (Stopped k r h₀) := by
  have hdup : Triple (fun h => h = h₀) (arrayDup env r)
      (fun n h => Free r h₀ n ∧ OwnsArray k r h₀ n h) (Stopped k r h₀) := by
    refine (arrayDup_spec (p := True)).weaken (fun h hh => ?_)
      (fun _ _ h => ⟨h.1, h.2.2 trivial⟩) fun _ _ h => h
    rw [hh]
    exact ⟨Near.refl hs, fun _ => hstatic⟩
  refine hdup.bind fun n => Triple.of_imp (fun _ h => h.1) fun hfree => ?_
  refine (getArray_own.pre fun _ h => h.2).bind fun a => ?_
  refine (reading (quiet_loadCells _ _) fun _ => Draft.near).bind fun vs => ?_
  split
  · exact (reading (quiet_throw _) fun _ => Draft.near).post fun _ _ => Draft.near
  · exact (storeCells_draft hfree).bind fun _ => Triple.pure fun _ => Draft.near

end Arrays

/-- `opIndexSet` of the arguments writes to the unfrozen array, which is still shared. -/
def Heap.writesShared (h : Heap) (r : ℕ) (args : List Value) : Bool :=
  !h.isFrozen r && (h.array? r).any fun a =>
    a.isShared && decide (0 ≤ asNumber (arg args 0) ∧ asNumber (arg args 0) < a.count)

/-- There is no `arrayDedup`. -/
theorem lxArrayOpIndexSet_spec (hs : Sound k h₀.mem.next h₀.handle)
    (hstatic : ∀ a, h₀.array? r = some a → a.isStatic = false)
    (halone : k = .array →
      (Native.arrayOpIndexSet.accepts h₀ args && h₀.writesShared r args) = true → h₀.Alone r) :
    Triple (fun h => h = h₀) (lxArrayOpIndexSet (.obj r :: args)) (fun _ => Near k r h₀)
      (Stopped k r h₀) := by
  have hnear : ∀ h, h = h₀ → Near k r h₀ h := by
    rintro h rfl
    exact Near.refl hs
  refine (checkArity_start hs).bind fun _ => Triple.given fun hn => ?_
  refine (checking hs (quiet_getArray _)).bind fun _ => ?_
  refine (checkArg_start hs).bind fun _ => Triple.given fun hnumber => ?_
  have hunfrozen : Triple (fun h => h = h₀) (throwIfFrozen r "Array")
      (fun _ h => h₀.isFrozen r = false ∧ h = h₀) (Stopped k r h₀) :=
    (throwIfFrozen_spec hnear).post fun _ h hh => ⟨hh.1 ▸ hh.2, hh.1⟩
  refine hunfrozen.bind fun _ => Triple.given fun hfrozen => ?_
  refine (getArray_start hs).bind fun a => Triple.given fun ha => ?_
  refine Triple.ite (fun _ => Triple.pure hnear) fun hidx => ?_
  refine Triple.ite (fun hlt => ?_) fun _ => Triple.pure hnear
  refine ((storeCells_draft (x := r) (Or.inl rfl)).pre fun h hh => ?_).bind fun _ =>
    Triple.pure fun _ => Draft.near
  rw [hh]
  refine OwnsArray.draft ⟨Near.refl hs, a, ha, fun p hp => ?_⟩ ha
  by_cases hguard : k = .array ∧ a.isShared = true
  · have hnumber' : h₀.isA (arg args 0) .number = true := hnumber
    have hin : 0 ≤ asNumber (arg args 0) ∧ asNumber (arg args 0) < a.count :=
      ⟨Int.not_lt.mp hidx, hlt⟩
    refine (halone hguard.1 ?_).spare (Heap.handle_of_array? ha) hp
    simp [Native.accepts, hn, hnumber', Heap.writesShared, hfrozen, ha, hguard.2, hin]
  · refine hs.spare_of_unguarded (Heap.handle_of_array? ha) hp fun hk => ?_
    have hunshared : a.isShared = false := by simpa [hk.symm] using hguard
    simp [hunshared, hstatic a ha]

/-! ## Every native method -/

/-- The method writes to a block of its object that others may have. -/
def Native.writesInPlace (h : Heap) (self : ℕ) (args : List Value) (k : Kind) (m : Native) :
    Bool :=
  m.accepts h args &&
    match k, m with
    | .string, stringPadRight => h.pads self args
    | .string, stringPush => h.uncopied self
    | .string, stringClear => h.uncopied self
    | .string, stringInsertAt => h.uncopied self
    | .string, stringOpIndexSet => h.uncopied self
    | .array, arrayOpIndexSet => h.writesShared self args
    | _, _ => false

/-- The method writes to memory before the block of its array. -/
def Native.strays (h : Heap) (self : ℕ) (args : List Value) : Native → Bool
  | arrayDeleteAt =>
    args.length == 1 && !h.isFrozen self && decide (asNumber (arg args 0) < 0)
  | _ => false

theorem Native.call_spec {m : Native} (hs : Sound k h₀.mem.next h₀.handle)
    (hstatic : ∀ a, h₀.array? r = some a → a.isStatic = false)
    (halone : m.writesInPlace h₀ r args k = true → h₀.Alone r) :
    Triple (fun h => h = h₀) (m.call env (.obj r :: args)) (fun _ => Near k r h₀)
      (Left k r h₀ (m.strays h₀ r args = true)) := by
  have hnear : ∀ h, h = h₀ → Near k r h₀ h := by
    rintro h rfl
    exact Near.refl hs
  have hself : ∀ x, arg (.obj r :: args) 0 = .obj x → Free r h₀ x := by
    intro x hx
    cases hx
    exact Or.inl rfl
  cases m with
  | reads m => exact leaves (Reader.call_spec.pre hnear)
  | objectDup =>
    exact leaves ((lxObjectDup_spec.pre hnear).bind fun _ => Triple.pure fun _ h => h.2.1)
  | objectFreeze => exact leaves (lxObjectFreeze_spec.pre hnear)
  | objectUnfreeze => exact leaves (lxObjectUnfreeze_spec.pre hnear)
  | objectSetProperty => exact leaves (lxObjectSetProperty_spec.pre hnear)
  | errInit => exact leaves (lxErrInit_spec.pre hnear)
  | stringInit => exact leaves ((lxStringInit_spec hself).pre hnear)
  | stringPush =>
    refine leaves (lxStringPush_spec hs ?_)
    rintro rfl
    exact halone
  | stringDup => exact leaves (lxStringDup_spec.pre hnear)
  | stringClear =>
    refine leaves (lxStringClear_spec hs ?_)
    rintro rfl
    exact halone
  | stringInsertAt =>
    refine leaves (lxStringInsertAt_spec hs ?_)
    rintro rfl
    exact halone
  | stringOpIndexSet =>
    refine leaves (lxStringOpIndexSet_spec hs ?_)
    rintro rfl
    exact halone
  | stringPadRight =>
    refine leaves (lxStringPadRight_spec hs ?_)
    rintro rfl
    exact halone
  | arrayInit => exact leaves ((lxArrayInit_spec hself).pre hnear)
  | arrayDup => exact leaves (lxArrayDup_spec.pre hnear)
  | arrayPush =>
    exact (leaves (checking hs (quiet_checkArity _ _ _))).bind fun _ =>
      (arrayPush_spec hs hstatic).bind fun _ => Triple.pure fun _ h => h
  | arrayPop =>
    exact (leaves (checking hs (quiet_checkArity _ _ _))).bind fun _ =>
      (arrayTake_spec hs hstatic).bind fun _ => Triple.pure fun _ h => h
  | arrayPushFront =>
    exact (leaves (checking hs (quiet_checkArity _ _ _))).bind fun _ =>
      (arrayPushFront_spec hs hstatic).bind fun _ => Triple.pure fun _ h => h
  | arrayPopFront =>
    exact (leaves (checking hs (quiet_checkArity _ _ _))).bind fun _ =>
      (arrayTake_spec hs hstatic).bind fun _ => Triple.pure fun _ h => h
  | arrayDelete =>
    exact (leaves (checking hs (quiet_checkArity _ _ _))).bind fun _ =>
      (arrayDelete_spec hs hstatic).bind fun _ => Triple.pure fun _ h => h
  | arrayDeleteAt =>
    refine (leaves (checkArity_start hs)).bind fun _ => Triple.given fun hn => ?_
    refine (leaves (checking hs (quiet_checkArg _ _ _))).bind fun _ => ?_
    refine Triple.bind (Q := fun _ => Near k r h₀) ?_ fun _ => Triple.pure fun _ h => h
    refine (arrayDeleteAt_spec hs hstatic).weaken (fun _ h => h) (fun _ _ h => h) fun e h he => ?_
    refine ⟨he.1, fun hw => ?_⟩
    obtain ⟨hfrozen, hidx⟩ := he.2 hw
    have harg : asNumber (arg args 0) < 0 := hidx
    simp [Native.strays, hn, hfrozen, harg]
  | arrayClear =>
    exact (leaves (checking hs (quiet_checkArity _ _ _))).bind fun _ =>
      (arrayClear_spec hs hstatic).bind fun _ => Triple.pure fun _ h => h
  | arraySort =>
    exact leaves ((checking hs (quiet_checkArity _ _ _)).bind fun _ =>
      (arraySort_spec hs hstatic).bind fun _ => Triple.pure fun _ h => h)
  | arraySortBy =>
    exact leaves ((checking hs (quiet_checkArity _ _ _)).bind fun _ =>
      (arraySort_spec hs hstatic).bind fun _ => Triple.pure fun _ h => h)
  | arrayOpIndexSet =>
    refine leaves (lxArrayOpIndexSet_spec hs hstatic ?_)
    rintro rfl
    exact halone
  | mapInit => exact leaves (lxMapInit_spec.pre hnear)
  | mapDup =>
    exact leaves ((lxMapDup_spec.pre hnear).bind fun _ => Triple.pure fun _ h => h)
  | mapSet => exact leaves (lxMapSet_spec.pre hnear)
  | mapClear => exact leaves (lxMapClear_spec.pre hnear)
  | mapMerge => exact leaves (lxMapMerge_spec.pre hnear)
  | mapMergeWith => exact leaves (lxMapMergeWith_spec.pre hnear)
  | mapDelete => exact leaves (lxMapDelete_spec.pre hnear)
  | mapRehash => exact leaves (lxMapRehash_spec.pre hnear)

end Mutators

/-! ## Runs -/

/-- The native method that a call reaches. -/
def Heap.methodOf (h : Heap) (self : ℕ) (name : String) : Option Native :=
  h.objs[self]?.bind fun o => o.body.methods.lookup name

/-- The operation writes to a block of its object that others may have. -/
def Op.writesInPlace (h : Heap) (k : Kind) : Op → Bool
  | invokes self name args =>
    (h.methodOf self name).any fun m => m.writesInPlace h self args k
  | _ => false

def Op.strays (h : Heap) : Op → Bool
  | invokes self name args => (h.methodOf self name).any fun m => m.strays h self args
  | _ => false

/-- What the operation writes to in place is its own. -/
def Op.Apart (k : Kind) (h : Heap) (op : Op) : Prop :=
  op.writesInPlace h k = true → ∀ r ∈ op.receiver, h.Alone r

instance (k : Kind) (h : Heap) (op : Op) : Decidable (op.Apart k h) := by
  unfold Op.Apart
  infer_instance

section Runs

variable {k : Kind} {r : ℕ} {h h' h₀ : Heap} {env : Env} {op : Op}

theorem callMethod_spec {self : ℕ} {name : String} {args : List Value}
    (hs : Sound k h₀.mem.next h₀.handle)
    (hstatic : ∀ a, h₀.array? self = some a → a.isStatic = false)
    (hapart : (Op.invokes self name args).Apart k h₀) :
    Triple (fun h => h = h₀) (callMethod env self name args) (fun _ => Near k self h₀)
      (Left k self h₀ ((Op.invokes self name args).strays h₀ = true)) := by
  have hnear : ∀ h, h = h₀ → Near k self h₀ h := by
    rintro h rfl
    exact Near.refl hs
  have hget : Triple (fun h => h = h₀) (getObj self) (fun o h => h₀.objs[self]? = some o ∧ h = h₀)
      (Stopped k self h₀) :=
    Triple.look (fun h _ hh ho => ⟨hh ▸ ho, hh⟩) fun h hh _ => ⟨tame_segfault, hnear h hh⟩
  refine (leaves hget).bind fun o => Triple.of_imp (fun _ h => h.1) fun ho => ?_
  refine Triple.pre ?_ fun _ h => h.2
  have hmethod : h₀.methodOf self name = o.body.methods.lookup name := by
    simp [Heap.methodOf, ho]
  split
  · rename_i m hm
    rw [hm] at hmethod
    refine (Native.call_spec hs hstatic fun hw => ?_).weaken (fun _ h => h)
      (fun _ _ h => h) fun e h he => ⟨he.1, fun hw => ?_⟩
    · refine hapart ?_ self rfl
      rw [Op.writesInPlace, hmethod]
      exact hw
    · rw [Op.strays, hmethod]
      exact he.2 hw
  · exact leaves (reading (quiet_throw _) fun _ h => hnear _ h) |>.post fun _ _ => hnear _

/-- Whatever the operation, only its receiver is changed. -/
theorem Op.exec_spec (hs : Sound k h₀.mem.next h₀.handle) (hallowed : op.allowed h₀ = true)
    (hapart : op.Apart k h₀) (hr : op.receiver.all (· == r) = true) :
    Triple (fun h => h = h₀) (op.exec env) (fun _ => Near k r h₀)
      (Left k r h₀ (op.strays h₀ = true)) := by
  have hnear : ∀ h, h = h₀ → Near k r h₀ h := by
    rintro h rfl
    exact Near.refl hs
  cases op with
  | interns chars =>
    exact leaves ((internedString_spec.pre hnear).bind fun _ => Triple.pure fun _ h => h)
  | arrayConstant els =>
    exact leaves ((arrayConstant_spec.pre hnear).bind fun _ => Triple.pure fun _ h => h)
  | opString strLit isStatic =>
    exact leaves ((opString_spec.pre hnear).bind fun _ => Triple.pure fun _ h => h)
  | opDuparray ary =>
    exact leaves ((opDuparray_spec.pre hnear).bind fun _ => Triple.pure fun _ h => h)
  | makes m => exact leaves ((make_spec.pre hnear).bind fun _ => Triple.pure fun _ h => h)
  | constructs body args =>
    exact leaves ((construct_spec.pre hnear).bind fun _ => Triple.pure fun _ h => h.2)
  | invokes self name args =>
    have hself : self = r := by simpa [Op.receiver] using hr
    subst hself
    refine (callMethod_spec hs (fun a ha => ?_) hapart).bind fun _ => Triple.pure fun _ h => h
    simpa [Op.allowed, Op.receiver, ha] using hallowed
  | setsProperty obj propName rval => exact leaves (propertySet_spec.pre hnear)
  | throws err => exact leaves (throwErrorVal_spec.pre hnear)

/-- One operation of a program. -/
theorem step_spec (hs : Sound k h.mem.next h.handle) (hapart : op.Apart k h)
    (hr : op.receiver.all (· == r) = true) (hstep : step h (env, op) = some h') :
    Sound k h'.mem.next h'.handle ∧ (op.strays h = false → Near k r h h') := by
  unfold step at hstep
  split at hstep
  · rename_i hallowed
    have hexec : Triple (fun t => t = h) (op.exec env) _ _ := op.exec_spec hs hallowed hapart hr
    have hpost := hexec h rfl
    split at hstep
    · rename_i heq
      cases hstep
      rw [heq] at hpost
      exact ⟨hpost.sound, fun _ => hpost⟩
    · rename_i heq
      cases hstep
      rw [heq] at hpost
      exact ⟨hpost.1.sound, fun _ => hpost.1⟩
    · rename_i heq
      cases hstep
      rw [heq] at hpost
      refine ⟨hpost.1.sound, fun hstrays => ?_⟩
      simp [hpost.2 rfl] at hstrays
    · cases hstep
    · cases hstep
  · cases hstep

/-- The object whose method is called. -/
def Op.callee : Op → Option ℕ
  | invokes self _ _ => some self
  | _ => none

def Heap.kindOf (h : Heap) (r : ℕ) : Option Kind := (h.handle r).map Handle.kind

/-- A call of a method of an object of kind `k` leaves the others of that kind as they are. -/
def KeepsOthers (k : Kind) (h : Heap) (e : Env × Op) (h' : Heap) : Prop :=
  ∀ self ∈ e.2.callee, h.kindOf self = some k →
    ∀ j < h.objs.length, j ≠ self → h.kindOf j = some k →
      h'.kindOf j = some k ∧ h'.storage j = h.storage j

instance (k : Kind) (h : Heap) (e : Env × Op) (h' : Heap) : Decidable (KeepsOthers k h e h') := by
  unfold KeepsOthers
  exact @Option.decidableForallMem _ _ (fun _ => @instDecidableForall _ _ inferInstance <|
    @Nat.decidableBallLT _ _ fun _ _ =>
      @instDecidableForall _ _ inferInstance instDecidableForall) _

theorem Op.receiver_of_callee {self : ℕ} (hself : self ∈ op.callee) : op.receiver = some self := by
  cases op with
  | invokes s name args => exact hself
  | _ => cases hself

theorem keepsOthers_of_near {e : Env × Op}
    (hnear : ∀ self ∈ e.2.callee, h.kindOf self = some k → Near k self h h') :
    KeepsOthers k h e h' := by
  intro self hself hkind j _ hj hkj
  obtain ⟨g, hg, hgk⟩ := Option.map_eq_some_iff.mp hkj
  obtain ⟨hhandle, hstorage⟩ := (hnear self hself hkind).kept j g hj hg hgk
  exact ⟨by simp [Heap.kindOf, hhandle, hgk], hstorage⟩

/-- A string has no method that goes beyond its buffer. -/
theorem Op.strays_of_string {self : ℕ} (hself : self ∈ op.callee)
    (hkind : h.kindOf self = some .string) : op.strays h = false := by
  cases op with
  | invokes s name args =>
    cases hself
    rw [strays, Heap.methodOf]
    cases ho : h.objs[self]? with
    | none => rfl
    | some o =>
      have hbody : ∃ s, o.body = .string s := by
        cases hb : o.body <;> simp [Heap.kindOf, Heap.handle, ho, hb, Body.handle] at hkind ⊢
      obtain ⟨s, hb⟩ := hbody
      have hnone : ∀ e ∈ stringMethods ++ objectMethods, e.2 ≠ .arrayDeleteAt := by decide
      rw [Option.bind_some, hb]
      cases hm : (Body.string s).methods.lookup name with
      | none => rfl
      | some m =>
        obtain ⟨before, after, hsplit, -⟩ := List.lookup_eq_some_iff.mp hm
        have hmem : (name, m) ∈ stringMethods ++ objectMethods := by
          rw [show stringMethods ++ objectMethods = _ from hsplit]
          simp
        have hne : m ≠ .arrayDeleteAt := hnone _ hmem
        cases m <;> first | rfl | exact absurd rfl hne
  | _ => cases hself

theorem sound_empty : Sound k Heap.empty.mem.next Heap.empty.handle :=
  ⟨fun _ _ _ hg => (nomatch hg), fun _ _ _ _ _ _ hg => (nomatch hg)⟩

/-- In every run in which no `Array#[]=` writes to storage that its array still shares and no
`Array#deleteAt` gets a negative index, a method of an array changes no other array. -/
theorem arrays_independent (es : List (Env × Op))
    (hes : Each step (fun h e _ => e.2.Apart .array h ∧ e.2.strays h = false) Heap.empty es) :
    Each step (KeepsOthers .array) Heap.empty es := by
  refine each_of_each (I := fun h => Sound .array h.mem.next h.handle) ?_ ?_ ?_ hes
  · rintro h ⟨env, op⟩ h' hs ⟨hapart, hstrays⟩ hstep
    refine keepsOthers_of_near fun self hself _ => ?_
    have hr : op.receiver.all (· == self) = true := by simp [op.receiver_of_callee hself]
    exact (step_spec hs hapart hr hstep).2 hstrays
  · rintro h ⟨env, op⟩ h' hs ⟨hapart, -⟩ hstep
    exact (step_spec (r := op.receiver.getD 0) hs hapart (by cases op.receiver <;> simp) hstep).1
  · exact sound_empty

/-- An allocator that moves every block that grows; keys are told apart by what they are. -/
def Env.moving : Env where
  stays _ _ := false
  keyOf
    | .nil => 0
    | .bool b => 1 + b.toNat
    | .number n => 3 + 2 * Encodable.encode n
    | .obj r => 4 + 2 * r
  shown _ := []
  sorted := some
  made := none

/-- The literal `[1, 2]` is evaluated twice; the array of the first time gets a value by `push`,
which copies the storage, and then one by index. -/
theorem arrays_independent_push :
    Each step (KeepsOthers .array) Heap.empty
      [(Env.moving, .arrayConstant [.number 1, .number 2]), (Env.moving, .opDuparray 0),
        (Env.moving, .opDuparray 0), (Env.moving, .invokes 1 "push" [.number 3]),
        (Env.moving, .invokes 1 "opIndexSet" [.number 0, .number 9])] :=
  arrays_independent _ (by decide +kernel)

/-- Without the `push` the value by index goes to the constant and to the array of the second
time as well. -/
theorem opIndexSet_not_independent :
    ¬ ∀ es, Each step (KeepsOthers .array) Heap.empty es := by
  intro h
  have hrun := h [(Env.moving, .arrayConstant [.number 1, .number 2]), (Env.moving, .opDuparray 0),
    (Env.moving, .opDuparray 0), (Env.moving, .invokes 1 "opIndexSet" [.number 0, .number 9])]
  revert hrun
  decide +kernel

/-- In every run in which no `padRight` writes to a buffer that its string shares and no interned
string is written to whose buffer others have, a method of a string changes no other string. -/
theorem strings_independent (es : List (Env × Op))
    (hes : Each step (fun h e _ => e.2.Apart .string h) Heap.empty es) :
    Each step (KeepsOthers .string) Heap.empty es := by
  refine each_of_each (I := fun h => Sound .string h.mem.next h.handle) ?_ ?_ ?_ hes
  · rintro h ⟨env, op⟩ h' hs hapart hstep
    refine keepsOthers_of_near fun self hself hkind => ?_
    have hr : op.receiver.all (· == self) = true := by simp [op.receiver_of_callee hself]
    exact (step_spec hs hapart hr hstep).2 (op.strays_of_string hself hkind)
  · rintro h ⟨env, op⟩ h' hs hapart hstep
    exact (step_spec (r := op.receiver.getD 0) hs hapart (by cases op.receiver <;> simp) hstep).1
  · exact sound_empty

/-- The literal `"ab"` is evaluated twice; the first string gets a byte by `push`, which copies
the buffer, and then one by `padRight`. -/
theorem strings_independent_push :
    Each step (KeepsOthers .string) Heap.empty
      [(Env.moving, .interns [97, 98]), (Env.moving, .opString 0 false),
        (Env.moving, .opString 0 false), (Env.moving, .makes (.string [120])),
        (Env.moving, .invokes 1 "push" [.obj 3]),
        (Env.moving, .invokes 1 "padRight" [.number 4, .obj 3])] :=
  strings_independent _ (by decide +kernel)

/-- Without the `push` the padding goes to the buffer of the literal. -/
theorem padRight_not_independent :
    ¬ ∀ es, Each step (KeepsOthers .string) Heap.empty es := by
  intro h
  have hrun := h [(Env.moving, .interns [97, 98]), (Env.moving, .opString 0 false),
    (Env.moving, .opString 0 false), (Env.moving, .makes (.string [120])),
    (Env.moving, .invokes 1 "padRight" [.number 4, .obj 3])]
  revert hrun
  decide +kernel

end Runs

end Clox.Objects
