import Clox.Vm.ClassHeap

/-! # Well-formed class heaps

Every heap a program can build has finite `CLASS_SUPER` chains, pointers of
the types the lookup macros rely on, and modules without a superclass of
their own.
-/

namespace Clox

namespace Heap

variable {h h' : Heap} {k : ObjId}

/-! ## What the operations do to an object -/

theorem obj_push (o : HeapObj) (k : ObjId) :
    (h.push o).1.obj k = if k = h.objs.length then some o else h.obj k := by
  show (h.objs ++ [o])[k]? = if k = h.objs.length then some o else h.objs[k]?
  rw [List.getElem?_append]
  split
  · rename_i hlt
    rw [if_neg (Nat.ne_of_lt hlt)]
  · rename_i hge
    by_cases hk : k = h.objs.length
    · simp [hk]
    · have hlt : h.objs.length < k := Nat.lt_of_le_of_ne (Nat.le_of_not_lt hge) (Ne.symm hk)
      rw [if_neg hk, List.getElem?_eq_none (Nat.le_of_lt hlt), List.getElem?_eq_none]
      exact Nat.sub_pos_of_lt hlt

theorem obj_modify (f : HeapObj → HeapObj) (j k : ObjId) :
    (h.modify j f).obj k = if j = k then (h.obj k).map f else h.obj k := by
  show (h.objs.modify j f)[k]? = _
  rw [List.getElem?_modify]
  split
  · rfl
  · exact Option.map_id' ..

theorem lt_of_obj {o : HeapObj} (ho : h.obj k = some o) : k < h.objs.length :=
  (List.getElem?_eq_some_iff.mp ho).1

theorem lt_of_typeOf {t : ObjType} (ht : h.typeOf k = some t) : k < h.objs.length := by
  rcases Option.map_eq_some_iff.mp ht with ⟨o, ho, _⟩
  exact lt_of_obj ho

theorem typeOf_push {o : HeapObj} {t : ObjType} (ht : h.typeOf k = some t) :
    (h.push o).1.typeOf k = some t := by
  have hlt := lt_of_typeOf ht
  rw [typeOf, obj_push, if_neg (Nat.ne_of_lt hlt)]
  exact ht

/-! ## Well-formedness -/

/-- An object that can stand in a `CLASS_SUPER` chain. -/
def IsPlace (h : Heap) (k : ObjId) : Prop :=
  h.typeOf k = some .klass ∨ h.typeOf k = some .iclass

/-- The class pointers of an instance are classes. -/
def InstanceOk (h : Heap) (i : ObjInstance) : Prop :=
  h.typeOf i.klass = some .klass ∧ ∀ s, i.singletonKlass = some s → h.typeOf s = some .klass

structure Wf (h : Heap) : Prop where
  chain : ∀ k, ∃ l, Linked h.classSuper (some k) l
  place : ∀ k s, h.classSuper k = some s → h.IsPlace s
  module : ∀ k, h.typeOf k = some .module → h.superclass k = none
  mod : ∀ k m, h.modOf k = some m → h.typeOf m = some .module
  inst : ∀ o i, h.instanceOf o = some i → h.InstanceOk i
  roots : h.typeOf lxModuleClass = some .klass ∧ h.typeOf lxClassClass = some .klass

/-- A step that leaves the links alone keeps the heap well-formed. -/
theorem Wf.of_same (w : h.Wf) (htype : ∀ k, h'.typeOf k = h.typeOf k)
    (hsuper : ∀ k, h'.classSuper k = h.classSuper k)
    (hinfo : ∀ k, h'.superclass k = h.superclass k) (hmod : ∀ k, h'.modOf k = h.modOf k)
    (hinst : ∀ o i, h'.instanceOf o = some i → h'.InstanceOk i) : h'.Wf where
  chain k := by
    have heq : h'.classSuper = h.classSuper := funext hsuper
    rw [heq]
    exact w.chain k
  place k s hs := by
    rw [hsuper] at hs
    simp only [IsPlace, htype]
    exact w.place k s hs
  module k hk := by
    rw [hinfo]
    exact w.module k (htype k ▸ hk)
  mod k m hm := by
    rw [hmod] at hm
    rw [htype]
    exact w.mod k m hm
  inst := hinst
  roots := by
    rw [htype, htype]
    exact w.roots

theorem Wf.push {o : HeapObj} (w : h.Wf) (hsuper : ∀ s, o.super? = some s → h.IsPlace s)
    (hmodule : o.type = .module → o.info?.bind ClassInfo.superclass = none)
    (hmod : ∀ m, o.mod? = some m → h.typeOf m = some .module)
    (hinst : ∀ i, o.inst? = some i → h.InstanceOk i) : (h.push o).1.Wf := by
  have hplace : ∀ s, h.IsPlace s → (h.push o).1.IsPlace s := by
    intro s hs
    exact hs.imp typeOf_push typeOf_push
  have hlt : ∀ s, h.IsPlace s → s ≠ h.objs.length := by
    intro s hs
    exact Nat.ne_of_lt (hs.elim lt_of_typeOf lt_of_typeOf)
  have hok : ∀ i, h.InstanceOk i → (h.push o).1.InstanceOk i := by
    intro i hi
    exact ⟨typeOf_push hi.1, fun s hs => typeOf_push (hi.2 s hs)⟩
  have hold : ∀ k, k ≠ h.objs.length → (h.push o).1.classSuper k = h.classSuper k := by
    intro k hk
    rw [classSuper, obj_push, if_neg hk, classSuper]
  have hnew : (h.push o).1.classSuper h.objs.length = o.super? := by
    rw [classSuper, obj_push, if_pos rfl, Option.bind_some]
  -- no pointer of the old heap leads to the new object
  have hchain : ∀ p l, Linked h.classSuper p l → (∀ a, p = some a → a ≠ h.objs.length) →
      Linked (h.push o).1.classSuper p l := by
    intro p l hl hp
    have hmem := hl.forall_mem hp fun a b hab => hlt b (w.place a b hab)
    exact hl.congr fun a ha => hold a (hmem a ha)
  constructor
  · intro k
    by_cases hk : k = h.objs.length
    · subst hk
      cases hs : o.super? with
      | none => exact ⟨[_], .cons (by rw [hnew, hs]; exact .nil)⟩
      | some s =>
        rcases w.chain s with ⟨l, hl⟩
        have hl' := hchain _ l hl fun a ha => by cases ha; exact hlt s (hsuper s hs)
        exact ⟨_ :: l, .cons (by rw [hnew, hs]; exact hl')⟩
    · rcases w.chain k with ⟨l, hl⟩
      exact ⟨l, hchain _ l hl fun a ha => by cases ha; exact hk⟩
  · intro k s hs
    by_cases hk : k = h.objs.length
    · rw [hk, hnew] at hs
      exact hplace s (hsuper s hs)
    · rw [hold k hk] at hs
      exact hplace s (w.place k s hs)
  · intro k hk
    rw [typeOf, obj_push] at hk
    rw [superclass, obj_push]
    split at hk <;> rename_i hkn
    · rw [if_pos hkn]
      exact hmodule (by simpa using hk)
    · rw [if_neg hkn]
      exact w.module k hk
  · intro k m hm
    rw [modOf, obj_push] at hm
    split at hm
    · exact typeOf_push (hmod m (by simpa using hm))
    · exact typeOf_push (w.mod k m hm)
  · intro k i hi
    rw [instanceOf, obj_push] at hi
    split at hi
    · exact hok i (hinst i (by simpa using hi))
    · exact hok i (w.inst k i hi)
  · exact w.roots.imp typeOf_push typeOf_push

/-! ## The operations -/

theorem Wf.initial : Heap.initial.Wf := by
  have hobj : ∀ k o, Heap.initial.obj k = some o → k = 0 ∨ k = 1 ∨ k = 2 := by
    intro k o ho
    have hlt : k < 3 := lt_of_obj ho
    match k, hlt with
    | 0, _ => exact .inl rfl
    | 1, _ => exact .inr (.inl rfl)
    | 2, _ => exact .inr (.inr rfl)
  have h0 : Linked Heap.initial.classSuper (some 0) [0] := .cons .nil
  constructor
  · intro k
    by_cases hk : k = 0
    · exact ⟨[0], hk ▸ h0⟩
    · by_cases hk' : k = 1 ∨ k = 2
      · have hs : Heap.initial.classSuper k = some 0 := by
          rcases hk' with rfl | rfl <;> rfl
        exact ⟨[k, 0], .cons (hs ▸ h0)⟩
      · have hs : Heap.initial.classSuper k = none := by
          cases ho : Heap.initial.obj k with
          | none => rw [classSuper, ho, Option.bind_none]
          | some o => exact absurd (hobj k o ho) (by simp [hk, hk'])
        exact ⟨[k], .cons (hs ▸ .nil)⟩
  · intro k s hs
    rcases Option.bind_eq_some_iff.mp hs with ⟨o, ho, hos⟩
    rcases hobj k o ho with rfl | rfl | rfl <;> cases ho <;> cases hos <;> exact .inl rfl
  · intro k hk
    rcases Option.map_eq_some_iff.mp hk with ⟨o, ho, hot⟩
    rcases hobj k o ho with rfl | rfl | rfl <;> cases ho <;> cases hot
  · intro k m hm
    rcases Option.bind_eq_some_iff.mp hm with ⟨o, ho, hom⟩
    rcases hobj k o ho with rfl | rfl | rfl <;> cases ho <;> cases hom
  · intro k i hi
    rcases Option.bind_eq_some_iff.mp hi with ⟨o, ho, hoi⟩
    rcases hobj k o ho with rfl | rfl | rfl <;> cases ho <;> cases hoi <;>
      exact ⟨rfl, fun s hs => by cases hs⟩
  · exact ⟨rfl, rfl⟩

/-- Rewriting an object without touching its type and pointers. -/
theorem Wf.modify {f : HeapObj → HeapObj} {j : ObjId} (w : h.Wf)
    (htype : ∀ o, (f o).type = o.type) (hsuper : ∀ o, (f o).super? = o.super?)
    (hinfo : ∀ o, (f o).info?.bind ClassInfo.superclass = o.info?.bind ClassInfo.superclass)
    (hmod : ∀ o, (f o).mod? = o.mod?)
    (hinst : ∀ o i, h.obj j = some o → (f o).inst? = some i → h.InstanceOk i) :
    (h.modify j f).Wf := by
  have htypeOf : ∀ k, (h.modify j f).typeOf k = h.typeOf k := by
    intro k
    rw [typeOf, typeOf, obj_modify]
    split
    · cases h.obj k <;> simp [htype]
    · rfl
  apply w.of_same htypeOf
  · intro k
    rw [classSuper, classSuper, obj_modify]
    split
    · cases h.obj k <;> simp [hsuper]
    · rfl
  · intro k
    rw [superclass, superclass, obj_modify]
    split
    · cases h.obj k <;> simp [hinfo]
    · rfl
  · intro k
    rw [modOf, modOf, obj_modify]
    split
    · cases h.obj k <;> simp [hmod]
    · rfl
  · intro o i hi
    have hok : h.InstanceOk i := by
      rw [instanceOf, obj_modify] at hi
      split at hi <;> rename_i hjo
      · rcases Option.bind_eq_some_iff.mp hi with ⟨o', ho', hi'⟩
        rcases Option.map_eq_some_iff.mp ho' with ⟨o'', ho'', rfl⟩
        exact hinst o'' i (hjo ▸ ho'') hi'
      · exact w.inst o i hi
    simpa only [InstanceOk, htypeOf] using hok

theorem Wf.mapInfo {f : ClassInfo → ClassInfo} {j : ObjId} (w : h.Wf)
    (hf : ∀ info, (f info).superclass = info.superclass) : (h.modify j (.mapInfo f)).Wf := by
  apply w.modify
  · intro o; cases o <;> rfl
  · intro o; cases o <;> simp [HeapObj.mapInfo, HeapObj.super?, hf]
  · intro o; cases o <;> simp [HeapObj.mapInfo, HeapObj.info?, hf]
  · intro o; cases o <;> rfl
  · intro o i ho hi
    apply w.inst j
    rw [instanceOf, ho]
    cases o <;> exact hi

/-- A new `ObjIClass` comes between its class and what the class was linked to. -/
theorem obj_setupIClass {klass mod ic : ObjId} {inst : ObjInstance} {info : ClassInfo}
    (hic : h.obj ic = some (.iclass klass mod none false))
    (ho : h.obj klass = some (.klass inst info)) (k : ObjId) :
    (h.setupIClass ic).obj k =
      if k = ic then some (.iclass klass mod info.superclass true)
      else if k = klass then some (.klass inst { info with superclass := some ic })
      else h.obj k := by
  have hne : klass ≠ ic := by
    rintro rfl
    rw [ho] at hic
    cases hic
  have hsuper : h.superclass klass = info.superclass := by
    rw [superclass, ho]
    rfl
  simp only [Heap.setupIClass, hic, obj_modify, hsuper]
  by_cases hk : ic = k
  · subst hk
    simp [hne, hic]
  · by_cases hk' : klass = k
    · subst hk'
      simp [hk, Ne.symm hk, ho, HeapObj.mapInfo]
    · simp [hk, Ne.symm hk, hk', Ne.symm hk']

/-- Linking a new `ObjIClass` behind its class. -/
theorem Wf.setupIClass {klass mod ic : ObjId} (w : h.Wf)
    (hic : h.obj ic = some (.iclass klass mod none false)) (hklass : h.typeOf klass = some .klass)
    (hmod : h.typeOf mod = some .module) (hfresh : ∀ k, h.classSuper k ≠ some ic) :
    (h.setupIClass ic).Wf := by
  rcases Option.map_eq_some_iff.mp hklass with ⟨o, ho, hot⟩
  cases o with
  | klass inst info =>
    have hne : klass ≠ ic := by
      rintro rfl
      rw [ho] at hic
      cases hic
    have hobj := obj_setupIClass hic ho
    have htype : ∀ k, (h.setupIClass ic).typeOf k = h.typeOf k := by
      intro k
      rw [typeOf, typeOf, hobj]
      by_cases hk : k = ic
      · simp [hk, hic, HeapObj.type]
      · by_cases hk' : k = klass
        · simp [hk', hne, ho, HeapObj.type]
        · simp [hk, hk']
    have hsuperK : h.classSuper klass = info.superclass := by
      rw [classSuper, ho]
      rfl
    have hsuperIc : (h.setupIClass ic).classSuper ic = h.classSuper klass := by
      rw [classSuper, hobj, if_pos rfl, hsuperK]
      rfl
    have hsuperNew : (h.setupIClass ic).classSuper klass = some ic := by
      rw [classSuper, hobj, if_neg hne, if_pos rfl]
      rfl
    have hsuperOther : ∀ k, k ≠ klass → k ≠ ic →
        (h.setupIClass ic).classSuper k = h.classSuper k := by
      intro k hk hk'
      rw [classSuper, hobj, if_neg hk', if_neg hk, classSuper]
    have hsplice : ∀ p l, Linked h.classSuper p l → (∀ a, p = some a → a ≠ ic) →
        ∃ l', Linked (h.setupIClass ic).classSuper p l' := by
      intro p l hl hp
      have hmem := hl.forall_mem hp fun a b hab => by
        rintro rfl
        exact hfresh a hab
      exact hl.splice (fun hi => hmem ic hi rfl) hsuperIc hsuperNew hsuperOther
    constructor
    · intro k
      by_cases hk : k = ic
      · subst hk
        rcases w.chain klass with ⟨l, hl⟩
        cases hl with
        | cons hl =>
          rcases hsplice _ _ hl (fun a ha => by rintro rfl; exact hfresh klass ha) with ⟨l', hl'⟩
          exact ⟨k :: l', .cons (hsuperIc ▸ hl')⟩
      · rcases w.chain k with ⟨l, hl⟩
        exact hsplice _ l hl fun a ha => by cases ha; exact hk
    · intro k s hs
      simp only [IsPlace, htype]
      by_cases hk : k = ic
      · rw [hk, hsuperIc] at hs
        exact w.place klass s hs
      · by_cases hk' : k = klass
        · rw [hk', hsuperNew] at hs
          cases hs
          exact .inr (by rw [typeOf, hic]; rfl)
        · rw [hsuperOther k hk' hk] at hs
          exact w.place k s hs
    · intro k hk
      have hk' := htype k ▸ hk
      rw [superclass, hobj]
      have hnic : k ≠ ic := by
        rintro rfl
        rw [typeOf, hic] at hk'
        cases hk'
      have hnk : k ≠ klass := by
        rintro rfl
        rw [hklass] at hk'
        cases hk'
      rw [if_neg hnic, if_neg hnk]
      exact w.module k hk'
    · intro k m hm
      rw [htype]
      rw [modOf, hobj] at hm
      split at hm
      · cases hm
        exact hmod
      · split at hm
        · cases hm
        · exact w.mod k m hm
    · intro k i hi
      have hok : h.InstanceOk i := by
        rw [instanceOf, hobj] at hi
        split at hi
        · cases hi
        · split at hi <;> rename_i hk
          · exact w.inst klass i (by rw [instanceOf, ho]; exact hi)
          · exact w.inst k i hi
      simpa only [InstanceOk, htype] using hok
    · rw [htype, htype]
      exact w.roots
  | inst | module | iclass => cases hot

theorem Wf.newInstance {klass : ObjId} (w : h.Wf) (hklass : h.typeOf klass = some .klass) :
    (h.newInstance klass).1.Wf := by
  apply w.push
  · intro s hs
    cases hs
  · intro ht
    cases ht
  · intro m hm
    cases hm
  · intro i hi
    cases hi
    exact ⟨hklass, fun s hs => by cases hs⟩

theorem Wf.newClass {super : Option ObjId} (w : h.Wf) (hsuper : ∀ s, super = some s → h.IsPlace s) :
    (h.newClass super).1.Wf := by
  apply w.push
  · exact hsuper
  · intro ht
    cases ht
  · intro m hm
    cases hm
  · intro i hi
    cases hi
    exact ⟨w.roots.2, fun s hs => by cases hs⟩

theorem Wf.newModule (w : h.Wf) : h.newModule.1.Wf := by
  apply w.push
  · intro s hs
    cases hs
  · intro _
    rfl
  · intro m hm
    cases hm
  · intro i hi
    cases hi
    exact ⟨w.roots.1, fun s hs => by cases hs⟩

/-- What `include` leaves behind when the class does not include the module. -/
theorem obj_lxClassInclude {klass mod : ObjId} {inst : ObjInstance} {info : ClassInfo}
    (ho : h.obj klass = some (.klass inst info)) (hmod : mod ∉ info.includedMods) (k : ObjId) :
    (h.lxClassInclude klass mod).obj k =
      if k = h.objs.length then some (.iclass klass mod info.superclass true)
      else if k = klass then
        some (.klass inst { info with
          superclass := some h.objs.length, includedMods := info.includedMods ++ [mod] })
      else h.obj k := by
  have hlt := lt_of_obj ho
  have hmods : (((h.obj klass).bind HeapObj.info?).map ClassInfo.includedMods).getD [] =
      info.includedMods := by
    rw [ho]
    rfl
  simp only [Heap.lxClassInclude, hmods, if_neg hmod]
  generalize hh₁ : h.modify klass _ = h₁
  have hlen : h₁.objs.length = h.objs.length := by
    rw [← hh₁]
    exact List.length_modify ..
  have hobj₂ : ∀ j, (h₁.newIClass klass mod).1.obj j =
      if j = h.objs.length then some (.iclass klass mod none false)
      else if j = klass then
        some (.klass inst { info with includedMods := info.includedMods ++ [mod] })
      else h.obj j := by
    intro j
    rw [newIClass, obj_push, hlen, ← hh₁, obj_modify]
    by_cases hj : klass = j
    · subst hj
      simp [ho, HeapObj.mapInfo]
    · simp [hj, Ne.symm hj]
  have hic : (h₁.newIClass klass mod).1.obj h.objs.length =
      some (.iclass klass mod none false) := by
    rw [hobj₂, if_pos rfl]
  have hklass : (h₁.newIClass klass mod).1.obj klass =
      some (.klass inst { info with includedMods := info.includedMods ++ [mod] }) := by
    rw [hobj₂, if_neg (Nat.ne_of_lt hlt), if_pos rfl]
  have hnew : (h₁.newIClass klass mod).2 = h.objs.length := hlen
  rw [hnew, obj_setupIClass hic hklass, hobj₂]
  split
  · rfl
  · split <;> rfl

theorem Wf.lxClassInclude {klass mod : ObjId} (w : h.Wf) (hklass : h.typeOf klass = some .klass)
    (hmod : h.typeOf mod = some .module) : (h.lxClassInclude klass mod).Wf := by
  unfold Heap.lxClassInclude
  simp only
  split
  · exact w
  · generalize hh₁ : h.modify klass _ = h₁
    have w₁ : h₁.Wf := hh₁ ▸ w.mapInfo fun _ => rfl
    have htype : ∀ k, h₁.typeOf k = h.typeOf k := by
      intro k
      rw [← hh₁, typeOf, typeOf, obj_modify]
      split
      · cases h.obj k with
        | none => rfl
        | some o => cases o <;> rfl
      · rfl
    have hmod₁ : h₁.typeOf mod = some .module := htype mod ▸ hmod
    have hklass₁ : h₁.typeOf klass = some .klass := htype klass ▸ hklass
    have w₂ : (h₁.newIClass klass mod).1.Wf := by
      apply w₁.push
      · intro s hs
        cases hs
      · intro ht
        cases ht
      · intro m hm
        cases hm
        exact hmod₁
      · intro i hi
        cases hi
    refine w₂.setupIClass ((obj_push _ _).trans (if_pos rfl)) (typeOf_push hklass₁)
      (typeOf_push hmod₁) ?_
    intro k hk
    rw [classSuper, newIClass, obj_push] at hk
    split at hk
    · cases hk
    · -- pointers of the heap before lead to objects it had
      have hlt := (w₁.place k _ hk).elim lt_of_typeOf lt_of_typeOf
      exact Nat.lt_irrefl _ hlt

theorem Wf.singletonWith {o : ObjId} {super : Option ObjId} (w : h.Wf)
    (hsuper : ∀ s, super = some s → h.IsPlace s) :
    (h.singletonWith o super).1.Wf := by
  unfold Heap.singletonWith
  cases hi : h.instanceOf o with
  | none => exact w
  | some inst =>
    cases hs : inst.singletonKlass with
    | some s => simpa [hs] using w
    | none =>
      simp only [hs]
      have hok := w.inst o inst hi
      have w₁ : (h.newClass super).1.Wf := w.newClass hsuper
      apply w₁.modify
      · intro o; cases o <;> rfl
      · intro o; cases o <;> rfl
      · intro o; cases o <;> rfl
      · intro o; cases o <;> rfl
      · intro o' i ho' hi'
        have hi₁ : ∀ j, o'.inst? = some j → (h.newClass super).1.InstanceOk j := by
          intro j hj
          exact w₁.inst o j (by rw [instanceOf, ho']; exact hj)
        have hnew : (h.newClass super).1.typeOf h.objs.length = some .klass := by
          rw [typeOf, Heap.newClass, obj_push, if_pos rfl]
          rfl
        cases o' with
        | iclass => cases hi'
        | inst j | klass j | module j =>
          cases hi'
          exact ⟨(hi₁ j rfl).1, fun s hs => by cases hs; exact hnew⟩

theorem Wf.setFunctionKlass {method : Callable} {c : ObjId} (w : h.Wf) :
    (h.setFunctionKlass method c).Wf := by
  cases method with
  | nativeFunction => exact w
  | closure _ f => exact ⟨w.chain, w.place, w.module, w.mod, w.inst, w.roots⟩

theorem Wf.setMethod {mtype : MethodType} {c : ObjId} {name : String} {method : Callable}
    (w : h.Wf) : (h.setMethod mtype c name method).Wf := by
  apply w.mapInfo
  intro info
  cases mtype <;> rfl

theorem Wf.singletonClass {o : ObjId} (w : h.Wf) : (h.singletonClass o).1.Wf := by
  unfold Heap.singletonClass
  split
  · rename_i inst ho
    apply w.singletonWith
    intro s hs
    cases hs
    exact .inl (w.inst o inst (by rw [instanceOf, ho]; rfl)).1
  · rename_i inst info ho
    apply w.singletonWith
    intro s hs
    exact w.place o s (by rw [classSuper, ho]; exact hs)
  · apply w.singletonWith
    intro s hs
    cases hs
    exact .inl w.roots.2
  · exact w

/-- Every heap a program can build is well-formed. -/
theorem Built.wf (b : h.Built) : h.Wf := by
  induction b with
  | initial => exact .initial
  | newInstance _ hklass w => exact w.newInstance hklass
  | newClass _ hsuper w =>
    apply w.newClass
    intro s hs
    cases hs
    exact .inl hsuper
  | newModule _ w => exact w.newModule
  | newFunction ftype _ w => exact ⟨w.chain, w.place, w.module, w.mod, w.inst, w.roots⟩
  | lxClassInclude _ hklass hmod w => exact w.lxClassInclude hklass hmod
  | singletonClass o b w => exact w.singletonClass
  | define mtype c name method _ w => exact w.setFunctionKlass.setMethod
  | defineStaticMethod c name method b w =>
    have w₁ := (w.setFunctionKlass : (Heap.setFunctionKlass _ method c).Wf).singletonClass (o := c)
    unfold Heap.defineStaticMethod
    split <;> rename_i hs
    · rw [hs] at w₁
      exact w₁.setMethod
    · rw [hs] at w₁
      exact w₁

end Heap

end Clox
