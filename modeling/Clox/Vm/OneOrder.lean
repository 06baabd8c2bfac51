import Mathlib.Algebra.Group.Even
import Clox.Vm.Hierarchy

/-! # When all walks follow one order

The links of a heap are what was declared: from a class one comes to the
`ObjIClass`es of its modules, the latest first, and then to what the class was
linked to. Each walk over them is compared with the declared order.
-/

namespace Clox

open Heap

/-! ## The links are as declared -/

structure Models (h : Heap) (H : Hierarchy) : Prop where
  wf : h.Wf
  /-- From a class to the modules it includes and to its base. -/
  segment : ∀ k, h.typeOf k = some .klass → ∃ ics, Leads h.classSuper (h.classSuper k) ics (H.base k) ∧
    ics.map h.modOf = (H.mods k).map some
  included : ∀ k inst info, h.obj k = some (.klass inst info) →
    info.includedMods = (H.mods k).reverse
  /-- A base that is a class is the class derived from. -/
  base_class : ∀ k p, h.typeOf k = some .klass → H.base k = some p → h.typeOf p = some .klass →
    H.superclass k = some p
  base_none : ∀ k, h.typeOf k = some .klass → H.base k = none → H.superclass k = none
  superclass_lt : ∀ k p, h.typeOf k = some .klass → H.superclass k = some p →
    p < k ∧ h.typeOf p = some .klass

section

variable {h h' : Heap} {H : Hierarchy} {k s : ObjId}

/-- A step that creates no class and changes no link. -/
theorem Models.of_same (m : Models h H) (w : h'.Wf) (htype : ∀ k, h'.typeOf k = h.typeOf k)
    (hsuper : ∀ k, h'.classSuper k = h.classSuper k) (hmod : ∀ k, h'.modOf k = h.modOf k)
    (hinfo : ∀ k inst info, h'.obj k = some (.klass inst info) →
      ∃ inst' info', h.obj k = some (.klass inst' info') ∧ info'.includedMods = info.includedMods) :
    Models h' H := by
  have hsuper' : h'.classSuper = h.classSuper := funext hsuper
  have hmod' : h'.modOf = h.modOf := funext hmod
  constructor
  · exact w
  · intro k hk
    rw [hsuper', hmod']
    exact m.segment k (htype k ▸ hk)
  · intro k inst info hk
    rcases hinfo k inst info hk with ⟨inst', info', hk', heq⟩
    rw [← heq]
    exact m.included k inst' info' hk'
  · intro k p hk hp hpk
    exact m.base_class k p (htype k ▸ hk) hp (htype p ▸ hpk)
  · intro k hk
    exact m.base_none k (htype k ▸ hk)
  · intro k p hk hp
    rw [htype p]
    exact m.superclass_lt k p (htype k ▸ hk) hp

theorem Models.base_place (m : Models h H) (hk : h.typeOf k = some .klass) {p : ObjId}
    (hp : H.base k = some p) : h.IsPlace p := by
  rcases m.segment k hk with ⟨ics, hics, _⟩
  rw [hp] at hics
  rcases hics.last with hp | ⟨a, ha⟩
  · exact m.wf.place k p hp
  · exact m.wf.place a p ha

theorem IsPlace.lt {p : ObjId} (hp : h.IsPlace p) : p < h.objs.length :=
  hp.elim lt_of_typeOf lt_of_typeOf

/-- The entries of a chain that stand for modules are `ObjIClass`es. -/
theorem lt_of_modOf {mod : ObjId} (hmod : h.modOf k = some mod) : k < h.objs.length := by
  rw [modOf, Option.bind_eq_some_iff] at hmod
  rcases hmod with ⟨o, ho, _⟩
  exact lt_of_obj ho

/-! ## A new object -/

section

variable {o : HeapObj}

theorem typeOf_push_ne (hk : k ≠ h.objs.length) : (h.push o).1.typeOf k = h.typeOf k := by
  rw [typeOf, typeOf, obj_push, if_neg hk]

theorem classSuper_push_ne (hk : k ≠ h.objs.length) :
    (h.push o).1.classSuper k = h.classSuper k := by
  rw [classSuper, classSuper, obj_push, if_neg hk]

theorem modOf_push_ne (hk : k ≠ h.objs.length) : (h.push o).1.modOf k = h.modOf k := by
  rw [modOf, modOf, obj_push, if_neg hk]

/-- What is declared of the old classes holds of them with the new object. -/
theorem Models.segment_push (m : Models h H) (hk : h.typeOf k = some .klass) :
    ∃ ics, Leads (h.push o).1.classSuper ((h.push o).1.classSuper k) ics (H.base k) ∧
      ics.map (h.push o).1.modOf = (H.mods k).map some := by
  rcases m.segment k hk with ⟨ics, hics, hmods⟩
  have hold : ∀ a ∈ ics, a ≠ h.objs.length := by
    intro a ha
    have hmod : h.modOf a ∈ (H.mods k).map some := hmods ▸ List.mem_map_of_mem ha
    rcases List.mem_map.mp hmod with ⟨mod, _, hmod⟩
    exact Nat.ne_of_lt (lt_of_modOf hmod.symm)
  refine ⟨ics, ?_, ?_⟩
  · rw [classSuper_push_ne (Nat.ne_of_lt (lt_of_typeOf hk))]
    exact hics.congr fun a ha => classSuper_push_ne (hold a ha)
  · rw [← hmods]
    apply List.map_congr_left
    intro a ha
    exact modOf_push_ne (hold a ha)

theorem Models.pushOther (m : Models h H) (w : (h.push o).1.Wf) (ho : o.type ≠ .klass) :
    Models (h.push o).1 H := by
  have hold : ∀ k, (h.push o).1.typeOf k = some .klass → k ≠ h.objs.length := by
    rintro k hk rfl
    rw [typeOf, obj_push, if_pos rfl] at hk
    exact ho (Option.some.inj hk)
  have htype : ∀ k, (h.push o).1.typeOf k = some .klass ↔ h.typeOf k = some .klass := by
    intro k
    constructor
    · intro hk
      rw [← typeOf_push_ne (hold k hk)]
      exact hk
    · exact typeOf_push
  constructor
  · exact w
  · intro k hk
    exact m.segment_push ((htype k).mp hk)
  · intro k inst info hk
    have hk' : (h.push o).1.typeOf k = some .klass := by rw [typeOf, hk]; rfl
    rw [obj_push, if_neg (hold k hk')] at hk
    exact m.included k inst info hk
  · intro k p hk hp hpk
    exact m.base_class k p ((htype k).mp hk) hp ((htype p).mp hpk)
  · intro k hk
    exact m.base_none k ((htype k).mp hk)
  · intro k p hk hp
    rw [htype p]
    exact m.superclass_lt k p ((htype k).mp hk) hp

/-- A new class, linked to its base. -/
theorem Models.pushClass {inst : ObjInstance} {superclass base : Option ObjId} (m : Models h H)
    (w : (h.push (.klass inst { superclass := base })).1.Wf)
    (hplace : ∀ p, base = some p → h.IsPlace p)
    (hbase : ∀ p, base = some p → h.typeOf p = some .klass → superclass = some p)
    (hnone : base = none → superclass = none)
    (hsuper : ∀ p, superclass = some p → h.typeOf p = some .klass) :
    Models (h.push (.klass inst { superclass := base })).1
      (H.declare h.objs.length superclass base) := by
  generalize ho : HeapObj.klass inst { superclass := base } = o at w
  have hnew : (h.push o).1.obj h.objs.length = some o := by rw [obj_push, if_pos rfl]
  have htype : ∀ k, k ≠ h.objs.length → (h.push o).1.typeOf k = some .klass →
      h.typeOf k = some .klass := by
    intro k hk hkt
    rw [← typeOf_push_ne hk]
    exact hkt
  have hpast : ∀ p, h.IsPlace p → (h.push o).1.typeOf p = some .klass →
      h.typeOf p = some .klass :=
    fun p hp => htype p (Nat.ne_of_lt (IsPlace.lt hp))
  constructor
  · exact w
  · intro k hk
    by_cases hkn : k = h.objs.length
    · subst hkn
      refine ⟨[], ?_, ?_⟩
      · have hs : (h.push o).1.classSuper h.objs.length = base := by
          rw [classSuper, hnew, ← ho]
          rfl
        rw [hs]
        simp only [Hierarchy.declare, Function.update_self]
        exact .nil
      · simp only [Hierarchy.declare, Function.update_self]
        rfl
    · simp only [Hierarchy.declare, Function.update_of_ne hkn]
      exact m.segment_push (htype k hkn hk)
  · intro k inst' info hk
    by_cases hkn : k = h.objs.length
    · subst hkn
      rw [hnew, ← ho] at hk
      cases hk
      simp only [Hierarchy.declare, Function.update_self]
      rfl
    · simp only [Hierarchy.declare, Function.update_of_ne hkn]
      rw [obj_push, if_neg hkn] at hk
      exact m.included k inst' info hk
  · intro k p hk hp hpk
    by_cases hkn : k = h.objs.length
    · subst hkn
      simp only [Hierarchy.declare, Function.update_self] at hp ⊢
      exact hbase p hp (hpast p (hplace p hp) hpk)
    · simp only [Hierarchy.declare, Function.update_of_ne hkn] at hp ⊢
      have hk' := htype k hkn hk
      exact m.base_class k p hk' hp (hpast p (m.base_place hk' hp) hpk)
  · intro k hk hp
    by_cases hkn : k = h.objs.length
    · subst hkn
      simp only [Hierarchy.declare, Function.update_self] at hp ⊢
      exact hnone hp
    · simp only [Hierarchy.declare, Function.update_of_ne hkn] at hp ⊢
      exact m.base_none k (htype k hkn hk) hp
  · intro k p hk hp
    by_cases hkn : k = h.objs.length
    · subst hkn
      simp only [Hierarchy.declare, Function.update_self] at hp
      have hpk := hsuper p hp
      exact ⟨lt_of_typeOf hpk, typeOf_push hpk⟩
    · simp only [Hierarchy.declare, Function.update_of_ne hkn] at hp
      have hpk := m.superclass_lt k p (htype k hkn hk) hp
      exact ⟨hpk.1, typeOf_push hpk.2⟩

end

/-! ## The other operations -/

theorem Models.mapObj {f : HeapObj → HeapObj} {j : ObjId} (m : Models h H)
    (w : (h.modify j f).Wf) (htype : ∀ o, (f o).type = o.type)
    (hsuper : ∀ o, (f o).super? = o.super?) (hmod : ∀ o, (f o).mod? = o.mod?)
    (hinfo : ∀ inst info inst' info', f (.klass inst info) = .klass inst' info' →
      info'.includedMods = info.includedMods) : Models (h.modify j f) H := by
  have hobj := obj_modify (h := h) f j
  apply m.of_same w
  · intro k
    rw [typeOf, typeOf, hobj]
    split
    · cases h.obj k with
      | none => rfl
      | some o => exact congrArg some (htype o)
    · rfl
  · intro k
    rw [classSuper, classSuper, hobj]
    split
    · cases h.obj k with
      | none => rfl
      | some o => exact hsuper o
    · rfl
  · intro k
    rw [modOf, modOf, hobj]
    split
    · cases h.obj k with
      | none => rfl
      | some o => exact hmod o
    · rfl
  · intro k inst info hk
    rw [hobj] at hk
    split at hk
    · rcases Option.map_eq_some_iff.mp hk with ⟨o, ho, hfo⟩
      have hot := htype o
      rw [hfo] at hot
      cases o with
      | klass inst' info' => exact ⟨inst', info', ho, (hinfo _ _ _ _ hfo).symm⟩
      | inst | module | iclass => cases hot
    · exact ⟨inst, info, hk, rfl⟩

theorem Models.setMethod {mtype : MethodType} {c : ObjId} {name : String} {method : Callable}
    (m : Models h H) : Models (h.setMethod mtype c name method) H := by
  apply m.mapObj m.wf.setMethod
  · intro o; cases o <;> rfl
  · intro o
    cases o with
    | klass => cases mtype <;> rfl
    | inst | module | iclass => rfl
  · intro o; cases o <;> rfl
  · intro inst info inst' info' heq
    cases mtype <;> cases heq <;> rfl

theorem Models.setFunctionKlass {method : Callable} {c : ObjId} (m : Models h H) :
    Models (h.setFunctionKlass method c) H := by
  cases method with
  | nativeFunction => exact m
  | closure id f =>
    exact m.of_same m.wf.setFunctionKlass (fun _ => rfl) (fun _ => rfl) (fun _ => rfl)
      fun k inst info hk => ⟨inst, info, hk, rfl⟩

/-- The singleton class is created and set. -/
theorem Models.singletonWith {o : ObjId} {inst : ObjInstance} {superclass base : Option ObjId}
    (m : Models h H) (w : (h.singletonWith o base).1.Wf) (hinst : h.instanceOf o = some inst)
    (hnone : inst.singletonKlass = none) (hplace : ∀ p, base = some p → h.IsPlace p)
    (hbase : ∀ p, base = some p → h.typeOf p = some .klass → superclass = some p)
    (hbase_none : base = none → superclass = none)
    (hsuper : ∀ p, superclass = some p → h.typeOf p = some .klass) :
    Models (h.singletonWith o base).1 (H.declare h.objs.length superclass base) := by
  have heq : (h.singletonWith o base).1 = (h.newClass base).1.modify o
      (.mapInst fun i => { i with singletonKlass := some h.objs.length }) := by
    rw [Heap.singletonWith, hinst]
    simp only [hnone]
    rfl
  rw [heq] at w ⊢
  apply (m.pushClass (m.wf.newClass hplace) hplace hbase hbase_none hsuper).mapObj w
  · intro o; cases o <;> rfl
  · intro o; cases o <;> rfl
  · intro o; cases o <;> rfl
  · intro inst info inst' info' hf
    cases hf
    rfl

theorem Models.singletonClass {o : ObjId} (m : Models h H) :
    Models (h.singletonClass o).1 (H.singleton h o) := by
  have w := m.wf.singletonClass (o := o)
  -- an object that has a singleton class keeps it
  have hkeep : ∀ inst base, h.instanceOf o = some inst → inst.singletonKlass.isSome →
      (h.singletonWith o base).1 = h := by
    intro inst base hinst hsome
    rcases Option.isSome_iff_exists.mp hsome with ⟨s, hs⟩
    rw [Heap.singletonWith, hinst]
    simp only [hs]
  unfold Heap.singletonClass at w ⊢
  unfold Hierarchy.singleton
  cases ho : h.obj o with
  | none => exact m
  | some ob =>
    have hinst : h.instanceOf o = ob.inst? := by rw [instanceOf, ho]; rfl
    rw [ho] at w
    cases ob with
    | inst i =>
      rcases i with ⟨klass, _ | s⟩
      · have hklass := (m.wf.inst o _ hinst).1
        refine m.singletonWith w hinst rfl (fun p hp => ?_) (fun p hp _ => hp)
          (fun hp => by cases hp) (fun p hp => ?_)
        · cases hp
          exact .inl hklass
        · cases hp
          exact hklass
      · dsimp only
        rw [hkeep _ _ hinst rfl]
        exact m
    | klass i info =>
      rcases i with ⟨klass, _ | s⟩
      · have hclass : h.typeOf o = some .klass := by rw [typeOf, ho]; rfl
        have hsuper : h.classSuper o = info.superclass := by rw [classSuper, ho]; rfl
        rcases m.segment o hclass with ⟨ics, hics, hmods⟩
        rw [hsuper] at hics
        refine m.singletonWith w hinst rfl (fun p hp => m.wf.place o p (hsuper.trans hp))
          (fun p hp hpk => ?_) (fun hp => ?_) fun p hp => (m.superclass_lt o p hclass hp).2
        · rw [hp] at hics
          generalize hq : H.base o = q at hics
          cases hics with
          | nil => exact m.base_class o p hclass hq hpk
          | @cons a l q hl =>
            -- a class is no entry for a module
            have hmod : h.modOf p ∈ (H.mods o).map some := hmods ▸ List.mem_cons_self
            rcases List.mem_map.mp hmod with ⟨mod, _, hmod⟩
            rcases Option.bind_eq_some_iff.mp hmod.symm with ⟨op, hop, hopm⟩
            rw [typeOf, hop] at hpk
            cases op with
            | iclass => cases hpk
            | inst | klass | module => cases hopm
        · rw [hp] at hics
          generalize hq : H.base o = q at hics
          cases hics
          exact m.base_none o hclass hq
      · dsimp only
        rw [hkeep _ _ hinst rfl]
        exact m
    | module i info =>
      rcases i with ⟨klass, _ | s⟩
      · refine m.singletonWith w hinst rfl (fun p hp => ?_) (fun p hp _ => hp)
          (fun hp => by cases hp) (fun p hp => ?_)
        · cases hp
          exact .inl m.wf.roots.2
        · cases hp
          exact m.wf.roots.2
      · dsimp only
        rw [hkeep _ _ hinst rfl]
        exact m
    | iclass => exact m

/-- A module is included in a class that does not include it. -/
theorem Models.lxClassInclude {klass mod : ObjId} (m : Models h H)
    (hklass : h.typeOf klass = some .klass) (hmod : h.typeOf mod = some .module) :
    Models (h.lxClassInclude klass mod) (H.includeMod klass mod) := by
  have w := m.wf.lxClassInclude hklass hmod
  rcases Option.map_eq_some_iff.mp hklass with ⟨o, ho, hot⟩
  cases o with
  | inst | module | iclass => cases hot
  | klass inst info =>
    have hincluded := m.included klass inst info ho
    by_cases hmem : mod ∈ H.mods klass
    · have hsame : h.lxClassInclude klass mod = h := by
        have hmem' : mod ∈ info.includedMods := by
          rw [hincluded]
          exact List.mem_reverse.mpr hmem
        simp [Heap.lxClassInclude, ho, HeapObj.info?, hmem']
      rw [hsame, Hierarchy.includeMod, if_pos hmem]
      exact m
    · have hmem' : mod ∉ info.includedMods := by
        rw [hincluded]
        exact fun hmem' => hmem (List.mem_reverse.mp hmem')
      have hobj := obj_lxClassInclude ho hmem'
      rw [Hierarchy.includeMod, if_neg hmem]
      have hlt := lt_of_obj ho
      have hne : klass ≠ h.objs.length := Nat.ne_of_lt hlt
      have htype : ∀ k, (h.lxClassInclude klass mod).typeOf k = some .klass ↔
          h.typeOf k = some .klass := by
        intro k
        rw [typeOf, hobj]
        by_cases hk : k = h.objs.length
        · subst hk
          rw [if_pos rfl]
          constructor
          · intro hic
            cases hic
          · intro hold
            exact absurd (lt_of_typeOf hold) (Nat.lt_irrefl _)
        · rw [if_neg hk]
          by_cases hk' : k = klass
          · subst hk'
            rw [if_pos rfl]
            exact iff_of_true rfl hklass
          · rw [if_neg hk']
            rfl
      have hsuper : ∀ a, a ≠ h.objs.length → a ≠ klass →
          (h.lxClassInclude klass mod).classSuper a = h.classSuper a := by
        intro a ha ha'
        rw [classSuper, classSuper, hobj, if_neg ha, if_neg ha']
      have hmodOf : ∀ a, a ≠ h.objs.length → a ≠ klass →
          (h.lxClassInclude klass mod).modOf a = h.modOf a := by
        intro a ha ha'
        rw [modOf, modOf, hobj, if_neg ha, if_neg ha']
      -- the entries for the modules a class includes are neither the new one nor a class
      have hics : ∀ (k : ObjId) (ics : List ObjId), ics.map h.modOf = (H.mods k).map some →
          ∀ a ∈ ics, a ≠ h.objs.length ∧ a ≠ klass := by
        intro k ics hmods a ha
        have hmod : h.modOf a ∈ (H.mods k).map some := hmods ▸ List.mem_map_of_mem ha
        rcases List.mem_map.mp hmod with ⟨m', _, hm'⟩
        refine ⟨Nat.ne_of_lt (lt_of_modOf hm'.symm), ?_⟩
        rintro rfl
        rw [modOf, ho] at hm'
        cases hm'
      have hsegment : ∀ k, h.typeOf k = some .klass → ∃ ics,
          Leads (h.lxClassInclude klass mod).classSuper (h.classSuper k) ics (H.base k) ∧
            ics.map (h.lxClassInclude klass mod).modOf = (H.mods k).map some := by
        intro k hk
        rcases m.segment k hk with ⟨ics, hleads, hmods⟩
        refine ⟨ics, hleads.congr fun a ha => ?_, ?_⟩
        · exact hsuper a (hics k ics hmods a ha).1 (hics k ics hmods a ha).2
        · rw [← hmods]
          apply List.map_congr_left
          intro a ha
          exact hmodOf a (hics k ics hmods a ha).1 (hics k ics hmods a ha).2
      constructor
      · exact w
      · intro k hk
        rcases hsegment k ((htype k).mp hk) with ⟨ics, hleads, hmods⟩
        by_cases hk' : k = klass
        · subst hk'
          have hnew : (h.lxClassInclude k mod).classSuper k = some h.objs.length := by
            rw [classSuper, hobj, if_neg hne, if_pos rfl]
            rfl
          have hic : (h.lxClassInclude k mod).classSuper h.objs.length = h.classSuper k := by
            rw [classSuper, classSuper, hobj, if_pos rfl, ho]
            rfl
          have hmodIc : (h.lxClassInclude k mod).modOf h.objs.length = some mod := by
            rw [modOf, hobj, if_pos rfl]
            rfl
          refine ⟨h.objs.length :: ics, ?_, ?_⟩
          · rw [hnew]
            exact .cons (hic ▸ hleads)
          · simp only [Function.update_self, List.map_cons, hmodIc, hmods]
        · refine ⟨ics, ?_, ?_⟩
          · rw [hsuper k (Nat.ne_of_lt (lt_of_typeOf ((htype k).mp hk))) hk']
            exact hleads
          · simp only [Function.update_of_ne hk', hmods]
      · intro k inst' info' hk
        rw [hobj] at hk
        split at hk
        · cases hk
        · split at hk <;> rename_i hk'
          · subst hk'
            cases hk
            simp only [Function.update_self, List.reverse_cons, hincluded]
          · simp only [Function.update_of_ne hk']
            exact m.included k inst' info' hk
      · intro k p hk hp hpk
        exact m.base_class k p ((htype k).mp hk) hp ((htype p).mp hpk)
      · intro k hk
        exact m.base_none k ((htype k).mp hk)
      · intro k p hk hp
        rw [htype p]
        exact m.superclass_lt k p ((htype k).mp hk) hp

end

theorem Models.initial : Models Heap.initial Hierarchy.initial := by
  have hobj : ∀ k o, Heap.initial.obj k = some o →
      ∃ base, o = .klass ⟨lxClassClass, none⟩ { superclass := base } ∧
        base = Hierarchy.initial.base k := by
    intro k o ho
    have hlt : k < 3 := lt_of_obj ho
    match k, hlt with
    | 0, _ | 1, _ | 2, _ =>
      cases ho
      exact ⟨_, rfl, rfl⟩
  have hbase : ∀ k, Hierarchy.initial.base k = Hierarchy.initial.superclass k := fun _ => rfl
  constructor
  · exact .initial
  · intro k hk
    rcases Option.map_eq_some_iff.mp hk with ⟨o, ho, _⟩
    rcases hobj k o ho with ⟨base, rfl, rfl⟩
    refine ⟨[], ?_, rfl⟩
    have hsuper : Heap.initial.classSuper k = Hierarchy.initial.base k := by
      rw [classSuper, ho]
      rfl
    rw [hsuper]
    exact .nil
  · intro k inst info hk
    rcases hobj k _ hk with ⟨base, heq, _⟩
    cases heq
    rfl
  · intro k p _ hp _
    exact hp
  · intro k _ hp
    exact hp
  · intro k p _ hp
    simp only [Hierarchy.initial] at hp
    split at hp <;> rename_i hk
    · cases hp
      rcases hk with rfl | rfl
      · exact ⟨Nat.zero_lt_one, rfl⟩
      · exact ⟨Nat.zero_lt_two, rfl⟩
    · cases hp

/-- The links of a heap are what was declared. -/
theorem Declares.models {h : Heap} {H : Hierarchy} (d : Declares h H) : Models h H := by
  induction d with
  | initial => exact .initial
  | newInstance _ hklass m =>
    apply m.pushOther (m.wf.newInstance hklass)
    intro ht
    cases ht
  | newClass _ hsuper m =>
    have hplace : ∀ {h : Heap} {s : ObjId}, h.typeOf s = some .klass →
        ∀ p, some s = some p → h.typeOf p = some .klass := by
      intro h s hs p hp
      cases hp
      exact hs
    exact m.pushClass (m.wf.newClass fun p hp => .inl (hplace hsuper p hp))
      (fun p hp => .inl (hplace hsuper p hp)) (fun p hp _ => hp) (fun hp => hp) (hplace hsuper)
  | newModule _ m =>
    apply m.pushOther m.wf.newModule
    intro ht
    cases ht
  | newFunction ftype _ m =>
    exact m.of_same ⟨m.wf.chain, m.wf.place, m.wf.module, m.wf.mod, m.wf.inst, m.wf.roots⟩
      (fun _ => rfl) (fun _ => rfl) (fun _ => rfl) fun k inst info hk => ⟨inst, info, hk, rfl⟩
  | lxClassInclude _ hklass hmod m => exact m.lxClassInclude hklass hmod
  | singletonClass o _ m => exact m.singletonClass
  | define mtype c name method _ m => exact m.setFunctionKlass.setMethod
  | @defineStaticMethod h H c name method _ m =>
    have m₁ := (m.setFunctionKlass : Models (h.setFunctionKlass method c) H).singletonClass (o := c)
    have hsame : H.singleton (h.setFunctionKlass method c) c = H.singleton h c := by
      cases method <;> rfl
    rw [hsame] at m₁
    unfold Heap.defineStaticMethod
    split <;> rename_i hs
    · rw [hs] at m₁
      exact m₁.setMethod
    · rw [hs] at m₁
      exact m₁

/-! ## Walking along the links -/

section

variable {h : Heap} {H : Hierarchy} {inst : ObjInstance} {k : ObjId} {l order : List ObjId}

theorem Models.mods_module (m : Models h H) (hk : h.typeOf k = some .klass) :
    ∀ mod ∈ H.mods k, h.typeOf mod = some .module := by
  intro mod hmod
  rcases m.segment k hk with ⟨ics, _, hmods⟩
  have hmem : some mod ∈ ics.map h.modOf := hmods ▸ List.mem_map_of_mem hmod
  rcases List.mem_map.mp hmem with ⟨ic, _, hic⟩
  exact m.wf.mod ic mod hic

/-- A class stands for itself, and no other entry does. -/
theorem entry_eq_class (w : h.Wf) {a : ObjId} (hk : h.typeOf k = some .klass)
    (ha : h.entry a = k) : a = k := by
  cases hmod : h.modOf a with
  | none => simpa [entry, hmod] using ha
  | some mod =>
    have hm := w.mod a mod hmod
    simp only [entry, hmod, Option.getD_some] at ha
    rw [ha, hk] at hm
    cases hm

theorem entry_class (hk : h.typeOf k = some .klass) : h.entry k = k := by
  rcases Option.map_eq_some_iff.mp hk with ⟨o, ho, hot⟩
  cases o with
  | klass => simp [entry, modOf, ho, HeapObj.mod?]
  | inst | module | iclass => cases hot

/-- The definitions of an entry are those of what it stands for. -/
theorem definition_entry (w : h.Wf) (mtype : MethodType) (name : String) (a : ObjId) :
    h.definition mtype name (h.entry a) = h.definition mtype name a := by
  cases hmod : h.modOf a with
  | none => simp [entry, hmod]
  | some mod =>
    have hm := w.mod a mod hmod
    rcases Option.map_eq_some_iff.mp hm with ⟨o, ho, hot⟩
    have hnone : h.modOf mod = none := by
      rw [modOf, ho]
      cases o with
      | module => rfl
      | inst | klass | iclass => cases hot
    simp [entry, hmod, definition, classTbl, hnone]

/-- From a class one meets its modules and then what it is linked to. -/
theorem Models.linked_class (m : Models h H) (hk : h.typeOf k = some .klass)
    (hl : Linked h.classSuper (some k) l) :
    ∃ ics rest, l = k :: (ics ++ rest) ∧ Linked h.classSuper (H.base k) rest ∧
      ics.map h.modOf = (H.mods k).map some ∧ ics.map h.entry = H.mods k := by
  rcases m.segment k hk with ⟨ics, hics, hmods⟩
  have hrest : ∃ rest, Linked h.classSuper (H.base k) rest := by
    cases hb : H.base k with
    | none => exact ⟨[], .nil⟩
    | some p => exact m.wf.chain p
  rcases hrest with ⟨rest, hrest⟩
  refine ⟨ics, rest, hl.unique (.cons (hics.linked hrest)), hrest, hmods, ?_⟩
  apply List.map_injective_iff.mpr (Option.some_injective _)
  rw [← hmods, List.map_map]
  apply List.map_congr_left
  intro a ha
  have hmem : h.modOf a ∈ (H.mods k).map some := hmods ▸ List.mem_map_of_mem ha
  rcases List.mem_map.mp hmem with ⟨mod, _, hmod⟩
  simp [entry, ← hmod]

/-- The walk from a class is the order exactly when the classes are linked to the classes they are
derived from. -/
theorem Models.entries_eq_iff (m : Models h H) {p : Option ObjId} (hord : H.ClassOrder p order)
    (hp : ∀ k, p = some k → h.typeOf k = some .klass) (hl : Linked h.classSuper p l) :
    l.map h.entry = order ↔
      ∀ k ∈ order, h.typeOf k = some .klass → H.base k = H.superclass k := by
  induction hord generalizing l with
  | nil =>
    cases hl
    simp
  | @cons k order hord ih =>
    have hk := hp k rfl
    rcases m.linked_class hk hl with ⟨ics, rest, rfl, hrest, _, hentries⟩
    have hsuper : ∀ p, H.superclass k = some p → h.typeOf p = some .klass :=
      fun p hp => (m.superclass_lt k p hk hp).2
    have hmodules : ∀ c ∈ H.mods k, h.typeOf c ≠ some .klass := by
      intro c hc heq
      rw [m.mods_module hk c hc] at heq
      cases heq
    rw [List.map_cons, entry_class hk, List.map_append, hentries]
    constructor
    · intro heq
      have hrest_eq : rest.map h.entry = order :=
        List.append_cancel_left (List.cons_injective heq)
      -- the next class of the order is the base
      have hbase : H.base k = H.superclass k := by
        cases hs : H.superclass k with
        | none =>
          rw [hs] at hord
          cases hord
          cases hb : H.base k with
          | none => rfl
          | some b =>
            rw [hb] at hrest
            cases hrest
            cases hrest_eq
        | some p =>
          rw [hs] at hord
          cases hord
          cases hb : H.base k with
          | none =>
            rw [hb] at hrest
            cases hrest
            cases hrest_eq
          | some b =>
            rw [hb] at hrest
            cases hrest
            rw [List.map_cons, List.cons.injEq] at hrest_eq
            rw [entry_eq_class m.wf (hsuper p hs) hrest_eq.1]
      intro c hc hct
      rcases List.mem_cons.mp hc with rfl | hc
      · exact hbase
      · rcases List.mem_append.mp hc with hc | hc
        · exact absurd hct (hmodules c hc)
        · exact (ih hsuper (hbase ▸ hrest)).mp hrest_eq c hc hct
    · intro hall
      have hbase := hall k List.mem_cons_self hk
      rw [hbase] at hrest
      rw [(ih hsuper hrest).mpr fun c hc => hall c
        (List.mem_cons_of_mem _ (List.mem_append_right _ hc))]

/-- There is an order for each class. -/
theorem Models.exists_classOrder (m : Models h H) (hk : h.typeOf k = some .klass) :
    ∃ order, H.ClassOrder (some k) order := by
  induction k using Nat.strong_induction_on with
  | _ k ih =>
    cases hs : H.superclass k with
    | none =>
      have hord : H.ClassOrder (H.superclass k) [] := by
        rw [hs]
        exact .nil
      exact ⟨_, .cons hord⟩
    | some p =>
      rcases m.superclass_lt k p hk hs with ⟨hlt, hp⟩
      rcases ih p hlt hp with ⟨order, hord⟩
      rw [← hs] at hord
      exact ⟨_, .cons hord⟩

/-! ## What the walks answer -/

theorem typeOf_entry (w : h.Wf) (a : ObjId) :
    h.typeOf (h.entry a) = some .klass ↔ h.typeOf a = some .klass := by
  constructor
  · intro ha
    rw [entry_eq_class w ha rfl]
    exact ha
  · intro ha
    rw [entry_class ha]
    exact ha

/-- The part of the walk behind a class. -/
theorem split_at_class (w : h.Wf) {before above : List ObjId} (hk : h.typeOf k = some .klass)
    {p : Option ObjId} (hl : Linked h.classSuper p l)
    (heq : l.map h.entry = before ++ k :: above) :
    ∃ l', Linked h.classSuper (h.classSuper k) l' ∧ l'.map h.entry = above := by
  rcases List.map_eq_append_iff.mp heq with ⟨l₁, l₂, rfl, _, h₂⟩
  rcases List.map_eq_cons_iff.mp h₂ with ⟨a, l₃, rfl, ha, h₃⟩
  have hak := entry_eq_class w hk ha
  subst hak
  exact ⟨l₃, hl.rest_next, h₃⟩

theorem Returns.search (w : h.Wf) {next : ObjId → Option ObjId} {p : Option ObjId}
    (hl : Linked next p l) (mtype : MethodType) (name : String) :
    Returns (fun fuel => Linked.search next (h.definition mtype name) fuel p)
      ((l.map h.entry).findSome? (h.definition mtype name)) := by
  refine ⟨l.length, fun fuel hfuel => ?_⟩
  dsimp only
  rw [hl.search_eq hfuel, List.findSome?_map]
  congr 2
  funext a
  exact (definition_entry w mtype name a).symm

theorem Returns.ancestors {p : Option ObjId} (hl : Linked h.classSuper p l)
    (hplace : ∀ a ∈ l, h.IsPlace a) :
    Returns (h.lxClassAncestors · p) (.ok (l.map h.entry)) := by
  refine ⟨l.length, fun fuel hfuel => ?_⟩
  induction hl generalizing fuel with
  | nil => cases fuel <;> rfl
  | @cons a l _ ih =>
    cases fuel with
    | zero => simp at hfuel
    | succ fuel =>
      have hrest := ih (fun b hb => hplace b (List.mem_cons_of_mem _ hb)) fuel (by simpa using hfuel)
      dsimp only at hrest ⊢
      rw [lxClassAncestors]
      rcases hplace a List.mem_cons_self with ha | ha
      · rw [ha, hrest, List.map_cons, entry_class ha]
        rfl
      · rcases Option.map_eq_some_iff.mp ha with ⟨o, ho, hot⟩
        cases o with
        | iclass klass mod s b =>
          have hmod : h.modOf a = some mod := by rw [modOf, ho]; rfl
          rw [ha, hmod, hrest, List.map_cons, entry, hmod]
          rfl
        | inst | klass | module => cases hot

theorem Returns.isA (hl : Linked h.classSuper (some k) l) (test : ObjId) :
    Returns (h.lxClassIsA · k test) (decide (test ∈ l)) := by
  refine ⟨l.length, fun fuel hfuel => ?_⟩
  dsimp only
  rw [lxClassIsA, hl.search_eq hfuel, Option.map_some, Option.some.injEq, Bool.eq_iff_iff,
    decide_eq_true_eq, List.findSome?_isSome_iff]
  constructor
  · rintro ⟨a, ha, hsome⟩
    split at hsome <;> rename_i heq
    · exact heq ▸ ha
    · cases hsome
  · intro htest
    exact ⟨test, htest, by simp⟩

/-- A class of the walk is in the order. -/
theorem mem_entries_iff (w : h.Wf) (hk : h.typeOf k = some .klass) :
    k ∈ l.map h.entry ↔ k ∈ l := by
  rw [List.mem_map]
  constructor
  · rintro ⟨a, ha, heq⟩
    exact entry_eq_class w hk heq ▸ ha
  · intro hmem
    exact ⟨k, hmem, entry_class hk⟩

theorem find?_entries (w : h.Wf) : (l.map h.entry).find? (h.typeOf · = some .klass) =
    l.find? (h.typeOf · = some .klass) := by
  induction l with
  | nil => rfl
  | cons a l ih =>
    rw [List.map_cons, List.find?_cons, List.find?_cons, ih]
    by_cases ha : h.typeOf a = some .klass
    · simp [entry_class ha, ha]
    · simp [typeOf_entry w, ha]

/-! ### `superClass` -/

/-- What `superClass` answers when the walk behind the class meets these entries: it looks at every
second one. -/
def superclassAmong (h : Heap) : List ObjId → Except Abort (Option ObjId)
  | [] => .ok none
  | a :: l =>
    if h.typeOf a = some .klass then .ok (some a)
    else
      match l with
      | [] => .error .nullDeref
      | _ :: l => superclassAmong h l

theorem superclassAmong_class {a : ObjId} (ha : h.typeOf a = some .klass) :
    superclassAmong h (a :: l) = .ok (some a) := by
  cases l <;> simp [superclassAmong, ha]

theorem Returns.superclass (hl : Linked h.classSuper (h.classSuper k) l) :
    Returns (h.lxClassGetSuperclass · k) (superclassAmong h l) := by
  suffices hfuel : ∀ fuel, l.length + 1 ≤ fuel →
      h.lxClassGetSuperclass fuel k = some (superclassAmong h l) from ⟨l.length + 1, hfuel⟩
  intro fuel hfuel
  induction l using superclassAmong.induct h generalizing k fuel with
  | case1 =>
    cases fuel with
    | zero => simp at hfuel
    | succ fuel =>
      generalize hs : h.classSuper k = s at hl
      cases hl
      rw [lxClassGetSuperclass, hs]
      rfl
  | case2 a l ha =>
    cases fuel with
    | zero => simp at hfuel
    | succ fuel =>
      generalize hs : h.classSuper k = s at hl
      cases hl
      rw [lxClassGetSuperclass, hs, superclassAmong_class ha]
      simp only [ha, if_true]
  | case3 a ha =>
    cases fuel with
    | zero => simp at hfuel
    | succ fuel =>
      generalize hs : h.classSuper k = s at hl
      cases hl with
      | cons hl =>
        generalize hs' : h.classSuper a = s' at hl
        cases hl
        rw [lxClassGetSuperclass, hs, superclassAmong]
        simp only [ha, if_false, hs']
  | case4 a ha b l ih =>
    cases fuel with
    | zero => simp at hfuel
    | succ fuel =>
      generalize hs : h.classSuper k = s at hl
      cases hl with
      | cons hl =>
        generalize hs' : h.classSuper a = s' at hl
        cases hl with
        | cons hl =>
          rw [lxClassGetSuperclass, hs, superclassAmong]
          simp only [ha, if_false, hs']
          apply ih hl
          simp only [List.length_cons] at hfuel
          omega

theorem superclassAmong_mem {q : ObjId} (hq : superclassAmong h l = .ok (some q)) : q ∈ l := by
  induction l using superclassAmong.induct h with
  | case1 => cases hq
  | case2 a l ha =>
    rw [superclassAmong_class ha] at hq
    cases hq
    exact List.mem_cons_self
  | case3 a ha =>
    rw [superclassAmong, if_neg ha] at hq
    cases hq
  | case4 a ha b l ih =>
    rw [superclassAmong, if_neg ha] at hq
    exact List.mem_cons_of_mem _ (List.mem_cons_of_mem _ (ih hq))

/-- Behind the entries of an even number of modules the class is found, behind an odd number it is
stepped over. -/
theorem superclassAmong_append_iff {rest : List ObjId} (hnodup : rest.Nodup)
    (hrest : ∀ p, rest.head? = some p → h.typeOf p = some .klass) :
    ∀ ics : List ObjId, (∀ a ∈ ics, h.typeOf a ≠ some .klass) →
      (superclassAmong h (ics ++ rest) = .ok rest.head? ↔ Even ics.length)
  | [], _ => by
    refine iff_of_true ?_ Even.zero
    cases rest with
    | nil => rfl
    | cons p rest =>
      rw [List.nil_append, superclassAmong_class (hrest p rfl)]
      rfl
  | [a], hics => by
    refine iff_of_false ?_ Nat.not_even_one
    intro heq
    have ha := hics a List.mem_cons_self
    cases rest with
    | nil =>
      rw [List.append_nil, superclassAmong, if_neg ha] at heq
      cases heq
    | cons p rest =>
      rw [List.singleton_append, superclassAmong, if_neg ha] at heq
      exact (List.nodup_cons.mp hnodup).1 (superclassAmong_mem heq)
  | a :: b :: ics, hics => by
    have ha := hics a List.mem_cons_self
    have hics' : ∀ c ∈ ics, h.typeOf c ≠ some .klass :=
      fun c hc => hics c (List.mem_cons_of_mem _ (List.mem_cons_of_mem _ hc))
    rw [List.cons_append, List.cons_append, superclassAmong, if_neg ha,
      superclassAmong_append_iff hnodup hrest ics hics', List.length_cons, List.length_cons,
      Nat.even_add_one, Nat.even_add_one, not_not]

theorem Returns.unique {α : Type} {loop : ℕ → Option α} {r r' : α} (h₁ : Returns loop r)
    (h₂ : Returns loop r') : r = r' := by
  rcases h₁ with ⟨n, hn⟩
  rcases h₂ with ⟨n', hn'⟩
  exact Option.some.inj ((hn (max n n') (Nat.le_max_left ..)).symm.trans
    (hn' (max n n') (Nat.le_max_right ..)))

/-- `superClass` finds the next class of the walk exactly when the class includes an even number of
modules. -/
theorem Models.superclass_iff (m : Models h H) (hk : h.typeOf k = some .klass)
    (hbase : H.base k = H.superclass k) (hl : Linked h.classSuper (h.classSuper k) l) :
    superclassAmong h l = .ok (l.find? (h.typeOf · = some .klass)) ↔ Even (H.mods k).length := by
  rcases m.linked_class hk (.cons hl) with ⟨ics, rest, heq, hrest, hmods, _⟩
  cases heq
  have hlen : (H.mods k).length = ics.length := by
    have hlen := congrArg List.length hmods
    simpa using hlen.symm
  have hics : ∀ a ∈ ics, h.typeOf a ≠ some .klass := by
    intro a ha hclass
    have hmem : h.modOf a ∈ (H.mods k).map some := hmods ▸ List.mem_map_of_mem ha
    rcases List.mem_map.mp hmem with ⟨mod, hmod, heq⟩
    have hmodule := m.mods_module hk mod hmod
    have hentry : h.entry a = mod := by simp [entry, ← heq]
    rw [← entry_class hclass, hentry, hmodule] at hclass
    cases hclass
  have hhead : ∀ p, rest.head? = some p → h.typeOf p = some .klass := by
    intro p hp
    cases hs : H.superclass k with
    | none =>
      rw [hbase, hs] at hrest
      cases hrest
      cases hp
    | some p' =>
      rw [hbase, hs] at hrest
      cases hrest
      cases hp
      exact (m.superclass_lt k p hk hs).2
  have hfind : (ics ++ rest).find? (h.typeOf · = some .klass) = rest.head? := by
    rw [List.find?_append, List.find?_eq_none.mpr (by simpa using hics), Option.none_or]
    cases rest with
    | nil => rfl
    | cons p rest => simp [hhead p rfl]
  rw [hfind, superclassAmong_append_iff hrest.nodup hhead ics hics, hlen]

/-! ## All of them -/

/-- A class that is linked to a class includes no modules. -/
theorem Models.of_linked_class (m : Models h H) {s klass : ObjId} (hs : h.typeOf s = some .klass)
    (hklass : h.typeOf klass = some .klass) (hsuper : h.classSuper s = some klass) :
    H.mods s = [] ∧ H.base s = some klass ∧ H.superclass s = some klass := by
  rcases m.segment s hs with ⟨ics, hics, hmods⟩
  have hnil : ics = [] ∧ H.base s = some klass := by
    rw [hsuper] at hics
    generalize H.base s = b at hics ⊢
    cases hics with
    | nil => exact ⟨rfl, rfl⟩
    | cons _ =>
      have hmem : h.modOf klass ∈ (H.mods s).map some := hmods ▸ List.mem_cons_self
      rcases List.mem_map.mp hmem with ⟨mod, hmod, heq⟩
      have hentry : h.entry klass = mod := by simp [entry, ← heq]
      rw [← entry_class hklass, hentry, m.mods_module hs mod hmod] at hklass
      cases hklass
  refine ⟨?_, hnil.2, m.base_class s klass hs hnil.2 hklass⟩
  rw [hnil.1] at hmods
  exact List.map_eq_nil_iff.mp hmods.symm

theorem getterNext_of_none (hs : inst.singletonKlass = none) :
    h.getterNext inst = h.classSuper := by
  funext a
  rw [getterNext, hs, if_neg (by simp)]

/-- A walk of the getter lookup that does not meet the singleton class goes along the links. -/
theorem getterNext_of_ne {s a : ObjId} (hs : inst.singletonKlass = some s) (ha : a ≠ s) :
    h.getterNext inst a = h.classSuper a := by
  rw [getterNext, hs, if_neg fun heq => ha (Option.some.inj heq).symm]

/-- The lookups and the answers of the classes follow from the walks. -/
theorem Models.oneOrder (m : Models h H)
    (visits : Visits h h.classSuper (some (inst.singletonKlass.getD inst.klass)) order)
    (getterVisits : Visits h (h.getterNext inst) (some (inst.singletonKlass.getD inst.klass)) order)
    (hbase : ∀ k ∈ order, h.typeOf k = some .klass → H.base k = H.superclass k)
    (heven : ∀ k ∈ order, h.typeOf k = some .klass → Even (H.mods k).length) :
    OneOrder h inst order := by
  rcases visits with ⟨l, hl, rfl⟩
  have hplaces : ∀ {p : Option ObjId} {l : List ObjId}, Linked h.classSuper p l →
      (∀ a, p = some a → h.IsPlace a) → ∀ a ∈ l, h.IsPlace a :=
    fun hl hp => hl.forall_mem hp fun a b hab => m.wf.place a b hab
  have hlookup : ∀ mtype name, Returns (h.lookupMethod · inst inst.klass name mtype true)
      ((l.map h.entry).findSome? (h.definition mtype name)) := by
    intro mtype name
    have hsearch := Returns.search m.wf hl mtype name
    simpa only [lookupMethod, Bool.not_true, Bool.false_and, Bool.false_eq_true, if_false, if_true]
      using hsearch
  refine {
    visits := ⟨l, hl, rfl⟩
    getterVisits := getterVisits
    method := fun name => .search m.wf hl .method name
    getter := fun name => ?_
    setter := fun name => .search m.wf hl .setter name
    lookup := hlookup
    respondsTo := fun name => ?_
    ancestors := fun k before above heq hk => ?_
    isA := fun k before above heq hk test htest => ?_
    superClass := fun k before above heq hk => ?_ }
  · rcases getterVisits with ⟨lg, hlg, heq⟩
    rw [← heq]
    exact .search m.wf hlg .getter name
  · rcases hlookup .method name with ⟨n, hn⟩
    refine ⟨n, fun fuel hfuel => ?_⟩
    dsimp only at hn ⊢
    rw [lxObjectRespondsTo, hn fuel hfuel]
    rfl
  · rcases split_at_class m.wf hk hl heq with ⟨l', hl', rfl⟩
    have hanc := Returns.ancestors (.cons hl')
      (hplaces (.cons hl') fun a ha => by cases ha; exact .inl hk)
    rw [List.map_cons, entry_class hk] at hanc
    exact hanc
  · rcases split_at_class m.wf hk hl heq with ⟨l', hl', rfl⟩
    have hmem : test ∈ k :: l'.map h.entry ↔ test ∈ k :: l' := by
      rw [List.mem_cons, List.mem_cons, mem_entries_iff m.wf htest]
    rw [decide_eq_decide.mpr hmem]
    exact .isA (.cons hl') test
  · rcases split_at_class m.wf hk hl heq with ⟨l', hl', rfl⟩
    have hk' : k ∈ l.map h.entry := by
      rw [heq]
      simp
    have hamong := (m.superclass_iff hk (hbase k hk' hk) hl').mpr (heven k hk' hk)
    rw [find?_entries m.wf, ← hamong]
    exact .superclass hl'

/-- In an order that all walks follow, a class linked to the class it is derived from includes an
even number of modules. -/
theorem Models.even_of_oneOrder (m : Models h H) (one : OneOrder h inst order) (hmem : k ∈ order)
    (hk : h.typeOf k = some .klass) (hbase : H.base k = H.superclass k) :
    Even (H.mods k).length := by
  rcases one.visits with ⟨l, hl, rfl⟩
  rcases List.append_of_mem hmem with ⟨before, above, heq⟩
  rcases split_at_class m.wf hk hl heq with ⟨l', hl', rfl⟩
  have hanswer := (Returns.superclass hl').unique (one.superClass k before _ heq hk)
  rw [find?_entries m.wf] at hanswer
  exact (m.superclass_iff hk hbase hl').mp hanswer

/-- All walks for an object follow the declared order exactly when its singleton class is linked to
its class directly, and the classes above are linked to the classes they are derived from and
include an even number of modules each. -/
theorem Declares.oneOrder_iff (d : Declares h H) {o : ObjId} (ho : h.instanceOf o = some inst)
    (hord : H.ObjectOrder inst order) : OneOrder h inst order ↔ LinkedEvenly h H inst order := by
  have m := d.models
  rcases m.wf.inst o inst ho with ⟨hklass, hsing⟩
  have hclass : ∀ k, some inst.klass = some k → h.typeOf k = some .klass := by
    intro k hk
    cases hk
    exact hklass
  rcases m.wf.chain inst.klass with ⟨lk, hlk⟩
  unfold Hierarchy.ObjectOrder at hord
  cases hs : inst.singletonKlass with
  | none =>
    rw [hs] at hord
    have hpath := m.entries_eq_iff hord hclass hlk
    have hstart : inst.singletonKlass.getD inst.klass = inst.klass := by rw [hs]; rfl
    constructor
    · intro one
      rcases one.visits with ⟨l, hl, heq⟩
      rw [hstart] at hl
      rw [hl.unique hlk] at heq
      have hbase := hpath.mp heq
      constructor
      · intro s hs'
        rw [hs] at hs'
        cases hs'
      · exact hbase
      · intro k hmem hk
        exact m.even_of_oneOrder one hmem hk (hbase k hmem hk)
    · intro even
      have hvisits : Visits h h.classSuper (some (inst.singletonKlass.getD inst.klass)) order := by
        rw [hstart]
        exact ⟨lk, hlk, hpath.mpr even.base⟩
      apply m.oneOrder hvisits _ even.base even.even
      rw [getterNext_of_none hs]
      exact hvisits
  | some s =>
    rw [hs] at hord
    rcases hord with ⟨ord, hord, rfl⟩
    have hsk := hsing s hs
    have hpath := m.entries_eq_iff hord hclass hlk
    have hstart : inst.singletonKlass.getD inst.klass = s := by rw [hs]; rfl
    have hmem : ∀ k ∈ ord, k ∈ s :: (H.mods s ++ ord) :=
      fun k hk => List.mem_cons_of_mem _ (List.mem_append_right _ hk)
    constructor
    · intro one
      -- the getter lookup goes from the singleton class to the class
      have hmods : H.mods s = [] ∧ lk.map h.entry = ord := by
        rcases one.getterVisits with ⟨l, hl, heq⟩
        rw [hstart] at hl
        have hnodup := hl.nodup
        cases hl with
        | @cons _ l hl =>
          have hfirst : h.getterNext inst s = some inst.klass := by
            rw [getterNext, if_pos hs]
          rw [hfirst] at hl
          have hl' : Linked h.classSuper (some inst.klass) l := hl.congr fun a ha =>
            (getterNext_of_ne hs fun heq => (List.nodup_cons.mp hnodup).1 (heq ▸ ha)).symm
          rw [hl'.unique hlk, List.map_cons] at heq
          have htail := List.cons_injective.eq_iff.mp
            (heq.trans (congrArg (· :: (H.mods s ++ ord)) (entry_class hsk).symm))
          cases hm : H.mods s with
          | nil => exact ⟨rfl, by simpa [hm] using htail⟩
          | cons mod mods =>
            rw [hm] at htail
            cases hlk
            rw [List.map_cons, entry_class hklass, List.cons_append, List.cons.injEq] at htail
            have hmodule := m.mods_module hsk mod (hm ▸ List.mem_cons_self)
            rw [← htail.1, hklass] at hmodule
            cases hmodule
      have hbase := hpath.mp hmods.2
      -- the method lookup follows the link of the singleton class
      have hsuper : h.classSuper s = some inst.klass := by
        rcases one.visits with ⟨l, hl, heq⟩
        rw [hstart] at hl
        cases hl with
        | @cons _ l hl =>
          rw [hmods.1, List.nil_append, List.map_cons, List.cons.injEq] at heq
          generalize h.classSuper s = p at hl
          cases hl with
          | nil =>
            cases hord
            cases heq.2
          | @cons a l hl =>
            cases hord
            rw [List.map_cons, List.cons.injEq] at heq
            rw [entry_eq_class m.wf hklass heq.2.1]
      rcases m.of_linked_class hsk hklass hsuper with ⟨hnone, hbase_s, hsuper_s⟩
      have hbase' : ∀ k ∈ s :: (H.mods s ++ ord), h.typeOf k = some .klass →
          H.base k = H.superclass k := by
        intro k hk hkt
        rw [hnone, List.nil_append] at hk
        rcases List.mem_cons.mp hk with rfl | hk
        · rw [hbase_s, hsuper_s]
        · exact hbase k hk hkt
      constructor
      · intro s' hs'
        rw [hs] at hs'
        cases hs'
        exact hsuper
      · exact hbase'
      · intro k hk hkt
        exact m.even_of_oneOrder one hk hkt (hbase' k hk hkt)
    · intro even
      have hsuper := even.singleton s hs
      rcases m.of_linked_class hsk hklass hsuper with ⟨hnone, _, _⟩
      have hentries : (s :: lk).map h.entry = s :: (H.mods s ++ ord) := by
        rw [List.map_cons, entry_class hsk, hnone, List.nil_append,
          hpath.mpr fun k hk => even.base k (hmem k hk)]
      have hl : Linked h.classSuper (some s) (s :: lk) := .cons (hsuper ▸ hlk)
      apply m.oneOrder _ _ even.base even.even
      · rw [hstart]
        exact ⟨s :: lk, hl, hentries⟩
      · rw [hstart]
        refine ⟨s :: lk, .cons ?_, hentries⟩
        rw [getterNext, if_pos hs]
        exact hlk.congr fun a ha =>
          getterNext_of_ne hs fun heq => (List.nodup_cons.mp hl.nodup).1 (heq ▸ ha)

/-- Each object has an order. -/
theorem Declares.exists_order (d : Declares h H) {o : ObjId} (ho : h.instanceOf o = some inst) :
    ∃ order, H.ObjectOrder inst order := by
  rcases d.models.exists_classOrder (d.models.wf.inst o inst ho).1 with ⟨order, hord⟩
  unfold Hierarchy.ObjectOrder
  cases inst.singletonKlass with
  | none => exact ⟨order, hord⟩
  | some s => exact ⟨_, order, hord, rfl⟩

end

/-! ## Two modules, and one -/

/-- An instance of a class that includes two modules. -/
theorem twoModules_oneOrder : ∃ h H inst, Declares h H ∧ h.instanceOf 8 = some inst ∧
    OneOrder h inst [3, 5, 4, 0] := by
  have d₁ := @Declares.newClass _ _ 0 .initial rfl
  have d₂ := @Declares.lxClassInclude _ _ 3 4 d₁.newModule.newModule rfl rfl
  have d₃ := @Declares.lxClassInclude _ _ 3 5 d₂ rfl rfl
  have d₄ := @Declares.newInstance _ _ 3 d₃ rfl
  refine ⟨_, _, ⟨3, none⟩, d₄, rfl, (d₄.oneOrder_iff (o := 8) rfl ?_).mpr ?_⟩
  · show Hierarchy.ClassOrder _ (some 3) _
    exact .cons (.cons .nil)
  constructor
  · intro s hs
    cases hs
  · intro k hk _
    simp only [List.mem_cons, List.not_mem_nil, or_false] at hk
    rcases hk with rfl | rfl | rfl | rfl <;> rfl
  · intro k hk _
    simp only [List.mem_cons, List.not_mem_nil, or_false] at hk
    rcases hk with rfl | rfl | rfl | rfl <;> decide

/-- `superClass` of a class with one module steps over the class it is derived from. -/
theorem oneModule_superclass_skipped : ∃ h H inst order, Declares h H ∧
    h.instanceOf 7 = some inst ∧ H.ObjectOrder inst order ∧ order = [4, 5, 3, 0] ∧
    Returns (h.lxClassGetSuperclass · 4) (.ok (some 0)) ∧ ¬ OneOrder h inst order := by
  have d₁ := @Declares.newClass _ _ 0 .initial rfl
  have d₂ := @Declares.newClass _ _ 3 d₁ rfl
  have d₃ := @Declares.lxClassInclude _ _ 4 5 d₂.newModule rfl rfl
  have d₄ := @Declares.newInstance _ _ 4 d₃ rfl
  have hskips : ∀ h : Heap, h.classSuper 4 = some 6 → h.typeOf 6 = some .iclass →
      h.classSuper 6 = some 3 → h.classSuper 3 = some 0 → h.typeOf 0 = some .klass →
      Returns (h.lxClassGetSuperclass · 4) (.ok (some 0)) := by
    intro h h₄ ht₆ h₆ h₃ ht₀
    refine ⟨2, fun fuel hfuel => ?_⟩
    match fuel, hfuel with
    | fuel + 2, _ => simp [lxClassGetSuperclass, h₄, ht₆, h₆, h₃, ht₀]
  refine ⟨_, _, ⟨4, none⟩, [4, 5, 3, 0], d₄, rfl, ?_, rfl, hskips _ rfl rfl rfl rfl rfl, ?_⟩
  · show Hierarchy.ClassOrder _ (some 4) _
    exact .cons (.cons (.cons .nil))
  · intro one
    have heq := (hskips _ rfl rfl rfl rfl rfl).unique (one.superClass 4 [] [5, 3, 0] rfl rfl)
    cases heq

end Clox
