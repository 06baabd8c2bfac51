import Clox.Vm.ClassChains

/-! # `super`

`OP_GET_SUPER` looks the method up from the class or module the running
function was defined in. The order in which methods are found and the places
`super` searches are read off the heap; the opcode searches exactly these
places, and follows the order exactly when they hold the same first
definition.
-/

namespace Clox

namespace Heap

/-- What `OP_GET_SUPER` pushes or throws. -/
inductive SuperResult where
  | method (callable : Callable)
  | throw (message : String)
deriving DecidableEq, Repr

def superResult (methodName : String) : Option Callable → SuperResult
  | some m => .method m
  | none => .throw ("Could not find method '" ++ methodName ++ "' for 'super'")

/-- The loop of `OP_GET_SUPER` that looks for the `ObjIClass` of the module `mod`; `none` when
`fuel` rounds do not suffice. -/
def findIClass (h : Heap) (mod : ObjId) :
    ℕ → ObjId → Option ObjId → Option (Except Abort (Option ObjId))
  | 0, _, _ => none
  | fuel + 1, iclass, iclassFound =>
    if iclass = mod then some (.ok iclassFound)
    else
      match h.superclass iclass with
      | none => some (.error .nullDeref)  -- `iclass->type`
      | some s =>
        match h.modOf s with
        | some m => findIClass h mod fuel m (some s)
        | none => findIClass h mod fuel s iclassFound

/-- `function->klass` -/
def ownerOf (h : Heap) (func : ℕ) : Option ObjId := (h.functions[func]?).bind (·.klass)

/-- The kind of definition `super` looks for in a frame of the function. -/
def superType (h : Heap) (func : ℕ) : MethodType :=
  match h.functions[func]? with
  | some ⟨_, .getter⟩ => .getter
  | _ => .method

/-- `OP_GET_SUPER` in a frame of the function `func`, with `this` the receiver. -/
def opGetSuper (fuel : ℕ) (h : Heap) (func : ℕ) (this : ObjId) (methodName : String) :
    Option (Except Abort SuperResult) :=
  match h.instanceOf this, h.ownerOf func with
  | some inst, some klass =>
    let found :=
      if h.typeOf klass = some .module then h.findIClass klass fuel inst.klass none
      else some (.ok (some klass))
    match found with
    | none => none
    | some (.error e) => some (.error e)
    | some (.ok none) => some (.ok (superResult methodName none))
    | some (.ok (some klass)) =>
      match h.lookupMethod fuel inst klass methodName (h.superType func) false with
      | none => none
      | some method => some (.ok (superResult methodName method))
  | _, _ => some (.error .assertFailed)

/-! ## Resolution orders -/

/-- The orders in which the methods of the object `o` are found: those of `instanceFindMethod`,
`instanceFindGetter`, and for a class or module also of `classFindStaticMethod`. -/
inductive ResolutionOrder (h : Heap) (o : ObjId) (inst : ObjInstance) : List ObjId → Prop where
  | instance {l} : Linked h.classSuper (some (inst.singletonKlass.getD inst.klass)) l →
      ResolutionOrder h o inst l
  | getter {l} : Linked (h.getterNext inst) (some (inst.singletonKlass.getD inst.klass)) l →
      ResolutionOrder h o inst l
  | static {l₁ l₂} : h.typeOf o = some .klass ∨ h.typeOf o = some .module →
      Linked h.classSuper (some o) l₁ → Linked h.classSuper (some inst.klass) l₂ →
      ResolutionOrder h o inst (l₁.filterMap h.lookupClass ++ l₂)

/-- `instanceFindMethod` returns the first definition in its order. -/
theorem instanceFindMethod_eq {h : Heap} {inst : ObjInstance} {l : List ObjId} {fuel : ℕ}
    {name : String} (hl : Linked h.classSuper (some (inst.singletonKlass.getD inst.klass)) l)
    (hfuel : l.length ≤ fuel) :
    h.instanceFindMethod fuel inst name = some (l.findSome? (h.definition .method name)) :=
  hl.search_eq hfuel

theorem instanceFindGetter_eq {h : Heap} {inst : ObjInstance} {l : List ObjId} {fuel : ℕ}
    {name : String} (hl : Linked (h.getterNext inst) (some (inst.singletonKlass.getD inst.klass)) l)
    (hfuel : l.length ≤ fuel) :
    h.instanceFindGetter fuel inst name = some (l.findSome? (h.definition .getter name)) :=
  hl.search_eq hfuel

theorem findSome?_lookupClass (h : Heap) (visit : ObjId → Option Callable) (l : List ObjId) :
    (l.filterMap h.lookupClass).findSome? visit =
      l.findSome? fun k => (h.lookupClass k).bind visit := by
  induction l with
  | nil => rfl
  | cons k l ih =>
    cases hk : h.lookupClass k with
    | none => simp [hk, ih]
    | some s => simp [hk, List.findSome?_cons, ih]

theorem classFindStaticMethod_eq {h : Heap} {o : ObjId} {inst : ObjInstance}
    {l₁ l₂ : List ObjId} {fuel : ℕ} {name : String} (hl₁ : Linked h.classSuper (some o) l₁)
    (hl₂ : Linked h.classSuper (some inst.klass) l₂) (hfuel₁ : l₁.length ≤ fuel)
    (hfuel₂ : l₂.length ≤ fuel) :
    h.classFindStaticMethod fuel o inst name =
      some ((l₁.filterMap h.lookupClass ++ l₂).findSome? (h.definition .method name)) := by
  rw [classFindStaticMethod, hl₁.search_eq hfuel₁, List.findSome?_append,
    findSome?_lookupClass]
  cases l₁.findSome? fun k => (h.lookupClass k).bind (h.definition .method name) with
  | some m => rfl
  | none => simp [hl₂.search_eq hfuel₂]

/-! ## The places `super` searches -/

/-- The places searched for a method of the class or module `k`, with a receiver `inst`. -/
inductive SuperPlaces (h : Heap) (inst : ObjInstance) (k : ObjId) : List ObjId → Prop where
  /-- What is above the class. -/
  | above {l} : h.typeOf k ≠ some .module → (k = inst.klass → inst.singletonKlass = none) →
      Linked h.classSuper (h.classSuper k) l → SuperPlaces h inst k l
  /-- The receiver's own class, when the receiver has a singleton class: all over again from the
  singleton class, leaving out the class. -/
  | restart {s l} : h.typeOf k ≠ some .module → k = inst.klass → inst.singletonKlass = some s →
      Linked h.classSuper (some s) l → SuperPlaces h inst k (l.filter (· != k))
  /-- What is above the first module included in the receiver's class or a class above it, when
  this is the module. -/
  | module {l l' ic} : h.typeOf k = some .module → Linked h.classSuper (some inst.klass) l →
      l.find? (fun c => (h.modOf c).isSome) = some ic → h.modOf ic = some k →
      Linked h.classSuper (h.classSuper ic) l' → SuperPlaces h inst k l'

/-- `super` for `methodName`, in the function `func` at position `i` of the order, finds the first
definition at a later position, and throws when there is none. -/
def FollowsOrder (h : Heap) (this : ObjId) (order : List ObjId) (i func : ℕ)
    (methodName : String) : Prop :=
  ∃ n, ∀ fuel, n ≤ fuel → opGetSuper fuel h func this methodName =
    some (.ok (superResult methodName
      ((order.drop (i + 1)).findSome? (h.definition (h.superType func) methodName))))

/-- The class or module of the function leads to places with the same first definition as the
later positions of the order. -/
def SuperAgrees (h : Heap) (inst : ObjInstance) (order : List ObjId) (i func : ℕ)
    (methodName : String) : Prop :=
  ∃ k l, h.ownerOf func = some k ∧ SuperPlaces h inst k l ∧
    l.findSome? (h.definition (h.superType func) methodName) =
      (order.drop (i + 1)).findSome? (h.definition (h.superType func) methodName)

/-! ## The opcode searches these places -/

section

variable {h : Heap} {inst : ObjInstance} {k this : ObjId} {l order : List ObjId}
  {mtype : MethodType} {name : String} {fuel : ℕ}

theorem findSome?_skip (visit : ObjId → Option Callable) (k : ObjId) (l : List ObjId) :
    l.findSome? (fun j => if !false && j == k then none else visit j) =
      (l.filter (· != k)).findSome? visit := by
  induction l with
  | nil => rfl
  | cons a l ih =>
    by_cases ha : a = k
    · rw [List.findSome?_cons, if_pos (by simpa using ha), List.filter_cons_of_neg (by simpa using ha)]
      exact ih
    · rw [List.findSome?_cons, if_neg (by simpa using ha), List.filter_cons_of_pos (by simpa using ha),
        List.findSome?_cons]
      cases visit a with
      | none => exact ih
      | some r => rfl

/-- A lookup that leaves out the given class. -/
theorem lookupMethod_eq {start : ObjId}
    (hstart : (if k = inst.klass then inst.singletonKlass.getD k else k) = start)
    (hl : Linked h.classSuper (some start) l) (hfuel : l.length ≤ fuel) :
    h.lookupMethod fuel inst k name mtype false =
      some ((l.filter (· != k)).findSome? (h.definition mtype name)) := by
  rw [lookupMethod, hstart]
  exact (hl.search_eq hfuel).trans (congrArg some (findSome?_skip _ k l))

theorem filter_cons_of_linked (hl : Linked h.classSuper (some k) (k :: l)) :
    (k :: l).filter (· != k) = l := by
  have hnot := (List.nodup_cons.mp hl.nodup).1
  rw [List.filter_cons_of_neg (by simp)]
  apply List.filter_eq_self.mpr
  intro a ha
  have hne : a ≠ k := by
    rintro rfl
    exact hnot ha
  simpa using hne

/-- Above the class from which no other place is looked at first. -/
theorem lookupMethod_above (hk : k = inst.klass → inst.singletonKlass = none)
    (hl : Linked h.classSuper (h.classSuper k) l) (hfuel : l.length < fuel) :
    h.lookupMethod fuel inst k name mtype false =
      some (l.findSome? (h.definition mtype name)) := by
  have hcons : Linked h.classSuper (some k) (k :: l) := .cons hl
  have hstart : (if k = inst.klass then inst.singletonKlass.getD k else k) = k := by
    split <;> rename_i heq
    · rw [hk heq]
      rfl
    · rfl
  rw [lookupMethod_eq hstart hcons hfuel, filter_cons_of_linked hcons]

theorem superclass_eq (ht : h.typeOf k = some .klass) : h.superclass k = h.classSuper k := by
  rcases Option.map_eq_some_iff.mp ht with ⟨o, ho, hot⟩
  rw [superclass, classSuper, ho]
  cases o <;> first | rfl | cases hot

theorem modOf_of_klass (ht : h.typeOf k = some .klass) : h.modOf k = none := by
  rcases Option.map_eq_some_iff.mp ht with ⟨o, ho, hot⟩
  rw [modOf, ho]
  cases o <;> first | rfl | cases hot

theorem exists_modOf_of_iclass (ht : h.typeOf k = some .iclass) : ∃ m, h.modOf k = some m := by
  rcases Option.map_eq_some_iff.mp ht with ⟨o, ho, hot⟩
  rw [modOf, ho]
  cases o with
  | iclass klass mod => exact ⟨mod, rfl⟩
  | inst | klass | module => cases hot

/-- The walk for a module stops at the first `ObjIClass`: at the module itself, or with a null
class, for no module has a superclass. -/
theorem Wf.findIClass_eq (w : h.Wf) {mod c : ObjId} (hmod : h.typeOf mod = some .module)
    (hc : h.typeOf c = some .klass) (hl : Linked h.classSuper (h.classSuper c) l)
    (hfuel : l.length + 1 < fuel) :
    h.findIClass mod fuel c none =
      match l.find? (fun c => (h.modOf c).isSome) with
      | some ic => if h.modOf ic = some mod then some (.ok (some ic)) else some (.error .nullDeref)
      | none => some (.error .nullDeref) := by
  have hne : c ≠ mod := by
    rintro rfl
    rw [hc] at hmod
    cases hmod
  induction l generalizing c fuel with
  | nil =>
    cases fuel with
    | zero => simp at hfuel
    | succ fuel =>
      cases hs : h.classSuper c with
      | some s => rw [hs] at hl; cases hl
      | none => simp [findIClass, hne, superclass_eq hc, hs]
  | cons s l ih =>
    cases fuel with
    | zero => simp at hfuel
    | succ fuel =>
      have hs : h.classSuper c = some s := by
        generalize h.classSuper c = p at hl
        cases hl
        rfl
      have hl' : Linked h.classSuper (h.classSuper s) l := by
        rw [hs] at hl
        cases hl with
        | cons hl => exact hl
      rw [findIClass, if_neg hne, superclass_eq hc, hs]
      cases hm : h.modOf s with
      | none =>
        have hs' : h.typeOf s = some .klass := by
          rcases w.place c s hs with ht | ht
          · exact ht
          · rcases exists_modOf_of_iclass ht with ⟨m, hm'⟩
            rw [hm] at hm'
            cases hm'
        have hne' : s ≠ mod := by
          rintro rfl
          rw [hs'] at hmod
          cases hmod
        have hrec := ih hs' hl' (by simpa using hfuel) hne'
        simpa [List.find?_cons, hm] using hrec
      | some m =>
        have hmt := w.mod s m hm
        cases fuel with
        | zero => simp at hfuel
        | succ fuel =>
          by_cases hmm : m = mod
          · simp [hm, findIClass, hmm]
          · simp [hm, findIClass, hmm, w.module m hmt]

/-- `OP_GET_SUPER` gives the first definition among the places it searches. -/
theorem Wf.opGetSuper_eq (w : h.Wf) (name : String) {func : ℕ} (hthis : h.instanceOf this = some inst)
    (hk : h.ownerOf func = some k) (hp : SuperPlaces h inst k l) :
    ∃ n, ∀ fuel, n ≤ fuel → opGetSuper fuel h func this name =
      some (.ok (superResult name (l.findSome? (h.definition (h.superType func) name)))) := by
  cases hp with
  | above ht hs hl =>
    refine ⟨l.length + 1, fun fuel hfuel => ?_⟩
    simp only [opGetSuper, hthis, hk, if_neg ht, lookupMethod_above hs hl hfuel]
  | @restart s l ht hki hs hl =>
    refine ⟨l.length, fun fuel hfuel => ?_⟩
    have hstart : (if k = inst.klass then inst.singletonKlass.getD k else k) = s := by
      rw [if_pos hki, hs]
      rfl
    simp only [opGetSuper, hthis, hk, if_neg ht, lookupMethod_eq hstart hl hfuel]
  | @module l₀ l ic ht hl₀ hfind hic hl =>
    cases hl₀ with
    | @cons _ l₁ hl₁ =>
      refine ⟨l₁.length + l.length + 2, fun fuel hfuel => ?_⟩
      have hklass : h.typeOf inst.klass = some .klass := (w.inst this inst hthis).1
      have hnone : h.modOf inst.klass = none := modOf_of_klass hklass
      have hfind' : l₁.find? (fun c => (h.modOf c).isSome) = some ic := by
        simpa [List.find?_cons, hnone] using hfind
      have hwalk := w.findIClass_eq ht hklass hl₁ (show _ < fuel by omega)
      simp only [hfind', if_pos hic] at hwalk
      have hne : ic = inst.klass → inst.singletonKlass = none := by
        rintro rfl
        rw [hnone] at hic
        cases hic
      have hlookup : h.lookupMethod fuel inst ic name (h.superType func) false = _ :=
        lookupMethod_above hne hl (by omega)
      simp only [opGetSuper, hthis, hk, if_pos ht, hwalk, hlookup]

/-- Where there are no such places the opcode does not get to a result. -/
theorem Wf.opGetSuper_abort (w : h.Wf) (name : String) {func : ℕ} (hthis : h.instanceOf this = some inst)
    (hp : ∀ k l, h.ownerOf func = some k → ¬ SuperPlaces h inst k l) :
    ∃ n e, ∀ fuel, n ≤ fuel → opGetSuper fuel h func this name = some (.error e) := by
  cases hk : h.ownerOf func with
  | none => exact ⟨0, .assertFailed, fun fuel _ => by simp only [opGetSuper, hthis, hk]⟩
  | some k =>
    by_cases ht : h.typeOf k = some .module
    · rcases w.chain inst.klass with ⟨l₀, hl₀⟩
      cases hl₀ with
      | @cons _ l₁ hl₁ =>
        refine ⟨l₁.length + 2, .nullDeref, fun fuel hfuel => ?_⟩
        have hklass : h.typeOf inst.klass = some .klass := (w.inst this inst hthis).1
        have hwalk := w.findIClass_eq ht hklass hl₁ (show _ < fuel by omega)
        have hnull : h.findIClass k fuel inst.klass none = some (.error .nullDeref) := by
          rw [hwalk]
          cases hfind : l₁.find? (fun c => (h.modOf c).isSome) with
          | none => rfl
          | some ic =>
            apply if_neg
            intro hic
            rcases w.chain ic with ⟨l₂, hl₂⟩
            cases hl₂ with
            | @cons _ l₂ hl₂ =>
              have hfind' : (inst.klass :: l₁).find? (fun c => (h.modOf c).isSome) = some ic := by
                simpa [List.find?_cons, modOf_of_klass hklass] using hfind
              exact hp k l₂ hk (.module ht (.cons hl₁) hfind' hic hl₂)
        simp only [opGetSuper, hthis, hk, if_pos ht, hnull]
    · exfalso
      by_cases hs : k = inst.klass → inst.singletonKlass = none
      · rcases w.chain k with ⟨l, hl⟩
        cases hl with
        | @cons _ l hl => exact hp k l hk (.above ht hs hl)
      · have hki : k = inst.klass := by
          by_contra hne
          exact hs fun h' => absurd h' hne
        cases hsing : inst.singletonKlass with
        | none => exact hs fun _ => hsing
        | some s =>
          rcases w.chain s with ⟨l, hl⟩
          exact hp k _ hk (.restart ht hki hsing hl)

theorem superResult_injective : Function.Injective (superResult name) := by
  intro a b hab
  cases a <;> cases b <;> simp [superResult] at hab ⊢
  exact hab

/-- A method of a class in the chain of a receiver without a singleton class, or of a class that
is not the receiver's own: `super` goes on behind the class. -/
theorem superAgrees_above {l₁ l₂ : List ObjId} {func : ℕ}
    (hl : Linked h.classSuper (some (inst.singletonKlass.getD inst.klass)) (l₁ ++ k :: l₂))
    (hk : h.ownerOf func = some k) (hklass : h.typeOf k = some .klass)
    (hs : k = inst.klass → inst.singletonKlass = none) :
    SuperAgrees h inst (l₁ ++ k :: l₂) l₁.length func name := by
  have hne : h.typeOf k ≠ some .module := by
    rw [hklass]
    simp
  refine ⟨k, l₂, hk, .above hne hs hl.rest_next, ?_⟩
  rw [List.drop_append, List.drop_eq_nil_of_le (by omega)]
  simp

/-- A method of the receiver's own class, when the singleton class and what it includes do not
define the name. -/
theorem superAgrees_restart {l₁ l₂ : List ObjId} {s : ObjId} {func : ℕ}
    (hs : inst.singletonKlass = some s)
    (hl : Linked h.classSuper (some s) (l₁ ++ inst.klass :: l₂))
    (hk : h.ownerOf func = some inst.klass) (hklass : h.typeOf inst.klass = some .klass)
    (hbefore : ∀ c ∈ l₁, h.definition (h.superType func) name c = none) :
    SuperAgrees h inst (l₁ ++ inst.klass :: l₂) l₁.length func name := by
  have hne : h.typeOf inst.klass ≠ some .module := by
    rw [hklass]
    simp
  refine ⟨inst.klass, _, hk, .restart hne rfl hs hl, ?_⟩
  have hnd : inst.klass ∉ l₂ := (List.nodup_cons.mp (List.nodup_append.mp hl.nodup).2.1).1
  have hfirst : (l₁.filter (· != inst.klass)).findSome? (h.definition (h.superType func) name) =
      none := by
    apply List.findSome?_eq_none_iff.mpr
    intro c hc
    exact hbefore c (List.mem_of_mem_filter hc)
  have hrest : l₂.filter (· != inst.klass) = l₂ := by
    apply List.filter_eq_self.mpr
    intro c hc
    have hcne : c ≠ inst.klass := by
      rintro rfl
      exact hnd hc
    simpa using hcne
  rw [List.filter_append, List.findSome?_append, hfirst,
    List.filter_cons_of_neg (by simp), hrest, List.drop_append,
    List.drop_eq_nil_of_le (by omega)]
  simp

/-- `super` follows the order in which methods are found exactly when the class or module of its
function leads to places with the same first definition. -/
theorem Built.followsOrder_iff (b : h.Built) (hthis : h.instanceOf this = some inst)
    (_horder : ResolutionOrder h this inst order) (i func : ℕ) (methodName : String) :
    FollowsOrder h this order i func methodName ↔
      SuperAgrees h inst order i func methodName := by
  have w := b.wf
  constructor
  · rintro ⟨n, hn⟩
    by_cases hp : ∃ k l, h.ownerOf func = some k ∧ SuperPlaces h inst k l
    · rcases hp with ⟨k, l, hk, hp⟩
      rcases w.opGetSuper_eq methodName hthis hk hp with ⟨m, hm⟩
      have heq := (hn (max n m) (by omega)).symm.trans (hm (max n m) (by omega))
      have hres := superResult_injective (Except.ok.inj (Option.some.inj heq))
      exact ⟨k, l, hk, hp, hres.symm⟩
    · rcases w.opGetSuper_abort methodName hthis
        (fun k l hk hl => hp ⟨k, l, hk, hl⟩) with ⟨m, e, hm⟩
      have heq := (hn (max n m) (by omega)).symm.trans (hm (max n m) (by omega))
      cases heq
  · rintro ⟨k, l, hk, hp, heq⟩
    rcases w.opGetSuper_eq methodName hthis hk hp with ⟨n, hn⟩
    exact ⟨n, fun fuel hfuel => by rw [hn fuel hfuel, heq]⟩

end

/-- `class A { foo() {} }`, `class C < A`, which includes `M` and then `N`, both with a `foo` that
calls `super`, and an instance of `C`. -/
def includedTwice : Heap :=
  let h := (initial.newFunction .method).1
  let h := (h.newFunction .method).1
  let h := (h.newFunction .method).1
  let h := (h.newClass (some lxObjClass)).1  -- A
  let h := h.define .method 3 "foo" (.closure 0 0)
  let h := (h.newClass (some 3)).1  -- C
  let h := h.newModule.1  -- M
  let h := h.define .method 5 "foo" (.closure 1 1)
  let h := h.newModule.1  -- N
  let h := h.define .method 6 "foo" (.closure 2 2)
  let h := h.lxClassInclude 4 5
  let h := h.lxClassInclude 4 6
  (h.newInstance 4).1

theorem includedTwice_built : includedTwice.Built := by
  refine .newInstance (.lxClassInclude (.lxClassInclude ?_ rfl rfl) rfl rfl) rfl
  refine .define _ _ _ _ (.newModule (.define _ _ _ _ (.newModule (.newClass ?_ rfl))))
  refine .define _ _ _ _ (.newClass ?_ rfl)
  exact .newFunction _ (.newFunction _ (.newFunction _ .initial))

theorem includedTwice_order : ResolutionOrder includedTwice 9 ⟨4, none⟩ [4, 8, 7, 3, 0] :=
  .instance (.cons (.cons (.cons (.cons (.cons .nil)))))

/-- The `foo` of `N` finds that of `M` behind it. -/
theorem includedTwice_followsOrder : FollowsOrder includedTwice 9 [4, 8, 7, 3, 0] 1 2 "foo" := by
  refine (includedTwice_built.followsOrder_iff
    (rfl : includedTwice.instanceOf 9 = some ⟨4, none⟩) includedTwice_order 1 2 "foo").mpr ?_
  exact ⟨6, [7, 3, 0], rfl, .module rfl (.cons (.cons (.cons (.cons (.cons .nil))))) rfl rfl
    (.cons (.cons (.cons .nil))), rfl⟩

/-- The `foo` of `M` dereferences the null superclass of `N` on the way to its own module. -/
theorem includedTwice_crashes : ∃ h this inst order i func name, Heap.Built h ∧
    h.instanceOf this = some inst ∧ ResolutionOrder h this inst order ∧
    (∃ k id, order[i]? = some k ∧ h.definition .method name k = some (.closure id func)) ∧
    ¬ FollowsOrder h this order i func name := by
  refine ⟨includedTwice, 9, ⟨4, none⟩, [4, 8, 7, 3, 0], 2, 1, "foo", includedTwice_built, rfl,
    includedTwice_order, ⟨7, 1, rfl, by decide⟩, ?_⟩
  rintro ⟨n, hn⟩
  have hcrash : opGetSuper (n + 3) includedTwice 1 9 "foo" = some (.error .nullDeref) := rfl
  have heq := (hn (n + 3) (by omega)).symm.trans hcrash
  cases heq

end Heap

end Clox
