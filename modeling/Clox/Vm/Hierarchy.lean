import Clox.Vm.Super

/-! # One order of classes and modules

A program declares a hierarchy: which class a class is derived from, which
modules it includes, what an object is extended with. The order in which this
gives the classes and modules of an object is compared with what each walk of
the VM over the linked objects looks at.
-/

namespace Clox

/-! ## The other walks over the chains -/

namespace Heap

section

variable (h : Heap)

/-- `instanceFindSetter` -/
def instanceFindSetter (fuel : ℕ) (inst : ObjInstance) (name : String) :
    Option (Option Callable) :=
  Linked.search h.classSuper (h.definition .setter name) fuel
    (some (inst.singletonKlass.getD inst.klass))

/-- `Object#respondsTo` -/
def lxObjectRespondsTo (fuel : ℕ) (inst : ObjInstance) (name : String) : Option Bool :=
  (h.lookupMethod fuel inst inst.klass name .method true).map Option.isSome

/-- `Class#superClass`: the class in front of an `ObjIClass` is stepped over. -/
def lxClassGetSuperclass : ℕ → ObjId → Option (Except Abort (Option ObjId))
  | 0, _ => none
  | fuel + 1, klass =>
    match h.classSuper klass with
    | none => some (.ok none)
    | some superClass =>
      if h.typeOf superClass = some .klass then some (.ok (some superClass))
      else
        match h.classSuper superClass with
        | some klass => lxClassGetSuperclass fuel klass
        | none => some (.error .nullDeref)  -- `CLASS_SUPER(klass)`

/-- `Class#isA` -/
def lxClassIsA (fuel : ℕ) (klassSelf klassTest : ObjId) : Option Bool :=
  (Linked.search h.classSuper (fun k => if k = klassTest then some () else none) fuel
    (some klassSelf)).map Option.isSome

/-- `Class#ancestors` -/
def lxClassAncestors : ℕ → Option ObjId → Option (Except Abort (List ObjId))
  | _, none => some (.ok [])
  | 0, some _ => none
  | fuel + 1, some klass =>
    match h.typeOf klass, h.modOf klass with
    | some .klass, _ => (lxClassAncestors fuel (h.classSuper klass)).map (·.map (klass :: ·))
    | some .iclass, some mod => (lxClassAncestors fuel (h.classSuper klass)).map (·.map (mod :: ·))
    | _, _ => some (.error .assertFailed)

/-- The class or module an entry of a chain stands for. -/
def entry (k : ObjId) : ObjId := (h.modOf k).getD k

end

end Heap

/-! ## Declarations -/

/-- What was declared of the classes. -/
structure Hierarchy where
  /-- The class a class is derived from. -/
  superclass : ObjId → Option ObjId
  /-- What the new class was linked to. -/
  base : ObjId → Option ObjId
  /-- The modules a class includes, the latest first. -/
  mods : ObjId → List ObjId

namespace Hierarchy

variable (H : Hierarchy)

def initial : Hierarchy where
  superclass k := if k = 1 ∨ k = 2 then some Heap.lxObjClass else none
  base k := if k = 1 ∨ k = 2 then some Heap.lxObjClass else none
  mods _ := []

/-- A class `k` is created. -/
def declare (k : ObjId) (superclass base : Option ObjId) : Hierarchy where
  superclass := Function.update H.superclass k superclass
  base := Function.update H.base k base
  mods := Function.update H.mods k []

/-- A module is included, unless it is already. -/
def includeMod (k mod : ObjId) : Hierarchy :=
  if mod ∈ H.mods k then H else { H with mods := Function.update H.mods k (mod :: H.mods k) }

/-- The singleton class of `o`, unless there is one: of an instance derived from its class, of a
class from what its class is derived from. -/
def singleton (h : Heap) (o : ObjId) : Hierarchy :=
  match h.obj o with
  | some (.inst ⟨klass, none⟩) => H.declare h.objs.length (some klass) (some klass)
  | some (.klass ⟨_, none⟩ info) => H.declare h.objs.length (H.superclass o) info.superclass
  | some (.module ⟨_, none⟩ _) =>
    H.declare h.objs.length (some Heap.lxClassClass) (some Heap.lxClassClass)
  | _ => H

/-- A class, the modules it includes, then the class it is derived from and its modules. -/
inductive ClassOrder : Option ObjId → List ObjId → Prop where
  | nil : ClassOrder none []
  | cons {k : ObjId} {l : List ObjId} (h : ClassOrder (H.superclass k) l) :
      ClassOrder (some k) (k :: (H.mods k ++ l))

/-- The singleton class of an object and the modules it is extended with come first. -/
def ObjectOrder (inst : ObjInstance) (order : List ObjId) : Prop :=
  match inst.singletonKlass with
  | none => H.ClassOrder (some inst.klass) order
  | some s => ∃ l, H.ClassOrder (some inst.klass) l ∧ order = s :: (H.mods s ++ l)

end Hierarchy

/-- The heap a program has built, with what it declared. -/
inductive Declares : Heap → Hierarchy → Prop where
  | initial : Declares .initial .initial
  | newInstance {h H klass} : Declares h H → h.typeOf klass = some .klass →
      Declares (h.newInstance klass).1 H
  | newClass {h H superclass} : Declares h H → h.typeOf superclass = some .klass →
      Declares (h.newClass (some superclass)).1
        (H.declare h.objs.length (some superclass) (some superclass))
  | newModule {h H} : Declares h H → Declares h.newModule.1 H
  | newFunction {h H} (ftype : FunctionType) : Declares h H → Declares (h.newFunction ftype).1 H
  | lxClassInclude {h H klass mod} : Declares h H → h.typeOf klass = some .klass →
      h.typeOf mod = some .module → Declares (h.lxClassInclude klass mod) (H.includeMod klass mod)
  | singletonClass {h H} (o : ObjId) : Declares h H →
      Declares (h.singletonClass o).1 (H.singleton h o)
  | define {h H} (mtype : MethodType) (classOrMod : ObjId) (name : String) (method : Callable) :
      Declares h H → Declares (h.define mtype classOrMod name method) H
  | defineStaticMethod {h H} (classOrMod : ObjId) (name : String) (method : Callable) :
      Declares h H →
      Declares (h.defineStaticMethod classOrMod name method) (H.singleton h classOrMod)

/-! ## One order -/

/-- With enough rounds the loop returns `r`. -/
def Returns {α : Type} (loop : ℕ → Option α) (r : α) : Prop :=
  ∃ n, ∀ fuel, n ≤ fuel → loop fuel = some r

/-- Following `next`, one looks at the classes and modules of the order, one after the other. -/
def Visits (h : Heap) (next : ObjId → Option ObjId) (p : Option ObjId) (order : List ObjId) : Prop :=
  ∃ l, Linked next p l ∧ l.map h.entry = order

/-- All walks for an object follow the order: the lookups look at its members one after the other
and so find the first definition, and from each class on it is what `ancestors`, `isA` and
`superClass` answer. -/
structure OneOrder (h : Heap) (inst : ObjInstance) (order : List ObjId) : Prop where
  visits : Visits h h.classSuper (some (inst.singletonKlass.getD inst.klass)) order
  getterVisits : Visits h (h.getterNext inst) (some (inst.singletonKlass.getD inst.klass)) order
  method : ∀ name, Returns (h.instanceFindMethod · inst name)
    (order.findSome? (h.definition .method name))
  getter : ∀ name, Returns (h.instanceFindGetter · inst name)
    (order.findSome? (h.definition .getter name))
  setter : ∀ name, Returns (h.instanceFindSetter · inst name)
    (order.findSome? (h.definition .setter name))
  lookup : ∀ mtype name, Returns (h.lookupMethod · inst inst.klass name mtype true)
    (order.findSome? (h.definition mtype name))
  respondsTo : ∀ name, Returns (h.lxObjectRespondsTo · inst name)
    (order.findSome? (h.definition .method name)).isSome
  ancestors : ∀ k before above, order = before ++ k :: above → h.typeOf k = some .klass →
    Returns (h.lxClassAncestors · (some k)) (.ok (k :: above))
  isA : ∀ k before above, order = before ++ k :: above → h.typeOf k = some .klass →
    ∀ test, h.typeOf test = some .klass →
      Returns (h.lxClassIsA · k test) (decide (test ∈ k :: above))
  superClass : ∀ k before above, order = before ++ k :: above → h.typeOf k = some .klass →
    Returns (h.lxClassGetSuperclass · k) (.ok (above.find? (h.typeOf · = some .klass)))

/-- The singleton class is linked to the class of the object with no module between them, and each
class above is linked to the class it is derived from and includes an even number of modules. -/
structure LinkedEvenly (h : Heap) (H : Hierarchy) (inst : ObjInstance) (order : List ObjId) :
    Prop where
  singleton : ∀ s, inst.singletonKlass = some s → h.classSuper s = some inst.klass
  base : ∀ k ∈ order, h.typeOf k = some .klass → H.base k = H.superclass k
  even : ∀ k ∈ order, h.typeOf k = some .klass → Even (H.mods k).length

end Clox
