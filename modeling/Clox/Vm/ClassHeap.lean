import Clox.Bytecode.Iseq
import Clox.Compiler.State
import Clox.Lib.Linked

/-! # Classes, modules and method lookup

The objects method lookup walks over: instances, classes, modules and the
`ObjIClass`es that stand for a module in the chain of a class that includes
it. A heap is built by the operations of object.c, runtime.c and vm.c that
create these objects and link them; `CLASS_SUPER` chains are finite in every
heap they build, so the lookup loops return.
-/

namespace Clox

/-- An object on the heap. -/
abbrev ObjId := ℕ

/-- A method as the method tables hold it: a closure, of an `ObjFunction`, or a native. -/
inductive Callable where
  | closure (id function : ℕ)
  | nativeFunction (id : ℕ)
deriving DecidableEq, Repr

/-- `Table` from names to methods. -/
abbrev MethodTable := List (String × Callable)

def MethodTable.set (t : MethodTable) (name : String) (method : Callable) : MethodTable :=
  (name, method) :: t.filter (·.1 != name)

/-- `enum MethodType` -/
inductive MethodType where
  | method
  | getter
  | setter
deriving DecidableEq, Repr

/-- The fields `ObjClass` and `ObjModule` share with `ObjInstance`. -/
structure ObjInstance where
  klass : ObjId
  singletonKlass : Option ObjId := none
deriving DecidableEq, Repr

structure ClassInfo where
  methods : MethodTable := []
  getters : MethodTable := []
  setters : MethodTable := []
  superclass : Option ObjId := none
  includedMods : List ObjId := []
deriving DecidableEq, Repr

def ClassInfo.table (info : ClassInfo) : MethodType → MethodTable
  | .method => info.methods
  | .getter => info.getters
  | .setter => info.setters

/-- `enum ObjType`, as far as lookup tells objects apart. -/
inductive ObjType where
  | inst
  | klass
  | module
  | iclass
deriving DecidableEq, Repr

inductive HeapObj where
  | inst (inst : ObjInstance)
  | klass (inst : ObjInstance) (info : ClassInfo)
  | module (inst : ObjInstance) (info : ClassInfo)
  | iclass (klass mod : ObjId) (superklass : Option ObjId) (isSetup : Bool)
deriving DecidableEq, Repr

namespace HeapObj

def type : HeapObj → ObjType
  | inst _ => .inst
  | klass .. => .klass
  | module .. => .module
  | iclass .. => .iclass

/-- The object as an `ObjInstance` (`IS_INSTANCE_LIKE`). -/
def inst? : HeapObj → Option ObjInstance
  | inst i | klass i _ | module i _ => some i
  | iclass .. => none

/-- `CLASSINFO` -/
def info? : HeapObj → Option ClassInfo
  | klass _ info | module _ info => some info
  | _ => none

/-- `CLASS_SUPER`. Of a module the macro reads the finalizer through the wrong type: null unless
one is set. -/
def super? : HeapObj → Option ObjId
  | klass _ info => info.superclass
  | iclass _ _ s _ => s
  | _ => none

def mod? : HeapObj → Option ObjId
  | iclass _ m _ _ => some m
  | _ => none

def mapInst (f : ObjInstance → ObjInstance) : HeapObj → HeapObj
  | inst i => inst (f i)
  | klass i info => klass (f i) info
  | module i info => module (f i) info
  | o => o

def mapInfo (f : ClassInfo → ClassInfo) : HeapObj → HeapObj
  | klass i info => klass i (f info)
  | module i info => module i (f info)
  | o => o

end HeapObj

/-- What lookup reads of an `ObjFunction`. -/
structure FunctionOwner where
  klass : Option ObjId := none
  ftype : FunctionType
deriving DecidableEq, Repr

structure Heap where
  objs : List HeapObj
  functions : List FunctionOwner := []
deriving DecidableEq, Repr

namespace Heap

section

variable (h : Heap)

def obj (k : ObjId) : Option HeapObj := h.objs[k]?

def typeOf (k : ObjId) : Option ObjType := (h.obj k).map HeapObj.type

def instanceOf (k : ObjId) : Option ObjInstance := (h.obj k).bind HeapObj.inst?

/-- `CLASSINFO(k)->superclass` -/
def superclass (k : ObjId) : Option ObjId :=
  ((h.obj k).bind HeapObj.info?).bind ClassInfo.superclass

/-- `CLASS_SUPER` -/
def classSuper (k : ObjId) : Option ObjId := (h.obj k).bind HeapObj.super?

def modOf (k : ObjId) : Option ObjId := (h.obj k).bind HeapObj.mod?

/-- `CLASS_METHOD_TBL`, `CLASS_GETTER_TBL` and `CLASS_SETTER_TBL`. -/
def classTbl (mtype : MethodType) (k : ObjId) : MethodTable :=
  let owner := (h.modOf k).getD k
  (((h.obj owner).bind HeapObj.info?).map fun info => info.table mtype).getD []

/-- The definition of `name` in the class, module or included module `k`. -/
def definition (mtype : MethodType) (name : String) (k : ObjId) : Option Callable :=
  (h.classTbl mtype k).lookup name

/-! ## Building a heap -/

/-- `Object`, `Module` and `Class`. -/
def lxObjClass : ObjId := 0
def lxModuleClass : ObjId := 1
def lxClassClass : ObjId := 2

/-- The hierarchy `initVM` starts with. -/
def initial : Heap where
  objs := [
    .klass ⟨lxClassClass, none⟩ {},
    .klass ⟨lxClassClass, none⟩ { superclass := some lxObjClass },
    .klass ⟨lxClassClass, none⟩ { superclass := some lxObjClass }]

def push (o : HeapObj) : Heap × ObjId :=
  ({ h with objs := h.objs ++ [o] }, h.objs.length)

def modify (k : ObjId) (f : HeapObj → HeapObj) : Heap :=
  { h with objs := h.objs.modify k f }

def newInstance (klass : ObjId) : Heap × ObjId := h.push (.inst ⟨klass, none⟩)

def newClass (superclass : Option ObjId) : Heap × ObjId :=
  h.push (.klass ⟨lxClassClass, none⟩ { superclass := superclass })

def newModule : Heap × ObjId := h.push (.module ⟨lxModuleClass, none⟩ {})

def newIClass (klass mod : ObjId) : Heap × ObjId := h.push (.iclass klass mod none false)

def setupIClass (ic : ObjId) : Heap :=
  match h.obj ic with
  | some (.iclass klass mod _ false) =>
    let origSuper := h.superclass klass
    let h := h.modify klass (.mapInfo fun info => { info with superclass := some ic })
    h.modify ic fun _ => .iclass klass mod origSuper true
  | _ => h

/-- `Class#include`, of a class and a module. -/
def lxClassInclude (klass mod : ObjId) : Heap :=
  let mods := (((h.obj klass).bind HeapObj.info?).map ClassInfo.includedMods).getD []
  if mod ∈ mods then h
  else
    let h := h.modify klass
      (.mapInfo fun info => { info with includedMods := info.includedMods ++ [mod] })
    let (h, ic) := h.newIClass klass mod
    h.setupIClass ic

/-- `instanceSingletonClass`, `classSingletonClass` and `moduleSingletonClass`: a new class with
the superclass `super`, unless there is one. -/
def singletonWith (o : ObjId) (super : Option ObjId) : Heap × Option ObjId :=
  match h.instanceOf o with
  | none => (h, none)
  | some inst =>
    match inst.singletonKlass with
    | some s => (h, some s)
    | none =>
      let (h, metaClass) := h.newClass super
      (h.modify o (.mapInst fun i => { i with singletonKlass := some metaClass }), some metaClass)

def singletonClass (o : ObjId) : Heap × Option ObjId :=
  match h.obj o with
  | some (.inst inst) => h.singletonWith o (some inst.klass)
  | some (.klass _ info) => h.singletonWith o info.superclass
  | some (.module ..) => h.singletonWith o (some lxClassClass)
  | _ => (h, none)

def newFunction (ftype : FunctionType) : Heap × ℕ :=
  ({ h with functions := h.functions ++ [⟨none, ftype⟩] }, h.functions.length)

/-- `func->klass = classOrMod`, for the function of a closure. -/
def setFunctionKlass (method : Callable) (classOrMod : ObjId) : Heap :=
  match method with
  | .closure _ f =>
    { h with functions := h.functions.modify f fun fn => { fn with klass := some classOrMod } }
  | .nativeFunction _ => h

def setMethod (mtype : MethodType) (k : ObjId) (name : String) (method : Callable) : Heap :=
  h.modify k (.mapInfo fun info =>
    match mtype with
    | .method => { info with methods := info.methods.set name method }
    | .getter => { info with getters := info.getters.set name method }
    | .setter => { info with setters := info.setters.set name method })

/-- `defineMethod`, `defineGetter` and `defineSetter`. -/
def define (mtype : MethodType) (classOrMod : ObjId) (name : String) (method : Callable) : Heap :=
  (h.setFunctionKlass method classOrMod).setMethod mtype classOrMod name method

def defineMethod := h.define .method
def defineGetter := h.define .getter
def defineSetter := h.define .setter

def defineStaticMethod (classOrMod : ObjId) (name : String) (method : Callable) : Heap :=
  match (h.setFunctionKlass method classOrMod).singletonClass classOrMod with
  | (h, some metaClass) => h.setMethod .method metaClass name method
  | (h, none) => h

end

/-- The heaps a program can build. Each step has the checks its opcode or native makes. -/
inductive Built : Heap → Prop where
  | initial : Built initial
  | newInstance {h klass} : Built h → h.typeOf klass = some .klass → Built (h.newInstance klass).1
  | newClass {h superclass} : Built h → h.typeOf superclass = some .klass →
      Built (h.newClass (some superclass)).1
  | newModule {h} : Built h → Built h.newModule.1
  | newFunction {h} (ftype : FunctionType) : Built h → Built (h.newFunction ftype).1
  | lxClassInclude {h klass mod} : Built h → h.typeOf klass = some .klass →
      h.typeOf mod = some .module → Built (h.lxClassInclude klass mod)
  | singletonClass {h} (o : ObjId) : Built h → Built (h.singletonClass o).1
  | define {h} (mtype : MethodType) (classOrMod : ObjId) (name : String) (method : Callable) :
      Built h → Built (h.define mtype classOrMod name method)
  | defineStaticMethod {h} (classOrMod : ObjId) (name : String) (method : Callable) :
      Built h → Built (h.defineStaticMethod classOrMod name method)

/-! ## Lookup -/

section

variable (h : Heap)

/-- `lookupMethod`; `none` when `fuel` rounds of its loop do not suffice. -/
def lookupMethod (fuel : ℕ) (inst : ObjInstance) (klass : ObjId) (propName : String)
    (mtype : MethodType) (lookInGivenClass : Bool) : Option (Option Callable) :=
  let start := if klass = inst.klass then inst.singletonKlass.getD klass else klass
  Linked.search h.classSuper
    (fun k => if !lookInGivenClass && k == klass then none else h.definition mtype propName k)
    fuel (some start)

/-- `instanceFindMethod` -/
def instanceFindMethod (fuel : ℕ) (inst : ObjInstance) (name : String) :
    Option (Option Callable) :=
  Linked.search h.classSuper (h.definition .method name) fuel
    (some (inst.singletonKlass.getD inst.klass))

/-- How the loop of `instanceFindGetter` goes on: from the singleton class straight to the class,
past the modules included in the singleton. -/
def getterNext (inst : ObjInstance) (k : ObjId) : Option ObjId :=
  if inst.singletonKlass = some k then some inst.klass else h.classSuper k

/-- `instanceFindGetter` -/
def instanceFindGetter (fuel : ℕ) (inst : ObjInstance) (name : String) :
    Option (Option Callable) :=
  Linked.search (h.getterNext inst) (h.definition .getter name) fuel
    (some (inst.singletonKlass.getD inst.klass))

/-- `lookupClass` in `classFindStaticMethod`: the singleton class of the class or module. -/
def lookupClass (k : ObjId) : Option ObjId :=
  (h.instanceOf ((h.modOf k).getD k)).bind ObjInstance.singletonKlass

/-- `classFindStaticMethod` -/
def classFindStaticMethod (fuel : ℕ) (o : ObjId) (inst : ObjInstance) (name : String) :
    Option (Option Callable) :=
  match Linked.search h.classSuper
      (fun k => (h.lookupClass k).bind (h.definition .method name)) fuel (some o) with
  | some none => Linked.search h.classSuper (h.definition .method name) fuel (some inst.klass)
  | r => r

end

end Heap

end Clox
