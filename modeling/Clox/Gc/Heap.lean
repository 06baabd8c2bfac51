import Mathlib.Data.List.Range
import Mathlib.Logic.Function.Basic

/-! # The object heap and its collectors

The heap of `memory.c`: pages of equal slots, a list of the free ones, and two collectors.
A full collection calls finalizers between marking and sweeping; a finalizer is code of the
program, which allocates, stores and collects in its turn. So the machine keeps the
collections that wait for a finalizer on a stack, and is at all times where code of the
program runs.

The slots are counted through all pages, and the number of a slot is the address of the
object in it. What the collectors find when they mark is a parameter here.
-/

namespace Clox.Gc

/-! ## Objects -/

/-- What instance-like objects begin with; of a table, the objects among its keys and
values. -/
structure InstanceFields where
  klass : Option ℕ
  singletonKlass : Option ℕ
  finalizerFunc : Option ℕ
  fields : List ℕ

structure ClassInfo where
  methods : List ℕ
  getters : List ℕ
  setters : List ℕ
  constants : List ℕ
  name : Option ℕ
  under : Option ℕ
  superclass : Option ℕ
  includedMods : List ℕ
  singletonOf : Option ℕ

/-- The type of an object and the objects it points at. -/
inductive ObjBody
  | string (self : InstanceFields)
  | array (self : InstanceFields) (shared : Bool) (values : List ℕ)
  | map (self : InstanceFields) (table : List ℕ)
  | regex (self : InstanceFields)
  /-- `internal`: what the `markFunc` of its internal object grays. -/
  | inst (self : InstanceFields) (internal : List ℕ)
  | klass (self : InstanceFields) (classInfo : ClassInfo)
  | mod (self : InstanceFields) (classInfo : ClassInfo)
  | iclass (klass mod superklass : Option ℕ)
  | function (name klass : Option ℕ) (localsTable varNames constants : List ℕ)
  | scope (function : Option ℕ) (localsTable : List ℕ)
  | nativeFunction (name klass : Option ℕ)
  | boundMethod (receiver callable : Option ℕ)
  | upvalue (closed : Option ℕ)
  | closure (function : Option ℕ) (upvalues : List ℕ)
  | internal (marked : List ℕ)

namespace ObjBody

/-- `isInstanceLikeObj` -/
def self? : ObjBody → Option InstanceFields
  | string self | array self _ _ | map self _ | regex self | inst self _ | klass self _
  | mod self _ => some self
  | _ => none

/-- `instance->finalizerFunc = callable` -/
def setFinalizerFunc (callable : Option ℕ) : ObjBody → ObjBody
  | string self => string { self with finalizerFunc := callable }
  | array self shared values => array { self with finalizerFunc := callable } shared values
  | map self table => map { self with finalizerFunc := callable } table
  | regex self => regex { self with finalizerFunc := callable }
  | inst self marked => inst { self with finalizerFunc := callable } marked
  | klass self classInfo => klass { self with finalizerFunc := callable } classInfo
  | mod self classInfo => mod { self with finalizerFunc := callable } classInfo
  | body => body

def finalizerFunc (body : ObjBody) : Option ℕ := body.self?.bind InstanceFields.finalizerFunc

def isInst : ObjBody → Bool
  | inst _ _ => true
  | _ => false

end ObjBody

/-- A slot; without a body its type is `OBJ_T_NONE`. The header is that of the last object
until the slot is used again. -/
structure Slot where
  body : Option ObjBody
  dark : Bool
  /-- `OBJ_FLAG_NOGC` -/
  hidden : Bool
  gen : ℕ
  nextFree : Option ℕ

/-- The static variables of `memory.c`, and the slots of all pages. -/
structure Heap where
  size : ℕ
  slot : ℕ → Slot
  freeList : Option ℕ
  youngStack : List ℕ
  rememberSet : List ℕ
  activeFinalizers : ℤ
  inGC : Bool
  dontGC : Bool
  gcOn : Bool

@[irreducible] def heapSlots : ℕ := 10000

@[irreducible] def freeMin : ℕ := 500

def youngMarkStackMax : ℕ := 5000

def genMax : ℕ := 4

namespace Heap

/-- The object at an address, which is none outside the pages. -/
def object (h : Heap) (r : ℕ) : Option ObjBody := if r < h.size then (h.slot r).body else none

def setSlot (h : Heap) (r : ℕ) (s : Slot) : Heap :=
  { h with slot := Function.update h.slot r s }

/-- `r` becomes the head of the free list and its type `OBJ_T_NONE`. -/
def pushFree (h : Heap) (r : ℕ) : Heap :=
  { h.setSlot r { h.slot r with body := none, nextFree := h.freeList } with freeList := some r }

section

variable (h : Heap) (r : ℕ) (s : Slot) {q : ℕ}

@[simp] theorem setSlot_self : (h.setSlot r s).slot r = s := Function.update_self ..

theorem setSlot_of_ne (hq : q ≠ r) : (h.setSlot r s).slot q = h.slot q :=
  Function.update_of_ne hq ..

@[simp] theorem setSlot_size : (h.setSlot r s).size = h.size := rfl

@[simp] theorem setSlot_freeList : (h.setSlot r s).freeList = h.freeList := rfl

@[simp] theorem setSlot_youngStack : (h.setSlot r s).youngStack = h.youngStack := rfl

@[simp] theorem pushFree_self :
    (h.pushFree r).slot r = { h.slot r with body := none, nextFree := h.freeList } :=
  setSlot_self ..

theorem pushFree_of_ne (hq : q ≠ r) : (h.pushFree r).slot q = h.slot q := setSlot_of_ne h r _ hq

@[simp] theorem pushFree_size : (h.pushFree r).size = h.size := rfl

@[simp] theorem pushFree_freeList : (h.pushFree r).freeList = some r := rfl

@[simp] theorem pushFree_youngStack : (h.pushFree r).youngStack = h.youngStack := rfl

end

/-- A new page: each slot is linked in front of those before it. -/
def addHeap (h : Heap) : Heap :=
  { (List.range' h.size heapSlots).foldl pushFree h with size := h.size + heapSlots }

/-- `GCPromoteOnce` -/
def promoteOnce (s : Slot) : Slot := if s.gen = genMax then s else { s with gen := s.gen + 1 }

/-- A collector is done with the slot: `GC_PROMOTE_ONCE`, `OBJ_UNSET_DARK`. -/
def keep (s : Slot) : Slot := { promoteOnce s with dark := false }

/-! ## Allocation -/

/-- The round of `getNewObject` that finds a free slot it may use; its other rounds collect or
add a page. `allocateObject` then sets up the header and its callers the fields, without a
finalizer. -/
def getNewObject (h : Heap) (body : ObjBody) (isOld isHidden triedYoungCollect : Bool) :
    Option Heap :=
  match h.freeList with
  | none => none
  | some r =>
    if isOld || decide (h.youngStack.length < youngMarkStackMax) || triedYoungCollect then
      let youngStack :=
        if !isOld && decide (h.youngStack.length < youngMarkStackMax) then h.youngStack ++ [r]
        else h.youngStack
      let gen := if isOld then genMax else 0
      some { h.setSlot r { h.slot r with body := some (body.setFinalizerFunc none), dark := false,
                                         hidden := isHidden, gen := gen } with
        freeList := (h.slot r).nextFree, youngStack := youngStack }
    else none

/-! ## The young collection -/

/-- One object of the young stack. `dark` is what the marking of the young objects finds. -/
def sweepYoung (dark : ℕ → Bool) (h : Heap) (r : ℕ) : Heap :=
  let s := h.slot r
  if s.gen > 0 || s.hidden then h.setSlot r { s with dark := false }
  else if h.activeFinalizers > 0 &&
      s.body.any (fun b => b.isInst && b.finalizerFunc.isSome) then
    -- the full collection deals with finalizers
    h.setSlot r (keep s)
  else if s.dark || dark r then h.setSlot r (keep s)
  else if r ∈ h.rememberSet then h.setSlot r (keep s)
  else h.pushFree r

/-- `collectYoungGarbage`; none if its assertion that no collection is on fails. -/
def collectYoungGarbage (dark : ℕ → Bool) (h : Heap) : Option Heap :=
  if !h.gcOn then some h
  else if h.inGC then none
  else if h.youngStack = [] then some h
  else some { h.youngStack.foldl (sweepYoung dark) h with rememberSet := [], youngStack := [] }

/-! ## The full collection -/

/-- `grayObject` of what the marking finds. -/
def mark (dark : ℕ → Bool) (h : Heap) : Heap :=
  { h with slot := fun r =>
      let s := h.slot r
      if dark r && !s.dark then
        { s with dark := true, gen := if s.gen < genMax then s.gen + 1 else s.gen }
      else s }

/-- Phase 2 at one slot. The count of freed objects goes up by two for each. -/
def sweepSlot (stackObjs : List ℕ) (hn : Heap × ℕ) (r : ℕ) : Heap × ℕ :=
  let (h, freed) := hn
  let s := h.slot r
  if s.body.isNone then (h, freed)
  else if !s.dark && !s.hidden then
    if r ∈ stackObjs then (h, freed) else (h.pushFree r, freed + 2)
  else if s.hidden && !s.dark then (h, freed)
  else (h.setSlot r (keep s), freed)

/-- Phase 2, and the end of `collectGarbage`. -/
def sweep (stackObjs : List ℕ) (h : Heap) : Heap :=
  let swept := (List.range h.size).foldl (sweepSlot stackObjs) (h, 0)
  let h := if swept.2 < freeMin then swept.1.addHeap else swept.1
  { h with rememberSet := [], youngStack := [], inGC := false }

/-- Phase 2 of `freeObjects`: every object is freed, and the pages are given back. -/
def freeAll (h : Heap) : Heap :=
  { h with size := 0, freeList := none, youngStack := [], inGC := false }

def hasFinalizer (h : Heap) (r : ℕ) : Bool :=
  (h.object r).any fun b => b.finalizerFunc.isSome

/-- `objWrite` remembers a young object that is pointed at. -/
def objWrite (h : Heap) (pointed : ℕ) : Heap :=
  if (h.slot pointed).gen = 0 then { h with rememberSet := h.rememberSet ++ [pointed] } else h

/-- The object has had no finalizer. -/
def addFinalizer (h : Heap) (r : ℕ) : Heap :=
  { h.setSlot r (promoteOnce (h.slot r)) with activeFinalizers := h.activeFinalizers + 1 }

/-- `setObjectFinalizer`; none if the object is not instance-like. -/
def setObjectFinalizer (h : Heap) (r callable : ℕ) : Option Heap :=
  match h.object r with
  | none => none
  | some body =>
    if body.self?.isNone then none
    else
      let h := if body.finalizerFunc.isNone then h.addFinalizer r else h
      let h := h.objWrite callable
      some (h.setSlot r { h.slot r with body := some (body.setFinalizerFunc (some callable)) })

/-- `callFinalizer`, up to the call. -/
def enterFinalizer (h : Heap) : Heap := { h with inGC := false, dontGC := true }

/-- `callFinalizer`, from the return on. -/
def leaveFinalizer (h : Heap) (r : ℕ) : Heap :=
  { h.setSlot r { h.slot r with body := (h.slot r).body.map (ObjBody.setFinalizerFunc none) } with
    inGC := true, dontGC := false, activeFinalizers := h.activeFinalizers - 1 }

end Heap

/-! ## The machine -/

/-- What calls finalizers in a phase 1. -/
inductive Collector
  /-- `collectGarbage`, with the copy of the threads' stack objects it has made. -/
  | full (stackObjs : List ℕ)
  /-- `freeObjects`, when the VM shuts down. -/
  | final

/-- Phase 1 leaves out what phase 2 keeps. -/
def Collector.keeps (h : Heap) (r : ℕ) : Collector → Bool
  | full stackObjs => (h.slot r).dark || (h.slot r).hidden || decide (r ∈ stackObjs)
  | final => false

def Heap.finalizable (h : Heap) (c : Collector) (r : ℕ) : Bool :=
  !c.keeps h r && h.hasFinalizer r

def Collector.phase2 (h : Heap) : Collector → Heap
  | full stackObjs => h.sweep stackObjs
  | final => h.freeAll

/-- A collector in phase 1 that waits for the finalizer of the object at `cursor`. -/
structure Scan where
  collector : Collector
  cursor : ℕ

structure Machine where
  heap : Heap
  scans : List Scan

/-- Phase 1 from the slot `r` on: it stops at the first finalizer it calls, or goes on to
phase 2, for which `collectGarbage` begins a new free list. -/
def scanFrom (h : Heap) (scans : List Scan) (c : Collector) (r : ℕ) : Machine :=
  match (List.range' r (h.size - r)).find? (h.finalizable c) with
  | some cursor => ⟨h.enterFinalizer, ⟨c, cursor⟩ :: scans⟩
  | none => ⟨c.phase2 { h with freeList := none }, scans⟩

/-- `collectGarbage`, up to its end or the first finalizer; none if its assertion that no
collection is on fails. -/
def collectGarbage (dark : ℕ → Bool) (stackObjs : List ℕ) (m : Machine) : Option Machine :=
  if !m.heap.gcOn then some m
  else if m.heap.inGC then none
  else
    let h := { m.heap.mark dark with inGC := true, freeList := none }
    if h.activeFinalizers = 0 then some ⟨h.sweep stackObjs, m.scans⟩
    else some (scanFrom h m.scans (.full stackObjs) 0)

/-- `freeObjects`, up to its end or the first finalizer. -/
def freeObjects (m : Machine) : Machine :=
  if m.heap.activeFinalizers = 0 then ⟨m.heap.freeAll, m.scans⟩
  else scanFrom m.heap m.scans .final 0

/-- The finalizer that was called last returns to the collector that waits for it. -/
def finalizerReturns (m : Machine) : Option Machine :=
  match m.scans with
  | [] => none
  | ⟨c, cursor⟩ :: scans =>
    let h := m.heap.leaveFinalizer cursor
    if h.activeFinalizers = 0 then some ⟨c.phase2 h, scans⟩
    else some (scanFrom h scans c (cursor + 1))

/-- An error leaves the finalizer that was called last: the `longjmp` leaves the collector that
waits for it as it is. -/
def finalizerThrows (m : Machine) : Option Machine :=
  match m.scans with
  | [] => none
  | _ :: scans => some { m with scans := scans }

/-- The fields of an object are written, other than the one of its finalizer. -/
structure FieldWrite where
  apply : ObjBody → ObjBody
  finalizerFunc : ∀ b, (apply b).finalizerFunc = b.finalizerFunc

/-- What the program does to the heap; also a finalizer does these. -/
inductive Op
  | getNewObject (body : ObjBody) (isOld isHidden triedYoungCollect : Bool)
  | addHeap
  | collectYoungGarbage (dark : ℕ → Bool)
  | collectGarbage (dark : ℕ → Bool) (stackObjs : List ℕ)
  | freeObjects
  | finalizerReturns
  | finalizerThrows
  | setObjectFinalizer (r callable : ℕ)
  | write (r : ℕ) (f : FieldWrite)
  | objWrite (pointed : ℕ)
  /-- `hideFromGC`, `unhideFromGC` -/
  | setHidden (r : ℕ) (hidden : Bool)
  /-- `GCPromote`, which no caller asks for generation 0. -/
  | promote (r : ℕ) (gen : ℕ)
  | setGCOnOff (on : Bool)

def Machine.step (m : Machine) : Op → Option Machine
  | .getNewObject body isOld isHidden tried => do
    let h ← m.heap.getNewObject body isOld isHidden tried
    some { m with heap := h }
  | .addHeap => some { m with heap := m.heap.addHeap }
  | .collectYoungGarbage dark => do
    let h ← m.heap.collectYoungGarbage dark
    some { m with heap := h }
  | .collectGarbage dark stackObjs => Gc.collectGarbage dark stackObjs m
  | .freeObjects => some (Gc.freeObjects m)
  | .finalizerReturns => Gc.finalizerReturns m
  | .finalizerThrows => Gc.finalizerThrows m
  | .setObjectFinalizer r callable => do
    let h ← m.heap.setObjectFinalizer r callable
    some { m with heap := h }
  | .write r f =>
    let s := m.heap.slot r
    some { m with heap := m.heap.setSlot r { s with body := s.body.map f.apply } }
  | .objWrite pointed => some { m with heap := m.heap.objWrite pointed }
  | .setHidden r hidden =>
    some { m with heap := m.heap.setSlot r { m.heap.slot r with hidden := hidden } }
  | .promote r gen =>
    if gen = 0 then none
    else some { m with heap := m.heap.setSlot r { m.heap.slot r with gen := min gen genMax } }
  | .setGCOnOff on => some { m with heap := { m.heap with gcOn := on } }

/-- The static variables as they are initialised, and no page. -/
def initialMachine (slot : ℕ → Slot) : Machine where
  heap :=
    { size := 0, slot := slot, freeList := none, youngStack := [], rememberSet := [],
      activeFinalizers := 0, inGC := false, dontGC := false, gcOn := true }
  scans := []

end Clox.Gc
