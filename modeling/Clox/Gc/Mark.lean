import Clox.Gc.Heap
import Clox.Lib.Worklist
import Mathlib.Data.Option.Basic

/-! # The roots and the marking

What the VM holds, which of it a full collection grays, and what it goes on to from there.
The program, which may be a finalizer, changes the roots at will between the steps of the
machine.
-/

namespace Clox.Gc

/-! ## What an object points at -/

namespace InstanceFields

def pointers (self : InstanceFields) : List ℕ :=
  self.klass.toList ++ self.singletonKlass.toList ++ self.finalizerFunc.toList ++ self.fields

/-- As maps and regexes are blackened: with a singleton class it is the class again that is
grayed. -/
def grayedClass (self : InstanceFields) : List ℕ :=
  self.klass.toList ++ (if self.singletonKlass.isSome then self.klass.toList else []) ++
    self.finalizerFunc.toList ++ self.fields

end InstanceFields

namespace ClassInfo

def grayed (classInfo : ClassInfo) : List ℕ :=
  classInfo.name.toList ++ classInfo.methods ++ classInfo.getters ++ classInfo.setters ++
    classInfo.constants

def pointers (classInfo : ClassInfo) : List ℕ :=
  classInfo.grayed ++ classInfo.under.toList ++ classInfo.superclass.toList ++
    classInfo.includedMods ++ classInfo.singletonOf.toList

end ClassInfo

namespace ObjBody

/-- `blackenObject` -/
def grayed : ObjBody → List ℕ
  | string self => self.pointers
  | array self shared values => self.pointers ++ if shared then [] else values
  | map self table => self.grayedClass ++ table
  | regex self => self.grayedClass
  | inst self marked => self.pointers ++ marked
  | klass self classInfo => self.pointers ++ classInfo.superclass.toList ++ classInfo.grayed
  | mod self classInfo => self.pointers ++ classInfo.grayed
  | iclass cls included superklass => included.toList ++ cls.toList ++ superklass.toList
  | function name _ localsTable varNames _ => name.toList ++ localsTable ++ varNames
  | scope func localsTable => func.toList ++ localsTable
  | nativeFunction name cls => name.toList ++ cls.toList
  | boundMethod receiver callable => receiver.toList ++ callable.toList
  | upvalue closed => closed.toList
  | closure func upvalues => func.toList ++ upvalues
  | internal marked => marked

/-- All it points at. -/
def pointers : ObjBody → List ℕ
  | string self => self.pointers
  | array self _ values => self.pointers ++ values
  | map self table => self.pointers ++ table
  | regex self => self.pointers
  | inst self marked => self.pointers ++ marked
  | klass self classInfo => self.pointers ++ classInfo.pointers
  | mod self classInfo => self.pointers ++ classInfo.pointers
  | iclass cls included superklass => included.toList ++ cls.toList ++ superklass.toList
  | function name cls localsTable varNames constants =>
    name.toList ++ cls.toList ++ localsTable ++ varNames ++ constants
  | scope func localsTable => func.toList ++ localsTable
  | nativeFunction name cls => name.toList ++ cls.toList
  | boundMethod receiver callable => receiver.toList ++ callable.toList
  | upvalue closed => closed.toList
  | closure func upvalues => func.toList ++ upvalues
  | internal marked => marked

end ObjBody

namespace Heap

def grayedBy (h : Heap) (r : ℕ) : List ℕ :=
  ((h.object r).elim [] ObjBody.grayed).filter (· < h.size)

def pointersOf (h : Heap) (r : ℕ) : List ℕ := (h.object r).elim [] ObjBody.pointers

/-- What is dark when the gray stack is empty. -/
def marked (h : Heap) (roots : List ℕ) : ℕ → Bool :=
  (Worklist.close h.grayedBy (List.range h.size) (roots.filter (· < h.size))
    fun r => (h.slot r).dark).dark

end Heap

/-! ## The VM -/

structure CallFrame where
  closure : Option ℕ
  name : Option ℕ
  scope : Option ℕ
  inst : Option ℕ
  klass : Option ℕ
  nativeFunc : Option ℕ
  file : Option ℕ
  /-- Of its `callInfo`. -/
  blockFunction : Option ℕ
  blockInstance : Option ℕ

structure VMExecContext where
  stack : List ℕ
  frames : List CallFrame
  roGlobals : List ℕ
  filename : Option ℕ
  lastValue : Option ℕ

structure BlockStackEntry where
  callable : Option ℕ
  cachedBlockClosure : Option ℕ
  blockInstance : Option ℕ

/-- The upvalue, and the object in the stack slot it refers to. -/
structure OpenUpvalue where
  upvalue : ℕ
  value : Option ℕ

structure LxThread where
  /-- the instance of class Thread -/
  inst : ℕ
  zombie : Bool
  joined : Bool
  detached : Bool
  ecs : List VMExecContext
  openUpvalues : List OpenUpvalue
  thisObj : Option ℕ
  thisStack : List ℕ
  crefStack : List ℕ
  blockStack : List BlockStackEntry
  lastValue : Option ℕ
  /-- The `errClass` and `caughtError` of the error infos. -/
  errInfo : List ℕ
  lastErrorThrown : Option ℕ
  errorToThrow : Option ℕ
  stackObjects : List ℕ
  tlsMap : Option ℕ

structure Vm where
  threads : List LxThread
  /-- Threads that run and that a collection has taken from `vm.threads`. -/
  unlisted : List LxThread
  loadedScripts : List ℕ
  globals : List ℕ
  constants : List ℕ
  strings : List ℕ
  regexLiterals : List ℕ
  autoloadTbl : List ℕ
  /-- The functions of the compilers from `current` on. -/
  compilerRoots : List ℕ
  initString : Option ℕ
  fileString : Option ℕ
  dirString : Option ℕ
  sigHandlers : List ℕ
  printBuf : Option ℕ
  exitHandlers : List ℕ
  hiddenObjs : List ℕ

namespace CallFrame

def grayed (f : CallFrame) : List ℕ :=
  f.closure.toList ++ f.inst.toList ++ f.klass.toList ++ f.scope.toList ++ f.nativeFunc.toList ++
    f.blockInstance.toList ++ f.blockFunction.toList

def pointers (f : CallFrame) : List ℕ := f.grayed ++ f.name.toList ++ f.file.toList

end CallFrame

namespace LxThread

/-- No one can ask for it any more. -/
def reapable (th : LxThread) : Bool := th.zombie && (th.joined || th.detached)

def blocks (th : LxThread) : List ℕ :=
  th.blockStack.flatMap fun b =>
    b.callable.toList ++ b.cachedBlockClosure.toList ++ b.blockInstance.toList

/-- Grayed in the first loop on the threads. -/
def grayedFirst (th : LxThread) : List ℕ :=
  th.inst :: th.thisObj.toList ++ th.lastValue.toList ++ th.tlsMap.toList ++
    th.lastErrorThrown.toList ++ (th.ecs.flatMap fun ctx => ctx.roGlobals ++ ctx.stack) ++ th.blocks

/-- Grayed in the loop on the frame functions. -/
def grayedFrames (th : LxThread) : List ℕ :=
  (th.ecs.flatMap fun ctx =>
      ctx.filename.toList ++ ctx.lastValue.toList ++ ctx.frames.flatMap CallFrame.grayed) ++
    th.openUpvalues.flatMap fun up => up.value.toList

def pointers (th : LxThread) : List ℕ :=
  th.grayedFirst ++ th.stackObjects ++ th.grayedFrames ++ th.thisStack ++ th.crefStack ++
    th.errInfo ++ th.errorToThrow.toList ++ th.openUpvalues.map OpenUpvalue.upvalue ++
    th.ecs.flatMap fun ctx => ctx.frames.flatMap CallFrame.pointers

end LxThread

namespace Vm

/-- `vec_splice(&vm.threads, zombieIdx, 1)`; none if it is past the end, where a negative
number of bytes is moved. -/
def splice (threads : List LxThread × List LxThread) (zombieIdx : ℕ) :
    Option (List LxThread × List LxThread) :=
  match threads.1[zombieIdx]? with
  | none => none
  | some th => some (threads.1.eraseIdx zombieIdx, threads.2 ++ [th])

/-- The zombies are taken from `vm.threads`, at the indices they had before the first of them
was. -/
def reap (vm : Vm) : Option Vm := do
  let zombies := (vm.threads.zipIdx.filter fun th => th.1.reapable).map Prod.snd
  let (threads, spliced) ← zombies.foldlM splice (vm.threads, [])
  some { vm with
    threads := threads, unlisted := vm.unlisted ++ spliced.filter fun th => !th.reapable }

def listed (vm : Vm) : List LxThread := vm.threads.filter fun th => !th.reapable

/-- `v_stackObjs` -/
def stackObjs (vm : Vm) : List ℕ := vm.listed.flatMap LxThread.stackObjects

/-- The roots other than those of the threads. -/
def shared (vm : Vm) : List ℕ :=
  vm.loadedScripts ++ vm.globals ++ vm.constants ++ vm.strings ++ vm.regexLiterals ++
    vm.autoloadTbl ++ vm.compilerRoots ++ vm.initString.toList ++ vm.fileString.toList ++
    vm.dirString.toList ++ vm.sigHandlers ++ vm.printBuf.toList ++ vm.exitHandlers ++
    vm.hiddenObjs

/-- What `collectGarbage` grays; `after` is the VM without the zombies. -/
def grayRoots (vm after : Vm) : List ℕ :=
  vm.listed.flatMap LxThread.grayedFirst ++ after.threads.flatMap LxThread.stackObjects ++
    after.threads.flatMap LxThread.grayedFrames ++ vm.shared

/-- All that the VM points at. -/
def roots (vm : Vm) : List ℕ :=
  (vm.listed ++ vm.unlisted).flatMap LxThread.pointers ++ vm.shared

end Vm

/-! ## The program and the collector -/

structure Process where
  machine : Machine
  vm : Vm

inductive Action
  /-- A step that marks nothing. -/
  | heap (op : Op)
  | vm (vm : Vm)
  | collectGarbage

/-- `collectGarbage`; none if its assertion on the hidden objects fails. -/
def Process.collectGarbage (s : Process) : Option Process := do
  let h := s.machine.heap
  if !h.gcOn then some s
  else if s.vm.hiddenObjs.any fun r => !(h.slot r).hidden then none
  else
    let after ← s.vm.reap
    let m ← Gc.collectGarbage (h.marked (s.vm.grayRoots after)) s.vm.stackObjs s.machine
    some ⟨m, after⟩

def Process.step (s : Process) : Action → Option Process
  | .heap (.collectGarbage _ _) => none
  | .heap op => do
    let m ← s.machine.step op
    some { s with machine := m }
  | .vm vm => some { s with vm := vm }
  | .collectGarbage => s.collectGarbage

end Clox.Gc
