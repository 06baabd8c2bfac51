import Mathlib.Logic.Function.Basic
import Clox.Compiler.State

/-! # Local variables and upvalues at run time

The operand stack, the call frames with their locals tables, and the
`ObjUpvalue`s through which closures reach a variable of an enclosing
function. A local lives in its stack slot and in the locals table of its
frame; an upvalue points at the stack slot while it is open and holds its own
copy once it is closed. Values are any type with a `NIL_VAL`.
-/

namespace Clox

/-- An upvalue object. -/
abbrev UpvalueId := ℕ

structure ObjUpvalue (V : Type) where
  /-- The stack slot `value` points at, `none` when it points at `closed`. -/
  value : Option ℕ
  closed : V
deriving DecidableEq, Repr

/-- What the opcodes for variables use of a `CallFrame`. -/
structure CallFrame (V : Type) where
  /-- Index of `slots[0]` on the stack. -/
  slots : ℕ
  /-- `scope->localsTable`, as long as its `size`. -/
  localsTable : List V
  /-- `closure->upvalues` -/
  upvalues : List UpvalueId
deriving DecidableEq, Repr

structure LocalsState (V : Type) where
  stack : ℕ → V
  stackTop : ℕ
  /-- Innermost first. -/
  frames : List (CallFrame V)
  /-- Every `ObjUpvalue`, by id. -/
  upvalues : List (ObjUpvalue V) := []
  /-- `openUpvalues`, top of the stack first. -/
  openUpvalues : List UpvalueId := []
  /-- The upvalues of every `ObjClosure`, by id. -/
  closures : List (List UpvalueId) := []

/-- The opcodes that touch local variables. Every other opcode pushes values and drops values. -/
inductive LocalsOp (V : Type) where
  | push (v : V)
  | drop (n : ℕ)
  | getLocal (slot : ℕ)
  | setLocal (slot : ℕ)
  | unpackSetLocal (slot unpackIdx : ℕ)
  | getUpvalue (slot : ℕ)
  | setUpvalue (slot : ℕ)
  | closeUpvalue
  /-- `OP_CLOSURE` of the closure object `v`. -/
  | closure (v : V) (descriptors : List Upvalue)
  /-- A call: `slots` is `numSlots` below the top, the function has `localCount` locals. -/
  | call (closure numSlots localCount : ℕ)
  /-- A frame is popped by an error. -/
  | unwind
  | return
deriving Repr

/-- `growLocalsTable` to at least `size` entries. -/
def growLocalsTable {V : Type} [Inhabited V] (tbl : List V) (size : ℕ) : List V :=
  tbl ++ List.replicate (size - tbl.length) default

namespace LocalsState

variable {V : Type} (st : LocalsState V)

def push (v : V) : LocalsState V :=
  { st with stack := Function.update st.stack st.stackTop v, stackTop := st.stackTop + 1 }

def pushN : ℕ → V → LocalsState V
  | 0, _ => st
  | n + 1, v => (pushN n v).push v

def drop (n : ℕ) : LocalsState V := { st with stackTop := st.stackTop - n }

/-- `VM_PEEK` -/
def peek (n : ℕ) : V := st.stack (st.stackTop - 1 - n)

def upvalueAddr (u : UpvalueId) : Option ℕ := (st.upvalues[u]?).bind ObjUpvalue.value

/-! ## Reading -/

/-- What `OP_GET_LOCAL` reads in the frame. -/
def readLocal (frame : CallFrame V) (slot : ℕ) : V :=
  (frame.localsTable[slot]?).getD (st.stack (frame.slots + slot))

/-- `*upvalue->value` -/
def readUpvalue (u : UpvalueId) : Option V :=
  (st.upvalues[u]?).map fun o =>
    match o.value with
    | some a => st.stack a
    | none => o.closed

/-! ## Writing -/

/-- `*upvalue->value = v` -/
def writeUpvalue (u : UpvalueId) (v : V) : LocalsState V :=
  match st.upvalueAddr u with
  | some a => { st with stack := Function.update st.stack a v }
  | none => { st with upvalues := st.upvalues.modify u fun o => { o with closed := v } }

/-- Store `v` in a local of the innermost frame, on the stack and in the table. -/
def storeLocal (frame : CallFrame V) (rest : List (CallFrame V)) (slot : ℕ) (v : V)
    (tbl : List V) : LocalsState V :=
  { st with
    stack := Function.update st.stack (frame.slots + slot) v
    frames := { frame with localsTable := tbl.set slot v } :: rest }

/-! ## Upvalues -/

/-- The new upvalue for `loc`, linked in between `above` and `rest`. -/
def linkUpvalue [Inhabited V] (loc : ℕ) (above rest : List UpvalueId) : LocalsState V :=
  { st with
    upvalues := st.upvalues ++ [⟨some loc, default⟩]
    openUpvalues := above ++ st.upvalues.length :: rest }

/-- `upvalue->value > local` -/
def pointsAbove (loc : ℕ) (u : UpvalueId) : Bool :=
  match st.upvalueAddr u with
  | some a => decide (loc < a)
  | none => false

/-- `captureUpvalue` -/
def captureUpvalue [Inhabited V] (loc : ℕ) : LocalsState V × UpvalueId :=
  let above := st.openUpvalues.takeWhile (st.pointsAbove loc)
  let rest := st.openUpvalues.dropWhile (st.pointsAbove loc)
  match rest.head? with
  | some u =>
    if st.upvalueAddr u = some loc then (st, u)
    else (st.linkUpvalue loc above rest, st.upvalues.length)
  | none => (st.linkUpvalue loc above rest, st.upvalues.length)

/-- `upvalue->value >= last` -/
def pointsFrom (last : ℕ) (u : UpvalueId) : Bool :=
  match st.upvalueAddr u with
  | some a => decide (last ≤ a)
  | none => false

/-- An upvalue that gets its own copy of the value. -/
def close (o : ObjUpvalue V) : ObjUpvalue V :=
  match o.value with
  | some a => ⟨none, st.stack a⟩
  | none => o

/-- `closeUpvalues` -/
def closeUpvalues (last : ℕ) : LocalsState V :=
  let popped := st.openUpvalues.takeWhile (st.pointsFrom last)
  { st with
    upvalues := st.upvalues.mapIdx fun u o => if u ∈ popped then st.close o else o
    openUpvalues := st.openUpvalues.dropWhile (st.pointsFrom last) }

/-- The loop of `OP_CLOSURE` over the descriptors: the closure's upvalues. -/
def captureAll [Inhabited V] (frame : CallFrame V) :
    List Upvalue → LocalsState V → Option (LocalsState V × List UpvalueId)
  | [], st => some (st, [])
  | d :: ds, st =>
    if d.isLocal then
      let (st, u) := st.captureUpvalue (frame.slots + d.index)
      (captureAll frame ds st).map fun (st, us) => (st, u :: us)
    else
      match frame.upvalues[d.index]? with
      | some u => (captureAll frame ds st).map fun (st, us) => (st, u :: us)
      | none => none

/-! ## Frames -/

/-- The table of a new frame: `newScope`, then `setupLocalsTable`. -/
def newTable [Inhabited V] (slots numSlots localCount : ℕ) : List V :=
  (List.range numSlots).map (fun i => st.stack (slots + i)) ++
    (List.replicate localCount default).drop numSlots

/-- `popFrame`, and the stack back to the frame's slots. -/
def popFrame (frame : CallFrame V) (rest : List (CallFrame V)) : LocalsState V :=
  { st.closeUpvalues frame.slots with stackTop := frame.slots, frames := rest }

/-- One opcode; `none` where it is not executed in such a state. `unpackValue` takes an element
out of an array and any other value as it is. -/
def step [Inhabited V] (unpackValue : V → ℕ → V) : LocalsOp V → Option (LocalsState V)
  | .push v => some (st.push v)
  | .drop n => if n ≤ st.stackTop then some (st.drop n) else none
  | .getLocal slot =>
    match st.frames with
    | frame :: _ => some (st.push (st.readLocal frame slot))
    | [] => none
  | .setLocal slot =>
    match st.frames with
    | frame :: rest =>
      some (st.storeLocal frame rest slot (st.peek 0) (growLocalsTable frame.localsTable (slot + 1)))
    | [] => none
  | .unpackSetLocal slot unpackIdx =>
    match st.frames with
    | frame :: rest =>
      let peekIdx := frame.slots + slot + 1 - st.stackTop
      let st := st.pushN peekIdx default
      let val := unpackValue (st.peek (peekIdx + unpackIdx)) unpackIdx
      -- the table is not grown here: a slot behind it would be out of bounds
      if slot < frame.localsTable.length then
        some (st.storeLocal frame rest slot val frame.localsTable)
      else none
    | [] => none
  | .getUpvalue slot =>
    match st.frames with
    | frame :: _ => ((frame.upvalues[slot]?).bind st.readUpvalue).map st.push
    | [] => none
  | .setUpvalue slot =>
    match st.frames with
    | frame :: _ => (frame.upvalues[slot]?).map fun u => st.writeUpvalue u (st.peek 0)
    | [] => none
  | .closeUpvalue =>
    if 0 < st.stackTop then some ((st.closeUpvalues (st.stackTop - 1)).drop 1) else none
  | .closure v descriptors =>
    match st.frames with
    | frame :: _ =>
      (captureAll frame descriptors (st.push v)).map fun (st, us) =>
        { st with closures := st.closures ++ [us] }
    | [] => none
  | .call closure numSlots localCount =>
    match st.closures[closure]? with
    | some upvalues =>
      if numSlots ≤ st.stackTop then
        let slots := st.stackTop - numSlots
        let localsTable := st.newTable slots numSlots localCount
        some { st with frames := { slots, localsTable, upvalues } :: st.frames }
      else none
    | none => none
  | .unwind =>
    match st.frames with
    | frame :: rest => some (st.popFrame frame rest)
    | [] => none
  | .return =>
    match st.frames with
    | frame :: rest => some ((st.popFrame frame rest).push (st.peek 0))
    | [] => none

/-- The stack at the start of a script with `localCount` locals. -/
def initial [Inhabited V] (localCount : ℕ) : LocalsState V where
  stack := fun _ => default
  stackTop := 0
  frames := [{ slots := 0, localsTable := List.replicate localCount default, upvalues := [] }]

end LocalsState

end Clox
