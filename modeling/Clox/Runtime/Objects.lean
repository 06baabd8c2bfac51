import Clox.Lib.Commands
import Clox.Lib.Sharing
import Mathlib.Data.Int.Notation

/-! # Strings, arrays, maps and instances as objects

The objects with their flags, the memory that `reallocate` hands out, and the functions of
`object.c`, `value.c` and `string.c` that write to them. A string and an array only hold the
address of their storage, so two of them can hold the same. A double is the `int` that the
natives cast it to. A write beyond the end of a block is lost; the natives make one in a single
place (`arrayDeleteAt`), where it is the stop `wild`.
-/

namespace Clox.Objects

open Commands Sharing

/-! ## Data -/

inductive Value
  | nil
  | bool (b : Bool)
  | number (n : ℤ)
  | obj (r : ℕ)
  deriving DecidableEq, Repr

/-- What a block holds: the `char`s of a string or the `Value`s of an array. -/
inductive Cell
  | char (c : UInt8)
  | value (v : Value)
  deriving DecidableEq, Repr

abbrev Cells := List (Option Cell)

/-- The entries of a `Table`. -/
abbrev Table := List (Value × Value)

structure ObjString where
  isStatic : Bool
  isInterned : Bool
  isShared : Bool
  length : ℕ
  chars : Option ℕ
  hash : UInt32
  capacity : ℕ
  deriving DecidableEq, Repr

structure ObjArray where
  isShared : Bool
  isStatic : Bool
  values : Option ℕ
  capacity : ℕ
  count : ℕ
  deriving DecidableEq, Repr

/-- The part of an object that depends on its type. -/
inductive Body
  | string (s : ObjString)
  | array (a : ObjArray)
  | map (table : Table)
  /-- An instance of `Error`; `controlFlow`: of `lxBlockIterErrClass`. -/
  | error (controlFlow : Bool)
  | plain
  deriving DecidableEq, Repr

structure Obj where
  frozen : Bool
  /-- `klass` is the built-in class itself, not a subclass of it. -/
  builtin : Bool
  fields : Table
  body : Body
  deriving DecidableEq, Repr

/-- `strings` are the keys of `vm.strings`. -/
structure Heap where
  objs : List Obj
  mem : Blocks Cell
  strings : List ℕ

inductive ErrClass
  | error
  | argumentError
  | typeError
  | nameError
  deriving DecidableEq, Repr

inductive ArgType
  | string
  | map
  | exactArray
  | number
  deriving DecidableEq, Repr

/-- The errors that the functions throw, with what goes into their messages. -/
inductive Thrown
  /-- `CHECK_ARITY` -/
  | arity (min : ℕ) (max : Option ℕ) (argCount : ℕ)
  /-- "Expected argument %d to be ..." -/
  | argType (argnum : ℕ) (expected : ArgType)
  /-- "... is frozen, cannot modify" -/
  | frozen (what : String)
  | message (klass : ErrClass) (format : String)
  /-- An error object of the program. -/
  | user (err : ℕ)
  deriving DecidableEq, Repr

/-- Why a function does not return. -/
inductive Stop
  | thrown (e : Thrown)
  /-- An `ASSERT` failed. -/
  | aborted
  /-- A value was used as an object that it is not, or a null pointer as a block. -/
  | segfault
  /-- Memory outside of the block was written. -/
  | wild
  deriving DecidableEq, Repr

abbrev Exec := Command Heap Stop

/-- What a native that only reads can make of what it reads. -/
inductive Made
  | value (v : Value)
  | string (chars : List UInt8)
  | array (els : List Value)
  | map (entries : List (Value × Value))
  | plain
  deriving DecidableEq, Repr

/-- What the functions rely on and do not decide themselves. -/
structure Env where
  /-- `realloc` of the block at an address to a size leaves it where it is. -/
  stays : ℕ → ℕ → Bool
  /-- What tells one key from another for `valHash` and `valEqual`. -/
  keyOf : Value → ℕ
  /-- `valueToString` -/
  shown : Value → List UInt8
  /-- `qsort`; `none` where a comparison throws. -/
  sorted : Cells → Option Cells
  /-- What a reading native makes; `none` where it throws. -/
  made : Option Made

/-! ## The heap -/

/-- What a string or an array has of the memory. A string that is interned or shared and an array
that is static or shared may have the block together with others. -/
inductive Kind
  | string
  | array
  | other
  deriving DecidableEq, Repr

def Body.handle : Body → Option (Handle Kind)
  | .string s => some ⟨.string, s.chars, s.isShared || s.isInterned⟩
  | .array a => some ⟨.array, a.values, a.isShared || a.isStatic⟩
  | _ => none

namespace Heap

def empty : Heap := ⟨[], Blocks.empty, []⟩

def string? (h : Heap) (r : ℕ) : Option ObjString :=
  match h.objs[r]? with
  | some ⟨_, _, _, .string s⟩ => some s
  | _ => none

def array? (h : Heap) (r : ℕ) : Option ObjArray :=
  match h.objs[r]? with
  | some ⟨_, _, _, .array a⟩ => some a
  | _ => none

def map? (h : Heap) (r : ℕ) : Option Table :=
  match h.objs[r]? with
  | some ⟨_, _, _, .map t⟩ => some t
  | _ => none

/-- `isFrozen` -/
def isFrozen (h : Heap) (r : ℕ) : Bool := (h.objs[r]?.map Obj.frozen).getD false

def setBody (h : Heap) (r : ℕ) (b : Body) : Heap :=
  { h with objs := h.objs.modify r fun o => { o with body := b } }

def setFields (h : Heap) (r : ℕ) (t : Table) : Heap :=
  { h with objs := h.objs.modify r fun o => { o with fields := t } }

def setFrozen (h : Heap) (r : ℕ) (frozen : Bool) : Heap :=
  { h with objs := h.objs.modify r fun o => { o with frozen } }

def addObj (h : Heap) (o : Obj) : Heap := { h with objs := h.objs ++ [o] }

def handle (h : Heap) (r : ℕ) : Option (Handle Kind) := h.objs[r]?.bind fun o => o.body.handle

/-- The bytes of a string with the NUL after them, the elements of an array. -/
def storage (h : Heap) (r : ℕ) : Cells :=
  match h.objs[r]?.map Obj.body with
  | some (.string s) => (h.mem.load s.chars).take (s.length + 1)
  | some (.array a) => (h.mem.load a.values).take a.count
  | _ => []

end Heap

/-! ## Memory -/

/-- `n` cells; where there are fewer, they are not written yet. -/
def resized (n : ℕ) (cells : Cells) : Cells := cells.take n ++ List.replicate (n - cells.length) none

/-- `xs` written over the cells from `i` on, as far as they reach. -/
def overwrite (cells : Cells) (i : ℕ) (xs : Cells) : Cells :=
  cells.take i ++ xs.take (cells.length - i) ++ cells.drop (i + xs.length)

def charCells (chars : List UInt8) : Cells := chars.map fun c => some (.char c)

def heap : Exec Heap := Command.get

/-- `ASSERT` -/
def assert (b : Bool) : Exec Unit := if b then pure () else Command.stop .aborted

def throw {α : Type} (e : Thrown) : Exec α := Command.stop (.thrown e)

def stopIf (p : Prop) [Decidable p] (s : Stop) : Exec Unit :=
  if p then Command.stop s else pure ()

/-- `ALLOCATE` -/
def allocate (n : ℕ) : Exec ℕ := do
  let h ← heap
  Command.modify fun h => { h with mem := h.mem.alloc (List.replicate n none) }
  return h.mem.next

/-- `GROW_ARRAY`, which is `realloc` -/
def growArray (env : Env) (previous : Option ℕ) (n : ℕ) : Exec ℕ := do
  match previous with
  | none => allocate n
  | some p =>
    let h ← heap
    let cells := resized n (h.mem.load previous)
    if env.stays p n then
      Command.modify fun h => { h with mem := h.mem.put p cells }
      return p
    else
      Command.modify fun h => { h with mem := (h.mem.alloc cells).free p }
      return h.mem.next

/-- `FREE_ARRAY` -/
def freeArray (pointer : Option ℕ) : Exec Unit :=
  match pointer with
  | none => pure ()
  | some p => Command.modify fun h => { h with mem := h.mem.free p }

/-- The first `n` cells of a block. -/
def loadCells (p : Option ℕ) (n : ℕ) : Exec Cells := do
  stopIf (p = none ∧ n ≠ 0) .segfault
  let h ← heap
  return resized n (h.mem.load p)

/-- Writes to a block from index `i` on. -/
def storeCells (p : Option ℕ) (i : ℕ) (xs : Cells) : Exec Unit :=
  match p with
  | none => if xs = [] then pure () else Command.stop .segfault
  | some p => Command.modify fun h =>
      { h with mem := h.mem.put p (overwrite (h.mem.load (some p)) i xs) }

/-! ## Objects -/

/-- `AS_OBJ` -/
def asObj (v : Value) : Exec ℕ :=
  match v with
  | .obj r => pure r
  | _ => Command.stop .segfault

def getObj (r : ℕ) : Exec Obj := Command.look (fun h => h.objs[r]?) .segfault

/-- `AS_STRING` -/
def getString (r : ℕ) : Exec ObjString := Command.look (fun h => h.string? r) .segfault

/-- `AS_ARRAY` -/
def getArray (r : ℕ) : Exec ObjArray := Command.look (fun h => h.array? r) .segfault

/-- `AS_MAP` -/
def getMap (r : ℕ) : Exec Table := Command.look (fun h => h.map? r) .segfault

def setString (r : ℕ) (s : ObjString) : Exec Unit := Command.modify fun h => h.setBody r (.string s)

def setArray (r : ℕ) (a : ObjArray) : Exec Unit := Command.modify fun h => h.setBody r (.array a)

def setMap (r : ℕ) (t : Table) : Exec Unit := Command.modify fun h => h.setBody r (.map t)

/-- `getNewObject` -/
def newObj (o : Obj) : Exec ℕ := do
  let h ← heap
  Command.modify fun h => h.addObj o
  return h.objs.length

def throwIfFrozen (r : ℕ) (what : String) : Exec Unit := do
  let h ← heap
  stopIf (h.isFrozen r = true) (.thrown (.frozen what))

/-- `objFreeze` -/
def objFreeze (r : ℕ) : Exec Unit := Command.modify fun h => h.setFrozen r true

/-- `objUnfreeze` -/
def objUnfreeze (r : ℕ) : Exec Unit := do
  let h ← heap
  stopIf ((h.string? r).any ObjString.isStatic = true)
    (.thrown (.message .error "Tried to unfreeze static String"))
  Command.modify fun h => h.setFrozen r false

/-! ## Tables -/

/-- `tableGet` -/
def tableGet (env : Env) (key : Value) (t : Table) : Option Value :=
  (t.find? fun e => env.keyOf e.1 == env.keyOf key).map Prod.snd

/-- `tableSet` writes the key as well as the value of the entry that it finds. -/
def tableSet (env : Env) (key value : Value) : Table → Table
  | [] => [(key, value)]
  | e :: t =>
    if env.keyOf e.1 = env.keyOf key then (key, value) :: t else e :: tableSet env key value t

/-- `tableDelete` -/
def tableDelete (env : Env) (key : Value) (t : Table) : Table :=
  t.filter fun e => env.keyOf e.1 ≠ env.keyOf key

/-- `tableSet` of one entry after the other -/
def tableSetAll (env : Env) (entries : Table) (t : Table) : Table :=
  entries.foldl (fun t e => tableSet env e.1 e.2 t) t

/-! ## Strings -/

/-- `GROW_CAPACITY` -/
def growCapacity (capacity : ℕ) : ℕ := if capacity < 8 then 8 else capacity * 2

/-- `allocateString` -/
def allocateString (chars : Option ℕ) (length : ℕ) : Exec ℕ :=
  newObj ⟨false, true, [], .string ⟨false, false, false, length, chars, 0, length⟩⟩

/-- `copyString` -/
def copyString (chars : List UInt8) : Exec ℕ := do
  let heapChars ← allocate (chars.length + 1)
  storeCells (some heapChars) 0 (charCells (chars ++ [0]))
  allocateString (some heapChars) chars.length

/-- `internedString`. The search of `vm.strings` is by the bytes. -/
def internedString (chars : List UInt8) : Exec ℕ := do
  let h ← heap
  match h.strings.find? fun r => h.storage r == charCells (chars ++ [0]) with
  | some r => return r
  | none =>
    let interned ← copyString chars
    Command.modify fun h => { h with strings := h.strings ++ [interned] }
    let s ← getString interned
    setString interned { s with isInterned := true }
    objFreeze interned
    return interned

/-- Where the bytes to add come from. -/
inductive Source
  | bytes (chars : List UInt8)
  | pointer (p : Option ℕ)

def Source.charAt (k : ℕ) : Source → Exec (Option Cell)
  | .bytes chars => pure (charCells chars)[k]?.join
  | .pointer p => do
    let cells ← loadCells p (k + 1)
    return cells[k]?.join

/-- `dest[i+k] = chars[k]` for `n` bytes from `k` on, one after the other. The source can be the
block that is written to. -/
def copyChars (dest : Option ℕ) (i : ℕ) (chars : Source) : (k n : ℕ) → Exec Unit
  | _, 0 => pure ()
  | k, n + 1 => do
    let c ← chars.charAt k
    storeCells dest (i + k) [c]
    copyChars dest i chars (k + 1) n

/-- Room for `newLen` bytes, as `pushCString` and `insertCString` make it. -/
def growChars (env : Env) (string : ℕ) (newLen : ℕ) : Exec ObjString := do
  let s ← getString string
  if newLen > s.capacity then
    let newSz := max newLen (growCapacity s.capacity)
    let chars ← growArray env s.chars (newSz + 1)
    setString string { s with chars := some chars, capacity := newSz }
    return { s with chars := some chars, capacity := newSz }
  else
    return s

/-- `pushCString` -/
def pushCString (env : Env) (string : ℕ) (chars : Source) (lenToAdd : ℕ) : Exec Unit := do
  let h ← heap
  assert (!h.isFrozen string)
  if lenToAdd = 0 then return
  let s ← getString string
  let s ← growChars env string (s.length + lenToAdd)
  copyChars s.chars s.length chars 0 lenToAdd
  storeCells s.chars (s.length + lenToAdd) [some (.char 0)]
  setString string { s with length := s.length + lenToAdd, hash := 0 }

/-- `insertCString`. `at` is a `size_t`; the caller passes an `int`. `charsToMove` is an `int`, of
which no overflow is modelled. -/
def insertCString (env : Env) (string : ℕ) (chars : Source) (lenToAdd : ℕ) (pos : ℤ)
    (replaceAt : Bool) : Exec Unit := do
  let h ← heap
  assert (!h.isFrozen string)
  let s ← getString string
  assert (0 ≤ pos && pos ≤ s.length)
  let pos := pos.toNat
  if pos = s.length then
    pushCString env string chars lenToAdd
  else if lenToAdd = 0 then
    return
  else
  let newLen := if replaceAt then s.length + lenToAdd - 1 else s.length + lenToAdd
  let s ← growChars env string newLen
  let src := if replaceAt then pos + 1 else pos
  -- `memmove` of what is behind, then the new bytes
  let moved ← loadCells s.chars s.length
  storeCells s.chars (pos + lenToAdd) (moved.drop src)
  copyChars s.chars pos chars 0 lenToAdd
  storeCells s.chars newLen [some (.char 0)]
  setString string { s with length := newLen, hash := 0 }

/-- `pushCStringVFmt`; the text was formatted into `char sbuf[200]`. -/
def pushCStringVFmt (env : Env) (string : ℕ) (sbuf : List UInt8) : Exec Unit := do
  let h ← heap
  assert (!h.isFrozen string)
  pushCString env string (.bytes (sbuf.take 199)) (sbuf.take 199).length

/-- `clearObjString` -/
def clearObjString (env : Env) (string : ℕ) : Exec Unit := do
  let h ← heap
  assert (!h.isFrozen string)
  let s ← getString string
  let chars ← growArray env s.chars 1
  storeCells (some chars) 0 [some (.char 0)]
  setString string { s with chars := some chars, length := 0, capacity := 0, hash := 0 }

/-- `dedupString` -/
def dedupString (shared : ℕ) : Exec Unit := do
  let s ← getString shared
  if s.isShared then
    let chars ← allocate (s.capacity + 1)
    let cpy ← loadCells s.chars (s.length + 1)
    storeCells (some chars) 0 cpy
    setString shared { s with chars := some chars, isShared := false }

/-- `pushString` -/
def pushString (env : Env) (self pushed : ℕ) : Exec Unit := do
  throwIfFrozen self "String"
  let rhsBuf ← getString pushed
  pushCString env self (.pointer rhsBuf.chars) rhsBuf.length

/-- `clearString` -/
def clearString (env : Env) (string : ℕ) : Exec Unit := do
  throwIfFrozen string "String"
  clearObjString env string

/-- `stringInsertAt` -/
def stringInsertAt (env : Env) (self insert : ℕ) (pos : ℤ) (replaceAt : Bool) : Exec Unit := do
  throwIfFrozen self "String"
  let insertBuf ← getString insert
  insertCString env self (.pointer insertBuf.chars) insertBuf.length pos replaceAt

/-- `stringIndexSet`. A negative `index` is a large `size_t`. -/
def stringIndexSet (self : ℕ) (index : ℤ) (c : Option Cell) : Exec Unit := do
  let buf ← getString self
  throwIfFrozen self "String"
  stopIf (index < 0 ∨ buf.length ≤ index) (.thrown (.message .argumentError "index too big"))
  let cells ← loadCells buf.chars buf.length
  storeCells buf.chars index.toNat [c]
  if cells[index.toNat]? ≠ some c then setString self { buf with hash := 0 }

/-! ## Arrays -/

/-- `initValueArray` -/
def initValueArray (a : ObjArray) : ObjArray := { a with values := none, capacity := 0, count := 0 }

/-- `initValueArrayWithCapa` -/
def initValueArrayWithCapa (env : Env) (a : ObjArray) (capa : ℕ) : Exec ObjArray := do
  if capa = 0 then return initValueArray a
  let values ← growArray env none capa
  return { initValueArray a with values := some values, capacity := capa }

/-- Room for one more value, as `writeValueArrayEnd` and `writeValueArrayBeg` make it. -/
def growValues (env : Env) (a : ObjArray) : Exec ObjArray := do
  if a.capacity < a.count + 1 then
    let values ← growArray env a.values (growCapacity a.capacity)
    return { a with values := some values, capacity := growCapacity a.capacity }
  else
    return a

/-- `writeValueArrayEnd` -/
def writeValueArrayEnd (env : Env) (a : ObjArray) (value : Option Cell) : Exec ObjArray := do
  let a ← growValues env a
  storeCells a.values a.count [value]
  return { a with count := a.count + 1 }

/-- `writeValueArrayBeg` moves one value only. -/
def writeValueArrayBeg (env : Env) (a : ObjArray) (value : Option Cell) : Exec ObjArray := do
  let a ← growValues env a
  let src ← loadCells a.values 1
  storeCells a.values 1 src
  storeCells a.values 0 [value]
  return { a with count := a.count + 1 }

/-- `removeValueArray` -/
def removeValueArray (a : ObjArray) (idx : ℕ) : Exec ObjArray := do
  assert (idx < a.count)
  if a.values = none then return a
  if idx = a.count - 1 then return { a with count := a.count - 1 }
  let src ← loadCells a.values a.count
  storeCells a.values idx (src.drop (idx + 1))
  return { a with count := a.count - 1 }

/-- `freeValueArray` -/
def freeValueArray (a : ObjArray) : Exec ObjArray := do
  freeArray a.values
  return initValueArray a

/-- `arrayDedup` -/
def arrayDedup (env : Env) (ary : ℕ) : Exec Unit := do
  let a ← getArray ary
  if a.isShared then
    let values ← loadCells a.values a.count
    let newValAry ← values.foldlM (writeValueArrayEnd env) (initValueArray a)
    setArray ary { newValAry with isShared := false }

/-- `allocateArray` -/
def allocateArray : Exec ℕ := newObj ⟨false, true, [], .array ⟨false, false, none, 0, 0⟩⟩

/-- `newArray` -/
def newArray : Exec ℕ := allocateArray

/-- What `arrayDup` makes of the new array: the storage of an array constant is shared. -/
def dupValues (env : Env) (ret : ℕ) (other : ObjArray) : Exec Unit :=
  if other.isStatic then
    setArray ret ⟨true, false, other.values, other.capacity, other.count⟩
  else do
    let values ← loadCells other.values other.count
    let a ← values.foldlM (writeValueArrayEnd env) ⟨false, false, none, 0, 0⟩
    setArray ret a

/-- `arrayDup` -/
def arrayDup (env : Env) (other : ℕ) : Exec ℕ := do
  let ret ← newArray
  let o ← getArray other
  dupValues env ret o
  return ret

/-- `arraySort` and `arraySortBy`, which differ in the order -/
def arraySort (env : Env) (ary : ℕ) : Exec ℕ := do
  let ret ← arrayDup env ary
  let a ← getArray ret
  let values ← loadCells a.values a.count
  match env.sorted values with
  | none => throw (.message .typeError "Can only compare a number with number or string with string")
  | some sorted =>
    storeCells a.values 0 sorted
    return ret

/-- `arrayPush` -/
def arrayPush (env : Env) (self : ℕ) (el : Value) : Exec Unit := do
  throwIfFrozen self "Array"
  arrayDedup env self
  let ary ← getArray self
  let ary ← writeValueArrayEnd env ary (some (.value el))
  setArray self ary

/-- `arrayPushFront` -/
def arrayPushFront (env : Env) (self : ℕ) (el : Value) : Exec Unit := do
  throwIfFrozen self "Array"
  arrayDedup env self
  let ary ← getArray self
  let ary ← writeValueArrayBeg env ary (some (.value el))
  setArray self ary

/-- `arrayDelete` -/
def arrayDelete (env : Env) (self : ℕ) (el : Value) : Exec (Option ℕ) := do
  throwIfFrozen self "Array"
  arrayDedup env self
  let ary ← getArray self
  let values ← loadCells ary.values ary.count
  let same : Option Cell → Bool
    | some (.value v) => env.keyOf el == env.keyOf v
    | _ => false
  match values.findIdx? same with
  | none => return none
  | some found =>
    let ary ← removeValueArray ary found
    setArray self ary
    return some found

/-- `arrayDeleteAt`. The index is compared with `count` only. -/
def arrayDeleteAt (env : Env) (self : ℕ) (idx : ℤ) : Exec (Option (Option Cell)) := do
  throwIfFrozen self "Array"
  arrayDedup env self
  let ary ← getArray self
  if idx < 0 then
    Command.stop .wild
  else if idx < ary.count then
    let values ← loadCells ary.values ary.count
    let ary ← removeValueArray ary idx.toNat
    setArray self ary
    return some (values[idx.toNat]?).join
  else
    return none

/-- `arrayPop` (`idx = count-1`) and `arrayPopFront` (`idx = 0`) -/
def arrayTake (env : Env) (self : ℕ) (front : Bool) : Exec (Option Cell) := do
  throwIfFrozen self "Array"
  arrayDedup env self
  let ary ← getArray self
  if ary.count = 0 then return some (.value .nil)
  let idx := if front then 0 else ary.count - 1
  let values ← loadCells ary.values ary.count
  let ary ← removeValueArray ary idx
  setArray self ary
  return (values[idx]?).join

/-- `arrayPop` -/
def arrayPop (env : Env) (self : ℕ) : Exec (Option Cell) := arrayTake env self false

/-- `arrayPopFront` -/
def arrayPopFront (env : Env) (self : ℕ) : Exec (Option Cell) := arrayTake env self true

/-- `arrayClear` -/
def arrayClear (env : Env) (self : ℕ) : Exec Unit := do
  throwIfFrozen self "Array"
  arrayDedup env self
  let ary ← getArray self
  let ary ← freeValueArray ary
  setArray self ary

/-! ## Maps and fields -/

/-- `mapSet`, which does not look at the flags -/
def mapSet (env : Env) (m : ℕ) (key val : Value) : Exec Unit := do
  let t ← getMap m
  setMap m (tableSet env key val t)

/-- `mapDelete` -/
def mapDelete (env : Env) (m : ℕ) (key : Value) : Exec Unit := do
  let t ← getMap m
  setMap m (tableDelete env key t)

/-- `mapClear` -/
def mapClear (m : ℕ) : Exec Unit := do
  let _ ← getMap m
  setMap m []

/-- `allocateMap` -/
def newMap : Exec ℕ := newObj ⟨false, true, [], .map []⟩

/-- `mapDup` -/
def mapDup (env : Env) (other : ℕ) : Exec ℕ := do
  let ret ← newMap
  let otherMap ← getMap other
  let map ← getMap ret
  setMap ret (tableSetAll env otherMap map)
  return ret

/-- `setProp`, which does not look at the flags -/
def setProp (env : Env) (self : ℕ) (propName val : Value) : Exec Unit := do
  let inst ← getObj self
  Command.modify fun h => h.setFields self (tableSet env propName val inst.fields)

/-- `propertySet` of a property that has no setter -/
def propertySet (env : Env) (obj : ℕ) (propName rval : Value) : Exec Unit := do
  let o ← getObj obj
  stopIf (o.frozen = true) (.thrown (.message .error "Tried to set property on frozen object"))
  Command.modify fun h => h.setFields obj (tableSet env propName rval o.fields)

end Clox.Objects
