import Clox.Runtime.Objects

/-! # The native methods

The methods that `Init_StringClass`, `Init_ArrayClass`, `Init_MapClass` and
`defineNativeClasses` register for strings, arrays, maps, errors and instances in general.
`args[0]` is the receiver. A method that only reads is its checks; what it makes of what it reads
is left open (`Env.made`). A method that runs Lox code (`each`, `send`, `instanceEval`, a
`toString` of the program) is such a method too: what that code does are operations of its own.
-/

namespace Clox.Objects

open Commands Sharing

/-! ## Arguments -/

def arg (args : List Value) (i : ℕ) : Value := args.getD i .nil

/-- `CHECK_ARITY` -/
def checkArity (min : ℕ) (max : Option ℕ) (args : List Value) : Exec Unit :=
  stopIf (¬ (min ≤ args.length ∧ ∀ m ∈ max, args.length ≤ m))
    (.thrown (.arity min max args.length))

/-- `IS_STRING`, `IS_A_MAP`, `is_value_instof_p` of `lxAryClass`, `IS_NUMBER` -/
def Heap.isA (h : Heap) (v : Value) : ArgType → Bool
  | .number =>
    match v with
    | .number _ => true
    | _ => false
  | .string =>
    match v with
    | .obj r => (h.string? r).isSome
    | _ => false
  | .map =>
    match v with
    | .obj r => (h.map? r).isSome
    | _ => false
  | .exactArray =>
    match v with
    | .obj r => (h.array? r).isSome && (h.objs[r]?.map Obj.builtin).getD false
    | _ => false

/-- `CHECK_ARG_IS_A`, `CHECK_ARG_IS_INSTANCE_OF`, `CHECK_ARG_BUILTIN_TYPE` -/
def checkArg (v : Value) (expected : ArgType) (argnum : ℕ) : Exec Unit := do
  let h ← heap
  stopIf (h.isA v expected = false) (.thrown (.argType argnum expected))

/-- `AS_NUMBER` of a value that was checked -/
def asNumber : Value → ℤ
  | .number n => n
  | _ => 0

/-- The value in a cell of an array. -/
def cellValue : Option Cell → Value
  | some (.value v) => v
  | _ => .nil

/-- `strlen` -/
def strlen (cells : Cells) : ℕ := (cells.findIdx? (· == some (.char 0))).getD cells.length

/-- The bytes of a C string literal. -/
def cString (s : String) : List UInt8 := s.toList.map fun c => UInt8.ofNat c.toNat

/-! ## Methods that only read -/

/-- The checks of a method: its arity, the arguments that it checks (place, type, number in the
message), and those that it takes for strings without a check. -/
structure Reader where
  min : ℕ
  max : Option ℕ
  checks : List (ℕ × ArgType × ℕ)
  unchecked : List ℕ
  deriving DecidableEq, Repr

def make (env : Env) : Made → Exec Value
  | .value v => pure v
  | .string chars => do
    let s ← copyString chars
    return .obj s
  | .array els => do
    let ret ← newArray
    let a ← (els.map fun v => some (.value v)).foldlM (writeValueArrayEnd env)
      ⟨false, false, none, 0, 0⟩
    setArray ret a
    return .obj ret
  | .map entries => do
    let ret ← newMap
    let map ← getMap ret
    setMap ret (tableSetAll env entries map)
    return .obj ret
  | .plain => do
    let ret ← newObj ⟨false, true, [], .plain⟩
    return .obj ret

def checkArgs (args : List Value) : List (ℕ × ArgType × ℕ) → Exec Unit
  | [] => pure ()
  | (i, expected, argnum) :: checks => do
    checkArg (arg args i) expected argnum
    checkArgs args checks

def castStrings (args : List Value) : List ℕ → Exec Unit
  | [] => pure ()
  | i :: places => do
    let r ← asObj (arg args i)
    let _ ← getString r
    castStrings args places

def Reader.call (env : Env) (m : Reader) (args : List Value) : Exec Value := do
  checkArity m.min m.max args
  let _ ← asObj (arg args 0)
  checkArgs args m.checks
  castStrings args m.unchecked
  match env.made with
  | none => throw (.message .error "")
  | some made => make env made

/-- A method that takes `n` arguments, the receiver among them, and checks none of them. -/
def Reader.plain (n : ℕ) : Reader := ⟨n, some n, [], []⟩

/-- A getter is called without a check of the arguments. -/
def Reader.getter : Reader := ⟨0, none, [], []⟩

def lxStringToString : Reader := .plain 1
def lxStringInspect : Reader := .plain 1
/-- The right side is checked by hand; the error is a `TypeError`. -/
def lxStringOpAdd : Reader := .plain 2
def lxStringOpMul : Reader := .plain 2
def lxStringOpIndexGet : Reader := ⟨2, some 2, [(1, .number, 1)], []⟩
def lxStringOpEquals : Reader := .plain 2
def lxStringSubstr : Reader := ⟨3, some 3, [(1, .number, 1), (2, .number, 2)], []⟩
def lxStringSplit : Reader := ⟨2, some 2, [(1, .string, 1)], []⟩
def lxStringEndsWith : Reader := ⟨2, some 2, [(1, .string, 1)], []⟩
def lxStringCompact : Reader := .plain 1
def lxStringCompactLeft : Reader := .plain 1
def lxStringRest : Reader := ⟨2, some 2, [(1, .number, 1)], []⟩
/-- The needle is not checked. -/
def lxStringIndex : Reader := ⟨2, some 2, [], [1]⟩
def lxStringGetSize : Reader := .getter

def lxArrayInspect : Reader := .plain 1
def lxArrayFirst : Reader := .plain 1
def lxArrayLast : Reader := .plain 1
def lxArrayOpIndexGet : Reader := ⟨2, some 2, [(1, .number, 1)], []⟩
def lxArrayOpEquals : Reader := .plain 2
def lxArrayToString : Reader := .plain 1
def lxArrayIter : Reader := .plain 1
def lxArrayJoin : Reader := ⟨2, some 2, [(1, .string, 1)], []⟩
def lxArrayHashKey : Reader := .plain 1
def lxArrayEach : Reader := .plain 1
def lxArrayMap : Reader := .plain 1
def lxArraySelect : Reader := .plain 1
def lxArrayReject : Reader := .plain 1
def lxArrayFind : Reader := .plain 1
def lxArrayReduce : Reader := .plain 2
def lxArraySum : Reader := .plain 1
def lxArrayReverse : Reader := .plain 1
def lxArrayGetSize : Reader := .getter

def lxMapInspect : Reader := .plain 1
def lxMapGet : Reader := .plain 2
def lxMapEquals : Reader := .plain 2
def lxMapHashKey : Reader := .plain 1
def lxMapKeys : Reader := .plain 1
def lxMapValues : Reader := .plain 1
def lxMapToString : Reader := .plain 1
def lxMapIter : Reader := .plain 1
def lxMapHasKey : Reader := .plain 2
def lxMapSlice : Reader := ⟨2, none, [], []⟩
def lxMapEach : Reader := .plain 1
def lxMapMap : Reader := .plain 1
def lxMapGetSize : Reader := .getter

def lxObjectInit : Reader := .plain 1
def lxObjectExtend : Reader := .plain 2
def lxObjectHashKey : Reader := .plain 1
def lxObjectOpEquals : Reader := .plain 2
def lxObjectIsSame : Reader := .plain 2
def lxObjectIsFrozen : Reader := .plain 1
def lxObjectSend : Reader := ⟨2, none, [(1, .string, 1)], []⟩
def lxObjectGetProperty : Reader := ⟨2, some 2, [(1, .string, 1)], []⟩
def lxObjectHasProperty : Reader := ⟨2, some 2, [(1, .string, 1)], []⟩
def lxObjectHasGetter : Reader := ⟨2, some 2, [(1, .string, 1)], []⟩
def lxObjectHasSetter : Reader := ⟨2, some 2, [(1, .string, 1)], []⟩
def lxObjectRespondsTo : Reader := ⟨2, some 2, [(1, .string, 1)], []⟩
def lxObjectInspect : Reader := .plain 1
def lxObjectInstanceEval : Reader := ⟨2, some 2, [(1, .string, 1)], []⟩
def lxObjectMethodMissing : Reader := ⟨2, none, [(1, .string, 2)], []⟩
def lxObjectGetClass : Reader := .getter
def lxObjectGetSingletonClass : Reader := .getter
def lxObjectGetObjectId : Reader := .getter

/-! ## Object -/

/-- `newInstance` of the class of an object with this body. -/
def Body.blank : Body → Body
  | .string _ => .string ⟨false, false, false, 0, none, 0, 0⟩
  | .array _ => .array ⟨false, false, none, 0, 0⟩
  | .map _ => .map []
  | b => b

def lxObjectDup (env : Env) (args : List Value) : Exec ℕ := do
  checkArity 1 (some 1) args
  let self ← asObj (arg args 0)
  let o ← getObj self
  newObj ⟨false, o.builtin, tableSetAll env o.fields [], o.body.blank⟩

def lxObjectFreeze (args : List Value) : Exec Value := do
  checkArity 1 (some 1) args
  let obj ← asObj (arg args 0)
  objFreeze obj
  return arg args 0

def lxObjectUnfreeze (args : List Value) : Exec Value := do
  checkArity 1 (some 1) args
  let obj ← asObj (arg args 0)
  objUnfreeze obj
  return arg args 0

def lxObjectSetProperty (env : Env) (args : List Value) : Exec Value := do
  checkArity 3 (some 3) args
  let self ← asObj (arg args 0)
  checkArg (arg args 1) .string 1
  propertySet env self (arg args 1) (arg args 2)
  return arg args 2

/-- A message is a string or nil. -/
def checkMessage (args : List Value) : Exec Unit :=
  if arg args 1 = .nil then pure () else checkArg (arg args 1) .string 1

/-- `Error#init` -/
def lxErrInit (env : Env) (args : List Value) : Exec Value := do
  checkArity 1 (some 2) args
  let self ← asObj (arg args 0)
  checkMessage args
  let message ← internedString (cString "message")
  setProp env self (.obj message) (arg args 1)
  return arg args 0

/-! ## String -/

/-- The string that `String#init` takes its bytes from. -/
def initSource (env : Env) (args : List Value) : Exec ℕ := do
  let h ← heap
  match args[1]? with
  | none => internedString []
  | some v => if h.isA v .string then asObj v else copyString (env.shown v)

/-- An interned string is shared, the bytes of another one are copied. -/
def takeChars (self otherStr : ℕ) : Exec Unit := do
  let s ← getString self
  let o ← getString otherStr
  if o.isInterned && o.chars.isSome then
    setString self { s with chars := o.chars, isShared := true }
  else if o.chars.isSome then
    let chars ← allocate (o.capacity + 1)
    setString self { s with chars := some chars }
    -- `otherStr` can be `self`
    let o ← getString otherStr
    let cells ← loadCells o.chars (s.length + 1)
    storeCells (some chars) 0 cells
  else
    setString self { s with chars := none }

def lxStringInit (env : Env) (args : List Value) : Exec Value := do
  checkArity 1 (some 2) args
  let self ← asObj (arg args 0)
  let otherStr ← initSource env args
  let s ← getString self
  let o ← getString otherStr
  setString self { s with capacity := o.capacity, hash := o.hash, length := o.length }
  Command.modify fun h => h.setFrozen self false
  takeChars self otherStr
  return arg args 0

def lxStringPush (env : Env) (args : List Value) : Exec Value := do
  checkArity 2 (some 2) args
  let self ← asObj (arg args 0)
  checkArg (arg args 1) .string 1
  let rhs ← asObj (arg args 1)
  dedupString self
  pushString env self rhs
  return arg args 0

def lxStringDup (env : Env) (args : List Value) : Exec Value := do
  checkArity 1 (some 1) args
  let self ← asObj (arg args 0)
  let dup ← lxObjectDup env args
  let selfStr ← getString self
  let dupStr ← getString dup
  let chars ← allocate (selfStr.capacity + 1)
  let cells ← loadCells selfStr.chars (selfStr.length + 1)
  storeCells (some chars) 0 cells
  setString dup { dupStr with
    isStatic := false, isInterned := false, capacity := selfStr.capacity, hash := selfStr.hash
    length := selfStr.length, chars := some chars }
  return .obj dup

def lxStringClear (env : Env) (args : List Value) : Exec Value := do
  checkArity 1 (some 1) args
  let self ← asObj (arg args 0)
  dedupString self
  clearString env self
  return arg args 0

def lxStringInsertAt (env : Env) (args : List Value) : Exec Value := do
  checkArity 3 (some 3) args
  let self ← asObj (arg args 0)
  checkArg (arg args 1) .string 1
  checkArg (arg args 2) .number 2
  let insert ← asObj (arg args 1)
  dedupString self
  stringInsertAt env self insert (asNumber (arg args 2)) false
  return arg args 0

/-- A string of one byte is written in place, a longer one takes the place of one byte. -/
def indexSetChars (env : Env) (self chrStr : ℕ) (index : ℤ) : Exec Unit := do
  let s ← getString chrStr
  let chars ← loadCells s.chars (s.length + 1)
  if strlen chars = 1 then
    stringIndexSet self index (chars[0]?).join
  else
    stringInsertAt env self chrStr index true

def lxStringOpIndexSet (env : Env) (args : List Value) : Exec Value := do
  checkArity 3 (some 3) args
  let self ← asObj (arg args 0)
  checkArg (arg args 1) .number 1
  checkArg (arg args 2) .string 3
  let chrStr ← asObj (arg args 2)
  dedupString self
  indexSetChars env self chrStr (asNumber (arg args 1))
  return arg args 0

/-- `pushCString` of the first byte of the pad string -/
def padOnce (env : Env) (selfStr padStr : ℕ) : Exec Unit := do
  let pad ← getString padStr
  pushCString env selfStr (.pointer pad.chars) 1

def lxStringPadRight (env : Env) (args : List Value) : Exec Value := do
  checkArity 3 (some 3) args
  let self ← asObj (arg args 0)
  checkArg (arg args 1) .number 1
  checkArg (arg args 2) .string 2
  let padStr ← asObj (arg args 2)
  let selfStr ← getString self
  Command.times (padOnce env self padStr) (asNumber (arg args 1) - selfStr.length).toNat
  return arg args 0

/-! ## Array -/

def initValues (env : Env) (a : ObjArray) (capa : ℕ) : Exec ObjArray :=
  if capa > 1 then initValueArrayWithCapa env a capa else pure (initValueArray a)

def lxArrayInit (env : Env) (args : List Value) : Exec Value := do
  checkArity 1 none args
  let self ← asObj (arg args 0)
  let a ← getArray self
  let a ← initValues env a (args.length - 1)
  let a ← (args.tail.map fun v => some (.value v)).foldlM (writeValueArrayEnd env) a
  setArray self a
  return arg args 0

def lxArrayDup (env : Env) (args : List Value) : Exec Value := do
  checkArity 1 (some 1) args
  let self ← asObj (arg args 0)
  let dup ← lxObjectDup env args
  let selfAry ← getArray self
  let dupAry ← getArray dup
  let values ← loadCells selfAry.values selfAry.count
  let a ← values.foldlM (writeValueArrayEnd env) dupAry
  setArray dup a
  return .obj dup

def lxArrayPush (env : Env) (args : List Value) : Exec Value := do
  checkArity 2 (some 2) args
  let self ← asObj (arg args 0)
  arrayPush env self (arg args 1)
  return arg args 0

def lxArrayPop (env : Env) (args : List Value) : Exec Value := do
  checkArity 1 (some 1) args
  let self ← asObj (arg args 0)
  let v ← arrayPop env self
  return cellValue v

def lxArrayPushFront (env : Env) (args : List Value) : Exec Value := do
  checkArity 2 (some 2) args
  let self ← asObj (arg args 0)
  arrayPushFront env self (arg args 1)
  return arg args 0

def lxArrayPopFront (env : Env) (args : List Value) : Exec Value := do
  checkArity 1 (some 1) args
  let self ← asObj (arg args 0)
  let v ← arrayPopFront env self
  return cellValue v

def lxArrayDelete (env : Env) (args : List Value) : Exec Value := do
  checkArity 2 (some 2) args
  let self ← asObj (arg args 0)
  let idx ← arrayDelete env self (arg args 1)
  return (idx.map fun i => Value.number i).getD .nil

def lxArrayDeleteAt (env : Env) (args : List Value) : Exec Value := do
  checkArity 2 (some 2) args
  let self ← asObj (arg args 0)
  checkArg (arg args 1) .number 1
  let found ← arrayDeleteAt env self (asNumber (arg args 1))
  return (found.map cellValue).getD .nil

def lxArrayClear (env : Env) (args : List Value) : Exec Value := do
  checkArity 1 (some 1) args
  let self ← asObj (arg args 0)
  arrayClear env self
  return arg args 0

def lxArraySort (env : Env) (args : List Value) : Exec Value := do
  checkArity 1 (some 1) args
  let self ← asObj (arg args 0)
  let ret ← arraySort env self
  return .obj ret

/-- The order is the block's; `arraySort` is the same code. -/
def lxArraySortBy (env : Env) (args : List Value) : Exec Value := lxArraySort env args

def lxArrayOpIndexSet (args : List Value) : Exec Value := do
  checkArity 3 (some 3) args
  let self ← asObj (arg args 0)
  let _ ← getArray self
  checkArg (arg args 1) .number 1
  throwIfFrozen self "Array"
  let ary ← getArray self
  let idx := asNumber (arg args 1)
  if idx < 0 then
    return .nil
  else if idx < ary.count then
    storeCells ary.values idx.toNat [some (.value (arg args 2))]
    return arg args 2
  else
    return .nil

/-! ## Map -/

/-- The key and the value that an element of the array stands for. -/
def pairOf (el : Option Cell) : Exec (Value × Value) := do
  let h ← heap
  match cellValue el with
  | .obj r =>
    match h.array? r with
    | some a =>
      stopIf (a.count ≠ 2)
        (.thrown (.message .argumentError "Wrong array size given, expected 2, got: %d"))
      let cells ← loadCells a.values 2
      return (cellValue (cells[0]?).join, cellValue (cells[1]?).join)
    | none => throw (.message .typeError
        "Expected array element to be an array of length 2, got a: %s")
  | _ => throw (.message .typeError
      "Expected array element to be an array of length 2, got a: %s")

def setPairs (env : Env) (self : ℕ) : Cells → Exec Unit
  | [] => pure ()
  | el :: els => do
    let pair ← pairOf el
    mapSet env self pair.1 pair.2
    setPairs env self els

def lxMapInit (env : Env) (args : List Value) : Exec Value := do
  checkArity 1 none args
  let self ← asObj (arg args 0)
  let _ ← getMap self
  match args with
  | [_] => return arg args 0
  | [_, ary] =>
    checkArg ary .exactArray 1
    let aryObj ← asObj ary
    let aryInt ← getArray aryObj
    let els ← loadCells aryInt.values aryInt.count
    setPairs env self els
    return arg args 0
  | _ => throw (.message .argumentError "Expected 1 argument, got %d")

def lxMapDup (env : Env) (args : List Value) : Exec ℕ := do
  checkArity 1 (some 1) args
  let dup ← lxObjectDup env args
  let self ← asObj (arg args 0)
  let mapOrig ← getMap self
  let mapDup ← getMap dup
  setMap dup (tableSetAll env mapOrig mapDup)
  return dup

def lxMapSet (env : Env) (args : List Value) : Exec Value := do
  checkArity 3 (some 3) args
  let self ← asObj (arg args 0)
  throwIfFrozen self "Map"
  mapSet env self (arg args 1) (arg args 2)
  return arg args 2

def lxMapClear (args : List Value) : Exec Value := do
  checkArity 1 (some 1) args
  let self ← asObj (arg args 0)
  throwIfFrozen self "Map"
  mapClear self
  return arg args 0

/-- `other` is used as an object before it is checked. -/
def lxMapMerge (env : Env) (args : List Value) : Exec Value := do
  checkArity 2 (some 2) args
  let self ← asObj (arg args 0)
  let other ← asObj (arg args 1)
  checkArg (arg args 1) .map 1
  let ret ← lxMapDup env [.obj self]
  let otherMap ← getMap other
  let retMap ← getMap ret
  setMap ret (tableSetAll env otherMap retMap)
  return .obj ret

def lxMapMergeWith (env : Env) (args : List Value) : Exec Value := do
  checkArity 2 (some 2) args
  let self ← asObj (arg args 0)
  let other ← asObj (arg args 1)
  checkArg (arg args 1) .map 1
  throwIfFrozen self "Map"
  let otherMap ← getMap other
  let myMap ← getMap self
  setMap self (tableSetAll env otherMap myMap)
  return arg args 0

def lxMapDelete (env : Env) (args : List Value) : Exec Value := do
  checkArity 2 none args
  let self ← asObj (arg args 0)
  throwIfFrozen self "Map"
  let map ← getMap self
  let rest := args.tail.foldl (fun t key => tableDelete env key t) map
  setMap self rest
  return .number (map.length - rest.length : ℤ)

def lxMapRehash (env : Env) (args : List Value) : Exec Value := do
  checkArity 1 (some 1) args
  let self ← asObj (arg args 0)
  throwIfFrozen self "Map"
  let mapOld ← getMap self
  setMap self (tableSetAll env mapOld [])
  return arg args 0

/-! ## The tables of methods -/

inductive Native
  | reads (m : Reader)
  | objectDup
  | objectFreeze
  | objectUnfreeze
  | objectSetProperty
  | errInit
  | stringInit
  | stringPush
  | stringDup
  | stringClear
  | stringInsertAt
  | stringOpIndexSet
  | stringPadRight
  | arrayInit
  | arrayDup
  | arrayPush
  | arrayPop
  | arrayPushFront
  | arrayPopFront
  | arrayDelete
  | arrayDeleteAt
  | arrayClear
  | arraySort
  | arraySortBy
  | arrayOpIndexSet
  | mapInit
  | mapDup
  | mapSet
  | mapClear
  | mapMerge
  | mapMergeWith
  | mapDelete
  | mapRehash
  deriving DecidableEq, Repr

def Native.call (env : Env) (args : List Value) : Native → Exec Value
  | reads m => m.call env args
  | objectDup => do return .obj (← lxObjectDup env args)
  | objectFreeze => lxObjectFreeze args
  | objectUnfreeze => lxObjectUnfreeze args
  | objectSetProperty => lxObjectSetProperty env args
  | errInit => lxErrInit env args
  | stringInit => lxStringInit env args
  | stringPush => lxStringPush env args
  | stringDup => lxStringDup env args
  | stringClear => lxStringClear env args
  | stringInsertAt => lxStringInsertAt env args
  | stringOpIndexSet => lxStringOpIndexSet env args
  | stringPadRight => lxStringPadRight env args
  | arrayInit => lxArrayInit env args
  | arrayDup => lxArrayDup env args
  | arrayPush => lxArrayPush env args
  | arrayPop => lxArrayPop env args
  | arrayPushFront => lxArrayPushFront env args
  | arrayPopFront => lxArrayPopFront env args
  | arrayDelete => lxArrayDelete env args
  | arrayDeleteAt => lxArrayDeleteAt env args
  | arrayClear => lxArrayClear env args
  | arraySort => lxArraySort env args
  | arraySortBy => lxArraySortBy env args
  | arrayOpIndexSet => lxArrayOpIndexSet args
  | mapInit => lxMapInit env args
  | mapDup => do return .obj (← lxMapDup env args)
  | mapSet => lxMapSet env args
  | mapClear => lxMapClear args
  | mapMerge => lxMapMerge env args
  | mapMergeWith => lxMapMergeWith env args
  | mapDelete => lxMapDelete env args
  | mapRehash => lxMapRehash env args

def objectMethods : List (String × Native) :=
  [("init", .reads lxObjectInit), ("dup", .objectDup), ("extend", .reads lxObjectExtend),
    ("hashKey", .reads lxObjectHashKey), ("opEquals", .reads lxObjectOpEquals),
    ("isSame", .reads lxObjectIsSame), ("freeze", .objectFreeze),
    ("unfreeze", .objectUnfreeze), ("isFrozen", .reads lxObjectIsFrozen),
    ("send", .reads lxObjectSend), ("getProperty", .reads lxObjectGetProperty),
    ("setProperty", .objectSetProperty), ("hasProperty", .reads lxObjectHasProperty),
    ("hasGetter", .reads lxObjectHasGetter), ("hasSetter", .reads lxObjectHasSetter),
    ("respondsTo", .reads lxObjectRespondsTo), ("inspect", .reads lxObjectInspect),
    ("instanceEval", .reads lxObjectInstanceEval),
    ("methodMissing", .reads lxObjectMethodMissing), ("class", .reads lxObjectGetClass),
    ("singletonClass", .reads lxObjectGetSingletonClass),
    ("objectId", .reads lxObjectGetObjectId)]

def stringMethods : List (String × Native) :=
  [("init", .stringInit), ("toString", .reads lxStringToString),
    ("inspect", .reads lxStringInspect), ("opAdd", .reads lxStringOpAdd),
    ("opMul", .reads lxStringOpMul), ("opIndexGet", .reads lxStringOpIndexGet),
    ("opIndexSet", .stringOpIndexSet), ("opEquals", .reads lxStringOpEquals),
    ("push", .stringPush), ("opShovelLeft", .stringPush), ("clear", .stringClear),
    ("insertAt", .stringInsertAt), ("substr", .reads lxStringSubstr), ("dup", .stringDup),
    ("split", .reads lxStringSplit), ("endsWith", .reads lxStringEndsWith),
    ("compact", .reads lxStringCompact), ("compactLeft", .reads lxStringCompactLeft),
    ("padRight", .stringPadRight), ("rest", .reads lxStringRest),
    ("index", .reads lxStringIndex), ("size", .reads lxStringGetSize)]

def arrayMethods : List (String × Native) :=
  [("init", .arrayInit), ("dup", .arrayDup), ("inspect", .reads lxArrayInspect),
    ("first", .reads lxArrayFirst), ("last", .reads lxArrayLast), ("push", .arrayPush),
    ("opShovelLeft", .arrayPush), ("pop", .arrayPop), ("pushFront", .arrayPushFront),
    ("popFront", .arrayPopFront), ("delete", .arrayDelete), ("deleteAt", .arrayDeleteAt),
    ("opIndexGet", .reads lxArrayOpIndexGet), ("opIndexSet", .arrayOpIndexSet),
    ("opEquals", .reads lxArrayOpEquals), ("toString", .reads lxArrayToString),
    ("sort", .arraySort), ("sortBy", .arraySortBy), ("iter", .reads lxArrayIter),
    ("clear", .arrayClear), ("join", .reads lxArrayJoin), ("hashKey", .reads lxArrayHashKey),
    ("each", .reads lxArrayEach), ("map", .reads lxArrayMap),
    ("select", .reads lxArraySelect), ("reject", .reads lxArrayReject),
    ("find", .reads lxArrayFind), ("reduce", .reads lxArrayReduce),
    ("sum", .reads lxArraySum), ("reverse", .reads lxArrayReverse),
    ("size", .reads lxArrayGetSize)]

def mapMethods : List (String × Native) :=
  [("init", .mapInit), ("dup", .mapDup), ("inspect", .reads lxMapInspect),
    ("opIndexGet", .reads lxMapGet), ("opIndexSet", .mapSet),
    ("opEquals", .reads lxMapEquals), ("hashKey", .reads lxMapHashKey),
    ("keys", .reads lxMapKeys), ("values", .reads lxMapValues),
    ("toString", .reads lxMapToString), ("iter", .reads lxMapIter), ("clear", .mapClear),
    ("hasKey", .reads lxMapHasKey), ("slice", .reads lxMapSlice), ("merge", .mapMerge),
    ("mergeWith", .mapMergeWith), ("delete", .mapDelete), ("rehash", .mapRehash),
    ("each", .reads lxMapEach), ("map", .reads lxMapMap), ("size", .reads lxMapGetSize)]

/-- The methods of the class of an object; those of `Object` are inherited. -/
def Body.methods : Body → List (String × Native)
  | .string _ => stringMethods ++ objectMethods
  | .array _ => arrayMethods ++ objectMethods
  | .map _ => mapMethods ++ objectMethods
  | .error _ => ("init", .errInit) :: objectMethods
  | .plain => objectMethods

/-- A call of a native method by its name. -/
def callMethod (env : Env) (self : ℕ) (name : String) (args : List Value) : Exec Value := do
  let o ← getObj self
  match o.body.methods.lookup name with
  | some m => m.call env (.obj self :: args)
  | none => throw (.message .nameError "Undefined method %s for %s")

/-- `setBacktrace`, without the lines that it adds to the new array -/
def setBacktrace (env : Env) (err : ℕ) (backtrace : Value) (controlFlow : Bool) : Exec Unit :=
  if controlFlow then
    pure ()
  else do
    let ret ← newArray
    setProp env err backtrace (.obj ret)

def setBacktraceOnce (env : Env) (err : ℕ) (backtrace : Value) (controlFlow : Bool)
    (fields : Table) : Exec Unit :=
  if (tableGet env backtrace fields).getD .nil = .nil then
    setBacktrace env err backtrace controlFlow
  else
    pure ()

/-- `throwError`: an error that has no backtrace yet gets one. -/
def throwErrorVal (env : Env) (self : ℕ) : Exec Unit := do
  let name ← internedString (cString "backtrace")
  let o ← getObj self
  match o.body with
  | .error controlFlow =>
    setBacktraceOnce env self (.obj name) controlFlow o.fields
    throw (.user self)
  | _ => throw (.message .typeError
      "Tried to throw unthrowable value, must be a subclass of Error. Type found: %s")

/-! ## The operations of a program -/

/-- `newArrayConstant` and the pushes of the compiler -/
def arrayConstant (env : Env) (els : List Value) : Exec ℕ := do
  let ary ← newArray
  let a ← (els.map fun v => some (.value v)).foldlM (writeValueArrayEnd env)
    ⟨false, true, none, 0, 0⟩
  setArray ary a
  return ary

/-- `callCallable` of a class: a blank instance and its `init` -/
def construct (env : Env) (body : Body) (args : List Value) : Exec ℕ := do
  let inst ← newObj ⟨false, true, [], body.blank⟩
  let _ ← callMethod env inst "init" args
  return inst

/-- `STRING_SET_STATIC` -/
def setStatic (r : ℕ) : Exec Unit := do
  let s ← getString r
  setString r { s with isStatic := true }

def markStatic (r : ℕ) (isStatic : Bool) : Exec Unit := if isStatic then setStatic r else pure ()

/-- What `OP_STRING` does with the new string of a static literal. -/
def freezeStatic (r : ℕ) (isStatic : Bool) : Exec Unit :=
  if isStatic then do
    objFreeze r
    setStatic r
  else
    pure ()

/-- `OP_STRING`: a literal is its own interned string, the value a new one. -/
def opString (env : Env) (strLit : ℕ) (isStatic : Bool) : Exec ℕ := do
  markStatic strLit isStatic
  let ret ← construct env (.string ⟨false, false, false, 0, none, 0, 0⟩) [.obj strLit]
  freezeStatic ret isStatic
  return ret

inductive Op
  /-- The compiler or a native interns a string. -/
  | interns (chars : List UInt8)
  /-- The compiler makes the constant of an array literal. -/
  | arrayConstant (els : List Value)
  /-- `OP_STRING` -/
  | opString (strLit : ℕ) (isStatic : Bool)
  /-- `OP_DUPARRAY` -/
  | opDuparray (ary : ℕ)
  /-- `OP_ARRAY`, `OP_MAP`, or a native that makes an object -/
  | makes (m : Made)
  /-- A class is called, as in `String("a")`. -/
  | constructs (body : Body) (args : List Value)
  /-- A native method is called, `OP_INDEX_SET` among them. -/
  | invokes (self : ℕ) (name : String) (args : List Value)
  /-- `OP_PROP_SET` -/
  | setsProperty (obj : ℕ) (propName rval : Value)
  /-- `OP_THROW` -/
  | throws (err : ℕ)
  deriving DecidableEq, Repr

def Op.exec (env : Env) : Op → Exec Unit
  | interns chars => do let _ ← internedString chars
  | arrayConstant els => do let _ ← Objects.arrayConstant env els
  | opString strLit isStatic => do let _ ← Objects.opString env strLit isStatic
  | opDuparray ary => do let _ ← arrayDup env ary
  | makes m => do let _ ← make env m
  | constructs body args => do let _ ← construct env body args
  | invokes self name args => do let _ ← callMethod env self name args
  | setsProperty obj propName rval => propertySet env obj propName rval
  | throws err => throwErrorVal env err

/-- The object that an operation is meant to change. -/
def Op.receiver : Op → Option ℕ
  | invokes self _ _ => some self
  | setsProperty obj _ _ => some obj
  | throws err => some err
  | _ => none

/-- A program never holds the constant of an array literal: only `OP_DUPARRAY` reads it. -/
def Op.allowed (h : Heap) (op : Op) : Bool :=
  op.receiver.all fun r => !(h.array? r).any ObjArray.isStatic

/-- What is left when memory outside of a block was written: any block may have been hit. -/
def Heap.ruined (h : Heap) : Heap := { h with mem := { h.mem with cells := fun _ => none } }

/-- One operation of a program. The process does not survive a failed assertion or a null
pointer; it does survive a wild write. -/
def step (h : Heap) (e : Env × Op) : Option Heap :=
  if e.2.allowed h then
    match e.2.exec e.1 h with
    | (.ok (), h') | (.error (.thrown _), h') => some h'
    | (.error .wild, h') => some h'.ruined
    | (.error .aborted, _) | (.error .segfault, _) => none
  else
    none

end Clox.Objects
