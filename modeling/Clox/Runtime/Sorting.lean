import Clox.Lib.Sorting
import Clox.Runtime.Printing
import Mathlib.Order.WithBot

/-! # `Array#sort` and `Array#sortBy`

Both sort a copy of the array in place with `qsort`. The copy of an array literal's constant has
the constant's storage, that of any other array has storage of its own, and no program holds the
constant itself. The comparison of `sortBy` casts what the block returns to `int`, that of `sort`
compares strings up to their first NUL.
-/

namespace Clox.Sorted

open Sorting Printing

/-! ## Values -/

inductive Value where
  | number (d : Double)
  | string (r : ℕ)
  /-- What is neither a number nor a string. -/
  | other (r : ℕ)
deriving DecidableEq

inductive Thrown where
  | typeError (message : String)
  /-- An error that the block throws. -/
  | user (r : ℕ)
deriving DecidableEq, Repr

structure ObjArray where
  isStatic : Bool
  isShared : Bool
  values : Option ℕ
  capacity : ℕ
  count : ℕ
deriving DecidableEq, Repr

/-- The arrays, the blocks that `reallocate` gave out and the bytes of the strings. -/
structure Heap where
  arrays : ℕ → Option ObjArray
  nextObj : ℕ
  blocks : ℕ → List Value
  nextBlock : ℕ
  chars : ℕ → Bytes

namespace Heap

/-- The values a `ValueArray` has in its block. -/
def values (h : Heap) (a : ObjArray) : List Value := (a.values.elim [] h.blocks).take a.count

def contents (h : Heap) (r : ℕ) : List Value := (h.arrays r).elim [] h.values

def setArray (h : Heap) (r : ℕ) (a : ObjArray) : Heap :=
  { h with arrays := Function.update h.arrays r (some a) }

def setBlock (h : Heap) (p : ℕ) (vs : List Value) : Heap :=
  { h with blocks := Function.update h.blocks p vs }

end Heap

/-! ## Arrays -/

def emptyArray : ObjArray := ⟨false, false, none, 0, 0⟩

/-- `allocateArray` -/
def allocateArray (a : ObjArray) (h : Heap) : ℕ × Heap :=
  (h.nextObj, { h.setArray h.nextObj a with nextObj := h.nextObj + 1 })

/-- `newArray` -/
def newArray (h : Heap) : ℕ × Heap := allocateArray emptyArray h

/-- `GROW_CAPACITY` -/
def growCapacity (capacity : ℕ) : ℕ := if capacity < 8 then 8 else capacity * 2

/-- `writeValueArrayEnd`; `realloc` gives a new block. -/
def writeValueArrayEnd (v : Value) (ah : ObjArray × Heap) : ObjArray × Heap :=
  let (a, h) := ah
  match a.values with
  | some p =>
    if a.capacity < a.count + 1 then
      ({ a with values := some h.nextBlock, capacity := growCapacity a.capacity,
                count := a.count + 1 },
        { h.setBlock h.nextBlock (h.values a ++ [v]) with nextBlock := h.nextBlock + 1 })
    else ({ a with count := a.count + 1 },
      h.setBlock p (h.values a ++ v :: (h.blocks p).drop (a.count + 1)))
  | none =>
    ({ a with values := some h.nextBlock, capacity := growCapacity a.capacity,
              count := a.count + 1 },
      { h.setBlock h.nextBlock (h.values a ++ [v]) with nextBlock := h.nextBlock + 1 })

def writeAll (vs : List Value) (ah : ObjArray × Heap) : ObjArray × Heap :=
  vs.foldl (fun ah v => writeValueArrayEnd v ah) ah

/-- `arrayDup` -/
def arrayDup (other : ℕ) (h : Heap) : ℕ × Heap :=
  let o := (h.arrays other).getD emptyArray
  let (ret, h) := newArray h
  if o.isStatic then
    (ret, h.setArray ret { o with isStatic := false, isShared := true })
  else
    let (a, h) := writeAll (h.values o) (emptyArray, h)
    (ret, h.setArray ret a)

/-- `arrayDedup` -/
def arrayDedup (r : ℕ) (h : Heap) : Heap :=
  let a := (h.arrays r).getD emptyArray
  if a.isShared then
    let (a', h) := writeAll (h.values a) (emptyArray, h)
    h.setArray r { a' with isStatic := a.isStatic }
  else h

/-- `arrayPush`, of an array that is not frozen. -/
def arrayPush (r : ℕ) (v : Value) (h : Heap) : Heap :=
  let h := arrayDedup r h
  let (a, h) := writeValueArrayEnd v ((h.arrays r).getD emptyArray, h)
  h.setArray r a

/-! ## Comparisons -/

/-- The doubles that are not NaNs in their order. -/
def extended (d : Double) : WithBot (WithTop ℚ) :=
  if d.isFinite then ((d.value : ℚ) : WithTop ℚ) else if d.sign then ⊥ else ((⊤ : WithTop ℚ))

def isNaN (d : Double) : Bool := !d.isFinite && d.fraction != 0

/-- `a < b`, false where one of the two is a NaN. -/
def lessThan (a b : Double) : Bool := !isNaN a && !isNaN b && decide (extended a < extended b)

/-- `a == b`, likewise. -/
def equalTo (a b : Double) : Bool := !isNaN a && !isNaN b && decide (extended a = extended b)

/-- Bytes one after the other; a text before what it begins. -/
def bytesCmp : Bytes → Bytes → ℤ
  | [], [] => 0
  | [], _ :: _ => -1
  | _ :: _, [] => 1
  | a :: as, b :: bs => if a = b then bytesCmp as bs else (a.toNat : ℤ) - b.toNat

/-- `strcmp` sees the bytes up to the first NUL. -/
def strcmp (a b : Bytes) : ℤ := bytesCmp (cstr a) (cstr b)

def valCmp (h : Heap) (a b : Value) : Except Thrown ℤ :=
  match a, b with
  | .number num1, .number num2 =>
    .ok (if lessThan num1 num2 then -1 else if equalTo num1 num2 then 0 else 1)
  | .string str1, .string str2 => .ok (strcmp (h.chars str1) (h.chars str2))
  | _, _ => .error (.typeError "Can only compare a number with number or string with string")

/-- What the block returns for two elements, or the error it throws. -/
abbrev Block := Value → Value → Except Thrown Value

/-- `(int)d`; outside of the range of `int` C leaves open what it gives. -/
def castInt (outOfRange : Double → ℤ) (d : Double) : ℤ := d.toInt?.getD (outOfRange d)

def valCmpBlock (outOfRange : Double → ℤ) (block : Block) (a b : Value) : Except Thrown ℤ := do
  match ← block a b with
  | .number res => return castInt outOfRange res
  | _ => throw (.typeError "sort block must return a number")

/-! ## Sorting -/

/-- A call of `Array#sort` or of `Array#sortBy` with its block. -/
inductive Call where
  | sort
  | sortBy (block : Block)

def Call.compare (outOfRange : Double → ℤ) (h : Heap) : Call → Value → Value → Except Thrown ℤ
  | .sort => valCmp h
  | .sortBy block => valCmpBlock outOfRange block

abbrev Qsort := (Value → Value → Except Thrown ℤ) → List Value → Outcome Thrown Value

/-- `qsort` on the storage of an array. -/
def sortInPlace (qsort : Qsort) (cmp : Value → Value → Except Thrown ℤ) (a : ObjArray) (h : Heap) :
    Except Thrown Unit × Heap :=
  let write (vs : List Value) : Heap :=
    match a.values with
    | some p => h.setBlock p (vs ++ (h.blocks p).drop a.count)
    | none => h
  match qsort cmp (h.values a) with
  | .done s => (.ok (), write s)
  | .thrown e left => (.error e, write left)

/-- `arraySort` and `arraySortBy` -/
def arraySort (qsort : Qsort) (outOfRange : Double → ℤ) (call : Call) (ary : ℕ) (h : Heap) :
    Except Thrown ℕ × Heap :=
  let (ret, h) := arrayDup ary h
  let retAry := (h.arrays ret).getD emptyArray
  match sortInPlace qsort (call.compare outOfRange h) retAry h with
  | (.ok (), h) => (.ok ret, h)
  | (.error e, h) => (.error e, h)

/-! ## Programs -/

/-- The arrays of the literals, and those that the program can hold. -/
structure Program where
  heap : Heap
  constants : List ℕ
  held : List ℕ

def Program.start (chars : ℕ → Bytes) : Program where
  heap := ⟨fun _ => none, 0, fun _ => [], 0, chars⟩
  constants := []
  held := []

/-- `newArrayConstant`, with the elements of the literal pushed. -/
def newArrayConstant (els : List Value) (h : Heap) : ℕ × Heap :=
  let (ary, h) := allocateArray { emptyArray with isStatic := true } h
  (ary, els.foldl (fun h el => arrayPush ary el h) h)

/-- `OP_ARRAY` -/
def opArray (els : List Value) (h : Heap) : ℕ × Heap :=
  let (ary, h) := newArray h
  let (a, h) := writeAll els (emptyArray, h)
  (ary, h.setArray ary a)

inductive Step (outOfRange : Double → ℤ) : Program → Program → Prop where
  /-- A literal is compiled. -/
  | literal (s : Program) (els : List Value) : Step outOfRange s { s with
      heap := (newArrayConstant els s.heap).2
      constants := (newArrayConstant els s.heap).1 :: s.constants }
  /-- `OP_DUPARRAY` -/
  | dupArray (s : Program) (c : ℕ) (hc : c ∈ s.constants) : Step outOfRange s { s with
      heap := (arrayDup c s.heap).2
      held := (arrayDup c s.heap).1 :: s.held }
  | array (s : Program) (els : List Value) : Step outOfRange s { s with
      heap := (opArray els s.heap).2
      held := (opArray els s.heap).1 :: s.held }
  | push (s : Program) (r : ℕ) (v : Value) (hr : r ∈ s.held) : Step outOfRange s { s with
      heap := arrayPush r v s.heap }
  /-- What strings there are, and what they have. -/
  | strings (s : Program) (chars : ℕ → Bytes) : Step outOfRange s { s with
      heap := { s.heap with chars := chars } }
  | sort (s : Program) (qsort : Qsort) (call : Call) (r ret : ℕ) (h : Heap) (hr : r ∈ s.held)
      (hq : Correct qsort) (hret : arraySort qsort outOfRange call r s.heap = (.ok ret, h)) :
      Step outOfRange s { s with heap := h, held := ret :: s.held }
  | sortThrows (s : Program) (qsort : Qsort) (call : Call) (r : ℕ) (e : Thrown) (h : Heap)
      (hr : r ∈ s.held) (hq : Correct qsort)
      (hthrow : arraySort qsort outOfRange call r s.heap = (.error e, h)) :
      Step outOfRange s { s with heap := h }

inductive Reachable (outOfRange : Double → ℤ) : Program → Prop where
  | start (chars : ℕ → Bytes) : Reachable outOfRange (.start chars)
  | step {s s' : Program} (h : Reachable outOfRange s) (hstep : Step outOfRange s s') :
    Reachable outOfRange s'

/-- The addresses of the arrays and of their blocks were given out. -/
structure Heap.Bounded (h : Heap) : Prop where
  objs : ∀ r a, h.arrays r = some a → r < h.nextObj
  blocks : ∀ r a p, h.arrays r = some a → a.values = some p → p < h.nextBlock

/-- What the program holds is no literal's constant. -/
structure Sound (s : Program) : Prop where
  bounded : s.heap.Bounded
  held : ∀ r ∈ s.held, ∃ a, s.heap.arrays r = some a ∧ a.isStatic = false

/-! ## Writing to a new array -/

section

variable {h h₀ : Heap} {a : ObjArray} {vs : List Value}

/-- What an array has been given since `h₀`, in blocks that were given out since. -/
structure Written (h₀ h : Heap) (a : ObjArray) (vs : List Value) : Prop where
  arrays : h.arrays = h₀.arrays
  nextObj : h.nextObj = h₀.nextObj
  chars : h.chars = h₀.chars
  nextBlock : h₀.nextBlock ≤ h.nextBlock
  own : ∀ p, a.values = some p → h₀.nextBlock ≤ p ∧ p < h.nextBlock
  kept : ∀ p, p < h₀.nextBlock → h.blocks p = h₀.blocks p
  values : h.values a = vs
  count : a.count = vs.length
  isStatic : a.isStatic = false
  isShared : a.isShared = false

theorem Written.empty (h : Heap) : Written h h emptyArray [] where
  arrays := rfl
  nextObj := rfl
  chars := rfl
  nextBlock := Nat.le_refl _
  own := by
    rintro p ⟨⟩
  kept := fun _ _ => rfl
  values := rfl
  count := rfl
  isStatic := rfl
  isShared := rfl

/-- The array in a new block. -/
theorem Written.move (hw : Written h₀ h a vs) (v : Value) (capacity : ℕ) :
    Written h₀ { h.setBlock h.nextBlock (h.values a ++ [v]) with nextBlock := h.nextBlock + 1 }
      { a with values := some h.nextBlock, capacity, count := a.count + 1 } (vs ++ [v]) where
  arrays := hw.arrays
  nextObj := hw.nextObj
  chars := hw.chars
  nextBlock := hw.nextBlock.trans (Nat.le_succ _)
  own := by
    rintro p ⟨⟩
    exact ⟨hw.nextBlock, Nat.lt_succ_self _⟩
  kept p hp := by
    have hne : p ≠ h.nextBlock := (hp.trans_le hw.nextBlock).ne
    rw [← hw.kept p hp]
    exact Function.update_of_ne hne ..
  values := by
    have hlen : (vs ++ [v]).length ≤ a.count + 1 := by
      rw [List.length_append, List.length_singleton, hw.count]
    have hself : Function.update h.blocks h.nextBlock (h.values a ++ [v]) h.nextBlock =
        vs ++ [v] := by
      rw [Function.update_self, hw.values]
    exact (congrArg (List.take _) hself).trans (List.take_of_length_le hlen)
  count := by rw [List.length_append, List.length_singleton, hw.count]
  isStatic := hw.isStatic
  isShared := hw.isShared

theorem Written.write (hw : Written h₀ h a vs) (v : Value) :
    Written h₀ (writeValueArrayEnd v (a, h)).2 (writeValueArrayEnd v (a, h)).1 (vs ++ [v]) := by
  cases hp : a.values with
  | none =>
    simp only [writeValueArrayEnd, hp]
    exact hw.move v _
  | some p =>
    simp only [writeValueArrayEnd, hp]
    split
    · exact hw.move v _
    · -- the block has room
      refine ⟨hw.arrays, hw.nextObj, hw.chars, hw.nextBlock, ?_, ?_, ?_, ?_, hw.isStatic,
        hw.isShared⟩
      · intro q hq
        exact hw.own q (hp.trans hq)
      · intro q hq
        have hne : q ≠ p := (hq.trans_le (hw.own p hp).1).ne
        rw [← hw.kept q hq]
        exact Function.update_of_ne hne ..
      · have hself : Function.update h.blocks p
            (h.values a ++ v :: (h.blocks p).drop (a.count + 1)) p =
              (vs ++ [v]) ++ (h.blocks p).drop (a.count + 1) := by
          rw [Function.update_self, hw.values, List.append_assoc]
          rfl
        have hlen : (vs ++ [v]).length = a.count + 1 := by
          rw [List.length_append, List.length_singleton, hw.count]
        have htake := congrArg (List.take (a.count + 1)) hself
        rw [← hlen, List.take_left, hlen] at htake
        exact htake
      · rw [List.length_append, List.length_singleton, hw.count]

theorem Written.writeAll (hw : Written h₀ h a vs) (els : List Value) :
    Written h₀ (writeAll els (a, h)).2 (writeAll els (a, h)).1 (vs ++ els) := by
  induction els generalizing h a vs with
  | nil => simpa [Sorted.writeAll] using hw
  | cons v els ih =>
    have := ih (hw.write v)
    rwa [List.append_assoc, List.singleton_append] at this

/-- An array of its own, with the elements. -/
theorem written_new (els : List Value) (h : Heap) :
    Written h (writeAll els (emptyArray, h)).2 (writeAll els (emptyArray, h)).1 els := by
  have := (Written.empty h).writeAll els
  rwa [List.nil_append] at this

/-! ## What the operations leave alone -/

/-- One array is new, and the blocks there were are as they were. -/
structure Adds (isStatic : Bool) (h h' : Heap) : Prop where
  nextObj : h'.nextObj = h.nextObj + 1
  nextBlock : h.nextBlock ≤ h'.nextBlock
  arrays : ∀ r, r ≠ h.nextObj → h'.arrays r = h.arrays r
  blocks : ∀ p, p < h.nextBlock → h'.blocks p = h.blocks p
  made : ∃ a, h'.arrays h.nextObj = some a ∧ a.isStatic = isStatic ∧
    ∀ p, a.values = some p → p < h'.nextBlock

/-- The arrays there were are the same, with the same elements. -/
def Unchanged (h h' : Heap) : Prop :=
  ∀ r, r < h.nextObj → h'.arrays r = h.arrays r ∧ h'.contents r = h.contents r

/-- No array becomes static or stops being static. -/
def KeepsFlags (h h' : Heap) : Prop :=
  ∀ r a, h.arrays r = some a → ∃ a', h'.arrays r = some a' ∧ a'.isStatic = a.isStatic

variable {isStatic : Bool} {h' : Heap} {r : ℕ}

theorem KeepsFlags.refl (h : Heap) : KeepsFlags h h := fun _ a ha => ⟨a, ha, rfl⟩

theorem KeepsFlags.trans {h₁ : Heap} (hflags : KeepsFlags h h₁) (hflags' : KeepsFlags h₁ h') :
    KeepsFlags h h' := by
  intro r a ha
  rcases hflags r a ha with ⟨a₁, ha₁, heq⟩
  rcases hflags' r a₁ ha₁ with ⟨a₂, ha₂, heq'⟩
  exact ⟨a₂, ha₂, heq'.trans heq⟩

theorem Adds.bounded (hadds : Adds isStatic h h') (hb : h.Bounded) : h'.Bounded := by
  rcases hadds.made with ⟨made, hmade, -, hblock⟩
  constructor
  · intro r a ha
    rw [hadds.nextObj]
    by_cases hr : r = h.nextObj
    · omega
    · rw [hadds.arrays r hr] at ha
      exact (hb.objs r a ha).trans (Nat.lt_succ_self _)
  · intro r a p ha hp
    by_cases hr : r = h.nextObj
    · rw [hr, hmade] at ha
      cases ha
      exact hblock p hp
    · rw [hadds.arrays r hr] at ha
      exact (hb.blocks r a p ha hp).trans_le hadds.nextBlock

theorem Adds.unchanged (hadds : Adds isStatic h h') (hb : h.Bounded) : Unchanged h h' := by
  intro r hr
  have harrays := hadds.arrays r hr.ne
  refine ⟨harrays, ?_⟩
  rw [Heap.contents, Heap.contents, harrays]
  cases ha : h.arrays r with
  | none => rfl
  | some a =>
    change h'.values a = h.values a
    rw [Heap.values, Heap.values]
    cases hp : a.values with
    | none => rfl
    | some p => exact congrArg (List.take _) (hadds.blocks p (hb.blocks r a p ha hp))

theorem Adds.keepsFlags (hadds : Adds isStatic h h') (hb : h.Bounded) : KeepsFlags h h' := by
  intro r a ha
  exact ⟨a, (hadds.arrays r (hb.objs r a ha).ne).trans ha, rfl⟩

/-- An array of its own becomes the new array. -/
theorem Written.adds (hw : Written (newArray h₀).2 h a vs) :
    Adds false h₀ (h.setArray h₀.nextObj a) where
  nextObj := hw.nextObj
  nextBlock := hw.nextBlock
  arrays r hr := by
    have hset : (h.setArray h₀.nextObj a).arrays r = h.arrays r := Function.update_of_ne hr ..
    rw [hset, hw.arrays]
    exact Function.update_of_ne hr ..
  blocks p hp := hw.kept p hp
  made := ⟨a, Function.update_self .., hw.isStatic, fun p hp => (hw.own p hp).2⟩

theorem opArray_adds (els : List Value) (h : Heap) : Adds false h (opArray els h).2 :=
  (written_new els (newArray h).2).adds

/-- The copy of an array that is no constant has a block of its own. -/
theorem arrayDup_of_not_static {o : ObjArray} (hr : h.arrays r = some o)
    (hstatic : o.isStatic = false) : ∃ a h₁, Written (newArray h).2 h₁ a (h.contents r) ∧
      arrayDup r h = (h.nextObj, h₁.setArray h.nextObj a) := by
  have hcontents : (newArray h).2.values o = h.contents r := by
    rw [Heap.contents, hr]
    rfl
  rw [← hcontents]
  refine ⟨_, _, written_new ((newArray h).2.values o) (newArray h).2, ?_⟩
  simp only [arrayDup, hr, Option.getD_some, hstatic, Bool.false_eq_true, if_false]
  rfl

theorem arrayDup_adds (hb : h.Bounded) (r : ℕ) : Adds false h (arrayDup r h).2 := by
  cases hr : h.arrays r with
  | none =>
    simp only [arrayDup, hr]
    exact (written_new [] (newArray h).2).adds
  | some o =>
    cases hstatic : o.isStatic with
    | false =>
      rcases arrayDup_of_not_static hr hstatic with ⟨a, h₁, hw, heq⟩
      rw [heq]
      exact hw.adds
    | true =>
      -- the storage of the constant
      simp only [arrayDup, hr, Option.getD_some, hstatic, if_true]
      refine ⟨rfl, Nat.le_refl _, ?_, fun _ _ => rfl, ?_⟩
      · intro x hx
        exact (Function.update_of_ne hx ..).trans (Function.update_of_ne hx ..)
      · exact ⟨_, Function.update_self .., rfl, fun p hp => hb.blocks r o p hr hp⟩

theorem compare_congr (outOfRange : Double → ℤ) (call : Call) (hchars : h'.chars = h.chars) :
    call.compare outOfRange h' = call.compare outOfRange h := by
  cases call with
  | sort =>
    funext a b
    cases a <;> cases b <;> simp [Call.compare, valCmp, hchars]
  | sortBy block => rfl

/-- Writing over the storage of the new array. -/
theorem Written.overwrite (hw : Written (newArray h₀).2 h a vs) {s : List Value}
    (hlen : s.length = vs.length) : ∃ h', Adds false h₀ h' ∧ h'.contents h₀.nextObj = s ∧
      h' = match a.values with
        | some p => (h.setArray h₀.nextObj a).setBlock p
            (s ++ ((h.setArray h₀.nextObj a).blocks p).drop a.count)
        | none => h.setArray h₀.nextObj a := by
  have hadds := hw.adds
  cases hp : a.values with
  | none =>
    -- there is nothing to write
    refine ⟨_, hadds, ?_, rfl⟩
    have hvs : vs = [] := by
      have := hw.values
      rw [Heap.values, hp] at this
      simpa using this.symm
    have hs : s = [] := List.length_eq_zero_iff.mp (by rw [hlen, hvs, List.length_nil])
    have hself : (h.setArray h₀.nextObj a).arrays h₀.nextObj = some a := Function.update_self ..
    rw [Heap.contents, hself, hs]
    change (a.values.elim [] _).take _ = _
    simp [hp]
  | some p =>
    refine ⟨(h.setArray h₀.nextObj a).setBlock p
        (s ++ ((h.setArray h₀.nextObj a).blocks p).drop a.count),
      ⟨hadds.nextObj, hadds.nextBlock, hadds.arrays, ?_, hadds.made⟩, ?_, rfl⟩
    · intro q hq
      have hne : q ≠ p := (hq.trans_le (hw.own p hp).1).ne
      rw [← hadds.blocks q hq]
      exact Function.update_of_ne hne ..
    · have hself : (h.setArray h₀.nextObj a).arrays h₀.nextObj = some a :=
        Function.update_self ..
      have hblock : Function.update h.blocks p (s ++ (h.blocks p).drop a.count) p =
          s ++ (h.blocks p).drop a.count := Function.update_self ..
      rw [Heap.contents]
      change ((h.setArray h₀.nextObj a).arrays h₀.nextObj).elim [] _ = s
      rw [hself]
      change (a.values.elim [] _).take a.count = s
      rw [hp]
      refine (congrArg (List.take a.count) hblock).trans ?_
      rw [hw.count, ← hlen, List.take_left]

/-- `arraySort` of an array that is no constant. -/
theorem arraySort_eq {qsort : Qsort} (hq : Correct qsort) {outOfRange : Double → ℤ} {call : Call}
    {o : ObjArray} (hr : h.arrays r = some o) (hstatic : o.isStatic = false) :
    (∃ s h', qsort (call.compare outOfRange h) (h.contents r) = .done s ∧ Adds false h h' ∧
      h'.contents h.nextObj = s ∧
      arraySort qsort outOfRange call r h = (.ok h.nextObj, h')) ∨
    ∃ e left h', qsort (call.compare outOfRange h) (h.contents r) = .thrown e left ∧
      Adds false h h' ∧ arraySort qsort outOfRange call r h = (.error e, h') := by
  rcases arrayDup_of_not_static hr hstatic with ⟨a, h₁, hw, hdup⟩
  have hallowed := hq (call.compare outOfRange h) (h.contents r)
  have hself : (h₁.setArray h.nextObj a).arrays h.nextObj = some a := Function.update_self ..
  have hvalues : (h₁.setArray h.nextObj a).values a = h.contents r := hw.values
  have hcompare : call.compare outOfRange (h₁.setArray h.nextObj a) =
      call.compare outOfRange h := compare_congr outOfRange call hw.chars
  cases hsort : qsort (call.compare outOfRange h) (h.contents r) with
  | done s =>
    left
    rcases hw.overwrite (hallowed.perm s hsort).length_eq with ⟨h', hadds, hcontents, hh'⟩
    refine ⟨s, h', rfl, hadds, hcontents, ?_⟩
    simp only [arraySort, hdup, hself, Option.getD_some, hcompare, sortInPlace, hvalues, hsort, hh']
  | thrown e left =>
    right
    rcases hw.overwrite (hallowed.thrown e left hsort).1 with ⟨h', hadds, _, hh'⟩
    refine ⟨e, left, h', rfl, hadds, ?_⟩
    simp only [arraySort, hdup, hself, Option.getD_some, hcompare, sortInPlace, hvalues, hsort, hh']

/-! ## Every run -/

/-- An array is written anew, with its flag. -/
theorem setArray_touches {h₁ : Heap} {a' : ObjArray} (hb : h.Bounded) (ha : h.arrays r = some a)
    (harrays : h₁.arrays = h.arrays) (hobj : h₁.nextObj = h.nextObj)
    (hblock : h.nextBlock ≤ h₁.nextBlock) (hown : ∀ p, a'.values = some p → p < h₁.nextBlock)
    (hstatic : a'.isStatic = a.isStatic) :
    (h₁.setArray r a').Bounded ∧ KeepsFlags h (h₁.setArray r a') := by
  have hother : ∀ x, x ≠ r → (h₁.setArray r a').arrays x = h.arrays x := by
    intro x hx
    rw [← harrays]
    exact Function.update_of_ne hx ..
  have hself : (h₁.setArray r a').arrays r = some a' := Function.update_self ..
  refine ⟨⟨?_, ?_⟩, ?_⟩
  · intro x b hx
    rw [show (h₁.setArray r a').nextObj = h.nextObj from hobj]
    by_cases hxr : x = r
    · rw [hxr]
      exact hb.objs r a ha
    · exact hb.objs x b (hother x hxr ▸ hx)
  · intro x b p hx hp
    by_cases hxr : x = r
    · rw [hxr, hself] at hx
      cases hx
      exact hown p hp
    · exact (hb.blocks x b p (hother x hxr ▸ hx) hp).trans_le hblock
  · intro x b hx
    by_cases hxr : x = r
    · rw [hxr, ha] at hx
      cases hx
      exact ⟨a', hxr ▸ hself, hstatic⟩
    · exact ⟨b, (hother x hxr).trans hx, rfl⟩

theorem writeValueArrayEnd_frame (v : Value) (hown : ∀ p, a.values = some p → p < h.nextBlock) :
    (writeValueArrayEnd v (a, h)).2.arrays = h.arrays ∧
      (writeValueArrayEnd v (a, h)).2.nextObj = h.nextObj ∧
      h.nextBlock ≤ (writeValueArrayEnd v (a, h)).2.nextBlock ∧
      (∀ p, (writeValueArrayEnd v (a, h)).1.values = some p →
        p < (writeValueArrayEnd v (a, h)).2.nextBlock) ∧
      (writeValueArrayEnd v (a, h)).1.isStatic = a.isStatic := by
  cases hp : a.values with
  | none =>
    simp only [writeValueArrayEnd, hp]
    refine ⟨rfl, rfl, Nat.le_succ _, ?_, trivial⟩
    rintro p ⟨⟩
    exact Nat.lt_succ_self _
  | some p =>
    simp only [writeValueArrayEnd, hp]
    split
    · refine ⟨rfl, rfl, Nat.le_succ _, ?_, rfl⟩
      rintro p ⟨⟩
      exact Nat.lt_succ_self _
    · refine ⟨rfl, rfl, Nat.le_refl _, ?_, rfl⟩
      intro q hq
      exact hown q (hp.trans hq)

theorem arrayDedup_touches (hb : h.Bounded) (ha : h.arrays r = some a) :
    (arrayDedup r h).Bounded ∧ KeepsFlags h (arrayDedup r h) := by
  simp only [arrayDedup, ha, Option.getD_some]
  split
  · have hw := written_new (h.values a) h
    exact setArray_touches hb ha hw.arrays hw.nextObj hw.nextBlock
      (fun p hp => (hw.own p hp).2) rfl
  · exact ⟨hb, .refl h⟩

theorem arrayPush_touches (hb : h.Bounded) (ha : h.arrays r = some a) (v : Value) :
    (arrayPush r v h).Bounded ∧ KeepsFlags h (arrayPush r v h) := by
  rcases arrayDedup_touches hb ha with ⟨hb₁, hflags₁⟩
  rcases hflags₁ r a ha with ⟨a₁, ha₁, _⟩
  have hframe := writeValueArrayEnd_frame (h := arrayDedup r h) v fun p hp =>
    hb₁.blocks r a₁ p ha₁ hp
  have hpush := setArray_touches hb₁ ha₁ hframe.1 hframe.2.1 hframe.2.2.1 hframe.2.2.2.1
    hframe.2.2.2.2
  simp only [arrayPush, ha₁, Option.getD_some]
  exact ⟨hpush.1, hflags₁.trans hpush.2⟩

theorem pushAll_touches (els : List Value) (hb : h.Bounded) (ha : h.arrays r = some a) :
    (els.foldl (fun h el => arrayPush r el h) h).Bounded ∧
      KeepsFlags h (els.foldl (fun h el => arrayPush r el h) h) := by
  induction els generalizing h a with
  | nil => exact ⟨hb, .refl h⟩
  | cons el els ih =>
    rcases arrayPush_touches hb ha el with ⟨hb₁, hflags₁⟩
    rcases hflags₁ r a ha with ⟨a₁, ha₁, _⟩
    rcases ih hb₁ ha₁ with ⟨hb₂, hflags₂⟩
    exact ⟨hb₂, hflags₁.trans hflags₂⟩

theorem newArrayConstant_touches (els : List Value) (hb : h.Bounded) :
    (newArrayConstant els h).2.Bounded ∧ KeepsFlags h (newArrayConstant els h).2 := by
  have hadds : Adds true h (allocateArray { emptyArray with isStatic := true } h).2 := by
    refine ⟨rfl, Nat.le_refl _, fun x hx => Function.update_of_ne hx .., fun _ _ => rfl, ?_⟩
    refine ⟨_, Function.update_self .., rfl, ?_⟩
    rintro p ⟨⟩
  have hself : (allocateArray { emptyArray with isStatic := true } h).2.arrays h.nextObj =
      some { emptyArray with isStatic := true } := Function.update_self ..
  rcases pushAll_touches els (hadds.bounded hb) hself with ⟨hb', hflags⟩
  exact ⟨hb', (hadds.keepsFlags hb).trans hflags⟩

theorem Sound.keep {s : Program} (hs : Sound s) (hb : h'.Bounded) (hflags : KeepsFlags s.heap h')
    {constants held : List ℕ}
    (hheld : ∀ r ∈ held, r ∈ s.held ∨ ∃ a, h'.arrays r = some a ∧ a.isStatic = false) :
    Sound ⟨h', constants, held⟩ := by
  refine ⟨hb, ?_⟩
  intro r hr
  rcases hheld r hr with hr | hr
  · rcases hs.held r hr with ⟨a, ha, hstatic⟩
    rcases hflags r a ha with ⟨a', ha', heq⟩
    exact ⟨a', ha', heq.trans hstatic⟩
  · exact hr

/-- A new array that is not static may be held. -/
theorem Sound.add {s : Program} (hs : Sound s) (hadds : Adds false s.heap h') {x : ℕ}
    (hx : x = s.heap.nextObj) (constants : List ℕ) : Sound ⟨h', constants, x :: s.held⟩ := by
  apply hs.keep (hadds.bounded hs.bounded) (hadds.keepsFlags hs.bounded)
  intro r hr
  rcases List.mem_cons.mp hr with rfl | hr
  · right
    rcases hadds.made with ⟨a, ha, hstatic, _⟩
    exact ⟨a, hx ▸ ha, hstatic⟩
  · exact .inl hr

variable {outOfRange : Double → ℤ}

theorem Step.sound {s s' : Program} (hstep : Step outOfRange s s') (hs : Sound s) : Sound s' := by
  cases hstep with
  | literal els =>
    rcases newArrayConstant_touches els hs.bounded with ⟨hb, hflags⟩
    exact hs.keep hb hflags fun r hr => .inl hr
  | dupArray c hc =>
    have hfst : (arrayDup c s.heap).1 = s.heap.nextObj := by
      simp only [arrayDup]
      split <;> rfl
    exact hs.add (arrayDup_adds hs.bounded c) hfst _
  | array els => exact hs.add (opArray_adds els s.heap) rfl _
  | push r v hr =>
    rcases hs.held r hr with ⟨a, ha, _⟩
    rcases arrayPush_touches hs.bounded ha v with ⟨hb, hflags⟩
    exact hs.keep hb hflags fun r hr => .inl hr
  | strings chars =>
    have hb : Heap.Bounded { s.heap with chars := chars } := ⟨hs.bounded.objs, hs.bounded.blocks⟩
    exact hs.keep hb (KeepsFlags.refl s.heap) fun r hr => .inl hr
  | sort qsort call r ret h hr hq hret =>
    rcases hs.held r hr with ⟨a, ha, hstatic⟩
    rcases arraySort_eq hq ha hstatic with ⟨_, h', _, hadds, _, heq⟩ | ⟨_, _, h', _, _, heq⟩
    · rw [heq] at hret
      cases hret
      exact hs.add hadds rfl _
    · rw [heq] at hret
      cases hret
  | sortThrows qsort call r e h hr hq hthrow =>
    rcases hs.held r hr with ⟨a, ha, hstatic⟩
    rcases arraySort_eq hq ha hstatic with ⟨_, h', _, _, _, heq⟩ | ⟨_, _, h', _, hadds, heq⟩
    · rw [heq] at hthrow
      cases hthrow
    · rw [heq] at hthrow
      cases hthrow
      exact hs.keep (hadds.bounded hs.bounded) (hadds.keepsFlags hs.bounded) fun r hr => .inl hr

theorem Reachable.sound {s : Program} (hreach : Reachable outOfRange s) : Sound s := by
  induction hreach with
  | start chars =>
    refine ⟨⟨?_, ?_⟩, ?_⟩
    · rintro r a ⟨⟩
    · rintro r a p ⟨⟩
    · intro r hr
      cases hr
  | step _ hstep ih => exact hstep.sound ih

end

/-! ## Orders -/

/-- The sign of a double that is no NaN. -/
def signum (d : Double) : ℤ :=
  if extended d < ((0 : ℚ) : WithTop ℚ) then -1
  else if extended d = ((0 : ℚ) : WithTop ℚ) then 0 else 1

/-- Numbers by their size. -/
def numberOrder : Value → Value → ℤ
  | .number a, .number b =>
    if extended a < extended b then -1 else if extended a = extended b then 0 else 1
  | _, _ => 0

/-- Strings by their bytes. -/
def byteOrder (h : Heap) : Value → Value → ℤ
  | .string a, .string b => bytesCmp (h.chars a) (h.chars b)
  | _, _ => 0

/-- The order a block defines by the sign of its number. -/
def blockOrder (block : Block) (a b : Value) : ℤ :=
  match block a b with
  | .ok (.number d) => signum d
  | _ => 0

/-- The arrays that have an order: numbers without NaNs, strings, and what a block orders. -/
inductive Sortable (h : Heap) (l : List Value) : Call → (Value → Value → ℤ) → Prop where
  | numbers (hl : ∀ v ∈ l, ∃ d, v = .number d ∧ isNaN d = false) :
    Sortable h l .sort numberOrder
  | strings (hl : ∀ v ∈ l, ∃ r, v = .string r) : Sortable h l .sort (byteOrder h)
  | block (block : Block)
    (hl : ∀ a ∈ l, ∀ b ∈ l, ∃ d, block a b = .ok (.number d) ∧ isNaN d = false)
    (horder : Consistent (blockOrder block) l) : Sortable h l (.sortBy block) (blockOrder block)

/-- No two strings differ only behind a NUL, and no number of the block loses or changes its sign
in the cast to `int`. -/
def Told (outOfRange : Double → ℤ) (h : Heap) (l : List Value) : Call → Prop
  | .sort => ∀ r r', .string r ∈ l → .string r' ∈ l → cstr (h.chars r) = cstr (h.chars r') →
      h.chars r = h.chars r'
  | .sortBy block => ∀ a ∈ l, ∀ b ∈ l, ∀ d, block a b = .ok (.number d) →
      (castInt outOfRange d < 0 ↔ signum d < 0) ∧ (0 < castInt outOfRange d ↔ 0 < signum d)

section

variable {h : Heap} {l : List Value} {outOfRange : Double → ℤ} {call : Call}
  {ord : Value → Value → ℤ}

theorem bytesCmp_swap (a b : Bytes) : bytesCmp b a = -bytesCmp a b := by
  induction a generalizing b with
  | nil => cases b <;> rfl
  | cons x a ih =>
    cases b with
    | nil => rfl
    | cons y b =>
      by_cases hxy : x = y
      · simp only [bytesCmp, hxy, if_true]
        exact ih b
      · simp only [bytesCmp, hxy, Ne.symm hxy, if_false]
        omega

theorem bytesCmp_eq_zero_iff {a b : Bytes} : bytesCmp a b = 0 ↔ a = b := by
  induction a generalizing b with
  | nil => cases b <;> simp [bytesCmp]
  | cons x a ih =>
    cases b with
    | nil => simp [bytesCmp]
    | cons y b =>
      by_cases hxy : x = y
      · simp [bytesCmp, hxy, ih]
      · have hne : x.toNat ≠ y.toNat := fun heq => hxy (UInt8.toNat_inj.mp heq)
        simp only [bytesCmp, hxy, if_false, List.cons.injEq, false_and, iff_false]
        omega

theorem bytesCmp_trans {a b c : Bytes} (hab : bytesCmp a b ≤ 0) (hbc : bytesCmp b c ≤ 0) :
    bytesCmp a c ≤ 0 := by
  induction a generalizing b c with
  | nil => cases c <;> simp [bytesCmp]
  | cons x a ih =>
    cases b with
    | nil => simp [bytesCmp] at hab
    | cons y b =>
      cases c with
      | nil => simp [bytesCmp] at hbc
      | cons z c =>
        simp only [bytesCmp] at hab hbc ⊢
        by_cases hxy : x = y
        · subst hxy
          rw [if_pos rfl] at hab
          by_cases hxz : x = z
          · rw [if_pos hxz] at hbc ⊢
            exact ih hab hbc
          · rwa [if_neg hxz] at hbc ⊢
        · have hne : x.toNat ≠ y.toNat := fun heq => hxy (UInt8.toNat_inj.mp heq)
          rw [if_neg hxy] at hab
          by_cases hyz : y = z
          · subst hyz
            rwa [if_neg hxy]
          · rw [if_neg hyz] at hbc
            have hxz : x ≠ z := by
              rintro rfl
              omega
            rw [if_neg hxz]
            omega

/-- Up to the first NUL is enough where there is a difference. -/
theorem bytesCmp_cstr {a b : Bytes} (hne : cstr a ≠ cstr b) :
    (bytesCmp (cstr a) (cstr b) < 0 ↔ bytesCmp a b < 0) ∧
      (0 < bytesCmp (cstr a) (cstr b) ↔ 0 < bytesCmp a b) := by
  induction a generalizing b with
  | nil =>
    cases b with
    | nil => exact absurd rfl hne
    | cons y b =>
      by_cases hy : y = 0
      · simp [cstr, hy] at hne
      · simp [cstr, hy, bytesCmp]
  | cons x a ih =>
    cases b with
    | nil =>
      by_cases hx : x = 0
      · simp [cstr, hx] at hne
      · simp [cstr, hx, bytesCmp]
    | cons y b =>
      by_cases hx : x = 0
      · by_cases hy : y = 0
        · simp [cstr, hx, hy] at hne
        · have hpos : 0 < y.toNat := Nat.pos_of_ne_zero fun heq => hy (UInt8.toNat_inj.mp heq)
          subst hx
          simp [cstr, hy, bytesCmp, Ne.symm hy]
          omega
      · by_cases hy : y = 0
        · have hpos : 0 < x.toNat := Nat.pos_of_ne_zero fun heq => hx (UInt8.toNat_inj.mp heq)
          subst hy
          simp [cstr, hx, bytesCmp]
          omega
        · by_cases hxy : x = y
          · subst hxy
            have hne' : cstr a ≠ cstr b := by
              intro heq
              apply hne
              simpa [cstr, hx] using heq
            simpa [cstr, hx, bytesCmp] using ih hne'
          · simp [cstr, hx, hy, bytesCmp, hxy]

theorem numberOrder_consistent (hl : ∀ v ∈ l, ∃ d, v = .number d ∧ isNaN d = false) :
    Consistent numberOrder l := by
  constructor
  · intro a ha b hb
    rcases hl a ha with ⟨x, rfl, _⟩
    rcases hl b hb with ⟨y, rfl, _⟩
    simp only [numberOrder]
    rcases lt_trichotomy (extended x) (extended y) with hlt | heq | hgt
    · simp [hlt, hlt.not_gt, hlt.ne']
    · simp [heq]
    · simp [hgt, hgt.not_gt, hgt.ne']
  · intro a ha b hb c hc hab hbc
    rcases hl a ha with ⟨x, rfl, _⟩
    rcases hl b hb with ⟨y, rfl, _⟩
    rcases hl c hc with ⟨z, rfl, _⟩
    have hle : ∀ u v : Double, numberOrder (.number u) (.number v) ≤ 0 ↔
        extended u ≤ extended v := by
      intro u v
      simp only [numberOrder]
      rcases lt_trichotomy (extended u) (extended v) with hlt | heq | hgt
      · simp [hlt, hlt.le]
      · simp [heq]
      · simp [hgt.not_gt, hgt.ne', hgt.not_ge]
    rw [hle] at hab hbc ⊢
    exact hab.trans hbc

theorem byteOrder_consistent (hl : ∀ v ∈ l, ∃ r, v = .string r) : Consistent (byteOrder h) l := by
  constructor
  · intro a ha b hb
    rcases hl a ha with ⟨x, rfl⟩
    rcases hl b hb with ⟨y, rfl⟩
    simp only [byteOrder]
    rw [bytesCmp_swap (h.chars x)]
    omega
  · intro a ha b hb c hc hab hbc
    rcases hl a ha with ⟨x, rfl⟩
    rcases hl b hb with ⟨y, rfl⟩
    rcases hl c hc with ⟨z, rfl⟩
    exact bytesCmp_trans hab hbc

theorem Sortable.consistent (hs : Sortable h l call ord) : Consistent ord l := by
  cases hs with
  | numbers hl => exact numberOrder_consistent hl
  | strings hl => exact byteOrder_consistent hl
  | block block hl horder => exact horder

theorem valCmp_number {x y : Double} (hx : isNaN x = false) (hy : isNaN y = false) :
    valCmp h (.number x) (.number y) = .ok (numberOrder (.number x) (.number y)) := by
  simp only [valCmp, numberOrder, lessThan, equalTo, hx, hy, Bool.not_false, Bool.true_and,
    decide_eq_true_eq]

theorem valCmpBlock_number {block : Block} {a b : Value} {d : Double}
    (hblock : block a b = .ok (.number d)) :
    valCmpBlock outOfRange block a b = .ok (castInt outOfRange d) := by
  simp only [valCmpBlock, hblock]
  rfl

/-- No comparison fails. -/
theorem Sortable.compare_ok (hs : Sortable h l call ord) :
    ∀ a ∈ l, ∀ b ∈ l, ∃ n, call.compare outOfRange h a b = .ok n := by
  intro a ha b hb
  cases hs with
  | numbers hl =>
    rcases hl a ha with ⟨x, rfl, hx⟩
    rcases hl b hb with ⟨y, rfl, hy⟩
    exact ⟨_, valCmp_number (h := h) hx hy⟩
  | strings hl =>
    rcases hl a ha with ⟨x, rfl⟩
    rcases hl b hb with ⟨y, rfl⟩
    exact ⟨_, rfl⟩
  | block block hl _ =>
    rcases hl a ha b hb with ⟨d, hd, _⟩
    exact ⟨_, valCmpBlock_number hd⟩

theorem castInt_of_signum {d : Double} (hzero : signum d = 0) :
    castInt outOfRange d = 0 := by
  have hextended : extended d = ((0 : ℚ) : WithTop ℚ) := by
    simp only [signum] at hzero
    split at hzero
    · cases hzero
    · split at hzero
      · assumption
      · cases hzero
  have hvalue : d.isFinite = true ∧ d.value = 0 := by
    simp only [extended] at hextended
    split at hextended
    · rename_i hfinite
      refine ⟨hfinite, ?_⟩
      simpa using hextended
    · split at hextended
      · exact absurd hextended WithBot.bot_ne_coe
      · exact absurd (WithBot.coe_injective hextended) WithTop.top_ne_coe
  have hint : d.toInt? = some 0 := by
    rw [Double.toInt?, hvalue.2]
    simp [hvalue.1, truncate, intMin, intMax]
  rw [castInt, hint, Option.getD_some]

theorem signum_of_finite {d : Double} (hd : d.isFinite = true) :
    signum d = if d.value < 0 then -1 else if d.value = 0 then 0 else 1 := by
  simp only [signum, extended, hd, if_true, WithBot.coe_lt_coe, WithTop.coe_lt_coe,
    WithBot.coe_inj, WithTop.coe_inj]

/-- Where the order sees no difference the comparison sees none. -/
theorem Sortable.zero (hs : Sortable h l call ord) : ∀ a ∈ l, ∀ b ∈ l, ord a b = 0 →
    Sorting.value (call.compare outOfRange h) a b = 0 := by
  intro a ha b hb hzero
  cases hs with
  | numbers hl =>
    rcases hl a ha with ⟨x, rfl, hx⟩
    rcases hl b hb with ⟨y, rfl, hy⟩
    simp only [Sorting.value, Call.compare, valCmp_number hx hy, hzero]
  | strings hl =>
    rcases hl a ha with ⟨x, rfl⟩
    rcases hl b hb with ⟨y, rfl⟩
    have heq : h.chars x = h.chars y := bytesCmp_eq_zero_iff.mp hzero
    simp only [Sorting.value, Call.compare, valCmp, strcmp, heq]
    exact bytesCmp_eq_zero_iff.mpr rfl
  | block block hl _ =>
    rcases hl a ha b hb with ⟨d, hd, _⟩
    simp only [blockOrder, hd] at hzero
    simp only [Sorting.value, Call.compare, valCmpBlock_number hd]
    exact castInt_of_signum hzero

/-- The comparison agrees with the order exactly when it is told all of it. -/
theorem Sortable.agree_iff (hs : Sortable h l call ord) :
    Agree (Sorting.value (call.compare outOfRange h)) ord l ↔ Told outOfRange h l call := by
  cases hs with
  | numbers hl =>
    constructor
    · intro _ r r' hr
      rcases hl _ hr with ⟨d, hd, _⟩
      cases hd
    · intro _ a ha b hb
      rcases hl a ha with ⟨x, rfl, hx⟩
      rcases hl b hb with ⟨y, rfl, hy⟩
      simp only [Sorting.value, Call.compare, valCmp_number hx hy, and_self]
  | strings hl =>
    constructor
    · intro hagree r r' hr hr' heq
      have hsign := hagree _ hr _ hr'
      simp only [Sorting.value, Call.compare, valCmp, strcmp, heq, byteOrder,
        bytesCmp_eq_zero_iff.mpr rfl] at hsign
      apply bytesCmp_eq_zero_iff.mp
      omega
    · intro htold a ha b hb
      rcases hl a ha with ⟨x, rfl⟩
      rcases hl b hb with ⟨y, rfl⟩
      simp only [Sorting.value, Call.compare, valCmp, strcmp, byteOrder]
      by_cases heq : cstr (h.chars x) = cstr (h.chars y)
      · rw [htold x y ha hb heq]
        simp [bytesCmp_eq_zero_iff.mpr rfl]
      · exact bytesCmp_cstr heq
  | block block hl _ =>
    constructor
    · intro hagree a ha b hb d hd
      have hsign := hagree a ha b hb
      simpa only [Sorting.value, Call.compare, valCmpBlock_number hd, blockOrder, hd] using hsign
    · intro htold a ha b hb
      rcases hl a ha b hb with ⟨d, hd, _⟩
      simpa only [Sorting.value, Call.compare, valCmpBlock_number hd, blockOrder, hd] using
        htold a ha b hb d hd

/-- Within the range of `int` the sign is kept by numbers that are zero or at least one in
absolute value. -/
theorem castInt_sign_iff {d : Double} {n : ℤ} (hint : d.toInt? = some n) :
    ((castInt outOfRange d < 0 ↔ d.value < 0) ∧ (0 < castInt outOfRange d ↔ 0 < d.value)) ↔
      d.value = 0 ∨ 1 ≤ |d.value| := by
  have hcast : castInt outOfRange d = truncate d.value := by
    rw [castInt, hint, Option.getD_some]
    rw [Double.toInt?] at hint
    split at hint
    · cases hint
      rfl
    · cases hint
  have hpos : 1 ≤ d.value ↔ 0 < truncate d.value := by
    have := le_truncate (q := d.value) (n := 1) (by decide)
    push_cast at this
    rw [this]
    omega
  have hneg : d.value ≤ -1 ↔ truncate d.value < 0 := by
    have := truncate_le (q := d.value) (n := -1) (by decide)
    push_cast at this
    rw [this]
    omega
  rw [hcast, ← hpos, ← hneg, le_abs, le_neg]
  constructor
  · rintro ⟨hsign, hsign'⟩
    rcases lt_trichotomy d.value 0 with hlt | heq | hgt
    · exact .inr (.inr (hsign.mpr hlt))
    · exact .inl heq
    · exact .inr (.inl (hsign'.mpr hgt))
  · rintro (heq | hge | hle)
    · norm_num [heq]
    · exact ⟨iff_of_false (by linarith) (by linarith), iff_of_true hge (by linarith)⟩
    · exact ⟨iff_of_true hle (by linarith), iff_of_false (by linarith) (by linarith)⟩

/-! ## Sorting a held array -/

/-- However `qsort` works, nothing that was there changes, and what has an order is put in it in a
new array. -/
def SortsPurely (outOfRange : Double → ℤ) (call : Call) (r : ℕ) (h : Heap) : Prop :=
  ∀ qsort, Correct qsort → Unchanged h (arraySort qsort outOfRange call r h).2 ∧
    ∀ ord, Sortable h (h.contents r) call ord →
      ∃ ret, (arraySort qsort outOfRange call r h).1 = .ok ret ∧
        ((arraySort qsort outOfRange call r h).2.contents ret).Perm (h.contents r) ∧
        Ascending ord ((arraySort qsort outOfRange call r h).2.contents ret)

theorem told_of_sortsPurely {s : Program} (hreach : Reachable outOfRange s) {r : ℕ}
    (hr : r ∈ s.held) (hpure : SortsPurely outOfRange call r s.heap)
    (hord : Sortable s.heap (s.heap.contents r) call ord) :
    Told outOfRange s.heap (s.heap.contents r) call := by
  rcases hreach.sound.held r hr with ⟨a, ha, hstatic⟩
  rw [← hord.agree_iff, ← ascending_iff_agree hord.consistent hord.zero]
  intro l' hl'
  -- a sort that gives this list
  rcases exists_correct hl'.allowed with ⟨qsort, hq, hdone⟩
  rcases arraySort_eq hq ha hstatic with ⟨l'', h', hl'', _, hcontents, heq⟩ | ⟨_, _, _, hthrown, _⟩
  · rw [hdone] at hl''
    cases hl''
    rcases (hpure qsort hq).2 ord hord with ⟨ret, hret, _, hasc⟩
    rw [heq] at hret hasc
    cases hret
    rwa [hcontents] at hasc
  · rw [hdone] at hthrown
    cases hthrown

theorem sortsPurely_of_told {s : Program} (hreach : Reachable outOfRange s) {r : ℕ}
    (hr : r ∈ s.held) (htold : ∀ ord, Sortable s.heap (s.heap.contents r) call ord →
      Told outOfRange s.heap (s.heap.contents r) call) : SortsPurely outOfRange call r s.heap := by
  have hsound := hreach.sound
  rcases hsound.held r hr with ⟨a, ha, hstatic⟩
  intro qsort hq
  rcases arraySort_eq hq ha hstatic with
    ⟨l', h', hl', hadds, hcontents, heq⟩ | ⟨e, left, h', hthrown, hadds, heq⟩
  · rw [heq]
    refine ⟨hadds.unchanged hsound.bounded, ?_⟩
    intro ord hord
    rcases (hq _ _).done hord.compare_ok with ⟨_, hdone, hsorted⟩
    rw [hl'] at hdone
    cases hdone
    refine ⟨_, rfl, ?_⟩
    dsimp only
    rw [hcontents]
    refine ⟨hsorted.1, ?_⟩
    exact (ascending_iff_agree hord.consistent hord.zero).mpr
      (hord.agree_iff.mpr (htold ord hord)) _ hsorted
  · -- an error of the comparison
    rw [heq]
    refine ⟨hadds.unchanged hsound.bounded, ?_⟩
    intro ord hord
    rcases (hq _ _).done hord.compare_ok with ⟨_, hdone, _⟩
    rw [hthrown] at hdone
    cases hdone

theorem opArray_contents (els : List Value) (h : Heap) :
    (opArray els h).2.contents h.nextObj = els := by
  have hw := written_new els (newArray h).2
  have hself : (opArray els h).2.arrays h.nextObj =
      some (writeAll els (emptyArray, (newArray h).2)).1 := Function.update_self ..
  rw [Heap.contents, hself]
  exact hw.values

end

/-- **Sorting is pure, and correct exactly when** for what has an order the comparison is told all
of it. -/
theorem sortsPurely_iff {outOfRange : Double → ℤ} {s : Program} (hreach : Reachable outOfRange s)
    (call : Call) {r : ℕ} (hr : r ∈ s.held) : SortsPurely outOfRange call r s.heap ↔
      ∀ ord, Sortable s.heap (s.heap.contents r) call ord →
        Told outOfRange s.heap (s.heap.contents r) call :=
  ⟨fun hpure _ => told_of_sortsPurely hreach hr hpure, sortsPurely_of_told hreach hr⟩

/-! ## Two elements that are not told apart -/

/-- What the cast gives on the usual machines. -/
def castFails : Double → ℤ := fun _ => intMin

/-- A program with one array. -/
def oneArray (els : List Value) (chars : ℕ → Bytes) : Program where
  heap := (opArray els (Program.start chars).heap).2
  constants := []
  held := [0]

theorem oneArray_reachable (els : List Value) (chars : ℕ → Bytes) :
    Reachable castFails (oneArray els chars) :=
  .step (.start chars) (.array _ els)

theorem oneArray_contents (els : List Value) (chars : ℕ → Bytes) :
    (oneArray els chars).heap.contents 0 = els := opArray_contents els _

/-- `[1, 0.5]` -/
def halves : List Value := [.number .one, .number .half]

def noChars : ℕ → Bytes := fun _ => []

theorem halves_sorted : SortsPurely castFails .sort 0 (oneArray halves noChars).heap := by
  refine (sortsPurely_iff (oneArray_reachable halves noChars) .sort List.mem_cons_self).mpr ?_
  intro ord _ r r' hr
  rw [oneArray_contents] at hr
  simp [halves] at hr

def minusHalf : Double := ⟨0xBFE0000000000000⟩

/-- `a - b`, for the two elements. -/
def difference : Block := fun a b =>
  .ok (.number (if a = b then ⟨0⟩ else if a = .number .one then .half else minusHalf))

theorem minusHalf_value : minusHalf.value = -(1 / 2) := by
  have hexp : minusHalf.exponent = 1022 := by decide
  have hfrac : minusHalf.fraction = 0 := by decide
  have hsign : minusHalf.sign = true := by decide
  simp only [Double.value, hexp, hfrac, hsign]
  norm_num

theorem zero_value : (⟨0⟩ : Double).value = 0 := by
  have hexp : (⟨0⟩ : Double).exponent = 0 := by decide
  have hfrac : (⟨0⟩ : Double).fraction = 0 := by decide
  have hsign : (⟨0⟩ : Double).sign = false := by decide
  unfold Double.value
  rw [hexp, hfrac, hsign]
  norm_num

theorem signum_half : signum .half = 1 := by
  rw [signum_of_finite (by decide), Double.half_value]
  norm_num

theorem signum_minusHalf : signum minusHalf = -1 := by
  rw [signum_of_finite (by decide), minusHalf_value]
  norm_num

theorem signum_zero : signum ⟨0⟩ = 0 := by
  rw [signum_of_finite (by decide), zero_value]
  norm_num

theorem difference_order : blockOrder difference (.number .one) (.number .half) = 1 ∧
    blockOrder difference (.number .half) (.number .one) = -1 ∧
    ∀ v, blockOrder difference v v = 0 := by
  refine ⟨signum_half, signum_minusHalf, ?_⟩
  intro v
  simp only [blockOrder, difference, if_true]
  exact signum_zero

theorem halves_sortable (h : Heap) :
    Sortable h halves (.sortBy difference) (blockOrder difference) := by
  rcases difference_order with ⟨hgt, hlt, hself⟩
  apply Sortable.block
  · intro a _ b _
    refine ⟨_, rfl, ?_⟩
    split
    · decide
    · split <;> decide
  · constructor
    · intro a ha b hb
      simp only [halves, List.mem_cons, List.not_mem_nil, or_false] at ha hb
      rcases ha with rfl | rfl <;> rcases hb with rfl | rfl <;> simp [hgt, hlt, hself]
    · intro a ha b hb c hc
      simp only [halves, List.mem_cons, List.not_mem_nil, or_false] at ha hb hc
      rcases ha with rfl | rfl <;> rcases hb with rfl | rfl <;> rcases hc with rfl | rfl <;>
        simp [hgt, hlt, hself]

theorem castInt_half : castInt castFails .half = 0 := by
  have hfinite : Double.isFinite .half = true := by decide
  have hint : Double.toInt? .half = some 0 := by
    rw [Double.toInt?, Double.half_value]
    norm_num [hfinite, truncate, intMin, intMax]
  rw [castInt, hint, Option.getD_some]

/-- Two strings that differ behind a NUL. -/
def nulChars : ℕ → Bytes
  | 0 => [97, 0, 98]
  | _ => [97, 0, 97]

def nulStrings : List Value := [.string 0, .string 1]

/-- A difference below one is cut to none, and strings are compared up to their first NUL. -/
theorem half_is_cut :
    (Reachable castFails (oneArray halves noChars) ∧
      ¬ SortsPurely castFails (.sortBy difference) 0 (oneArray halves noChars).heap) ∧
    Reachable castFails (oneArray nulStrings nulChars) ∧
      ¬ SortsPurely castFails .sort 0 (oneArray nulStrings nulChars).heap := by
  refine ⟨⟨oneArray_reachable _ _, ?_⟩, oneArray_reachable _ _, ?_⟩
  · intro hpure
    have htold := told_of_sortsPurely (oneArray_reachable halves noChars) List.mem_cons_self hpure
      (by rw [oneArray_contents]; exact halves_sortable _)
    rw [oneArray_contents] at htold
    have hsign := htold (.number .one) (by simp [halves]) (.number .half) (by simp [halves]) .half rfl
    rw [castInt_half, signum_half] at hsign
    omega
  · intro hpure
    have hsortable : Sortable (oneArray nulStrings nulChars).heap nulStrings .sort
        (byteOrder (oneArray nulStrings nulChars).heap) := by
      apply Sortable.strings
      intro v hv
      simp only [nulStrings, List.mem_cons, List.not_mem_nil, or_false] at hv
      rcases hv with rfl | rfl
      · exact ⟨_, rfl⟩
      · exact ⟨_, rfl⟩
    have htold := told_of_sortsPurely (oneArray_reachable nulStrings nulChars) List.mem_cons_self
      hpure (by rw [oneArray_contents]; exact hsortable)
    rw [oneArray_contents] at htold
    have hchars : (oneArray nulStrings nulChars).heap.chars = nulChars := by
      exact (written_new nulStrings _).chars
    have heq := htold 0 1 (by simp [nulStrings]) (by simp [nulStrings])
    rw [hchars] at heq
    exact absurd (heq (by decide)) (by decide)

end Clox.Sorted
