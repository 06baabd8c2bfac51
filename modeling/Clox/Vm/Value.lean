import Mathlib.Data.Nat.Notation
import Mathlib.Data.Int.Bitwise

/-! # Values

Lox values as the compiler and the VM's operators see them. Numbers are C
doubles; the model is generic in the number type and takes the operations the
code performs on doubles as a class, so that the compile-time folder and the
VM share one arithmetic. Strings, arrays and maps are their contents; every
other heap object (instance, class, closure, ...) is an opaque identity.
-/

namespace Clox

/-- The operations the code performs on `double`s. -/
class LoxNum (ν : Type) where
  add : ν → ν → ν
  sub : ν → ν → ν
  mul : ν → ν → ν
  div : ν → ν → ν
  /-- `(int)a % (int)b`; `none` where the integer division traps. -/
  mod : ν → ν → Option ν
  /-- `(int)a | (int)b`, and so on for the other operators on `int`. -/
  bitor : ν → ν → ν
  bitand : ν → ν → ν
  bitxor : ν → ν → ν
  shovelL : ν → ν → ν
  shovelR : ν → ν → ν
  neg : ν → ν
  eq : ν → ν → Bool
  lt : ν → ν → Bool
  /-- The same 64 bits. -/
  same : ν → ν → Bool
  /-- `n == 0.00` -/
  isZero : ν → Bool
  /-- A small index stored as a number (`NUMBER_VAL(idx)`). -/
  ofNat : ℕ → ν
  /-- `strtol(s, NULL, 8)` -/
  strtol8 : String → ν
  /-- `strtol(s, NULL, 2)` -/
  strtol2 : String → ν
  strtod : String → ν

/-- The whole-number doubles, as far as they are exact: digits without a point, operators that
give whole numbers. -/
def decimal (s : String) : ℤ :=
  s.toList.foldl (fun n c => 10 * n + ((c.toNat : ℤ) - 48)) 0

instance : LoxNum ℤ where
  add := (· + ·)
  sub := (· - ·)
  mul := (· * ·)
  div := Int.tdiv
  mod a b := if b = 0 then none else some (a.tmod b)
  bitor := Int.lor
  bitand := Int.land
  bitxor := Int.xor
  shovelL a b := Int.shiftLeft a b.toNat
  shovelR a b := Int.shiftRight a b.toNat
  neg := (- ·)
  eq a b := a == b
  lt a b := decide (a < b)
  same a b := a == b
  isZero a := a == 0
  ofNat n := n
  strtol8 s := s.toList.foldl (fun n c => 8 * n + ((c.toNat : ℤ) - 48)) 0
  strtol2 s := s.toList.foldl (fun n c => 2 * n + ((c.toNat : ℤ) - 48)) 0
  strtod := decimal

/-- `Value`. -/
inductive Value (ν : Type) where
  | nil
  | undef
  | bool (b : Bool)
  | number (n : ν)
  | string (s : String)
  | array (els : List (Value ν))
  | map (entries : List (Value ν × Value ν))
  /-- An `ObjFunction` of the compiler's function table. -/
  | function (id : ℕ)
  /-- An `ObjInternal` holding the `CallInfo` of a call site. -/
  | internal (id : ℕ)
  | obj (id : ℕ)

namespace Value

variable {ν : Type}

/-- `isTruthy` -/
def isTruthy : Value ν → Bool
  | nil => false
  | bool b => b
  | _ => true

def isNumber : Value ν → Bool
  | number _ => true
  | _ => false

def isUndef : Value ν → Bool
  | undef => true
  | _ => false

/-- `valEqual`, under NaN tagging: immediate values are equal when their bits are; `objEqual`
compares a heap object with a value (`opEquals` for instances). -/
def valEqual [LoxNum ν] (objEqual : Value ν → Value ν → Bool) : Value ν → Value ν → Bool
  | nil, nil => true
  | bool a, bool b => a == b
  | number a, number b => LoxNum.same a b
  | nil, _ | bool _, _ | number _, _ | undef, _ => false
  | a, b => objEqual a b

/-- `tableSet` on the finite map a table stands for, its entries in the order they were first
set. -/
def tableSet [LoxNum ν] (objEqual : Value ν → Value ν → Bool) (key val : Value ν) :
    List (Value ν × Value ν) → List (Value ν × Value ν)
  | [] => [(key, val)]
  | (k, v) :: rest =>
    if valEqual objEqual k key then (key, val) :: rest
    else (k, v) :: tableSet objEqual key val rest

end Value

end Clox
