import Clox.Vm.Arithmetic
import Clox.Vm.Hierarchy
import Mathlib.Data.Int.Log
import Mathlib.Data.List.DropRight

/-! # Printing and `valueToString`

`print` writes a value with `printValue`; `toString` of a container and the buffer of the tests use
`valueToString`. Both go through the types of the values on their own, and both call the method
`toString` where they find one.
-/

namespace Clox.Printing

open Clox

abbrev Bytes := List UInt8

/-- The bytes of a C string literal. -/
def bytes (s : String) : Bytes := s.toList.map fun c => UInt8.ofNat c.toNat

/-- What `%s` and `strlen` see of a buffer. -/
def cstr (b : Bytes) : Bytes := b.takeWhile (· ≠ 0)

theorem zero_notMem_cstr (b : Bytes) : 0 ∉ cstr b := by
  intro h
  simpa using List.mem_takeWhile_imp h

theorem cstr_eq {b : Bytes} (h : 0 ∉ b) : cstr b = b := by
  rw [cstr, List.takeWhile_eq_self_iff]
  intro c hc
  simp only [decide_not, Bool.not_eq_eq_eq_not, Bool.not_true, decide_eq_false_iff_not]
  rintro rfl
  exact h hc

/-! ## `%g` -/

/-- To the nearest whole number, halves to the even one. -/
def roundEven (q : ℚ) : ℕ :=
  let below := ⌊q⌋.toNat
  let rest := q - below
  if rest < 1 / 2 then below
  else if 1 / 2 < rest then below + 1
  else if below % 2 = 0 then below else below + 1

/-- Six significant digits of a positive number and the exponent of the first. -/
def sixDigits (q : ℚ) : ℕ × ℤ :=
  let x := Int.log 10 q
  let m := roundEven (q / 10 ^ (x - 5))
  if m = 10 ^ 6 then (10 ^ 5, x + 1) else (m, x)

def digit (n : ℕ) : UInt8 := UInt8.ofNat (48 + n % 10)

/-- The last `k` decimal digits. -/
def digits : ℕ → ℕ → Bytes
  | 0, _ => []
  | k + 1, n => digits k (n / 10) ++ [digit n]

/-- `%g` drops the zeros at the end, and the point if nothing is left behind it. -/
def fraction (ds : Bytes) : Bytes :=
  match ds.rdropWhile (· = 48) with
  | [] => []
  | frac => bytes "." ++ frac

/-- The exponent has two digits at least; that of a double has three at most. -/
def exponentText (x : ℤ) : Bytes :=
  bytes (if x < 0 then "e-" else "e+") ++ digits (if x.natAbs < 100 then 2 else 3) x.natAbs

def formatPositive (q : ℚ) : Bytes :=
  let (m, x) := sixDigits q
  let ds := digits 6 m
  if 0 ≤ x ∧ x < 6 then
    ds.take (x.toNat + 1) ++ fraction (ds.drop (x.toNat + 1))
  else if -4 ≤ x ∧ x < 0 then
    bytes "0" ++ fraction (List.replicate (-x - 1).toNat 48 ++ ds)
  else
    ds.take 1 ++ fraction (ds.drop 1) ++ exponentText x

/-- `printf("%g", d)` -/
def formatG (d : Double) : Bytes :=
  let sign := bytes (if d.sign then "-" else "")
  if d.isFinite then
    sign ++ if d.value = 0 then bytes "0" else formatPositive |d.value|
  else
    sign ++ bytes (if d.fraction = 0 then "inf" else "nan")

theorem length_digits (k n : ℕ) : (digits k n).length = k := by
  induction k generalizing n with
  | zero => rfl
  | succ k ih => rw [digits, List.length_append, ih, List.length_singleton]

theorem length_fraction (ds : Bytes) : (fraction ds).length ≤ ds.length + 1 := by
  have hdrop : (ds.rdropWhile (· = 48)).length ≤ ds.length := (List.rdropWhile_prefix _ _).length_le
  unfold fraction
  split
  · simp
  · have hpoint : (bytes ".").length = 1 := by decide
    rw [List.length_append]
    omega

theorem length_exponentText (x : ℤ) : (exponentText x).length ≤ 5 := by
  have hminus : (bytes "e-").length = 2 := by decide
  have hplus : (bytes "e+").length = 2 := by decide
  unfold exponentText
  rw [List.length_append, length_digits]
  split <;> split <;> omega

theorem length_formatPositive (q : ℚ) : (formatPositive q).length ≤ 14 := by
  unfold formatPositive
  have hds : (digits 6 (sixDigits q).1).length = 6 := length_digits 6 _
  have hzero : (bytes "0").length = 1 := by decide
  have hexp := length_exponentText (sixDigits q).2
  dsimp only
  split
  · have hfrac := length_fraction ((digits 6 (sixDigits q).1).drop ((sixDigits q).2.toNat + 1))
    rw [List.length_drop] at hfrac
    rw [List.length_append, List.length_take]
    omega
  · split
    · have hfrac := length_fraction
        (List.replicate (-(sixDigits q).2 - 1).toNat 48 ++ digits 6 (sixDigits q).1)
      rw [List.length_append, List.length_replicate] at hfrac
      rw [List.length_append]
      omega
    · have hfrac := length_fraction ((digits 6 (sixDigits q).1).drop 1)
      rw [List.length_drop] at hfrac
      rw [List.length_append, List.length_append, List.length_take]
      omega

/-- The buffer of `valueToString` is long enough. -/
theorem length_formatG (d : Double) : (formatG d).length ≤ 49 := by
  have hpos := length_formatPositive |d.value|
  have hsign : (bytes (if d.sign then "-" else "")).length ≤ 1 := by split <;> decide
  have hzero : (bytes "0").length = 1 := by decide
  have hother : (bytes (if d.fraction = 0 then "inf" else "nan")).length = 3 := by
    split <;> decide
  unfold formatG
  by_cases hfinite : d.isFinite = true
  · rw [if_pos hfinite, List.length_append]
    by_cases hvalue : d.value = 0
    · rw [if_pos hvalue]
      omega
    · rw [if_neg hvalue]
      omega
  · rw [if_neg hfinite, List.length_append]
    omega

/-! ## Values -/

inductive Value
  | bool (b : Bool)
  | nil
  | number (d : Double)
  /-- `UNDEF_VAL` -/
  | undef
  /-- An instance, a class, a module or an included module. -/
  | ref (k : ObjId)
  /-- An object of another type. -/
  | obj (r : ℕ)
  deriving DecidableEq

/-- What a bound method calls. -/
inductive BoundCallable
  | closure (name : Option Bytes)
  | nativeFunction (name : Bytes)
  | other

inductive Object
  | string (chars : Option Bytes)
  | function (name : Option Bytes)
  /-- A closure prints the name of its function. -/
  | closure (name : Option Bytes)
  | array (inst : ObjInstance) (els : List Value)
  /-- The entries are in the order of the slots. -/
  | map (inst : ObjInstance) (entries : List (Value × Value))
  | regex (inst : ObjInstance)
  | nativeFunction (name : Bytes)
  | boundMethod (callable : BoundCallable)

/-- The natives called `toString` that call `valueToString`. -/
inductive Native
  | lxArrayToString
  | lxMapToString

/-- Why a text is not returned. -/
inductive Failure
  /-- "TypeError, toString() returned non-string, is a: %s" -/
  | nonString
  /-- An error that a method threw. -/
  | thrown (err : Value)
  | unreachable
  | aborted
  | segfault

/-- What a method returns: a string with its bytes, or a value of another type. -/
inductive Returned
  | string (chars : Bytes)
  | other

structure World where
  heap : Clox.Heap
  objs : ℕ → Option Object
  /-- The name of a class or module, and of those that it is nested in. -/
  names : ObjId → List (Option Bytes)
  native : Callable → Option Native
  /-- What other methods return, the same each time. -/
  called : Callable → Value → Except Failure Returned

abbrev Result := ExceptT Failure Option Bytes

/-- `classNameFull`: the names are put before one another. -/
def classNameFull : List (Option Bytes) → Bytes
  | [] => []
  | [name] => (name.map cstr).getD (bytes "(anon)")
  | name :: under => classNameFull under ++ bytes "::" ++ (name.map cstr).getD (bytes "(anon)")

/-- `"<%s %s>"` -/
def tagged (tag : String) (name : Bytes) : Bytes := bytes ("<" ++ tag ++ " ") ++ name ++ bytes ">"

/-! ## `valueToString` -/

section

variable (w : World)

/-- The elements, with commas between them; the array itself stands for no element. -/
def arrayElements (text : Value → Result) (self : Value) : List Value → Result
  | [] => pure []
  | el :: rest =>
    if el = self then do
      let after ← arrayElements text self rest
      return bytes "[...]" ++ after
    else do
      let buf ← text el
      let after ← arrayElements text self rest
      return cstr buf ++ (if rest = [] then [] else bytes ",") ++ after

def lxArrayToString (text : Value → Result) (self : Value) : Result :=
  match self with
  | .obj r =>
    match w.objs r with
    | some (.array _ els) => do
      let elements ← arrayElements text self els
      return bytes "[" ++ elements ++ bytes "]"
    | _ => throw .segfault
  | _ => throw .segfault

/-- A key or a value of the map. -/
def entryText (text : Value → Result) (self v : Value) : Result :=
  if v = self then pure (bytes "{...}")
  else do
    let buf ← text v
    return cstr buf

def mapEntries (text : Value → Result) (self : Value) : List (Value × Value) → Result
  | [] => pure []
  | (key, value) :: rest => do
    let keyS ← entryText text self key
    let valS ← entryText text self value
    let after ← mapEntries text self rest
    return keyS ++ bytes " => " ++ valS ++ (if rest = [] then [] else bytes ", ") ++ after

def lxMapToString (text : Value → Result) (self : Value) : Result :=
  match self with
  | .obj r =>
    match w.objs r with
    | some (.map _ entries) => do
      let all ← mapEntries text self entries
      return bytes "\x7b" ++ all ++ bytes "\x7d"
    | _ => throw .segfault
  | _ => throw .segfault

/-- `callVMMethod` of a method `toString`; the bytes of the string that it has to return. -/
def callToString (text : Value → Result) (callable : Callable) (self : Value) : Result :=
  match w.native callable with
  | some .lxArrayToString => lxArrayToString w text self
  | some .lxMapToString => lxMapToString w text self
  | none =>
    match w.called callable self with
    | .ok (.string chars) => pure chars
    | .ok .other => throw .nonString
    | .error e => throw e

/-- The name behind `name->chars`, which is read through a null pointer where there is none. -/
def boundName : BoundCallable → Result
  | .closure (some name) => pure (cstr name)
  | .closure none => throw .segfault
  | .nativeFunction name => pure (cstr name)
  | .other => throw .unreachable

/-- An instance, an array, a map or a regex; `fuel` is for the lookup. -/
def instanceToString (fuel : ℕ) (text : Value → Result) (inst : ObjInstance) (self : Value) :
    Result :=
  match w.heap.instanceFindMethod fuel inst "toString" with
  | none => (none : Option (Except Failure Bytes))
  | some (some toString) => do
    let chars ← callToString w text toString self
    return cstr chars
  | some none => pure (tagged "instance" (classNameFull (w.names inst.klass)))

/-- `valueToString`; `none` when `fuel` levels do not suffice. -/
def valueToString : ℕ → Value → Result
  | 0, _ => (none : Option (Except Failure Bytes))
  | fuel + 1, value =>
    match value with
    | .bool b => pure (bytes (if b then "true" else "false"))
    | .nil => pure (bytes "nil")
    | .number d => pure ((formatG d).take 49)
    | .undef => throw .unreachable
    | .ref k =>
      match w.heap.obj k with
      | some (.inst inst) => instanceToString w fuel (valueToString fuel) inst value
      | some (.klass _ _) => pure (tagged "class" (classNameFull (w.names k)))
      | some (.module _ _) => pure (tagged "module" (classNameFull (w.names k)))
      | _ => throw .unreachable
    | .obj r =>
      match w.objs r with
      | some (.string (some chars)) => pure (cstr chars)
      | some (.string none) => throw .aborted
      | some (.function none) | some (.closure none) => pure (bytes "<fun (Anon)>")
      | some (.function (some name)) | some (.closure (some name)) =>
        pure (tagged "fun" (cstr name))
      | some (.array inst _) | some (.map inst _) | some (.regex inst) =>
        instanceToString w fuel (valueToString fuel) inst value
      | some (.nativeFunction name) => pure (bytes "<fn " ++ cstr name ++ bytes " (native)>")
      | some (.boundMethod callable) => do
        let name ← boundName callable
        return tagged "method" name
      | none => throw .unreachable

/-! ## `printValue` -/

/-- `PRINTNUM` -/
def printNum (other : ℕ) (max : ℤ) : ℤ :=
  if other = 0 then max
  else if max = -1 then -1
  else if max > other then max - other else 0

/-- `"%.*s"` -/
def precise (precision : ℤ) (text : Bytes) : Bytes :=
  if precision < 0 then text else text.take precision.toNat

/-- The elements, with a comma behind each. -/
def printElements (print : Value → Result) : List Value → Result
  | [] => pure []
  | el :: rest => do
    let out ← print el
    let after ← printElements print rest
    return out ++ bytes "," ++ after

/-- An instance-like value that has no method to call. -/
def printPlain (print : Value → Result) (inst : ObjInstance) (maxLen : ℤ) (value : Value) : Result :=
  let plain : Result :=
    pure (tagged "instance" (precise (printNum 11 maxLen) (classNameFull (w.names inst.klass))))
  match value with
  | .obj r =>
    match w.objs r with
    | some (.array _ els) => do
      let elements ← printElements print els
      return bytes "[" ++ elements ++ bytes "]"
    | _ => plain
  | _ => plain

/-- `IS_INSTANCE_LIKE` comes before the tests for classes and modules, which have that flag too: the
branches that write `<class %s>` and `<module %s>` are never reached. -/
def printInstance (fuel : ℕ) (text print : Value → Result) (inst : ObjInstance)
    (canCallMethods : Bool) (maxLen : ℤ) (value : Value) : Result :=
  if canCallMethods then
    match w.heap.instanceFindMethod fuel inst "toString" with
    | none => (none : Option (Except Failure Bytes))
    | some (some callable) => do
      let out ← callToString w text callable value
      return precise maxLen (cstr out)
    | some none => printPlain w print inst maxLen value
  else printPlain w print inst maxLen value

/-- The text that `printValue` writes; `none` when `fuel` levels do not suffice. -/
def printValue : ℕ → Value → Bool → ℤ → Result
  | 0, _, _, _ => (none : Option (Except Failure Bytes))
  | fuel + 1, value, canCallMethods, maxLen =>
    let print : Value → Result := fun el => printValue fuel el canCallMethods maxLen
    let whole (s : Bytes) : Result := pure (precise (printNum 0 maxLen) s)
    match value with
    | .bool b => whole (bytes (if b then "true" else "false"))
    | .nil => whole (bytes "nil")
    | .number d => pure (formatG d)
    | .undef => whole (bytes "undef")
    | .ref k =>
      match w.heap.obj k with
      | some (.inst inst) | some (.klass inst _) | some (.module inst _) =>
        printInstance w fuel (valueToString w fuel) print inst canCallMethods maxLen value
      | some (.iclass ..) => pure (precise (printNum 8 maxLen) (bytes "<iclass>"))
      | none => throw .unreachable
    | .obj r =>
      match w.objs r with
      | some (.string chars) => whole ((chars.map cstr).getD (bytes "(NULL)"))
      | some (.function none) | some (.closure none) => whole (bytes "<fun (Anon)>")
      | some (.function (some name)) | some (.closure (some name)) =>
        pure (tagged "fun" (precise (printNum 6 maxLen) (cstr name)))
      | some (.array inst _) | some (.map inst _) | some (.regex inst) =>
        printInstance w fuel (valueToString w fuel) print inst canCallMethods maxLen value
      | some (.nativeFunction name) =>
        pure (bytes "<fn " ++ precise (printNum 14 maxLen) (cstr name) ++ bytes " (native)>")
      | some (.boundMethod callable) => do
        let name ← boundName callable
        return tagged "method" (precise (printNum 9 maxLen) name)
      | none => throw .unreachable

end

/-! ## Where both agree -/

/-- Both give the same text, or neither gives one. -/
def Agree (w : World) (value : Value) : Prop :=
  ∀ text, Returns (fun n => printValue w n value true (-1)) (Except.ok text) ↔
    Returns (fun n => valueToString w n value) (Except.ok text)

/-- The class or module has a method `toString` of its own, and it returns this text. -/
def ReturnsText (w : World) (inst : ObjInstance) (self : Value) (text : Bytes) : Prop :=
  ∃ callable chars, Returns (w.heap.instanceFindMethod · inst "toString") (some callable) ∧
    w.native callable = none ∧ w.called callable self = .ok (.string chars) ∧ cstr chars = text

/-- Classes and modules are written as instances, and arrays by their elements where there is no
`toString`; a string needs its buffer. -/
def Plain (w : World) : Value → Prop
  | .undef => False
  | .ref k =>
    match w.heap.obj k with
    | some (.klass inst _) =>
      ReturnsText w inst (.ref k) (tagged "class" (classNameFull (w.names k)))
    | some (.module inst _) =>
      ReturnsText w inst (.ref k) (tagged "module" (classNameFull (w.names k)))
    | some (.iclass ..) => False
    | _ => True
  | .obj r =>
    match w.objs r with
    | some (.string none) => False
    | some (.array inst _) => ¬ Returns (w.heap.instanceFindMethod · inst "toString") none
    | _ => True
  | _ => True

section Agree

variable {w : World} {value : Value} {inst : ObjInstance}

@[simp] theorem precise_minus_one (text : Bytes) : precise (-1) text = text := rfl

@[simp] theorem printNum_minus_one (other : ℕ) : printNum other (-1) = -1 := by
  unfold printNum
  split <;> rfl

theorem returns_of_found {n : ℕ} {r : Option Callable}
    (h : w.heap.instanceFindMethod n inst "toString" = some r) :
    Returns (w.heap.instanceFindMethod · inst "toString") r :=
  ⟨n, fun _ hle => Linked.search_mono h hle⟩

theorem returns_inj {α : Type} {loop : ℕ → Option α} {r r' : α} (h : Returns loop r)
    (h' : Returns loop r') : r = r' := by
  obtain ⟨n, hn⟩ := h
  obtain ⟨n', hn'⟩ := h'
  have heq := (hn (max n n') (le_max_left n n')).symm.trans (hn' (max n n') (le_max_right n n'))
  exact Option.some.inj heq

/-- Both call what they find; what they do where they find nothing is compared here. -/
theorem printInstance_eq {fuel : ℕ} {print : Value → Result}
    (hnone : w.heap.instanceFindMethod fuel inst "toString" = some none →
      printPlain w print inst (-1) value =
        pure (tagged "instance" (classNameFull (w.names inst.klass)))) :
    printInstance w fuel (valueToString w fuel) print inst true (-1) value =
      instanceToString w fuel (valueToString w fuel) inst value := by
  unfold printInstance instanceToString
  rw [if_pos rfl]
  split
  · rfl
  · simp only [precise_minus_one]
  · rename_i h
    exact hnone h

theorem printPlain_of_ref {print : Value → Result} {k : ObjId} :
    printPlain w print inst (-1) (.ref k) =
      pure (tagged "instance" (classNameFull (w.names inst.klass))) := by
  simp [printPlain]

/-- Where no `toString` of a class or module comes into it, both are the same on every level. -/
theorem printValue_eq (hclass : ∀ k, value = .ref k → ∀ o, w.heap.obj k = some o → ∃ i, o = .inst i)
    (hplain : Plain w value) (n : ℕ) : printValue w n value true (-1) = valueToString w n value := by
  cases n with
  | zero => rfl
  | succ n =>
    cases value with
    | bool b => simp [printValue, valueToString]
    | nil => simp [printValue, valueToString]
    | number d =>
      show pure (formatG d) = pure ((formatG d).take 49)
      rw [List.take_of_length_le (length_formatG d)]
    | undef => exact hplain.elim
    | ref k =>
      cases ho : w.heap.obj k with
      | none => simp only [printValue, valueToString, ho]
      | some o =>
        obtain ⟨i, rfl⟩ := hclass k rfl o ho
        simp only [printValue, valueToString, ho]
        exact printInstance_eq fun _ => printPlain_of_ref
    | obj r =>
      cases ho : w.objs r with
      | none => simp only [printValue, valueToString, ho]
      | some o =>
        cases o with
        | string chars =>
          cases chars with
          | none =>
            simp only [Plain, ho] at hplain
          | some c => simp [printValue, valueToString, ho]
        | function name => cases name <;> simp [printValue, valueToString, ho]
        | closure name => cases name <;> simp [printValue, valueToString, ho]
        | array i els =>
          simp only [printValue, valueToString, ho]
          refine printInstance_eq fun hnone => ?_
          simp only [Plain, ho] at hplain
          exact absurd (returns_of_found hnone) hplain
        | map i entries =>
          simp only [printValue, valueToString, ho]
          exact printInstance_eq fun _ => by simp [printPlain, ho]
        | regex i =>
          simp only [printValue, valueToString, ho]
          exact printInstance_eq fun _ => by simp [printPlain, ho]
        | nativeFunction name => simp [printValue, valueToString, ho]
        | boundMethod callable => simp [printValue, valueToString, ho]

/-! ## Classes and modules -/

/-- The two texts cannot be the same: one is written for an instance. -/
theorem instance_ne_tagged {tag : String} {name name' : Bytes} (htag : tag = "class" ∨ tag = "module") :
    tagged "instance" name ≠ tagged tag name' := by
  have hi : (tagged "instance" name)[1]? = some 105 := by rfl
  rcases htag with rfl | rfl
  · have hc : (tagged "class" name')[1]? = some 99 := by rfl
    intro h
    rw [h, hc] at hi
    cases hi
  · have hm : (tagged "module" name')[1]? = some 109 := by rfl
    intro h
    rw [h, hm] at hi
    cases hi

/-- A class is no array and no map: a method of it returns by itself, or not at all. -/
theorem callToString_ref (text : Value → Result) (callable : Callable) (k : ObjId) :
    (∃ chars, w.native callable = none ∧ w.called callable (.ref k) = .ok (.string chars) ∧
      callToString w text callable (.ref k) = pure chars) ∨
    ∃ e, callToString w text callable (.ref k) = throw e := by
  unfold callToString
  cases hnative : w.native callable with
  | some native => cases native <;> exact .inr ⟨_, rfl⟩
  | none =>
    cases hcalled : w.called callable (.ref k) with
    | error e => exact .inr ⟨e, rfl⟩
    | ok returned =>
      cases returned with
      | string chars => exact .inl ⟨chars, rfl, rfl, rfl⟩
      | other => exact .inr ⟨_, rfl⟩

/-- `valueToString` has the text ready; `printValue` writes what a `toString` returns. -/
theorem agree_class_iff {k : ObjId} {tag : String} {name : Bytes} (htag : tag = "class" ∨ tag = "module")
    (hprint : ∀ n, printValue w (n + 1) (.ref k) true (-1) = printInstance w n (valueToString w n)
      (fun el => printValue w n el true (-1)) inst true (-1) (.ref k))
    (htext : ∀ n, valueToString w (n + 1) (.ref k) = pure (tagged tag name)) :
    Agree w (.ref k) ↔ ReturnsText w inst (.ref k) (tagged tag name) := by
  have hready : Returns (fun n => valueToString w n (.ref k)) (Except.ok (tagged tag name)) := by
    refine ⟨1, fun fuel hle => ?_⟩
    obtain ⟨n, rfl⟩ := Nat.exists_eq_add_of_le' hle
    exact htext n
  constructor
  · intro hagree
    obtain ⟨n, hn⟩ := (hagree _).mpr hready
    have hone := hn (n + 1) (Nat.le_succ n)
    dsimp only at hone
    rw [hprint, printInstance, if_pos rfl] at hone
    split at hone
    · cases hone
    · rename_i callable hfound
      rcases callToString_ref (w := w) (valueToString w n) callable k
        with ⟨chars, hnative, hcalled, hcall⟩ | ⟨e, hcall⟩
      · rw [hcall] at hone
        refine ⟨callable, chars, returns_of_found hfound, hnative, hcalled, ?_⟩
        exact Except.ok.inj (Option.some.inj hone)
      · rw [hcall] at hone
        cases hone
    · rw [printPlain_of_ref] at hone
      exact absurd (Except.ok.inj (Option.some.inj hone)) (instance_ne_tagged htag)
  · rintro ⟨callable, chars, ⟨m, hfound⟩, hnative, hcalled, hchars⟩
    have hprinted : Returns (fun n => printValue w n (.ref k) true (-1))
        (Except.ok (tagged tag name)) := by
      refine ⟨m + 1, fun fuel hle => ?_⟩
      obtain ⟨n, rfl⟩ := Nat.exists_eq_add_of_le' hle
      have hat : w.heap.instanceFindMethod (n + m) inst "toString" = some (some callable) :=
        hfound (n + m) (Nat.le_add_left m n)
      show printValue w (n + m + 1) (.ref k) true (-1) = _
      rw [hprint, printInstance, if_pos rfl, hat]
      simp only [callToString, hnative, hcalled, pure_bind, hchars, precise_minus_one]
      rfl
    intro text
    exact ⟨fun h => returns_inj hprinted h ▸ hready, fun h => returns_inj hready h ▸ hprinted⟩

/-- Text on one side and a failure on the other. -/
theorem not_agree_of_failure (text : Bytes) (e : Failure)
    (hprint : ∀ n, printValue w (n + 1) value true (-1) = pure text)
    (hstring : ∀ n, valueToString w (n + 1) value = throw e) : ¬ Agree w value := by
  intro hagree
  have hwritten : Returns (fun n => printValue w n value true (-1)) (Except.ok text) := by
    refine ⟨1, fun fuel hle => ?_⟩
    obtain ⟨n, rfl⟩ := Nat.exists_eq_add_of_le' hle
    exact hprint n
  obtain ⟨n, hn⟩ := (hagree text).mp hwritten
  have hone := hn (n + 1) (Nat.le_succ n)
  dsimp only at hone
  rw [hstring] at hone
  cases hone

/-- An array without a `toString` is written with brackets. -/
theorem not_agree_array {r : ℕ} {els : List Value} (ho : w.objs r = some (.array inst els))
    (hnone : Returns (w.heap.instanceFindMethod · inst "toString") none) :
    ¬ Agree w (.obj r) := by
  intro hagree
  obtain ⟨m, hm⟩ := hnone
  have hready : Returns (fun n => valueToString w n (.obj r))
      (Except.ok (tagged "instance" (classNameFull (w.names inst.klass)))) := by
    refine ⟨m + 1, fun fuel hle => ?_⟩
    obtain ⟨n, rfl⟩ := Nat.exists_eq_add_of_le' hle
    have hat : w.heap.instanceFindMethod (n + m) inst "toString" = some none :=
      hm (n + m) (Nat.le_add_left m n)
    show valueToString w (n + m + 1) (.obj r) = _
    simp only [valueToString, ho, instanceToString, hat]
    rfl
  obtain ⟨n, hn⟩ := (hagree _).mpr hready
  have hone := hn (n + m + 1) (by omega)
  have hat : w.heap.instanceFindMethod (n + m) inst "toString" = some none :=
    hm (n + m) (Nat.le_add_left m n)
  simp only [printValue, ho, printInstance, hat, if_true, printPlain] at hone
  cases hels : printElements (fun el => printValue w (n + m) el true (-1)) els with
  | none =>
    rw [hels] at hone
    cases hone
  | some res =>
    rw [hels] at hone
    cases res with
    | error e => cases hone
    | ok elements =>
      have htext := Except.ok.inj (Option.some.inj hone)
      have hhead := congrArg List.head? htext
      cases hhead

/-- The text that is written and the text that is made are the same for every value that is
neither a class nor a module; for these `printValue` looks for a `toString` first, and finds none in
`Class`, `Module` and `Object`. -/
theorem printValue_agrees_iff (w : World) (value : Value) : Agree w value ↔ Plain w value := by
  have heq : (∀ k, value = .ref k → ∀ o, w.heap.obj k = some o → ∃ i, o = .inst i) →
      Plain w value → Agree w value := by
    intro hclass hplain text
    have hsame : (fun n => printValue w n value true (-1)) = fun n => valueToString w n value :=
      funext (printValue_eq hclass hplain)
    rw [hsame]
  cases value with
  | bool b => exact iff_of_true (heq nofun trivial) trivial
  | nil => exact iff_of_true (heq nofun trivial) trivial
  | number d => exact iff_of_true (heq nofun trivial) trivial
  | undef => exact iff_of_false (not_agree_of_failure _ _ (fun _ => rfl) fun _ => rfl) id
  | ref k =>
    cases ho : w.heap.obj k with
    | none =>
      have hplain : Plain w (.ref k) := by simp only [Plain, ho]
      refine iff_of_true (heq (fun k' hk o ho' => ?_) hplain) hplain
      cases hk
      rw [ho] at ho'
      cases ho'
    | some o =>
      cases o with
      | inst i =>
        have hplain : Plain w (.ref k) := by simp only [Plain, ho]
        refine iff_of_true (heq (fun k' hk o ho' => ?_) hplain) hplain
        cases hk
        rw [ho] at ho'
        exact ⟨i, (Option.some.inj ho').symm⟩
      | klass i info =>
        simp only [Plain, ho]
        exact agree_class_iff (.inl rfl) (fun n => by simp only [printValue, ho])
          fun n => by simp only [valueToString, ho]
      | module i info =>
        simp only [Plain, ho]
        exact agree_class_iff (.inr rfl) (fun n => by simp only [printValue, ho])
          fun n => by simp only [valueToString, ho]
      | iclass klass mod superklass isSetup =>
        simp only [Plain, ho, iff_false]
        exact not_agree_of_failure (bytes "<iclass>") .unreachable
          (fun n => by simp [printValue, ho]) fun n => by simp only [valueToString, ho]
  | obj r =>
    have hobj : Plain w (.obj r) → Agree w (.obj r) := heq nofun
    refine ⟨fun hagree => ?_, hobj⟩
    cases ho : w.objs r with
    | none => simp only [Plain, ho]
    | some o =>
      cases o with
      | string chars =>
        cases chars with
        | none =>
          exact (not_agree_of_failure (bytes "(NULL)") .aborted
            (fun n => by simp [printValue, ho]) (fun n => by simp only [valueToString, ho])
            hagree).elim
        | some c => simp only [Plain, ho]
      | array i els =>
        simp only [Plain, ho]
        exact fun hnone => not_agree_array ho hnone hagree
      | _ => simp only [Plain, ho]

/-- `class Foo {}` in a new program -/
def withClass : World where
  heap := (Heap.initial.newClass (some Heap.lxObjClass)).1
  objs _ := none
  names k := if k = 3 then [some (bytes "Foo")] else [some (bytes "Class")]
  native _ := none
  called _ _ := .error .unreachable

/-- `print Foo;` writes `<instance Class>`, and `valueToString` makes `<class Foo>` of it. -/
theorem printValue_class_differs : ¬ ∀ w value, Agree w value := by
  intro hall
  have hreturns : ReturnsText withClass ⟨Heap.lxClassClass, none⟩ (.ref 3)
      (tagged "class" (classNameFull (withClass.names 3))) :=
    (agree_class_iff (.inl rfl) (fun _ => rfl) fun _ => rfl).mp (hall withClass (.ref 3))
  obtain ⟨callable, chars, hfound, -⟩ := hreturns
  have hnone : withClass.heap.instanceFindMethod 3 ⟨Heap.lxClassClass, none⟩ "toString" =
      some none := by decide
  cases returns_inj hfound (returns_of_found hnone)

end Agree

end Clox.Printing
