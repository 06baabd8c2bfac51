import Clox.Bytecode.OpCode
import Mathlib.Algebra.Order.Floor.Ring
import Mathlib.Data.Rat.Floor
import Mathlib.Tactic.NormNum
import Mathlib.Tactic.Linarith
import Mathlib.Tactic.Positivity

/-! # Integer operators on doubles

`BINARY_OP` and `foldConstant` cast their operands to `int` for `%`, `|`, `&`, `^`, `<<` and `>>`.
The casts and the operators of C are defined for some operands only; the code compares the divisor
with `0.00`, as a double, and checks nothing else.
-/

namespace Clox

/-! ## Doubles -/

/-- A `double` by its bits. -/
structure Double where
  bits : BitVec 64
  deriving DecidableEq

namespace Double

def sign (d : Double) : Bool := d.bits.msb

def exponent (d : Double) : ℕ := d.bits.toNat / 2 ^ 52 % 2 ^ 11

def fraction (d : Double) : ℕ := d.bits.toNat % 2 ^ 52

/-- Neither infinite nor a NaN. -/
def isFinite (d : Double) : Bool := d.exponent ≠ 2047

/-- The value of a finite double. -/
def value (d : Double) : ℚ :=
  let magnitude : ℚ :=
    if d.exponent = 0 then d.fraction * (2 : ℚ) ^ (-1074 : ℤ)
    else (2 ^ 52 + d.fraction) * (2 : ℚ) ^ ((d.exponent : ℤ) - 1075)
  if d.sign then -magnitude else magnitude

/-- `d == 0.00`, for both zeros. -/
def isZero (d : Double) : Bool := d.isFinite && d.value == 0

end Double

def intMin : ℤ := -2147483648

def intMax : ℤ := 2147483647

/-- The integer part, as the cast of C takes it. -/
def truncate (q : ℚ) : ℤ := if 0 ≤ q then ⌊q⌋ else ⌈q⌉

/-- `(int)d`; `none` where C does not define it. -/
def Double.toInt? (d : Double) : Option ℤ :=
  if d.isFinite ∧ intMin ≤ truncate d.value ∧ truncate d.value ≤ intMax then some (truncate d.value)
  else none

/-! ## The operations that are performed -/

/-- An operator with its operands, as they are or cast to `int`. -/
inductive Operation
  | onDoubles (op : OpCode) (a b : Double)
  | onInts (op : OpCode) (a b : Double)

/-- `BINARY_OP(op, opcode, type)` on two numbers; `none` where it throws. -/
def vmOperation (opcode : OpCode) (a b : Double) : Option Operation :=
  if (opcode = .opDivide || opcode = .opModulo) && b.isZero then none
  else
    match opcode with
    | .opAdd | .opSubtract | .opMultiply | .opDivide => some (.onDoubles opcode a b)
    | .opModulo | .opBitor | .opBitand | .opBitxor | .opShovelL | .opShovelR =>
      some (.onInts opcode a b)
    | _ => none

/-- `foldConstant`; `none` where it gives `UNDEF_VAL`. -/
def foldOperation (code : OpCode) (a b : Double) : Option Operation :=
  match code with
  | .opAdd => some (.onDoubles .opAdd a b)
  | .opSubtract => some (.onDoubles .opSubtract a b)
  | .opMultiply => some (.onDoubles .opMultiply a b)
  | .opDivide => if b.isZero then none else some (.onDoubles .opDivide a b)
  | .opModulo => if b.isZero then none else some (.onInts .opModulo a b)
  | .opBitor => some (.onInts .opBitor a b)
  | .opBitand => some (.onInts .opBitand a b)
  | .opBitxor => some (.onInts .opBitxor a b)
  | .opShovelL => some (.onInts .opShovelL a b)
  | .opShovelR => some (.onInts .opShovelR a b)
  | _ => none

/-- C defines the operator on the two `int`s; of a shift only the count is looked at. -/
def IntDefined (op : OpCode) (i j : ℤ) : Prop :=
  match op with
  | .opModulo => j ≠ 0 ∧ ¬ (i = intMin ∧ j = -1)
  | .opShovelL | .opShovelR => 0 ≤ j ∧ j < 32
  | _ => True

/-- The casts are defined, and the operator on their results. -/
def Operation.Defined : Operation → Prop
  | .onDoubles _ _ _ => True
  | .onInts op a b => ∃ i j, a.toInt? = some i ∧ b.toInt? = some j ∧ IntDefined op i j

/-! ## Which operands are safe -/

/-- The value is in the range of `int`, when what is behind the point is left out. -/
def Double.FitsInt (d : Double) : Prop :=
  d.isFinite = true ∧ -2147483649 < d.value ∧ d.value < 2147483648

/-- The operands that the operator is defined for. -/
def Safe (op : OpCode) (a b : Double) : Prop :=
  match op with
  | .opModulo =>
    a.FitsInt ∧ b.FitsInt ∧ 1 ≤ |b.value| ∧
      ¬ (a.value ≤ -2147483648 ∧ -2 < b.value ∧ b.value ≤ -1)
  | .opBitor | .opBitand | .opBitxor => a.FitsInt ∧ b.FitsInt
  | .opShovelL | .opShovelR => a.FitsInt ∧ b.FitsInt ∧ -1 < b.value ∧ b.value < 32
  | _ => True

section Truncate

variable {q : ℚ} {n : ℤ}

theorem lt_truncate_add_one (hn : n ≤ 0) : (n : ℚ) - 1 < q ↔ n ≤ truncate q := by
  unfold truncate
  split
  · rename_i hq
    have hn' : (n : ℚ) ≤ 0 := by exact_mod_cast hn
    exact iff_of_true (by linarith) (hn.trans (Int.floor_nonneg.mpr hq))
  · exact Int.le_ceil_iff.symm

theorem truncate_lt (hn : 0 ≤ n) : q < (n : ℚ) + 1 ↔ truncate q ≤ n := by
  unfold truncate
  split
  · rw [Int.floor_le_iff]
  · rename_i hq
    have hn' : (0 : ℚ) ≤ n := by exact_mod_cast hn
    have hceil : ⌈q⌉ ≤ 0 := Int.ceil_le.mpr (by push_cast; linarith)
    exact iff_of_true (by linarith) (hceil.trans hn)

theorem le_truncate (hn : 0 < n) : (n : ℚ) ≤ q ↔ n ≤ truncate q := by
  have h := truncate_lt (q := q) (n := n - 1) (by omega)
  push_cast at h
  rw [sub_add_cancel] at h
  constructor
  · intro hq
    by_contra hlt
    have := h.mpr (by omega)
    linarith
  · intro hle
    by_contra hlt
    have := h.mp (not_le.mp hlt)
    omega

theorem truncate_le (hn : n < 0) : q ≤ (n : ℚ) ↔ truncate q ≤ n := by
  have h := lt_truncate_add_one (q := q) (n := n + 1) (by omega)
  push_cast at h
  rw [add_sub_cancel_right] at h
  constructor
  · intro hq
    by_contra hlt
    have := h.mpr (by omega)
    linarith
  · intro hle
    by_contra hlt
    have := h.mp (not_le.mp hlt)
    omega

/-- Everything strictly between -1 and 1 is cut to zero. -/
theorem truncate_ne_zero : truncate q ≠ 0 ↔ 1 ≤ |q| := by
  have hpos := le_truncate (q := q) (n := 1) (by omega)
  have hneg := truncate_le (q := q) (n := -1) (by omega)
  push_cast at hpos hneg
  rw [le_abs]
  constructor
  · intro hne
    rcases lt_or_gt_of_ne hne with hlt | hgt
    · exact .inr (by linarith [hneg.mpr (by omega)])
    · exact .inl (hpos.mpr (by omega))
  · rintro (hq | hq)
    · have := hpos.mp hq
      omega
    · have := hneg.mp (by linarith)
      omega

end Truncate

namespace Double

variable {a b d : Double}

/-- The cast of a double that fits is its integer part; of another one C says nothing. -/
theorem toInt?_eq_some {i : ℤ} : d.toInt? = some i ↔ d.FitsInt ∧ i = truncate d.value := by
  have hlow := lt_truncate_add_one (q := d.value) (n := intMin) (by decide)
  have hhigh := truncate_lt (q := d.value) (n := intMax) (by decide)
  norm_num [intMin, intMax] at hlow hhigh
  unfold toInt? FitsInt
  rw [hlow, hhigh]
  constructor
  · intro h
    split at h
    · rename_i hfits
      exact ⟨hfits, (Option.some.inj h).symm⟩
    · cases h
  · rintro ⟨hfits, rfl⟩
    exact if_pos hfits

/-- A cast of both operands, and what is asked of the two results. -/
theorem exists_toInt? {p : ℤ → ℤ → Prop} :
    (∃ i j, a.toInt? = some i ∧ b.toInt? = some j ∧ p i j) ↔
      a.FitsInt ∧ b.FitsInt ∧ p (truncate a.value) (truncate b.value) := by
  constructor
  · rintro ⟨i, j, hi, hj, hp⟩
    obtain ⟨ha, rfl⟩ := toInt?_eq_some.mp hi
    obtain ⟨hb, rfl⟩ := toInt?_eq_some.mp hj
    exact ⟨ha, hb, hp⟩
  · rintro ⟨ha, hb, hp⟩
    exact ⟨_, _, toInt?_eq_some.mpr ⟨ha, rfl⟩, toInt?_eq_some.mpr ⟨hb, rfl⟩, hp⟩

end Double

/-! ## When the operators are defined -/

section Defined

variable {op : OpCode} {a b : Double}

theorem intDefined_modulo (hfits : a.FitsInt) :
    IntDefined .opModulo (truncate a.value) (truncate b.value) ↔
      1 ≤ |b.value| ∧ ¬ (a.value ≤ -2147483648 ∧ -2 < b.value ∧ b.value ≤ -1) := by
  have hmin := truncate_le (q := a.value) (n := intMin) (by decide)
  have hle := (Double.toInt?_eq_some.mpr ⟨hfits, rfl⟩)
  have hlow := lt_truncate_add_one (q := b.value) (n := -1) (by decide)
  have hhigh := truncate_le (q := b.value) (n := -1) (by decide)
  have hge : intMin ≤ truncate a.value := by
    unfold Double.toInt? at hle
    split at hle
    · rename_i h
      exact h.2.1
    · cases hle
  norm_num [intMin] at hmin hlow hhigh hge
  -- `INT_MIN` is the least result of the cast, and -1 is met by a half-open interval
  have hpair : (truncate a.value = intMin ∧ truncate b.value = -1) ↔
      (a.value ≤ -2147483648 ∧ -2 < b.value ∧ b.value ≤ -1) := by
    rw [hmin, hlow, hhigh]
    unfold intMin
    omega
  show truncate b.value ≠ 0 ∧ ¬ (truncate a.value = intMin ∧ truncate b.value = -1) ↔ _
  rw [truncate_ne_zero, hpair]

theorem intDefined_shift :
    (0 ≤ truncate b.value ∧ truncate b.value < 32) ↔ -1 < b.value ∧ b.value < 32 := by
  have hlow := lt_truncate_add_one (q := b.value) (n := 0) le_rfl
  have hhigh := truncate_lt (q := b.value) (n := 31) (by decide)
  norm_num at hlow hhigh
  rw [hlow, hhigh]
  omega

/-- The operators that cast are defined for the safe operands and for no others. -/
theorem defined_onInts
    (hop : op ∈ [OpCode.opModulo, .opBitor, .opBitand, .opBitxor, .opShovelL, .opShovelR]) :
    (Operation.onInts op a b).Defined ↔ Safe op a b := by
  show (∃ i j, a.toInt? = some i ∧ b.toInt? = some j ∧ IntDefined op i j) ↔ _
  rw [Double.exists_toInt?]
  simp only [List.mem_cons, List.not_mem_nil, or_false] at hop
  rcases hop with rfl | rfl | rfl | rfl | rfl | rfl
  · constructor
    · rintro ⟨ha, hb, hdef⟩
      exact ⟨ha, hb, (intDefined_modulo ha).mp hdef⟩
    · rintro ⟨ha, hb, hsafe⟩
      exact ⟨ha, hb, (intDefined_modulo ha).mpr hsafe⟩
  · exact and_congr_right fun _ => and_iff_left trivial
  · exact and_congr_right fun _ => and_iff_left trivial
  · exact and_congr_right fun _ => and_iff_left trivial
  · exact and_congr_right fun _ => and_congr_right fun _ => intDefined_shift
  · exact and_congr_right fun _ => and_congr_right fun _ => intDefined_shift

/-- What the check before the operator refuses. -/
def Refused (op : OpCode) (b : Double) : Prop :=
  (op = .opDivide ∨ op = .opModulo) ∧ b.isZero = true

instance : Decidable (Refused op b) := inferInstanceAs (Decidable (_ ∧ _))

/-- The compiler and the machine perform the same operation behind the same check. -/
theorem foldOperation_eq : foldOperation op a b = vmOperation op a b := by
  unfold foldOperation vmOperation
  cases op <;> simp

/-- An operator that passes its check is performed as it is, or on the casts. -/
theorem vmOperation_defined : (∀ o ∈ vmOperation op a b, o.Defined) ↔ (¬ Refused op b → Safe op a b) := by
  unfold vmOperation
  by_cases hr : Refused op b
  · have hcheck : ((op = .opDivide || op = .opModulo) && b.isZero) = true := by
      rcases hr with ⟨hop | hop, hz⟩
      · simp [hop, hz]
      · simp [hop, hz]
    rw [if_pos hcheck]
    exact iff_of_true (fun _ ho => nomatch ho) fun hn => (hn hr).elim
  · have hcheck : ¬ ((op = .opDivide || op = .opModulo) && b.isZero) = true := by
      intro h
      simp only [Bool.and_eq_true, Bool.or_eq_true, decide_eq_true_eq] at h
      exact hr h
    rw [if_neg hcheck]
    by_cases hint : op ∈ [OpCode.opModulo, .opBitor, .opBitand, .opBitxor, .opShovelL, .opShovelR]
    · rw [← defined_onInts hint]
      simp only [List.mem_cons, List.not_mem_nil, or_false] at hint
      rcases hint with rfl | rfl | rfl | rfl | rfl | rfl
      all_goals
        constructor
        · intro h _
          exact h _ rfl
        · rintro h o ⟨⟩
          exact h hr
    · have hsafe : Safe op a b := by
        cases op <;> trivial
      refine iff_of_true (fun o ho => ?_) fun _ => hsafe
      split at ho
      all_goals first | (cases ho; trivial) | cases ho

/-- Neither path looks at more than the divisor: behind the check the casts, the division and the
shift are defined for the safe operands only. -/
theorem arithmetic_defined_iff :
    ((∀ o ∈ vmOperation op a b, o.Defined) ∧ ∀ o ∈ foldOperation op a b, o.Defined) ↔
      (¬ Refused op b → Safe op a b) := by
  rw [foldOperation_eq, and_self]
  exact vmOperation_defined

end Defined

namespace Double

def one : Double := ⟨0x3FF0000000000000⟩

def half : Double := ⟨0x3FE0000000000000⟩

theorem half_value : half.value = 1 / 2 := by
  have hexp : half.exponent = 1022 := by decide
  have hfrac : half.fraction = 0 := by decide
  have hsign : half.sign = false := by decide
  unfold value
  rw [hexp, hfrac, hsign]
  norm_num

end Double

/-- `1 % 0.5`: the divisor is not `0.00`, and is cast to zero. -/
theorem modulo_half_undefined :
    ¬ ∀ op a b, (∀ o ∈ vmOperation op a b, o.Defined) ∧ ∀ o ∈ foldOperation op a b, o.Defined := by
  intro h
  have hpass : ¬ Refused .opModulo Double.half := by
    rintro ⟨_, hz⟩
    simp [Double.isZero, Double.half_value] at hz
  obtain ⟨_, _, hone, _⟩ : Safe .opModulo Double.one Double.half :=
    vmOperation_defined.mp (h .opModulo .one .half).1 hpass
  rw [Double.half_value] at hone
  norm_num at hone

end Clox
