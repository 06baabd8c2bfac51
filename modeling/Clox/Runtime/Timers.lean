import Mathlib.Tactic.Linarith

/-! # Timers

`timeAdd`, `timeDiff` and `isTimeOlder` of `time.c`, and the operators of `Timer` on top of them. A
`struct timespec` is a number of seconds and one of nanoseconds, both of type `long`; a sum or
difference of `long`s that does not fit leaves defined behaviour. The constant `1E9` is a `double`,
and so are the nanoseconds that are computed with it. They are whole numbers far below `2^53`, on
which `double`s are exact.
-/

namespace Clox.Timers

/-! ## Times -/

/-- The number fits a `long`. -/
def InLong (z : ℤ) : Prop := -2 ^ 63 ≤ z ∧ z < 2 ^ 63

instance (z : ℤ) : Decidable (InLong z) := inferInstanceAs (Decidable (_ ∧ _))

/-- The result of an operation on `long`s. -/
def long (z : ℤ) : Option ℤ := if InLong z then some z else none

/-- `struct timespec` -/
structure Timespec where
  sec : ℤ
  nsec : ℤ
  inLong : InLong sec ∧ InLong nsec := by decide
deriving DecidableEq

/-- `1E9` -/
def billion : ℤ := 1000000000

/-- A `struct timespec` with these fields. -/
def timespec (sec nsec : ℤ) : Option Timespec :=
  if h : InLong sec ∧ InLong nsec then some ⟨sec, nsec, h⟩ else none

/-- `timeAdd` -/
def timeAdd (a b : Timespec) : Option Timespec := do
  let nsec ← long (a.nsec + b.nsec)
  if billion ≤ nsec then
    let sec ← long (a.sec + b.sec)
    timespec (← long (sec + 1)) (nsec - billion)
  else
    timespec (← long (a.sec + b.sec)) nsec

/-- `timeDiff`: `t1` is the older one. -/
def timeDiff (t1 t2 : Timespec) : Option Timespec := do
  if t2.nsec < t1.nsec then
    let sec ← long (t2.sec - 1)
    timespec (← long (sec - t1.sec)) (billion + t2.nsec - t1.nsec)
  else
    timespec (← long (t2.sec - t1.sec)) (← long (t2.nsec - t1.nsec))

/-- `isTimeOlder` -/
def isTimeOlder (t1 t2 : Timespec) : Bool :=
  if t1.sec < t2.sec then true
  else if t1.nsec ≤ t2.nsec then true
  else false

/-! ## The class `Timer` -/

/-- `LxTimer` -/
structure LxTimer where
  tp : Timespec
  clock : ℕ
deriving DecidableEq

/-- An argument: a timer, or a value of another type, which is named in the message. -/
inductive Arg where
  | timer (t : LxTimer)
  | other (typeActual : String)
deriving DecidableEq

/-- What is thrown. -/
inductive Thrown where
  | arity (expected actual : ℕ)
  | argType (argnum : ℕ) (typeExpect typeActual : String)
  | argErr (msg : String)
deriving DecidableEq

/-- `CHECK_ARITY` for one argument behind the receiver, and `CHECK_ARG_IS_A` of it. -/
def timerArg : List Arg → Except Thrown LxTimer
  | [.timer t] => .ok t
  | [.other typeActual] => .error (.argType 1 "Timer" typeActual)
  | args => .error (.arity 2 (args.length + 1))

/-- `lxTimerOpAdd` -/
def lxTimerOpAdd (self : LxTimer) (args : List Arg) : Option (Except Thrown LxTimer) :=
  match timerArg args with
  | .error e => some (.error e)
  | .ok b => (timeAdd self.tp b.tp).map fun tp => .ok { tp, clock := self.clock }

/-- `lxTimerOpDiff` -/
def lxTimerOpDiff (self : LxTimer) (args : List Arg) : Option (Except Thrown LxTimer) :=
  match timerArg args with
  | .error e => some (.error e)
  | .ok older =>
    if isTimeOlder older.tp self.tp then
      (timeDiff older.tp self.tp).map fun tp => .ok { tp, clock := self.clock }
    else some (.error (.argErr "Given time is newer than `self`"))

/-! ## Durations -/

namespace Timespec

variable {a b t : Timespec}

/-- The time as one number. -/
def nanoseconds (t : Timespec) : ℤ := t.sec * billion + t.nsec

/-- The nanoseconds are less than a second. -/
def Normalized (t : Timespec) : Prop := 0 ≤ t.nsec ∧ t.nsec < billion

instance (t : Timespec) : Decidable t.Normalized := inferInstanceAs (Decidable (_ ∧ _))

theorem ext_iff' : a = b ↔ a.sec = b.sec ∧ a.nsec = b.nsec := by
  cases a
  cases b
  simp

/-- Normalized times are compared by their seconds first. -/
theorem nanoseconds_le_iff (ha : a.Normalized) (hb : b.Normalized) :
    a.nanoseconds ≤ b.nanoseconds ↔ a.sec < b.sec ∨ a.sec = b.sec ∧ a.nsec ≤ b.nsec := by
  simp only [Normalized, nanoseconds, billion] at *
  omega

end Timespec

theorem long_eq_some {z r : ℤ} : long z = some r ↔ InLong z ∧ z = r := by
  unfold long
  split <;> simp_all

theorem timespec_eq_some {sec nsec : ℤ} {t : Timespec} :
    timespec sec nsec = some t ↔ t.sec = sec ∧ t.nsec = nsec := by
  unfold timespec
  split
  · rw [Option.some.injEq, Timespec.ext_iff']
    exact and_congr eq_comm eq_comm
  · rename_i hout
    constructor
    · intro h
      cases h
    · rintro ⟨rfl, rfl⟩
      exact absurd t.inLong hout

/-- Whole numbers of less than two seconds of nanoseconds fit. -/
theorem inLong_of_small {z : ℤ} (hlow : -billion ≤ z) (hhigh : z < 2 * billion) : InLong z := by
  simp only [InLong, billion] at *
  omega

section

variable {a b t : Timespec}

/-- The sum is the time of as many nanoseconds, if the seconds can be added up. -/
theorem timeAdd_eq_some (ha : a.Normalized) (hb : b.Normalized) :
    timeAdd a b = some t ↔ InLong (a.sec + b.sec) ∧ t.Normalized ∧
      t.nanoseconds = a.nanoseconds + b.nanoseconds := by
  have hnsec : long (a.nsec + b.nsec) = some (a.nsec + b.nsec) := by
    refine long_eq_some.mpr ⟨inLong_of_small ?_ ?_, rfl⟩ <;>
      simp only [Timespec.Normalized, billion] at * <;> omega
  have ht := t.inLong
  unfold timeAdd
  rw [hnsec]
  simp only [Option.bind_eq_bind, Option.bind_some]
  split
  · simp only [Option.bind_eq_some_iff, long_eq_some, timespec_eq_some]
    constructor
    · rintro ⟨sec, ⟨hsum, rfl⟩, sec', ⟨hcarry, rfl⟩, hsec, hnsec⟩
      simp only [Timespec.Normalized, Timespec.nanoseconds, billion] at *
      refine ⟨hsum, ⟨?_, ?_⟩, ?_⟩ <;> omega
    · rintro ⟨hsum, hnorm, htotal⟩
      simp only [Timespec.Normalized, Timespec.nanoseconds, billion] at *
      have hsec : t.sec = a.sec + b.sec + 1 := by omega
      have hrest : t.nsec = a.nsec + b.nsec - 1000000000 := by omega
      exact ⟨_, ⟨hsum, rfl⟩, _, ⟨hsec ▸ ht.1, rfl⟩, hsec, hrest⟩
  · simp only [Option.bind_eq_some_iff, long_eq_some, timespec_eq_some]
    constructor
    · rintro ⟨sec, ⟨hsum, rfl⟩, hsec, hnsec⟩
      simp only [Timespec.Normalized, Timespec.nanoseconds, billion] at *
      refine ⟨hsum, ⟨?_, ?_⟩, ?_⟩ <;> omega
    · rintro ⟨hsum, hnorm, htotal⟩
      simp only [Timespec.Normalized, Timespec.nanoseconds, billion] at *
      refine ⟨_, ⟨hsum, rfl⟩, ?_, ?_⟩ <;> omega

/-- The difference of a time and one that is not newer. -/
theorem timeDiff_eq_some (ha : a.Normalized) (hb : b.Normalized)
    (hle : a.nanoseconds ≤ b.nanoseconds) : timeDiff a b = some t ↔
      t.Normalized ∧ t.nanoseconds = b.nanoseconds - a.nanoseconds := by
  have ht := t.inLong
  have hsecs := a.inLong.1
  have horder := (Timespec.nanoseconds_le_iff ha hb).mp hle
  unfold timeDiff
  split
  · simp only [Option.bind_eq_bind, Option.bind_eq_some_iff, long_eq_some, timespec_eq_some]
    constructor
    · rintro ⟨sec, ⟨-, rfl⟩, sec', ⟨-, rfl⟩, hsec, hnsec⟩
      simp only [Timespec.Normalized, Timespec.nanoseconds, billion] at *
      refine ⟨⟨?_, ?_⟩, ?_⟩ <;> omega
    · rintro ⟨hnorm, htotal⟩
      -- the seconds of `a` are below those of `b`, so that one can be taken off
      have hborrow : InLong (b.sec - 1) := by
        have := b.inLong.1
        simp only [InLong] at *
        omega
      simp only [Timespec.Normalized, Timespec.nanoseconds, billion] at *
      have hsec : t.sec = b.sec - 1 - a.sec := by omega
      have hrest : t.nsec = 1000000000 + b.nsec - a.nsec := by omega
      exact ⟨_, ⟨hborrow, rfl⟩, _, ⟨hsec ▸ ht.1, rfl⟩, hsec, hrest⟩
  · simp only [Option.bind_eq_bind, Option.bind_eq_some_iff, long_eq_some, timespec_eq_some]
    constructor
    · rintro ⟨sec, ⟨-, rfl⟩, nsec, ⟨-, rfl⟩, hsec, hnsec⟩
      simp only [Timespec.Normalized, Timespec.nanoseconds, billion] at *
      refine ⟨⟨?_, ?_⟩, ?_⟩ <;> omega
    · rintro ⟨hnorm, htotal⟩
      simp only [Timespec.Normalized, Timespec.nanoseconds, billion] at *
      have hsec : t.sec = b.sec - a.sec := by omega
      have hrest : t.nsec = b.nsec - a.nsec := by omega
      exact ⟨_, ⟨hsec ▸ ht.1, rfl⟩, _, ⟨hrest ▸ ht.2, rfl⟩, hsec, hrest⟩

/-- The numbers of nanoseconds that are times. -/
theorem exists_nanoseconds_iff (n : ℤ) :
    (∃ t : Timespec, t.Normalized ∧ t.nanoseconds = n) ↔ InLong (n / billion) := by
  constructor
  · rintro ⟨t, hnorm, rfl⟩
    have hsec : t.nanoseconds / billion = t.sec := by
      simp only [Timespec.Normalized, Timespec.nanoseconds, billion] at *
      omega
    rw [hsec]
    exact t.inLong.1
  · intro hlong
    have hnsec : InLong (n % billion) := by
      refine inLong_of_small ?_ ?_ <;> simp only [billion] <;> omega
    refine ⟨⟨n / billion, n % billion, hlong, hnsec⟩, ?_, ?_⟩
    · simp only [Timespec.Normalized, billion]
      omega
    · simp only [Timespec.nanoseconds, billion]
      omega

/-- The test is not that of the order where the first time has more seconds, but no more
nanoseconds. -/
theorem isTimeOlder_iff (ha : a.Normalized) (hb : b.Normalized) :
    (isTimeOlder a b = true ↔ a.nanoseconds ≤ b.nanoseconds) ↔
      (b.sec < a.sec → b.nsec < a.nsec) := by
  have holder : isTimeOlder a b = true ↔ a.sec < b.sec ∨ a.nsec ≤ b.nsec := by
    unfold isTimeOlder
    split
    · simp [*]
    · split <;> simp [*]
  rw [holder, Timespec.nanoseconds_le_iff ha hb]
  omega

/-- Where the test is that of the order, a newer argument is thrown out, and no other. -/
theorem lxTimerOpDiff_throws_iff (a b : Timespec) (clock clock' : ℕ) :
    (∃ e, lxTimerOpDiff ⟨b, clock⟩ [.timer ⟨a, clock'⟩] = some (.error e)) ↔
      isTimeOlder a b = false := by
  show (∃ e, (if isTimeOlder a b then _ else _) = some (Except.error e)) ↔ _
  split
  · rename_i holder
    rw [holder]
    simp
  · rename_i holder
    simp [holder]

/-! ## Arithmetic -/

/-- The arithmetic of timers on `a` and `b` is that of durations. -/
structure DurationArithmetic (a b : Timespec) : Prop where
  sum : ∃ t, timeAdd a b = some t ∧ t.Normalized ∧
    t.nanoseconds = a.nanoseconds + b.nanoseconds ∧
    ∀ clock clock', lxTimerOpAdd ⟨a, clock⟩ [.timer ⟨b, clock'⟩] = some (.ok ⟨t, clock⟩)
  difference : a.nanoseconds ≤ b.nanoseconds → ∃ t, timeDiff a b = some t ∧ t.Normalized ∧
    t.nanoseconds = b.nanoseconds - a.nanoseconds ∧ timeAdd a t = some b
  order : isTimeOlder a b = true ↔ a.nanoseconds ≤ b.nanoseconds
  throws : ∀ clock clock', (∃ e, lxTimerOpDiff ⟨b, clock⟩ [.timer ⟨a, clock'⟩] =
    some (.error e)) ↔ b.nanoseconds < a.nanoseconds

/-- The arithmetic is right exactly if the seconds of the sum and of the difference fit, and `a` does
not have more seconds than `b` without more nanoseconds. -/
theorem timers_iff (ha : a.Normalized) (hb : b.Normalized) : DurationArithmetic a b ↔
    InLong (a.sec + b.sec) ∧ InLong ((a.nanoseconds + b.nanoseconds) / billion) ∧
      (a.nanoseconds ≤ b.nanoseconds → InLong ((b.nanoseconds - a.nanoseconds) / billion)) ∧
      (b.sec < a.sec → b.nsec < a.nsec) := by
  rw [← isTimeOlder_iff ha hb, ← exists_nanoseconds_iff, ← exists_nanoseconds_iff]
  constructor
  · intro h
    rcases h.sum with ⟨t, hadd, hnorm, htotal, -⟩
    have hsecs := ((timeAdd_eq_some ha hb).mp hadd).1
    refine ⟨hsecs, ⟨t, hnorm, htotal⟩, fun hle => ?_, h.order⟩
    rcases h.difference hle with ⟨d, -, hnorm', htotal', -⟩
    exact ⟨d, hnorm', htotal'⟩
  · rintro ⟨hsecs, ⟨t, hnorm, htotal⟩, hdiff, horder⟩
    constructor
    case sum =>
      have hadd := (timeAdd_eq_some ha hb).mpr ⟨hsecs, hnorm, htotal⟩
      refine ⟨t, hadd, hnorm, htotal, fun clock clock' => ?_⟩
      show (timeAdd a b).map _ = _
      rw [hadd]
      rfl
    case difference =>
      intro hle
      rcases hdiff hle with ⟨d, hnormd, htotald⟩
      have hd := (timeDiff_eq_some ha hb hle).mpr ⟨hnormd, htotald⟩
      refine ⟨d, hd, hnormd, htotald, (timeAdd_eq_some ha hnormd).mpr ⟨?_, hb, ?_⟩⟩
      · -- the seconds add up to those of `b`, or to one less
        have hlow := a.inLong.1
        have hhigh := b.inLong.1
        simp only [Timespec.Normalized, Timespec.nanoseconds, billion, InLong] at *
        omega
      · omega
    case order => exact horder
    case throws =>
      intro clock clock'
      rw [lxTimerOpDiff_throws_iff, ← Bool.not_eq_true, horder, not_le]

/-- One second and two and a half. -/
theorem timers_iff_seconds :
    DurationArithmetic { sec := 1, nsec := 0 } { sec := 2, nsec := 500000000 } :=
  (timers_iff (by decide) (by decide)).mpr ⟨by decide, by decide, by decide, by decide⟩

/-- Two seconds are taken for older than one. -/
theorem two_seconds_older : ¬ ∀ a b : Timespec, a.Normalized → b.Normalized →
    DurationArithmetic a b := by
  intro h
  have horder := (h { sec := 2, nsec := 0 } { sec := 1, nsec := 0 } (by decide) (by decide)).order
  have hle := horder.mp (by decide)
  revert hle
  decide

end

end Clox.Timers
