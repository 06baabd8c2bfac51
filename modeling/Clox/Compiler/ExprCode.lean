import Clox.Vm.Expressions

/-! # The code of expressions

What `emitNode` appends for an expression without side effects: instructions of
the VM's expression opcodes (`Insn.Fits`), whose peeking jumps land behind their
own `OP_AND` or `OP_OR` (`Closed`), and which push the value of the tree
(`Emitted`).
-/

namespace Clox

open Layout (width)

variable {ν : Type}

/-! ## Shape of the code -/

namespace Insn

def isLogical (i : Insn) : Bool := i.is .opAnd || i.is .opOr

/-- A jump in front of `rest` lands behind an `OP_AND` or `OP_OR` of it. -/
def LandsBehind (i : Insn) (rest : List Insn) : Prop :=
  ∃ r t u, rest = r ++ t :: u ∧ i.jumpTo = some t.addr ∧ t.isLogical = true ∧ t.operands = [] ∧
    i.operands = [width size r + 2]

/-- The operands an opcode of expressions has. -/
def OperandsFit (constants : List (Value ν)) (op : OpCode) (operands : List ℕ) : Prop :=
  match op with
  | .opConstant => ∃ idx n, operands = [idx] ∧ constants[idx]? = some (.number n)
  | .opString => ∃ idx isStatic str, operands = [idx, isStatic] ∧
      constants[idx]? = some (.string str)
  | .opDuparray => ∃ idx els, operands = [idx] ∧ constants[idx]? = some (.array els)
  | .opDupmap => ∃ idx entries, operands = [idx] ∧ constants[idx]? = some (.map entries)
  | .opGetLocal => ∃ slot name, operands = [slot, name]
  | .opGetGlobal => ∃ idx name, operands = [idx] ∧ constants[idx]? = some (.string name)
  | .opArray | .opMap | .opJumpIfFalsePeek | .opJumpIfTruePeek => ∃ n, operands = [n]
  | _ => operands = []

/-- An instruction of an expression. -/
def Fits (constants : List (Value ν)) (i : Insn) : Prop :=
  ∃ op : OpCode, i.code = op.toNat ∧ op.isExpr = true ∧ OperandsFit constants op i.operands

end Insn

/-- All jumps of the code land in it. -/
def Closed : List Insn → Prop
  | [] => True
  | i :: rest => (i.isJump = true → i.LandsBehind rest) ∧ Closed rest

theorem Closed.append {l₁ l₂ : List Insn} (h₁ : Closed l₁) (h₂ : Closed l₂) :
    Closed (l₁ ++ l₂) := by
  induction l₁ with
  | nil => exact h₂
  | cons i l₁ ih =>
    refine ⟨fun hj => ?_, ih h₁.2⟩
    obtain ⟨r, t, u, rfl, h⟩ := h₁.1 hj
    exact ⟨r, t, u ++ l₂, by simp, h⟩

theorem Closed.of_append_right {l₁ l₂ : List Insn} (h : Closed (l₁ ++ l₂)) : Closed l₂ := by
  induction l₁ with
  | nil => exact h
  | cons i l₁ ih => exact ih h.2

/-- The words of a list of instructions. -/
def wordsOf (l : List Insn) : List ℕ := (l.map Insn.words).flatten

@[simp] theorem wordsOf_nil : wordsOf [] = [] := rfl

@[simp] theorem wordsOf_cons (i : Insn) (l : List Insn) :
    wordsOf (i :: l) = i.words ++ wordsOf l := by simp [wordsOf]

@[simp] theorem wordsOf_append (l₁ l₂ : List Insn) :
    wordsOf (l₁ ++ l₂) = wordsOf l₁ ++ wordsOf l₂ := by simp [wordsOf]

theorem length_wordsOf (l : List Insn) : (wordsOf l).length = width Insn.size l := by
  induction l with
  | nil => rfl
  | cons i l ih => simp [ih]

/-- The number constants of the code. -/
def numberSlots (l : List Insn) : List ℕ := (l.filter (·.is .opConstant)).map (·.operand0)

@[simp] theorem numberSlots_append (l₁ l₂ : List Insn) :
    numberSlots (l₁ ++ l₂) = numberSlots l₁ ++ numberSlots l₂ := by simp [numberSlots]

/-! ## Running it -/

section

variable [LoxNum ν] {w : World ν}

theorem exec_skip_words (constants : List (Value ν)) (ws : List ℕ) (skip : ℕ) (code : List ℕ)
    (st : List (Value ν)) :
    w.exec constants (ws.length + skip) (ws ++ code) st = w.exec constants skip code st := by
  induction ws with
  | nil => simp
  | cons word ws ih =>
    rw [List.length_cons, List.cons_append, Nat.add_right_comm, World.exec]
    exact ih

/-- An instruction of an expression is executed. -/
theorem exec_insn (constants : List (Value ν)) {i : Insn} {op : OpCode} (hcode : i.code = op.toNat)
    (hexpr : op.isExpr = true) (code : List ℕ) (st : List (Value ν)) :
    w.exec constants 0 (i.words ++ code) st =
      (w.execOp constants op (i.operands ++ code) st).bind fun (skip, st') =>
        w.exec constants skip (i.operands ++ code) st' := by
  rw [Insn.words, List.cons_append, World.exec, hcode]
  simp [hexpr]

/-- An instruction that is no jump takes its operands and goes on. -/
theorem exec_straight (constants : List (Value ν)) {i : Insn} {op : OpCode}
    (hcode : i.code = op.toNat) (hexpr : op.isExpr = true) (code : List ℕ) (st : List (Value ν))
    {f : Option (List (Value ν))}
    (h : w.execOp constants op (i.operands ++ code) st = f.map fun st' => (i.operands.length, st')) :
    w.exec constants 0 (i.words ++ code) st = f.bind fun st' => w.exec constants 0 code st' := by
  rw [exec_insn constants hcode hexpr, h]
  cases f with
  | none => rfl
  | some st' => exact exec_skip_words constants i.operands 0 code st'

end

/-! ## What an emission adds -/

/-- `constTbl` has the strings where it says. -/
def CompState.Memoized (s : CompState ν) : Prop :=
  ∀ name idx, s.current.constTbl.lookup name = some idx →
    s.current.iseq.constants[idx]? = some (.string name)

/-- From `s` to `s'` the instructions `l` have been emitted, and constants; run on a stack they give
`f` of it. -/
structure Emitted [LoxNum ν] (w : World ν) (s s' : CompState ν) (l : List Insn)
    (f : List (Value ν) → Option (List (Value ν))) : Prop where
  insns : s'.current.iseq.insns = s.current.iseq.insns ++ l
  constants : s.current.iseq.constants <+: s'.current.iseq.constants
  locals : s'.current.locals = s.current.locals
  enclosing : s'.enclosing = s.enclosing
  hadError : s'.current.hadError = s.current.hadError
  memoized : s.Memoized → s'.Memoized
  closed : Closed l
  fits : ∀ i ∈ l, i.Fits s'.current.iseq.constants
  nodup : (numberSlots l).Nodup
  slots : ∀ idx ∈ numberSlots l,
    s.current.iseq.constants.length ≤ idx ∧ idx < s'.current.iseq.constants.length
  runs : ∀ constants, s'.current.iseq.constants <+: constants → ∀ code st,
    w.exec constants 0 (wordsOf l ++ code) st = (f st).bind fun st' => w.exec constants 0 code st'

theorem getElem?_of_prefix {α : Type} {l l' : List α} (h : l <+: l') {i : ℕ} {a : α}
    (hi : l[i]? = some a) : l'[i]? = some a := by
  obtain ⟨more, rfl⟩ := h
  rw [List.getElem?_append_left (List.getElem?_eq_some_iff.mp hi).1]
  exact hi

theorem Insn.OperandsFit.mono {constants constants' : List (Value ν)}
    (hsub : constants <+: constants') {op : OpCode} {operands : List ℕ}
    (h : OperandsFit constants op operands) : OperandsFit constants' op operands := by
  have hget : ∀ {idx : ℕ} {v : Value ν}, constants[idx]? = some v → constants'[idx]? = some v :=
    getElem?_of_prefix hsub
  cases op with
  | opConstant =>
    obtain ⟨idx, n, hops, hn⟩ := h
    exact ⟨idx, n, hops, hget hn⟩
  | opString =>
    obtain ⟨idx, b, str, hops, hstr⟩ := h
    exact ⟨idx, b, str, hops, hget hstr⟩
  | opDuparray =>
    obtain ⟨idx, els, hops, hels⟩ := h
    exact ⟨idx, els, hops, hget hels⟩
  | opDupmap =>
    obtain ⟨idx, entries, hops, hentries⟩ := h
    exact ⟨idx, entries, hops, hget hentries⟩
  | opGetGlobal =>
    obtain ⟨idx, name, hops, hname⟩ := h
    exact ⟨idx, name, hops, hget hname⟩
  | _ => exact h

theorem Insn.Fits.mono {constants constants' : List (Value ν)} (hsub : constants <+: constants')
    {i : Insn} (h : i.Fits constants) : i.Fits constants' := by
  obtain ⟨op, hcode, hexpr, hops⟩ := h
  exact ⟨op, hcode, hexpr, hops.mono hsub⟩

namespace Emitted

variable [LoxNum ν] {w : World ν} {s s₁ s₂ : CompState ν} {l₁ l₂ : List Insn}
  {f g : List (Value ν) → Option (List (Value ν))}

theorem append (h₁ : Emitted w s s₁ l₁ f) (h₂ : Emitted w s₁ s₂ l₂ g) :
    Emitted w s s₂ (l₁ ++ l₂) fun st => (f st).bind g where
  insns := by rw [h₂.insns, h₁.insns, List.append_assoc]
  constants := h₁.constants.trans h₂.constants
  locals := h₂.locals.trans h₁.locals
  enclosing := h₂.enclosing.trans h₁.enclosing
  hadError := h₂.hadError.trans h₁.hadError
  memoized h := h₂.memoized (h₁.memoized h)
  closed := h₁.closed.append h₂.closed
  fits := by
    intro i hi
    rcases List.mem_append.mp hi with hi | hi
    · exact (h₁.fits i hi).mono h₂.constants
    · exact h₂.fits i hi
  nodup := by
    rw [numberSlots_append, List.nodup_append]
    refine ⟨h₁.nodup, h₂.nodup, ?_⟩
    intro a ha b hb hab
    have hlt := (h₁.slots a ha).2
    have hle := (h₂.slots b hb).1
    omega
  slots := by
    intro idx hidx
    have hlen₁ := h₁.constants.length_le
    have hlen₂ := h₂.constants.length_le
    rw [numberSlots_append] at hidx
    rcases List.mem_append.mp hidx with hidx | hidx
    · have := h₁.slots idx hidx
      omega
    · have := h₂.slots idx hidx
      omega
  runs := by
    intro constants hsub code st
    rw [wordsOf_append, List.append_assoc, h₁.runs constants (h₂.constants.trans hsub)]
    cases f st with
    | none => rfl
    | some st' => exact h₂.runs constants hsub code st'

/-- The same code, for another description of what it gives. -/
theorem congr (h : Emitted w s s₁ l₁ f) (hfg : ∀ st, f st = g st) : Emitted w s s₁ l₁ g := by
  have : f = g := funext hfg
  exact this ▸ h

theorem refl (s : CompState ν) : Emitted w s s [] some where
  insns := (List.append_nil _).symm
  constants := List.prefix_rfl
  locals := rfl
  enclosing := rfl
  hadError := rfl
  memoized := id
  closed := trivial
  fits := by simp
  nodup := List.nodup_nil
  slots := by simp [numberSlots]
  runs := by simp

end Emitted

end Clox
