import Clox.Compiler.ExprCode

/-! # The code of expressions, by labels

A second machine for the code of expressions, which runs instructions instead of
words: a jump that is taken looks for the instruction it is recorded to land
behind (`jumpTo`), whatever its operand is. On code whose operands agree with
the record (`Closed`) it does what the words do (`exec_eq_run`). The machine
composes over the parts of the code (`run_append`), so that a part can be
replaced by another that does the same (`run_replace`).
-/

namespace Clox

open Layout (width)

variable {ν : Type} [LoxNum ν]

/-- A peeking jump, with the value on top of the stack that makes it jump. -/
def OpCode.taken (op : OpCode) (st : List (Value ν)) : Bool :=
  match op, st with
  | .opJumpIfFalsePeek, cond :: _ => World.decides .and cond
  | .opJumpIfTruePeek, cond :: _ => World.decides .or cond
  | _, _ => false

/-- What an instruction looked for and the stack are, between two instructions. -/
abbrev Labelled (ν : Type) := Option Addr × List (Value ν)

/-- Run instructions, behind the one at the address that is looked for. -/
def World.run (w : World ν) (constants : List (Value ν)) :
    Option Addr → List Insn → List (Value ν) → Option (Labelled ν)
  | target, [], st => some (target, st)
  | some target, i :: rest, st =>
    if i.addr = target then run w constants none rest st else run w constants (some target) rest st
  | none, i :: rest, st =>
    (OpCode.ofNat? i.code).bind fun op =>
      (w.execOp constants op i.operands st).bind fun c =>
        run w constants (if op.taken st then i.jumpTo else none) rest c.2

section

variable {w : World ν} {constants : List (Value ν)}

theorem run_append (target : Option Addr) (l₁ l₂ : List Insn) (st : List (Value ν)) :
    w.run constants target (l₁ ++ l₂) st =
      (w.run constants target l₁ st).bind fun r => w.run constants r.1 l₂ r.2 := by
  induction l₁ generalizing target st with
  | nil => cases target <;> rfl
  | cons i l₁ ih =>
    cases target with
    | some target =>
      rw [List.cons_append, World.run, World.run]
      split
      · exact ih none st
      · exact ih (some target) st
    | none =>
      simp only [List.cons_append, World.run, Option.bind_assoc, ih]

/-- Nothing is run on the way to an instruction that is not there. -/
theorem run_of_notMem {target : Addr} {l : List Insn} (h : target ∉ l.map (·.addr))
    (st : List (Value ν)) : w.run constants (some target) l st = some (some target, st) := by
  induction l with
  | nil => rfl
  | cons i l ih =>
    rw [List.map_cons, List.mem_cons, not_or] at h
    rw [World.run, if_neg (Ne.symm h.1)]
    exact ih h.2

/-- The instruction looked for is found. -/
theorem run_found {l l' : List Insn} {t : Insn} (h : t.addr ∉ l.map (·.addr))
    (st : List (Value ν)) :
    w.run constants (some t.addr) (l ++ t :: l') st = w.run constants none l' st := by
  rw [run_append, run_of_notMem h, Option.bind_some, World.run, if_pos rfl]

/-! ## Words and labels -/

/-- An opcode reads its own operands only. -/
theorem execOp_operands {op : OpCode} {operands : List ℕ}
    (hfits : Insn.OperandsFit constants op operands) (code : List ℕ) (st : List (Value ν)) :
    w.execOp constants op (operands ++ code) st = w.execOp constants op operands st := by
  cases op
  case opConstant => obtain ⟨idx, n, rfl, hn⟩ := hfits; rfl
  case opString => obtain ⟨idx, b, str, rfl, hstr⟩ := hfits; rfl
  case opDuparray => obtain ⟨idx, els, rfl, hels⟩ := hfits; rfl
  case opDupmap => obtain ⟨idx, entries, rfl, hentries⟩ := hfits; rfl
  case opGetLocal => obtain ⟨slot, name, rfl⟩ := hfits; rfl
  case opGetGlobal => obtain ⟨idx, name, rfl, hname⟩ := hfits; rfl
  case opArray | opMap => obtain ⟨n, rfl⟩ := hfits; rfl
  case opJumpIfFalsePeek | opJumpIfTruePeek => obtain ⟨n, rfl⟩ := hfits; cases st <;> rfl
  all_goals rfl

omit [LoxNum ν] in
theorem skip_of_withOperands {st : List (Value ν)} {f : Value ν → Value ν → Option (Value ν)}
    {c : Continue ν} (h : World.withOperands st f = some c) : c.1 = 0 := by
  match st with
  | [] | [_] => cases h
  | rhs :: lhs :: st =>
    obtain ⟨v, -, rfl⟩ := Option.map_eq_some_iff.mp h
    rfl

omit [LoxNum ν] in
theorem skip_of_withOperand {st : List (Value ν)} {f : Value ν → Option (Value ν)}
    {c : Continue ν} (h : World.withOperand st f = some c) : c.1 = 0 := by
  match st with
  | [] => cases h
  | v :: st =>
    obtain ⟨v', -, rfl⟩ := Option.map_eq_some_iff.mp h
    rfl

/-- What an opcode skips: its operands, or what a jump that is taken says. -/
theorem execOp_eq_some {op : OpCode} {operands : List ℕ}
    (hfits : Insn.OperandsFit constants op operands) {st : List (Value ν)} {c : Continue ν}
    (h : w.execOp constants op operands st = some c) :
    (op.taken st = false ∧ c.1 = operands.length) ∨
      (op.taken st = true ∧ ∃ n, operands = [n] ∧ c = (1 + (n - 1), st)) := by
  cases op
  case opConstant =>
    obtain ⟨idx, n, rfl, hn⟩ := hfits
    obtain ⟨v, -, rfl⟩ := Option.map_eq_some_iff.mp h
    exact .inl ⟨rfl, rfl⟩
  case opGetLocal =>
    obtain ⟨slot, name, rfl⟩ := hfits
    cases h
    exact .inl ⟨rfl, rfl⟩
  case opString =>
    obtain ⟨idx, b, str, rfl, hstr⟩ := hfits
    simp only [World.execOp, World.readConstant, List.head?_cons, Option.bind_some, hstr] at h
    cases h
    exact .inl ⟨rfl, rfl⟩
  case opDuparray =>
    obtain ⟨idx, els, rfl, hels⟩ := hfits
    simp only [World.execOp, World.readConstant, List.head?_cons, Option.bind_some, hels] at h
    cases h
    exact .inl ⟨rfl, rfl⟩
  case opDupmap =>
    obtain ⟨idx, entries, rfl, hentries⟩ := hfits
    simp only [World.execOp, World.readConstant, List.head?_cons, Option.bind_some, hentries] at h
    cases h
    exact .inl ⟨rfl, rfl⟩
  case opGetGlobal =>
    obtain ⟨idx, name, rfl, hname⟩ := hfits
    simp only [World.execOp, World.readConstant, List.head?_cons, Option.bind_some, hname] at h
    obtain ⟨v, -, rfl⟩ := Option.map_eq_some_iff.mp h
    exact .inl ⟨rfl, rfl⟩
  case opArray | opMap =>
    obtain ⟨n, rfl⟩ := hfits
    simp only [World.execOp, World.collect] at h
    split at h <;> cases h
    exact .inl ⟨rfl, rfl⟩
  case opJumpIfFalsePeek | opJumpIfTruePeek =>
    obtain ⟨n, rfl⟩ := hfits
    cases st with
    | nil => cases h
    | cons cond st =>
      cases h
      simp only [OpCode.taken]
      cases World.decides _ cond
      · exact .inl ⟨rfl, rfl⟩
      · exact .inr ⟨rfl, n, rfl, rfl⟩
  case opTrue | opFalse | opNil =>
    subst hfits
    cases h
    exact .inl ⟨rfl, rfl⟩
  case opNegate | opNot =>
    subst hfits
    exact .inl ⟨rfl, skip_of_withOperand h⟩
  all_goals
    subst hfits
    exact .inl ⟨rfl, skip_of_withOperands h⟩

/-- On code whose jumps land where they are recorded to, labels and words agree. -/
theorem exec_eq_run {l : List Insn} (hnd : (l.map (·.addr)).Nodup) (hclosed : Closed l)
    (hfits : ∀ i ∈ l, i.Fits constants) (code : List ℕ) (st : List (Value ν)) :
    w.exec constants 0 (wordsOf l ++ code) st =
      (w.run constants none l st).bind fun r => w.exec constants 0 code r.2 := by
  induction hlen : l.length using Nat.strong_induction_on generalizing l st with
  | _ len ih =>
    cases l with
    | nil => rfl
    | cons i rest =>
      rw [List.map_cons, List.nodup_cons] at hnd
      obtain ⟨op, hcode, hexpr, hops⟩ := hfits i List.mem_cons_self
      have hofNat : OpCode.ofNat? i.code = some op := by rw [hcode]; exact OpCode.ofNat?_toNat op
      have ih' := ih rest.length (by rw [← hlen]; simp) hnd.2 hclosed.2
        (fun j hj => hfits j (List.mem_cons_of_mem _ hj))
      rw [wordsOf_cons, List.append_assoc, exec_insn constants hcode hexpr, execOp_operands hops,
        World.run, hofNat, Option.bind_some, Option.bind_assoc]
      cases hexec : w.execOp constants op i.operands st with
      | none => rfl
      | some c =>
        rw [Option.bind_some, Option.bind_some]
        change w.exec constants c.1 _ c.2 = _
        obtain ⟨htaken, hskip⟩ | ⟨htaken, n, hn, rfl⟩ := execOp_eq_some hops hexec
        · rw [htaken, hskip, if_neg (by decide)]
          exact (exec_skip_words constants i.operands 0 (wordsOf rest ++ code) c.2).trans
            (ih' c.2 rfl)
        · -- the jump lands behind `t`
          have hjump : i.isJump = true := by
            cases op <;> first | cases htaken | simp [Insn.isJump, Insn.is, hcode]
          obtain ⟨r, t, u, rfl, hto, -, htops, hoperand⟩ := hclosed.1 hjump
          obtain rfl : n = width Insn.size r + 2 := by simpa [hn] using hoperand
          have hnd' := hnd.2
          rw [List.map_append, List.map_cons, List.nodup_append', List.nodup_cons,
            List.disjoint_cons_right] at hnd'
          have hfitsu : ∀ j ∈ u, j.Fits constants := fun j hj => hfits j (by simp [hj])
          have hlenu : u.length < len := by rw [← hlen]; simp; omega
          have hwords : i.operands ++ (wordsOf (r ++ t :: u) ++ code) =
              (i.operands ++ wordsOf r ++ t.words) ++ (wordsOf u ++ code) := by simp
          have hskip : 1 + (width Insn.size r + 2 - 1) =
              (i.operands ++ wordsOf r ++ t.words).length + 0 := by
            simp [hn, length_wordsOf, Insn.size, Insn.numOperands, htops]
            omega
          rw [htaken, if_pos rfl, hto, run_found hnd'.2.2.1, hwords, hskip]
          refine (exec_skip_words constants _ 0 _ st).trans ?_
          exact ih u.length hlenu hnd'.2.1.2 hclosed.2.of_append_right.2 hfitsu st rfl

/-! ## Code that does the same -/

/-- An instruction whose operand, if it is a jump, has been patched. -/
def Insn.Relocated (i i' : Insn) : Prop := i' = i ∨ i.isJump = true ∧ ∃ n, i' = i.setOperand0 n

omit [LoxNum ν] in
theorem Insn.Relocated.fits {i i' : Insn} (h : i.Relocated i') (hfits : i.Fits constants) :
    i'.Fits constants := by
  obtain rfl | ⟨hjump, n, rfl⟩ := h
  · exact hfits
  · obtain ⟨op, hcode, hexpr, hops⟩ := hfits
    refine ⟨op, hcode, hexpr, ?_⟩
    have hop : op = .opJumpIfFalsePeek ∨ op = .opJumpIfTruePeek := by
      cases op <;> simp_all [Insn.isJump, Insn.is, OpCode.isExpr]
    obtain rfl | rfl := hop
    · obtain ⟨m, hm⟩ := hops
      exact ⟨n, by simp [Insn.setOperand0, hm]⟩
    · obtain ⟨m, hm⟩ := hops
      exact ⟨n, by simp [Insn.setOperand0, hm]⟩

/-- The machine does not look at the operands of jumps. -/
theorem run_map_relocated {l : List Insn} {g : Insn → Insn} (hg : ∀ i ∈ l, i.Relocated (g i))
    (hfits : ∀ i ∈ l, i.Fits constants) (target : Option Addr) (st : List (Value ν)) :
    w.run constants target (l.map g) st = w.run constants target l st := by
  induction l generalizing target st with
  | nil => rfl
  | cons i l ih =>
    have ih' := ih (fun j hj => hg j (List.mem_cons_of_mem _ hj))
      (fun j hj => hfits j (List.mem_cons_of_mem _ hj))
    obtain heq | ⟨hjump, n, heq⟩ := hg i List.mem_cons_self
    · rw [List.map_cons, heq]
      cases target with
      | some target => simp only [World.run, ih']
      | none => simp only [World.run, ih']
    · rw [List.map_cons, heq]
      cases target with
      | some target => simp only [World.run, ih', Insn.setOperand0]
      | none =>
        obtain ⟨op, hcode, hexpr, hops⟩ := hfits i List.mem_cons_self
        have hop : op = .opJumpIfFalsePeek ∨ op = .opJumpIfTruePeek := by
          cases op <;> simp_all [Insn.isJump, Insn.is, OpCode.isExpr]
        have hofNat : OpCode.ofNat? i.code = some op := by rw [hcode]; exact OpCode.ofNat?_toNat op
        simp only [World.run, Insn.setOperand0, hofNat, Option.bind_some]
        obtain rfl | rfl := hop
        · obtain ⟨m, hm⟩ := hops
          cases st <;> simp [hm, World.execOp, World.jumpPeek, ih']
        · obtain ⟨m, hm⟩ := hops
          cases st <;> simp [hm, World.execOp, World.jumpPeek, ih']

/-- Only the instruction that reads a number constant depends on it. -/
theorem run_set_constant {l : List Insn} {k : ℕ} {n : ν} (hk : constants[k]? = some (.number n))
    (hl : k ∉ numberSlots l) (hfits : ∀ i ∈ l, i.Fits constants) (v : Value ν)
    (target : Option Addr) (st : List (Value ν)) :
    w.run (constants.set k v) target l st = w.run constants target l st := by
  induction l generalizing target st with
  | nil => rfl
  | cons i l ih =>
    have hl' : k ∉ numberSlots l := by
      intro h
      refine hl ?_
      rw [← List.singleton_append, numberSlots_append]
      exact List.mem_append_right _ h
    have ih' := ih hl' fun j hj => hfits j (List.mem_cons_of_mem _ hj)
    cases target with
    | some target => simp only [World.run, ih']
    | none =>
      obtain ⟨op, hcode, hexpr, hops⟩ := hfits i List.mem_cons_self
      have hexec : w.execOp (constants.set k v) op i.operands st =
          w.execOp constants op i.operands st := by
        have hread : ∀ idx more, idx ≠ k → World.readConstant (constants.set k v) (idx :: more) =
            World.readConstant constants (idx :: more) := fun idx more hne =>
          List.getElem?_set_ne (Ne.symm hne)
        cases op
        case opConstant =>
          obtain ⟨idx, m, hm, hidx⟩ := hops
          have hne : idx ≠ k := by
            rintro rfl
            exact hl (by simp [numberSlots, Insn.is, hcode, Insn.operand0, hm])
          rw [hm, World.execOp, World.execOp, hread idx [] hne]
        case opString =>
          obtain ⟨idx, b, str, hm, hidx⟩ := hops
          have hne : idx ≠ k := by rintro rfl; rw [hidx] at hk; cases hk
          rw [hm, World.execOp, World.execOp, hread idx _ hne]
        case opDuparray =>
          obtain ⟨idx, els, hm, hidx⟩ := hops
          have hne : idx ≠ k := by rintro rfl; rw [hidx] at hk; cases hk
          rw [hm, World.execOp, World.execOp, hread idx _ hne]
        case opDupmap =>
          obtain ⟨idx, entries, hm, hidx⟩ := hops
          have hne : idx ≠ k := by rintro rfl; rw [hidx] at hk; cases hk
          rw [hm, World.execOp, World.execOp, hread idx _ hne]
        case opGetGlobal =>
          obtain ⟨idx, name, hm, hidx⟩ := hops
          have hne : idx ≠ k := by rintro rfl; rw [hidx] at hk; cases hk
          rw [hm, World.execOp, World.execOp, hread idx _ hne]
        all_goals rfl
      have hofNat : OpCode.ofNat? i.code = some op := by rw [hcode]; exact OpCode.ofNat?_toNat op
      simp only [World.run, hofNat, Option.bind_some, hexec, ih']

/-- Jumps are recorded to land behind an `OP_AND` or `OP_OR` of the code. -/
theorem Closed.jumpTo {l : List Insn} (h : Closed l) :
    ∀ i ∈ l, i.isJump = true → ∃ t ∈ l, i.jumpTo = some t.addr ∧ t.isLogical = true := by
  induction l with
  | nil => simp
  | cons j l ih =>
    intro i hi hjump
    rcases List.mem_cons.mp hi with rfl | hi
    · obtain ⟨r, t, u, rfl, hto, hlogical, -⟩ := h.1 hjump
      exact ⟨t, by simp, hto, hlogical⟩
    · obtain ⟨t, ht, hto, hlogical⟩ := ih h.2 i hi hjump
      exact ⟨t, List.mem_cons_of_mem _ ht, hto, hlogical⟩

omit [LoxNum ν] in
theorem Closed.operand {l : List Insn} (h : Closed l) :
    ∀ i ∈ l, i.isJump = true → ∃ n, i.operands = [n + 2] := by
  induction l with
  | nil => simp
  | cons j l ih =>
    intro i hi hjump
    rcases List.mem_cons.mp hi with rfl | hi
    · obtain ⟨r, t, u, rfl, -, -, -, hops⟩ := h.1 hjump
      exact ⟨_, hops⟩
    · exact ih h.2 i hi hjump

/-- What is looked for behind code is what one of its jumps is recorded to land behind. -/
theorem target_of_run {l : List Insn} (hfits : ∀ i ∈ l, i.Fits constants) {target : Option Addr}
    {st : List (Value ν)} {r : Labelled ν} (h : w.run constants target l st = some r) {t : Addr}
    (ht : r.1 = some t) : target = some t ∨ ∃ i ∈ l, i.isJump = true ∧ i.jumpTo = some t := by
  induction l generalizing target st with
  | nil =>
    cases h
    exact .inl ht
  | cons i l ih =>
    have hfits' : ∀ j ∈ l, j.Fits constants := fun j hj => hfits j (List.mem_cons_of_mem _ hj)
    have hrest : (∃ j ∈ l, j.isJump = true ∧ j.jumpTo = some t) →
        ∃ j ∈ i :: l, j.isJump = true ∧ j.jumpTo = some t := by
      rintro ⟨j, hj, h⟩
      exact ⟨j, List.mem_cons_of_mem _ hj, h⟩
    cases target with
    | some target =>
      rw [World.run] at h
      split at h
      · rcases ih hfits' h with hnone | hjump
        · cases hnone
        · exact .inr (hrest hjump)
      · exact (ih hfits' h).imp_right hrest
    | none =>
      obtain ⟨op, hcode, hexpr, hops⟩ := hfits i List.mem_cons_self
      have hofNat : OpCode.ofNat? i.code = some op := by rw [hcode]; exact OpCode.ofNat?_toNat op
      rw [World.run, hofNat, Option.bind_some] at h
      obtain ⟨c, -, h⟩ := Option.bind_eq_some_iff.mp h
      rcases ih hfits' h with hto | hjump
      · right
        split at hto
        · rename_i htaken
          have hjump : i.isJump = true := by
            cases op <;> first | cases htaken | simp [Insn.isJump, Insn.is, hcode]
          exact ⟨i, List.mem_cons_self, hjump, hto⟩
        · cases hto
      · exact .inr (hrest hjump)

/-- A part no jump lands in is replaced by one that does the same, in front of it the jumps have
been patched. -/
theorem run_replace {p m m' q : List Insn} {constants' : List (Value ν)} {g : Insn → Insn}
    (hclosed : Closed (p ++ m ++ q)) (hnd : ((p ++ m ++ q).map (·.addr)).Nodup)
    (hfits : ∀ i ∈ p ++ m ++ q, i.Fits constants)
    (hm : ∀ i ∈ m, i.isLogical = false) (hsub : ∀ i ∈ m', i.addr ∈ m.map (·.addr))
    (hp : ∀ target st, w.run constants' target (p.map g) st = w.run constants target p st)
    (hsame : ∀ st, w.run constants' none m' st = w.run constants none m st)
    (hq : ∀ target st, w.run constants' target q st = w.run constants target q st)
    (st : List (Value ν)) :
    w.run constants' none (p.map g ++ m' ++ q) st = w.run constants none (p ++ m ++ q) st := by
  simp only [run_append, hp, Option.bind_assoc]
  cases hrun : w.run constants none p st with
  | none => rfl
  | some r =>
    obtain ⟨target, st'⟩ := r
    have hmiddle : w.run constants' target m' st' = w.run constants target m st' := by
      cases target with
      | none => exact hsame st'
      | some t =>
        have hfitsp : ∀ i ∈ p, i.Fits constants := fun i hi => hfits i (by simp [hi])
        rcases target_of_run hfitsp hrun rfl with hnone | ⟨i, hi, hjump, hto⟩
        · cases hnone
        -- the target is no instruction of `m`
        obtain ⟨t', ht', hto', hlogical⟩ := hclosed.jumpTo i (by simp [hi]) hjump
        obtain rfl : t = t'.addr := Option.some.inj (hto.symm.trans hto')
        have hnotMem : t'.addr ∉ m.map (·.addr) := by
          intro hmem
          obtain ⟨j, hj, haddr⟩ := List.mem_map.mp hmem
          have hjl : j ∈ p ++ m ++ q := by simp [hj]
          have heq : j = t' := List.inj_on_of_nodup_map hnd hjl ht' haddr
          rw [← heq, hm j hj] at hlogical
          cases hlogical
        have hnotMem' : t'.addr ∉ m'.map (·.addr) := by
          intro hmem
          obtain ⟨j, hj, haddr⟩ := List.mem_map.mp hmem
          exact hnotMem (haddr ▸ hsub j hj)
        rw [run_of_notMem hnotMem, run_of_notMem hnotMem']
    rw [Option.bind_some, Option.bind_some, hmiddle]
    cases w.run constants target m st' with
    | none => rfl
    | some r' => exact hq r'.1 r'.2

end

end Clox
