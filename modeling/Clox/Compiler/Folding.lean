import Clox.Compiler.ExprOptimized

/-! # Constant folding and the operators of the VM

`foldConstant` and the macro `BINARY_OP` of the VM compute the same operators in two places. Both
are given here by the operations of C that they are written with: what the one folds is what the
other pushes, and where the one throws the other leaves the code as it is.
-/

namespace Clox

/-- The operators of C on `int`. -/
class CInt (ι : Type) where
  /-- `%`; `none` where it traps. -/
  rem : ι → ι → Option ι
  or : ι → ι → ι
  and : ι → ι → ι
  xor : ι → ι → ι
  shl : ι → ι → ι
  shr : ι → ι → ι

/-- The operations of C on `double`, and the casts to `int` and back. -/
class CNum (ν : Type) (ι : outParam Type) [CInt ι] extends LoxNum ν where
  /-- `(int)a` -/
  toInt : ν → ι
  /-- `(double)i` -/
  ofInt : ι → ν
  mod_eq : ∀ a b, mod a b = (CInt.rem (toInt a) (toInt b)).map ofInt
  bitor_eq : ∀ a b, bitor a b = ofInt (CInt.or (toInt a) (toInt b))
  bitand_eq : ∀ a b, bitand a b = ofInt (CInt.and (toInt a) (toInt b))
  bitxor_eq : ∀ a b, bitxor a b = ofInt (CInt.xor (toInt a) (toInt b))
  shovelL_eq : ∀ a b, shovelL a b = ofInt (CInt.shl (toInt a) (toInt b))
  shovelR_eq : ∀ a b, shovelR a b = ofInt (CInt.shr (toInt a) (toInt b))

instance : CInt ℤ where
  rem a b := if b = 0 then none else some (a.tmod b)
  or := Int.lor
  and := Int.land
  xor := Int.xor
  shl a b := Int.shiftLeft a b.toNat
  shr a b := Int.shiftRight a b.toNat

instance : CNum ℤ ℤ where
  toInt a := a
  ofInt i := i
  mod_eq a b := by
    show (if b = 0 then none else some (a.tmod b)) = Option.map _ (if b = 0 then _ else _)
    split <;> rfl
  bitor_eq _ _ := rfl
  bitand_eq _ _ := rfl
  bitxor_eq _ _ := rfl
  shovelL_eq _ _ := rfl
  shovelR_eq _ _ := rfl

/-- Why an operator gives no number. -/
inductive ArithStop
  /-- "Can't divide by 0" is thrown. -/
  | divideByZero
  | trap
  deriving DecidableEq, Repr

variable {ν ι : Type} [CInt ι] [CNum ν ι]

/-- `BINARY_OP` on two numbers: the guard, and `(type)a op (type)b` with the `type` that the opcode
is given. -/
def binaryOp (opcode : OpCode) (a b : ν) : Except ArithStop ν :=
  if (opcode = .opDivide || opcode = .opModulo) && LoxNum.isZero b then .error .divideByZero
  else
    match opcode with
    -- `double`
    | .opAdd => .ok (LoxNum.add a b)
    | .opSubtract => .ok (LoxNum.sub a b)
    | .opMultiply => .ok (LoxNum.mul a b)
    | .opDivide => .ok (LoxNum.div a b)
    -- `int`
    | .opModulo =>
      match CInt.rem (CNum.toInt a) (CNum.toInt b) with
      | none => .error .trap
      | some i => .ok (CNum.ofInt i)
    | .opBitor => .ok (CNum.ofInt (CInt.or (CNum.toInt a) (CNum.toInt b)))
    | .opBitand => .ok (CNum.ofInt (CInt.and (CNum.toInt a) (CNum.toInt b)))
    | .opBitxor => .ok (CNum.ofInt (CInt.xor (CNum.toInt a) (CNum.toInt b)))
    | .opShovelL => .ok (CNum.ofInt (CInt.shl (CNum.toInt a) (CNum.toInt b)))
    | .opShovelR => .ok (CNum.ofInt (CInt.shr (CNum.toInt a) (CNum.toInt b)))
    | _ => .error .trap

/-- The operators of expressions are those of the macro. -/
theorem arith_eq_binaryOp {op : OpCode} (harith : World.isArith op = true) (a b : ν) :
    World.arith op a b = (binaryOp op a b).toOption := by
  have hmod := CNum.mod_eq a b
  cases op with
  | opDivide => by_cases hzero : LoxNum.isZero b <;> simp [World.arith, binaryOp, hzero, Except.toOption]
  | opModulo =>
    by_cases hzero : LoxNum.isZero b
    · simp [World.arith, binaryOp, hzero, Except.toOption]
    · rw [World.arith, if_neg hzero, hmod]
      simp only [binaryOp, hzero]
      cases CInt.rem (CNum.toInt a) (CNum.toInt b) <;> rfl
  | opBitor => exact congrArg some (CNum.bitor_eq a b)
  | opBitand => exact congrArg some (CNum.bitand_eq a b)
  | opBitxor => exact congrArg some (CNum.bitxor_eq a b)
  | opShovelL => exact congrArg some (CNum.shovelL_eq a b)
  | opShovelR => exact congrArg some (CNum.shovelR_eq a b)
  | opAdd | opSubtract | opMultiply => rfl
  | _ => cases harith

namespace Iseq

/-- What `foldConstant` does with the result of the operator. -/
def folded : Except ArithStop ν → Except Abort (Value ν)
  | .ok n => .ok (.number n)
  | .error .divideByZero => .ok .undef
  | .error .trap => .error .intDivisionTrap -- the compiler is stopped by the signal

theorem foldConstant_eq {seq : Iseq ν} {cur bin ain : Insn} {op : OpCode} {a b : ν}
    (hcode : cur.code = op.toNat) (harith : World.isArith op = true)
    (ha : seq.constants[ain.operand0]? = some (.number a))
    (hb : seq.constants[bin.operand0]? = some (.number b)) :
    seq.foldConstant cur bin ain = folded (binaryOp op a b) := by
  have hbin : seq.numConstant bin = .ok b := by rw [numConstant, hb]
  have hain : seq.numConstant ain = .ok a := by rw [numConstant, ha]
  have hmod := CNum.mod_eq a b
  have hok : ∀ {m n : ν}, m = n →
      (Except.ok (.number m) : Except Abort (Value ν)) = .ok (.number n) := by
    rintro m n rfl
    rfl
  unfold foldConstant
  rw [hbin, hain]
  simp only [bind, Except.bind, Insn.is, hcode, beq_iff_eq, OpCode.toNat_inj]
  cases op with
  | opDivide =>
    by_cases hzero : LoxNum.isZero b <;> simp [binaryOp, hzero, folded] <;> rfl
  | opModulo =>
    by_cases hzero : LoxNum.isZero b
    · simp [binaryOp, hzero, folded]
      rfl
    · simp only [hmod, binaryOp, hzero]
      cases CInt.rem (CNum.toInt a) (CNum.toInt b) <;> rfl
  | opBitor => exact hok (CNum.bitor_eq a b)
  | opBitand => exact hok (CNum.bitand_eq a b)
  | opBitxor => exact hok (CNum.bitxor_eq a b)
  | opShovelL => exact hok (CNum.shovelL_eq a b)
  | opShovelR => exact hok (CNum.shovelR_eq a b)
  | opAdd | opSubtract | opMultiply => rfl
  | _ => cases harith

end Iseq

/-! ## One fold -/

/-- A fold puts the number that the operator pushes in the place of the three instructions. Where the
operator throws, nothing is changed. -/
structure FoldAgrees (st st' : OptState ν) (cur prev prevp : Insn) (op : OpCode) (a b : ν) :
    Prop where
  code : cur.code = op.toNat
  lhs : st.seq.constants[prevp.operand0]? = some (.number a)
  rhs : st.seq.constants[prev.operand0]? = some (.number b)
  result : match binaryOp op a b with
    | .ok n =>
      st'.seq.constants = st.seq.constants.set prevp.operand0 (.number n) ∧
        st'.seq.insns.map (·.addr) =
          (st.seq.insns.map (·.addr)).filter fun x => x ≠ cur.addr ∧ x ≠ prev.addr
    | .error .divideByZero => st' = st
    | .error .trap => False

theorem addrs_of_remove {st st' : OptState ν} {a : Addr} (ha : a ∈ st.seq.insns.map (·.addr))
    (h : st.remove a = .ok st') :
    st'.seq.constants = st.seq.constants ∧
      st'.seq.insns.map (·.addr) = (st.seq.insns.map (·.addr)).filter (· ≠ a) := by
  obtain ⟨seq, hseq, hst⟩ := Except.bind_eq_ok.mp h
  cases hst
  obtain ⟨i, hi, rfl⟩ := List.mem_map.mp ha
  obtain ⟨p, q, hsplit⟩ := List.append_of_mem hi
  obtain ⟨g, hinsns, hg⟩ := Iseq.rmInsn_split hsplit hseq
  refine ⟨Iseq.constants_rmInsn hseq, ?_⟩
  have haddr : ∀ l : List Insn, l ⊆ p ++ q → (l.map g).map (·.addr) = l.map (·.addr) := by
    intro l hl
    rw [List.map_map]
    exact List.map_congr_left fun j hj => Iseq.addr_of_patchAround (hg j (hl hj))
  have hnd := st.seq.nodup
  rw [hsplit, List.map_append, List.map_cons, List.nodup_append', List.nodup_cons,
    List.disjoint_cons_right] at hnd
  have hkeep : ∀ l : List Insn, i.addr ∉ l.map (·.addr) →
      (l.map (·.addr)).filter (· ≠ i.addr) = l.map (·.addr) := by
    intro l hl
    rw [List.filter_eq_self]
    intro a ha
    have hne : a ≠ i.addr := fun heq => hl (heq ▸ ha)
    simpa using hne
  rw [hinsns, hsplit, List.map_append, haddr p (List.subset_append_left p q),
    haddr q (List.subset_append_right p q), List.map_append, List.map_cons, List.filter_append, List.filter_cons_of_neg (by simp), hkeep p hnd.2.2.1,
    hkeep q hnd.2.1.1]

theorem foldConstants_agrees {st st' : OptState ν} {cur prev prevp : Insn} {next : Option Addr}
    (hcur : cur ∈ st.seq.insns) (hops : OptState.foldOperands st.seq cur = some (prev, prevp))
    (hfold : st.foldConstants cur prev prevp = .ok (st', next)) :
    ∃ op a b, FoldAgrees st st' cur prev prevp op a b := by
  obtain ⟨v, hv, hfold⟩ := Except.bind_eq_ok.mp hfold
  obtain ⟨op, a, b, hcode, harith, ha, hb, -⟩ :=
    Iseq.foldConstant_eq_ok (OptState.isBinOp_of_foldOperands hops) hv
  refine ⟨op, a, b, hcode, ha, hb, ?_⟩
  rw [Iseq.foldConstant_eq hcode harith ha hb] at hv
  match hop : binaryOp op a b with
  | .error .trap =>
    rw [hop] at hv
    cases hv
  | .error .divideByZero =>
    rw [hop] at hv
    cases hv
    have hst : (st, (st.seq.next cur.addr).map (·.addr)) = (st', next) := Except.ok.inj hfold
    exact (congrArg Prod.fst hst).symm
  | .ok n =>
    rw [hop] at hv
    cases hv
    obtain ⟨seq₁, hchange, hfold⟩ := Except.bind_eq_ok.mp hfold
    obtain ⟨st₂, hrm, hfold⟩ := Except.bind_eq_ok.mp hfold
    obtain ⟨st₃, hrm', hfold⟩ := Except.bind_eq_ok.mp hfold
    cases hfold
    obtain ⟨hinsns, hconsts⟩ : seq₁.insns = st.seq.insns ∧
        seq₁.constants = st.seq.constants.set prevp.operand0 (.number n) := by
      unfold Iseq.changeConstant at hchange
      split at hchange
      · cases hchange
        exact ⟨rfl, rfl⟩
      · cases hchange
    obtain ⟨p₁, q, hsplit⟩ := List.append_of_mem hcur
    obtain ⟨p, rfl, -, -⟩ := OptState.foldOperands_split hsplit hops
    have hmem : prev ∈ st.seq.insns := by simp [hsplit]
    have hne : prev.addr ≠ cur.addr := by
      have hnd := st.seq.nodup
      rw [hsplit] at hnd
      simp only [List.map_append, List.map_cons, List.map_nil, List.nodup_append] at hnd
      exact hnd.2.2 prev.addr (by simp) cur.addr (by simp)
    -- the operator goes, and then its second operand
    have hthere : cur.addr ∈ ({ st with seq := seq₁ } : OptState ν).seq.insns.map (·.addr) :=
      List.mem_map_of_mem (hinsns ▸ hcur)
    obtain ⟨hconsts₂, haddrs₂⟩ := addrs_of_remove hthere hrm
    rw [hinsns] at haddrs₂
    have hmem₂ : prev.addr ∈ st₂.seq.insns.map (·.addr) := by
      rw [haddrs₂, List.mem_filter]
      exact ⟨List.mem_map_of_mem hmem, by simpa using hne⟩
    obtain ⟨hconsts₃, haddrs₃⟩ := addrs_of_remove hmem₂ hrm'
    refine ⟨hconsts₃.trans (hconsts₂.trans hconsts), ?_⟩
    rw [haddrs₃, haddrs₂, List.filter_filter]
    exact List.filter_congr fun x _ => by simp [Bool.and_comm]

/-! ## Nested constant expressions -/

/-- Numbers under operators that are folded. -/
def IsConstantExpr : Node → Bool
  | .literal (.number _) => true
  | .grouping expr => IsConstantExpr expr
  | .binary tok lhs rhs => World.isArith tok.opcode && IsConstantExpr lhs && IsConstantExpr rhs
  | _ => false

theorem isExpr_of_isConstantExpr (access : String → Access) {n : Node}
    (h : IsConstantExpr n = true) : World.IsExpr access n = true := by
  fun_induction IsConstantExpr n with
  | case1 => rfl
  | case2 expr ih => exact ih h
  | case3 tok lhs rhs ihl ihr =>
    simp only [Bool.and_eq_true] at h
    rw [World.IsExpr, ihl h.1.2, ihr h.2]
    rfl
  | case4 => cases h

/-- After any number of passes of the optimizer, the code of a nested constant expression gives what
it gave before. -/
theorem folding_preserves (w : World ν) {n : Node} {s s' : CompState ν}
    (hconst : IsConstantExpr n = true) (hmemo : s.Memoized) (hempty : s.current.iseq.insns = [])
    (h : Emit.emitNode false n s = .ok ((), s')) (herr : s'.current.hadError = false)
    {opts : CompilerOpts} {fuel : ℕ} {st : OptState ν} {cur cur' : Option Addr}
    (hrun : OptState.optimizeLoop opts fuel { seq := s'.current.iseq } cur = .ok (st, cur'))
    (stack : List (Value ν)) :
    w.exec st.seq.constants 0 (wordsOf st.seq.insns) stack =
      w.exec s'.current.iseq.constants 0 (wordsOf s'.current.iseq.insns) stack := by
  have hexpr := isExpr_of_isConstantExpr s.access hconst
  obtain ⟨l, hl⟩ := Emit.emitted_node (w := w) n hexpr hmemo herr h
  have hcode : CodeOf w s'.current.iseq l [] _ :=
    hl.codeOf hempty (List.append_nil _).symm (List.prefix_refl _)
  obtain ⟨l', hcode'⟩ := hcode.optimizeLoop fuel (by simp) hrun
  rw [hcode'.exec_eq, hcode.exec_eq]
  rfl

/-- Folding agrees with the VM: one fold of two numbers, and any number of them in a nested constant
expression. -/
theorem folding_agrees (w : World ν) :
    (∀ (st st' : OptState ν) (cur prev prevp : Insn) (next : Option Addr), cur ∈ st.seq.insns →
      OptState.foldOperands st.seq cur = some (prev, prevp) →
      st.foldConstants cur prev prevp = .ok (st', next) →
        ∃ op a b, FoldAgrees st st' cur prev prevp op a b) ∧
    ∀ (n : Node) (s s' : CompState ν), IsConstantExpr n = true → s.Memoized →
      s.current.iseq.insns = [] → Emit.emitNode false n s = .ok ((), s') →
      s'.current.hadError = false →
      ∀ (opts : CompilerOpts) (fuel : ℕ) (st : OptState ν) (cur cur' : Option Addr),
        OptState.optimizeLoop opts fuel { seq := s'.current.iseq } cur = .ok (st, cur') →
        ∀ stack, w.exec st.seq.constants 0 (wordsOf st.seq.insns) stack =
          w.exec s'.current.iseq.constants 0 (wordsOf s'.current.iseq.insns) stack := by
  constructor
  · intro st st' cur prev prevp next hcur hops hfold
    exact foldConstants_agrees hcur hops hfold
  · intro n s s' hconst hmemo hempty h herr opts fuel st cur cur' hrun stack
    exact folding_preserves w hconst hmemo hempty h herr hrun stack

/-- `1 + 2 * 3` -/
def nestedSum : Node :=
  .binary .plus (.literal (.number "1"))
    (.binary .star (.literal (.number "2")) (.literal (.number "3")))

/-- One constant is left of it. -/
theorem nestedSum_folded :
    ∃ (s' : CompState ℤ) (st : OptState ℤ) (cur : Option Addr),
      Emit.emitNode false nestedSum
        { opts := {}, current := Emit.freshCompiler 0 .topLevel none } = .ok ((), s') ∧
      OptState.optimizeLoop {} 30 { seq := s'.current.iseq }
        (s'.current.iseq.insns.head?.map (·.addr)) = .ok (st, cur) ∧
      st.seq.insns.length = 1 ∧
      ∀ stack, mapWorld.exec st.seq.constants 0 (wordsOf st.seq.insns) stack =
        mapWorld.exec s'.current.iseq.constants 0 (wordsOf s'.current.iseq.insns) stack := by
  have h : (do
      let r ← (Emit.emitNode false nestedSum
        { opts := {}, current := Emit.freshCompiler 0 .topLevel none } :
          Except Abort (Unit × CompState ℤ))
      let o ← OptState.optimizeLoop {} 30 { seq := r.2.current.iseq }
        (r.2.current.iseq.insns.head?.map Insn.addr)
      return decide (r.2.current.hadError = false ∧ o.1.seq.insns.length = 1)) = .ok true := by
    decide +kernel
  obtain ⟨⟨u, s'⟩, hemit, h⟩ := Except.bind_eq_ok.mp h
  obtain ⟨⟨st, cur⟩, hrun, h⟩ := Except.bind_eq_ok.mp h
  rw [Except.pure_eq_ok, decide_eq_true_eq] at h
  refine ⟨s', st, cur, hemit, hrun, h.2, ?_⟩
  exact (folding_agrees mapWorld).2 nestedSum _ s' (by decide) (fun _ _ h => by cases h) rfl
    hemit h.1 {} 30 st _ cur hrun

end Clox
