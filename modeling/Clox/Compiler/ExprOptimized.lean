import Clox.Compiler.Edits
import Clox.Compiler.ExprEmit
import Clox.Compiler.ExprLabels

/-! # Expressions and the optimizer

What `optimizeIseq` does to the code of an expression: it folds operators on
constants and drops the jumps of `or` behind `nil` and `false`, and nothing else
(`optimizeStep_keepsValue`). Each edit patches the jumps across it, so that the
operands agree with what the jumps record (`removed`), and the code gives the
same value.
-/

namespace Clox

open Layout (width)

variable {ν : Type}

/-! ## Patched instructions -/

namespace Insn.Relocated

variable {i i' : Insn}

theorem size_eq (h : i.Relocated i') : i'.size = i.size := by
  obtain rfl | ⟨-, n, rfl⟩ := h
  · rfl
  · simp [Insn.size, Insn.numOperands, Insn.setOperand0]

theorem eq_of_notJump (h : i.Relocated i') (hi : i.isJump = false) : i' = i := by
  obtain rfl | ⟨hjump, -⟩ := h
  · rfl
  · rw [hi] at hjump
    cases hjump

theorem eq_of_logical (h : i.Relocated i') (hi : i.isLogical = true) : i' = i := by
  apply h.eq_of_notJump
  simp only [Insn.isLogical, Insn.is, Bool.or_eq_true, beq_iff_eq] at hi
  rcases hi with hi | hi <;> simp [Insn.isJump, Insn.is, hi]

end Insn.Relocated

theorem width_map_relocated {l : List Insn} {g : Insn → Insn} (hg : ∀ i ∈ l, i.Relocated (g i)) :
    width Insn.size (l.map g) = width Insn.size l := by
  induction l with
  | nil => rfl
  | cons i l ih =>
    have hi := (hg i List.mem_cons_self).size_eq
    simp [hi, ih fun j hj => hg j (List.mem_cons_of_mem _ hj)]

/-! ## Removing an instruction -/

namespace Iseq

theorem prev_of_split {seq : Iseq ν} {p q : List Insn} {x : Insn}
    (h : seq.insns = p ++ x :: q) : seq.prev x.addr = p.getLast? := by
  unfold prev
  rw [Layout.index_of_split seq.nodup h, h]
  rcases List.eq_nil_or_concat p with rfl | ⟨p', y, rfl⟩
  · rfl
  · simp

theorem constants_rmInsn {seq seq' : Iseq ν} {x : Addr}
    (h : seq.rmInsnAndPatchJumps x = .ok seq') : seq'.constants = seq.constants := by
  unfold rmInsnAndPatchJumps at h
  cases hx : seq.insn? x with
  | none => simp [hx] at h
  | some i =>
    rw [hx] at h
    obtain ⟨seq₁, hw, hrm⟩ := Except.bind_eq_ok.mp h
    obtain ⟨u, hu, hmap⟩ := Except.bind_eq_ok.mp hw
    rw [Except.pure_eq_ok] at hmap hrm
    subst hmap hrm
    rfl

/-- What a removal leaves: the other instructions, patched. -/
theorem rmInsn_split {seq seq' : Iseq ν} {p q : List Insn} {x : Insn}
    (hsplit : seq.insns = p ++ x :: q) (h : seq.rmInsnAndPatchJumps x.addr = .ok seq') :
    ∃ g : Insn → Insn, seq'.insns = p.map g ++ q.map g ∧
      ∀ i ∈ p ++ q,
        seq.patchAround x.addr (-(x.numOperands + 1)) .assertFailed false i = .ok (g i) := by
  have hx : seq.insn? x.addr = some x := seq.insn?_eq_some (by simp [hsplit])
  unfold rmInsnAndPatchJumps at h
  rw [hx] at h
  obtain ⟨seq₁, hw, hrm⟩ := Except.bind_eq_ok.mp h
  rw [Except.pure_eq_ok] at hrm
  subst hrm
  obtain ⟨g, hg, -, haddr, hpatch⟩ := patchAround_walk hw
  refine ⟨g, ?_, fun i hi => (hpatch i ?_).1⟩
  · have hnd := seq.nodup
    rw [hsplit, List.map_append, List.map_cons, List.nodup_append', List.nodup_cons,
      List.disjoint_cons_right] at hnd
    have hkeep : ∀ l : List Insn, x.addr ∉ l.map (·.addr) →
        (l.map g).filter (fun i => decide (i.addr ≠ x.addr)) = l.map g := by
      intro l hl
      rw [List.filter_eq_self]
      intro i hi
      obtain ⟨j, hj, rfl⟩ := List.mem_map.mp hi
      have hne : j.addr ≠ x.addr := fun heq => hl (List.mem_map.mpr ⟨j, hj, heq⟩)
      simpa [haddr] using hne
    change seq₁.insns.filter (fun i => decide (i.addr ≠ x.addr)) = _
    rw [hg, hsplit, List.map_append, List.map_cons, List.filter_append,
      List.filter_cons_of_neg (by simp [haddr]), hkeep p hnd.2.2.1, hkeep q hnd.2.1.1]
  · rw [hsplit]
    rcases List.mem_append.mp hi with hi | hi
    · simp [hi]
    · simp [hi]

/-- Behind the removed instruction only loops are patched. -/
theorem patchAround_behind {seq : Iseq ν} {p q : List Insn} {x i i' : Insn} {offset : ℤ}
    (hsplit : seq.insns = p ++ x :: q) (hi : i ∈ q) (hloop : i.isLoop = false)
    (h : seq.patchAround x.addr offset .assertFailed false i = .ok i') : i' = i := by
  obtain ⟨q₁, q₂, rfl⟩ := List.append_of_mem hi
  have hidx : Layout.index (·.addr) seq.insns x.addr = p.length :=
    Layout.index_of_split seq.nodup hsplit
  have hsplit' : seq.insns = (p ++ x :: q₁) ++ i :: q₂ := by simp [hsplit]
  have hidx' : Layout.index (·.addr) seq.insns i.addr = (p ++ x :: q₁).length :=
    Layout.index_of_split seq.nodup hsplit'
  have hne : i.addr ≠ x.addr := by
    intro heq
    rw [heq, hidx] at hidx'
    simp at hidx'
  have hspan : seq.span x.addr i .assertFailed = .ok .outside := by
    unfold span
    simp only [hidx, hidx', hloop]
    rw [if_neg (by simp), if_neg (by simp)]
    rfl
  unfold patchAround at h
  rw [if_neg hne, hspan] at h
  exact (Except.ok.inj h).symm

/-- A jump across the removed instruction is made shorter by it. -/
theorem patchJumpInsn_shorter {i i' x : Insn} {n : ℕ} (hops : i.operands = [n])
    (hn : x.size ≤ n) (h : patchJumpInsnWithOffset i (-(x.numOperands + 1)) = .ok i') :
    i' = i.setOperand0 (n - x.size) := by
  have hoperand : i.operand0 = n := by simp [Insn.operand0, hops]
  have hsum : unsignedSum i.operand0 (-(x.numOperands + 1)) = ((n - x.size : ℕ) : ℤ) := by
    unfold unsignedSum
    rw [hoperand]
    simp only [Insn.size] at hn ⊢
    rw [if_neg (by omega)]
    omega
  unfold patchJumpInsnWithOffset at h
  rw [hsum] at h
  split at h
  · cases h
  split at h
  · cases h
  · exact (Except.ok.inj h).symm

/-- What becomes of an instruction in front of the removed one. -/
theorem patchAround_front {seq : Iseq ν} {p₁ p₂ q post : List Insn} {x i i' : Insn}
    (hsplit : seq.insns = p₁ ++ i :: (p₂ ++ x :: (q ++ post)))
    (hlands : i.isJump = true → i.LandsBehind (p₂ ++ x :: q)) (hx : x.isLogical = false)
    (h : seq.patchAround x.addr (-(x.numOperands + 1)) .assertFailed false i = .ok i') :
    i.Relocated i' ∧ ∀ g : Insn → Insn, (∀ j ∈ p₂, j.Relocated (g j)) →
      i'.isJump = true → i'.LandsBehind (p₂.map g ++ q) := by
  have hidx : Layout.index (·.addr) seq.insns i.addr = p₁.length :=
    Layout.index_of_split seq.nodup hsplit
  have hsplitx : seq.insns = (p₁ ++ i :: p₂) ++ x :: (q ++ post) := by simp [hsplit]
  have hidxx : Layout.index (·.addr) seq.insns x.addr = (p₁ ++ i :: p₂).length :=
    Layout.index_of_split seq.nodup hsplitx
  have hlt : p₁.length < (p₁ ++ i :: p₂).length := by simp
  have hne : i.addr ≠ x.addr := by
    intro heq
    rw [heq, hidxx] at hidx
    omega
  unfold patchAround at h
  rw [if_neg hne] at h
  cases hjump : i.isJump with
  | false =>
    have hspan : seq.span x.addr i .assertFailed = .ok .outside := by
      unfold span
      simp only [hidx, hidxx, hjump]
      rw [if_neg (by simp), if_neg (by omega)]
      rfl
    rw [hspan] at h
    obtain rfl := Except.ok.inj h
    exact ⟨.inl rfl, fun _ _ hj => absurd hj (by simp [hjump])⟩
  | true =>
    obtain ⟨r, t, u, hrest, hto, hlogical, htops, hops⟩ := hlands hjump
    have hsplitt : seq.insns = (p₁ ++ i :: r) ++ t :: (u ++ post) := by
      have : p₂ ++ x :: (q ++ post) = r ++ t :: (u ++ post) := by
        have := congrArg (· ++ post) hrest
        simpa using this
      rw [hsplit, this]
      simp
    have hidxt : seq.iseqInsnIndex t.addr = some (p₁ ++ i :: r).length := by
      unfold iseqInsnIndex
      rw [if_pos (by simp [hsplitt]), Layout.index_of_split seq.nodup hsplitt]
    have htarget : seq.jumpTarget i .assertFailed = .ok t.addr := by simp [jumpTarget, hto]
    have hspan : seq.span x.addr i .assertFailed =
        .ok (if (p₁ ++ i :: p₂).length < (p₁ ++ i :: r).length then .across
          else if (p₁ ++ i :: r).length = (p₁ ++ i :: p₂).length then .onto else .outside) := by
      unfold span
      simp only [hidx, hidxx, hjump]
      rw [if_pos ⟨hlt, trivial⟩, htarget]
      simp only [bind, Except.bind, hidxt]
      rfl
    rw [hspan] at h
    rcases List.append_eq_append_iff.mp hrest with ⟨r', rfl, hq⟩ | ⟨p₂'', rfl, ht⟩
    · cases r' with
      | nil =>
        obtain ⟨rfl, -⟩ := List.cons_eq_cons.mp (hq : x :: q = t :: u)
        rw [hx] at hlogical
        cases hlogical
      | cons y r' =>
        obtain ⟨rfl, rfl⟩ := List.cons_eq_cons.mp (hq : x :: q = y :: (r' ++ t :: u))
        -- from in front of the removed instruction to behind it
        rw [if_pos (by simp)] at h
        have hle : x.size ≤ width Insn.size (p₂ ++ x :: r') + 2 := by
          simp
          omega
        have hi' := patchJumpInsn_shorter hops hle h
        refine ⟨.inr ⟨hjump, _, hi'⟩, fun g hg _ => ?_⟩
        have hwidth := width_map_relocated hg
        refine ⟨p₂.map g ++ r', t, u, by simp, by rw [hi']; exact hto, hlogical, htops, ?_⟩
        rw [hi', Insn.setOperand0]
        simp [hops, hwidth]
        omega
    · cases p₂'' with
      | nil =>
        obtain ⟨rfl, -⟩ := List.cons_eq_cons.mp (ht : t :: u = x :: q)
        rw [hx] at hlogical
        cases hlogical
      | cons y p₂'' =>
        obtain ⟨rfl, rfl⟩ := List.cons_eq_cons.mp (ht : t :: u = y :: (p₂'' ++ x :: q))
        rw [if_neg (by simp), if_neg (by simp)] at h
        obtain rfl := Except.ok.inj h
        refine ⟨.inl rfl, fun g hg _ => ?_⟩
        have ht' : g t = t := (hg t (by simp)).eq_of_logical hlogical
        have hwidth := width_map_relocated fun j hj => hg j (List.mem_append_left (t :: p₂'') hj)
        exact ⟨r.map g, t, p₂''.map g ++ q, by simp [ht'], hto, hlogical, htops, hops ▸ hwidth ▸ rfl⟩

/-- The jumps in front of the removed instruction, patched, land where they did. -/
theorem closed_removed {seq : Iseq ν} {q post : List Insn} {x : Insn} {g : Insn → Insn}
    (hx : x.isLogical = false) (p₁ p : List Insn) (hsplit : seq.insns = p₁ ++ (p ++ x :: (q ++ post)))
    (hclosed : Closed (p ++ x :: q))
    (hg : ∀ i ∈ p, seq.patchAround x.addr (-(x.numOperands + 1)) .assertFailed false i = .ok (g i)) :
    (∀ i ∈ p, i.Relocated (g i)) ∧ Closed (p.map g ++ q) := by
  induction p generalizing p₁ with
  | nil => exact ⟨by simp, hclosed.2⟩
  | cons i p ih =>
    have hsplit' : seq.insns = (p₁ ++ [i]) ++ (p ++ x :: (q ++ post)) := by simp [hsplit]
    obtain ⟨hrel, hrest⟩ := ih (p₁ ++ [i]) hsplit' hclosed.2
      fun j hj => hg j (List.mem_cons_of_mem _ hj)
    obtain ⟨hi, hlands⟩ := patchAround_front hsplit hclosed.1 hx (hg i List.mem_cons_self)
    refine ⟨?_, hlands g hrel, hrest⟩
    intro j hj
    rcases List.mem_cons.mp hj with rfl | hj
    · exact hi
    · exact hrel j hj

/-- Removing an instruction from the code of an expression. -/
theorem removed {seq seq' : Iseq ν} {p q post : List Insn} {x : Insn}
    (hsplit : seq.insns = (p ++ x :: q) ++ post) (hclosed : Closed (p ++ x :: q))
    (hx : x.isLogical = false) (hloop : ∀ i ∈ q ++ post, i.isLoop = false)
    (h : seq.rmInsnAndPatchJumps x.addr = .ok seq') :
    ∃ g : Insn → Insn, seq'.insns = (p.map g ++ q) ++ post ∧ seq'.constants = seq.constants ∧
      (∀ i ∈ p, i.Relocated (g i)) ∧ Closed (p.map g ++ q) := by
  have hsplit' : seq.insns = p ++ x :: (q ++ post) := by simp [hsplit]
  obtain ⟨g, hinsns, hg⟩ := rmInsn_split hsplit' h
  have hbehind : (q ++ post).map g = q ++ post := by
    refine (List.map_congr_left fun i hi => ?_).trans (List.map_id _)
    exact patchAround_behind hsplit' hi (hloop i hi) (hg i (List.mem_append_right p hi))
  obtain ⟨hrel, hclosed'⟩ := closed_removed hx [] p hsplit' hclosed
    fun i hi => hg i (List.mem_append_left _ hi)
  exact ⟨g, by rw [hinsns, hbehind, List.append_assoc], constants_rmInsn h, hrel, hclosed'⟩

end Iseq

/-! ## Instructions the optimizer looks for -/

namespace Insn

/-- An instruction no pass of the optimizer starts from. -/
def isInert (i : Insn) : Bool := !i.isBinOp && !i.isPopType && !i.isJump && !i.isLoop

section

variable {constants : List (Value ν)} {i : Insn}

theorem Fits.isLoop_eq_false (h : i.Fits constants) : i.isLoop = false := by
  obtain ⟨op, hcode, hexpr, -⟩ := h
  cases op <;> simp_all [Insn.isLoop, Insn.is, OpCode.isExpr]

theorem Fits.isPopType_eq_false (h : i.Fits constants) : i.isPopType = false := by
  obtain ⟨op, hcode, hexpr, -⟩ := h
  cases op <;> simp_all [Insn.isPopType, Insn.is, OpCode.isExpr]

theorem Fits.isJumpIfFalse_eq_false (h : i.Fits constants) : i.isJumpIfFalse = false := by
  obtain ⟨op, hcode, hexpr, -⟩ := h
  cases op <;> simp_all [Insn.isJumpIfFalse, Insn.is, OpCode.isExpr]

end

theorem is_eq_true {i : Insn} {op : OpCode} : i.is op = true ↔ i.code = op.toNat := by
  simp [Insn.is]

theorem isBinOp_isLogical {i : Insn} (h : i.isBinOp = true) : i.isLogical = false := by
  simp only [isBinOp, Bool.or_eq_true, is_eq_true] at h
  rcases h with ((((((((h | h) | h) | h) | h) | h) | h) | h) | h) | h <;>
    simp [isLogical, Insn.is, h]

theorem is_isLogical {i : Insn} {op : OpCode} (h : i.is op = true) (hop : op ≠ .opAnd ∧ op ≠ .opOr) :
    i.isLogical = false := by
  rw [is_eq_true] at h
  simp [isLogical, Insn.is, h, hop]

end Insn

/-! ## The two edits -/

namespace Insn

variable {constants : List (Value ν)} {i j : Insn}

theorem Relocated.trans {k : Insn} (h : i.Relocated j) (h' : j.Relocated k) : i.Relocated k := by
  obtain rfl | ⟨hjump, n, rfl⟩ := h
  · exact h'
  · obtain rfl | ⟨-, m, rfl⟩ := h'
    · exact .inr ⟨hjump, n, rfl⟩
    · exact .inr ⟨hjump, m, by simp [setOperand0]⟩

/-- A number constant is changed to another number. -/
theorem Fits.set_number {k : ℕ} {n m : ν} (h : i.Fits constants)
    (hk : constants[k]? = some (.number n)) : i.Fits (constants.set k (.number m)) := by
  obtain ⟨op, hcode, hexpr, hops⟩ := h
  refine ⟨op, hcode, hexpr, ?_⟩
  have hget : ∀ {idx : ℕ} {v : Value ν}, constants[idx]? = some v → v.isNumber = false →
      (constants.set k (.number m))[idx]? = some v := by
    intro idx v hv hn
    have hne : k ≠ idx := by
      rintro rfl
      rw [hk] at hv
      cases hv
      cases hn
    rw [List.getElem?_set_ne hne]
    exact hv
  cases op with
  | opConstant =>
    obtain ⟨idx, x, hops, hx⟩ := hops
    by_cases hidx : k = idx
    · subst hidx
      have hlt := (List.getElem?_eq_some_iff.mp hx).1
      exact ⟨k, m, hops, List.getElem?_set_self hlt⟩
    · exact ⟨idx, x, hops, (List.getElem?_set_ne hidx).trans hx⟩
  | opString =>
    obtain ⟨idx, b, str, hops, hstr⟩ := hops
    exact ⟨idx, b, str, hops, hget hstr rfl⟩
  | opDuparray =>
    obtain ⟨idx, els, hops, hels⟩ := hops
    exact ⟨idx, els, hops, hget hels rfl⟩
  | opDupmap =>
    obtain ⟨idx, entries, hops, hentries⟩ := hops
    exact ⟨idx, entries, hops, hget hentries rfl⟩
  | opGetGlobal =>
    obtain ⟨idx, name, hops, hname⟩ := hops
    exact ⟨idx, name, hops, hget hname rfl⟩
  | _ => exact hops

end Insn

theorem numberSlots_map_relocated {l : List Insn} {g : Insn → Insn}
    (hg : ∀ i ∈ l, i.Relocated (g i)) : numberSlots (l.map g) = numberSlots l := by
  induction l with
  | nil => rfl
  | cons i l ih =>
    have ih' := ih fun j hj => hg j (List.mem_cons_of_mem _ hj)
    have hi : numberSlots [g i] = numberSlots [i] := by
      obtain heq | ⟨hjump, n, heq⟩ := hg i List.mem_cons_self
      · rw [heq]
      · have hno : i.is .opConstant = false := by
          by_contra hc
          rw [Bool.not_eq_false, Insn.is_eq_true] at hc
          simp [Insn.isJump, Insn.is, hc] at hjump
        have hno' : (g i).is .opConstant = false := by rw [heq]; exact hno
        simp [numberSlots, hno, hno']
    rw [List.map_cons, ← List.singleton_append, numberSlots_append, hi, ih', ← numberSlots_append,
      List.singleton_append]

/-- The folder computes what the operator computes, or leaves the operator to throw. -/
theorem Iseq.foldConstant_eq_ok [LoxNum ν] {seq : Iseq ν} {cur bin ain : Insn} {v : Value ν}
    (hcur : cur.isBinOp = true) (h : seq.foldConstant cur bin ain = .ok v) :
    ∃ (op : OpCode) (x y : ν), cur.code = op.toNat ∧ World.isArith op = true ∧
      seq.constants[ain.operand0]? = some (.number x) ∧
      seq.constants[bin.operand0]? = some (.number y) ∧
      (v.isUndef = true ∨ ∃ n, v = .number n ∧ World.arith op x y = some n) := by
  have hnumber : ∀ {i : Insn} {n : ν}, seq.numConstant i = .ok n →
      seq.constants[i.operand0]? = some (.number n) := by
    intro i n hn
    unfold numConstant at hn
    split at hn
    · rename_i m hm
      rw [hm, Except.ok.inj hn]
    · cases hn
  obtain ⟨y, hy, h⟩ := Except.bind_eq_ok.mp h
  obtain ⟨x, hx, h⟩ := Except.bind_eq_ok.mp h
  simp only [Insn.isBinOp, Bool.or_eq_true, Insn.is_eq_true] at hcur
  rcases hcur with ((((((((hc | hc) | hc) | hc) | hc) | hc) | hc) | hc) | hc) | hc <;>
    refine ⟨_, x, y, hc, rfl, hnumber hx, hnumber hy, ?_⟩ <;>
    simp only [Insn.is, hc, beq_iff_eq, OpCode.toNat_inj, reduceCtorEq, if_false, if_true,
      Except.pure_eq_ok] at h
  case inl.inl.inl.inl.inl.inl.inr =>
    -- division
    split at h
    · exact .inl (Except.pure_eq_ok.mp h ▸ rfl)
    · rename_i hzero
      exact .inr ⟨_, (Except.pure_eq_ok.mp h).symm, by simp [World.arith, hzero]⟩
  case inl.inl.inl.inl.inl.inr =>
    -- modulo
    split at h
    · exact .inl (Except.pure_eq_ok.mp h ▸ rfl)
    · rename_i hzero
      split at h
      · cases h
      · rename_i n hn
        exact .inr ⟨n, (Except.pure_eq_ok.mp h).symm, by simp [World.arith, hzero, hn]⟩
  all_goals exact .inr ⟨_, h.symm, rfl⟩

theorem Iseq.copyIseqToChunk_eq_ok [LoxNum ν] {opts : CompilerOpts} {seq seq' : Iseq ν}
    {code : List ℕ} (h : seq.copyIseqToChunk opts = .ok (seq', code)) :
    (seq' = seq ∨ ∃ st, seq.optimizeIseq opts = .ok st ∧ seq' = st.seq) ∧
      code = (seq'.insns.map Insn.words).flatten := by
  have hcopy : ∀ {seq₁ : Iseq ν}, (if seq₁.insns.length = seq₁.count then
      (.ok (seq₁, (seq₁.insns.map Insn.words).flatten) : Except Abort (Iseq ν × List ℕ))
      else throw Abort.assertFailed) = .ok (seq', code) →
      seq' = seq₁ ∧ code = (seq'.insns.map Insn.words).flatten := by
    intro seq₁ h
    split at h
    · cases h
      exact ⟨rfl, rfl⟩
    · cases h
  unfold copyIseqToChunk at h
  dsimp only at h
  split at h
  · obtain ⟨rfl, hcode⟩ := hcopy h
    exact ⟨.inl rfl, hcode⟩
  · obtain ⟨seq₁, hseq₁, h⟩ := Except.bind_eq_ok.mp h
    obtain ⟨st, hopt, rfl⟩ := Except.map_eq_ok.mp hseq₁
    obtain ⟨rfl, hcode⟩ := hcopy h
    exact ⟨.inr ⟨st, hopt, rfl⟩, hcode⟩

theorem OptState.isBinOp_of_foldOperands {seq : Iseq ν} {cur : Insn} {operands : Insn × Insn}
    (h : foldOperands seq cur = some operands) : cur.isBinOp = true := by
  unfold foldOperands at h
  split at h
  · assumption
  · cases h

/-- The constants that are folded are in front of the operator. -/
theorem OptState.foldOperands_split {seq : Iseq ν} {cur prev prevp : Insn} {p₁ q : List Insn}
    (hsplit : seq.insns = p₁ ++ cur :: q) (h : foldOperands seq cur = some (prev, prevp)) :
    ∃ p, p₁ = p ++ [prevp, prev] ∧ prev.isNumConstOp = true ∧ prevp.isNumConstOp = true := by
  unfold foldOperands at h
  rw [if_pos (isBinOp_of_foldOperands h)] at h
  split at h
  · cases h
  rename_i prev' hprev
  rw [Iseq.prev_of_split hsplit] at hprev
  obtain ⟨p₂, rfl⟩ := List.getLast?_eq_some_iff.mp hprev
  have hsplit' : seq.insns = p₂ ++ prev' :: cur :: q := by rw [hsplit]; simp
  split at h
  · cases h
  rename_i prevp' hprevp
  rw [Iseq.prev_of_split hsplit'] at hprevp
  obtain ⟨p, rfl⟩ := List.getLast?_eq_some_iff.mp hprevp
  split at h
  · rename_i hconst
    cases h
    rw [Bool.and_eq_true] at hconst
    exact ⟨p, by simp, hconst.1, hconst.2⟩
  · cases h

/-- The sequence is the code `l` of an expression, and instructions `post` behind it. -/
structure CodeOf [LoxNum ν] (w : World ν) (seq : Iseq ν) (l post : List Insn)
    (f : List (Value ν) → Option (List (Value ν))) : Prop where
  insns : seq.insns = l ++ post
  closed : Closed l
  fits : ∀ i ∈ l, i.Fits seq.constants
  nodup : (numberSlots l).Nodup
  runs : ∀ st, (w.run seq.constants none l st).map (·.2) = f st

theorem operand_of_const {constants : List (Value ν)} {i : Insn} (h : i.is .opConstant = true)
    (hfits : i.Fits constants) : ∃ k, i.operands = [k] := by
  obtain ⟨op, hop, -, hops⟩ := hfits
  rw [Insn.is_eq_true.mp h] at hop
  obtain rfl := OpCode.toNat_injective hop
  obtain ⟨k, n, hk, -⟩ := hops
  exact ⟨k, hk⟩

namespace CodeOf

variable [LoxNum ν] {w : World ν} {seq seq' : Iseq ν} {p q l post : List Insn}
  {f : List (Value ν) → Option (List (Value ν))}

theorem addr_nodup (h : CodeOf w seq l post f) : (l.map (·.addr)).Nodup := by
  have hnd := seq.nodup
  rw [h.insns, List.map_append] at hnd
  exact (List.nodup_append.mp hnd).1

theorem isLoop_eq_false (h : CodeOf w seq l post f) (hpost : ∀ i ∈ post, i.isInert = true)
    {i : Insn} (hi : i ∈ l ++ post) : i.isLoop = false := by
  rcases List.mem_append.mp hi with hi | hi
  · exact (h.fits i hi).isLoop_eq_false
  · have := hpost i hi
    simp only [Insn.isInert, Bool.and_eq_true, Bool.not_eq_true'] at this
    exact this.2

/-- An edit that leaves `p`, patched, a part `m'` instead of `m`, and `q`. -/
theorem replace {m m' : List Insn} {g : Insn → Insn} (h : CodeOf w seq (p ++ m ++ q) post f)
    (hinsns : seq'.insns = (p.map g ++ m' ++ q) ++ post) (hg : ∀ i ∈ p, i.Relocated (g i))
    (hclosed : Closed (p.map g ++ m' ++ q))
    (hfits : ∀ i ∈ p ++ m' ++ q, i.Fits seq'.constants)
    (hslots : (numberSlots m').Sublist (numberSlots m))
    (hm : ∀ i ∈ m, i.isLogical = false) (hsub : ∀ i ∈ m', i.addr ∈ m.map (·.addr))
    (hp : ∀ target st, w.run seq'.constants target p st = w.run seq.constants target p st)
    (hsame : ∀ st, w.run seq'.constants none m' st = w.run seq.constants none m st)
    (hq : ∀ target st, w.run seq'.constants target q st = w.run seq.constants target q st) :
    CodeOf w seq' (p.map g ++ m' ++ q) post f where
  insns := hinsns
  closed := hclosed
  fits := by
    intro i hi
    rw [List.append_assoc] at hi
    rcases List.mem_append.mp hi with hi | hi
    · obtain ⟨j, hj, rfl⟩ := List.mem_map.mp hi
      exact (hg j hj).fits (hfits j (by simp [hj]))
    · exact hfits i (by rw [List.append_assoc]; exact List.mem_append_right _ hi)
  nodup := by
    refine List.Nodup.sublist ?_ h.nodup
    simp only [numberSlots_append, numberSlots_map_relocated hg]
    exact ((List.Sublist.refl _).append hslots).append (List.Sublist.refl _)
  runs := by
    intro st
    have hpg : ∀ target st, w.run seq'.constants target (p.map g) st =
        w.run seq.constants target p st := by
      intro target st
      rw [run_map_relocated hg fun i hi => hfits i (by simp [hi])]
      exact hp target st
    rw [run_replace h.closed h.addr_nodup h.fits hm hsub hpg hsame hq]
    exact h.runs st

/-- The jump of `or` behind `nil` or `false` is dropped. -/
theorem dropJump {prev cur : Insn} (h : CodeOf w seq (p ++ prev :: cur :: q) post f)
    (hpost : ∀ i ∈ post, i.isInert = true) (hprev : prev.isConst = true)
    (hfalse : prev.constBool = false) (hcur : cur.isJumpIfTrue = true)
    (hrm : seq.rmInsnAndPatchJumps cur.addr = .ok seq') : ∃ l', CodeOf w seq' l' post f := by
  have hsplit : seq.insns = ((p ++ [prev]) ++ cur :: q) ++ post := by rw [h.insns]; simp
  have hclosed : Closed ((p ++ [prev]) ++ cur :: q) := by simpa using h.closed
  have hlogical : cur.isLogical = false := Insn.is_isLogical hcur (by decide)
  obtain ⟨g, hinsns, hconsts, hg, hclosed'⟩ := Iseq.removed hsplit hclosed hlogical
    (fun i hi => h.isLoop_eq_false hpost (by simp at hi ⊢; tauto)) hrm
  -- `prev` is `nil` or `false`
  obtain ⟨hcode, hprevops⟩ : (prev.code = OpCode.opFalse.toNat ∨ prev.code = OpCode.opNil.toNat) ∧
      prev.operands = [] := by
    have hcode : prev.code = OpCode.opFalse.toNat ∨ prev.code = OpCode.opNil.toNat := by
      simp only [Insn.isConst, Insn.constBool, Bool.or_eq_true, Bool.or_eq_false_iff,
        Insn.is_eq_true] at hprev hfalse
      simp only [Insn.is, beq_eq_false_iff_ne] at hfalse
      tauto
    refine ⟨hcode, ?_⟩
    obtain ⟨op, hop, -, hops⟩ := h.fits prev (by simp)
    rcases hcode with hcode | hcode <;> rw [hcode] at hop <;>
      · obtain rfl := OpCode.toNat_injective hop
        exact hops
  have hnojump : prev.isJump = false := by
    rcases hcode with hcode | hcode <;> simp [Insn.isJump, Insn.is, hcode]
  have hprevlogical : prev.isLogical = false := by
    rcases hcode with hcode | hcode <;> simp [Insn.isLogical, Insn.is, hcode]
  have hgprev : g prev = prev := (hg prev (by simp)).eq_of_notJump hnojump
  rw [List.map_append, List.map_singleton, hgprev] at hinsns hclosed'
  have h' : CodeOf w seq (p ++ [prev, cur] ++ q) post f := by simpa using h
  have hcurcode : cur.code = OpCode.opJumpIfTruePeek.toNat := Insn.is_eq_true.mp hcur
  obtain ⟨n, hn⟩ : ∃ n, cur.operands = [n] := by
    obtain ⟨op, hop, -, hops⟩ := h.fits cur (by simp)
    rw [hcurcode] at hop
    obtain rfl := OpCode.toNat_injective hop
    exact hops
  refine ⟨_, h'.replace hinsns (fun i hi => hg i (by simp [hi])) hclosed' ?_ ?_ ?_ ?_ ?_ ?_ ?_⟩
  · intro i hi
    rw [hconsts]
    exact h'.fits i (by simp at hi ⊢; tauto)
  · exact List.Sublist.map _ ((List.sublist_append_left [prev] [cur]).filter _)
  · intro i hi
    rcases List.mem_cons.mp hi with rfl | hi
    · exact hprevlogical
    · rw [List.mem_singleton.mp hi]
      exact hlogical
  · simp
  · exact fun _ _ => hconsts ▸ rfl
  · intro st
    rw [hconsts]
    -- the jump is not taken
    rcases hcode with hcode | hcode
    · simp [World.run, hcode, hcurcode, hprevops, hn, World.execOp, World.jumpPeek, OpCode.taken,
        World.decides, Value.isTruthy]
    · simp [World.run, hcode, hcurcode, hprevops, hn, World.execOp, World.jumpPeek, OpCode.taken,
        World.decides, Value.isTruthy]
  · exact fun _ _ => hconsts ▸ rfl

/-- An operator on two constants is folded into the first. -/
theorem fold {prevp prev cur : Insn} {st st' : OptState ν}
    {next : Option Addr} (h : CodeOf w st.seq (p ++ prevp :: prev :: cur :: q) post f)
    (hpost : ∀ i ∈ post, i.isInert = true) (hcur : cur.isBinOp = true)
    (hprev : prev.isNumConstOp = true) (hprevp : prevp.isNumConstOp = true)
    (hfold : st.foldConstants cur prev prevp = .ok (st', next)) :
    ∃ l', CodeOf w st'.seq l' post f := by
  obtain ⟨v, hv, hfold⟩ := Except.bind_eq_ok.mp hfold
  obtain ⟨op, x, y, hcode, harith, hx, hy, hvalue⟩ := Iseq.foldConstant_eq_ok hcur hv
  split at hfold
  · cases hfold
    exact ⟨_, h⟩
  rename_i hundef
  obtain ⟨n, rfl, hn⟩ := hvalue.resolve_left hundef
  obtain ⟨seq₁, hchange, hfold⟩ := Except.bind_eq_ok.mp hfold
  obtain ⟨st₂, hrm, hfold⟩ := Except.bind_eq_ok.mp hfold
  obtain ⟨st₃, hrm', hfold⟩ := Except.bind_eq_ok.mp hfold
  cases hfold
  obtain ⟨seq₂, hseq₂, hst₂⟩ := Except.bind_eq_ok.mp hrm
  cases hst₂
  obtain ⟨seq₃, hseq₃, hst₃⟩ := Except.bind_eq_ok.mp hrm'
  cases hst₃
  obtain ⟨hinsns₁, hconsts₁⟩ : seq₁.insns = st.seq.insns ∧
      seq₁.constants = st.seq.constants.set prevp.operand0 (.number n) := by
    unfold Iseq.changeConstant at hchange
    split at hchange
    · cases hchange
      exact ⟨rfl, rfl⟩
    · cases hchange
  have hconst : prev.is .opConstant = true ∧ prevp.is .opConstant = true := by
    simp only [Insn.isNumConstOp, Bool.and_eq_true] at hprev hprevp
    exact ⟨hprev.1, hprevp.1⟩
  have hnojump : ∀ {i : Insn}, i.is .opConstant = true → i.isJump = false := by
    intro i hi
    rw [Insn.is_eq_true] at hi
    simp [Insn.isJump, Insn.is, hi]
  -- the operator goes
  have hsplit : seq₁.insns = ((p ++ [prevp, prev]) ++ cur :: q) ++ post := by
    rw [hinsns₁, h.insns]
    simp
  have hclosed : Closed ((p ++ [prevp, prev]) ++ cur :: q) := by simpa using h.closed
  have hcurlogical := Insn.isBinOp_isLogical hcur
  obtain ⟨g₁, hinsns₂, hconsts₂, hg₁, hclosed₂⟩ := Iseq.removed hsplit hclosed hcurlogical
    (fun i hi => h.isLoop_eq_false hpost (by simp at hi ⊢; tauto)) hseq₂
  rw [List.map_append, List.map_cons, List.map_singleton,
    (hg₁ prevp (by simp)).eq_of_notJump (hnojump hconst.2),
    (hg₁ prev (by simp)).eq_of_notJump (hnojump hconst.1)] at hinsns₂ hclosed₂
  -- and its second operand
  have hsplit₂ : seq₂.insns = ((p.map g₁ ++ [prevp]) ++ prev :: q) ++ post := by
    rw [hinsns₂]
    simp
  have hclosed₂' : Closed ((p.map g₁ ++ [prevp]) ++ prev :: q) := by simpa using hclosed₂
  have hprevlogical := Insn.is_isLogical hconst.1 (by decide)
  obtain ⟨g₂, hinsns₃, hconsts₃, hg₂, hclosed₃⟩ := Iseq.removed hsplit₂ hclosed₂' hprevlogical
    (fun i hi => h.isLoop_eq_false hpost (by simp at hi ⊢; tauto)) hseq₃
  rw [List.map_append, List.map_singleton, List.map_map,
    (hg₂ prevp (by simp)).eq_of_notJump (hnojump hconst.2)] at hinsns₃ hclosed₃
  have hconsts : seq₃.constants = st.seq.constants.set prevp.operand0 (.number n) :=
    hconsts₃.trans (hconsts₂.trans hconsts₁)
  have h' : CodeOf w st.seq (p ++ [prevp, prev, cur] ++ q) post f := by simpa using h
  have hslots := h'.nodup
  rw [numberSlots_append, numberSlots_append, List.nodup_append', List.nodup_append'] at hslots
  have hslot : prevp.operand0 ∈ numberSlots [prevp, prev, cur] := by
    simp [numberSlots, hconst.2]
  have hset : ∀ {l' : List Insn}, (∀ i ∈ l', i.Fits st.seq.constants) →
      prevp.operand0 ∉ numberSlots l' → ∀ target st₀, w.run seq₃.constants target l' st₀ =
        w.run st.seq.constants target l' st₀ := by
    intro l' hfits hnot target st₀
    rw [hconsts]
    exact run_set_constant hx hnot hfits _ target st₀
  refine ⟨_, h'.replace hinsns₃ ?_ hclosed₃ ?_ ?_ ?_ ?_ ?_ ?_ ?_⟩
  · intro i hi
    exact (hg₁ i (by simp [hi])).trans (hg₂ (g₁ i) (by simp; exact .inl ⟨i, hi, rfl⟩))
  · intro i hi
    rw [hconsts]
    exact (h'.fits i (by simp at hi ⊢; tauto)).set_number hx
  · exact List.Sublist.map _ ((List.sublist_append_left [prevp] [prev, cur]).filter _)
  · intro i hi
    simp only [List.mem_cons, List.not_mem_nil, or_false] at hi
    obtain rfl | rfl | rfl := hi
    · exact Insn.is_isLogical hconst.2 (by decide)
    · exact hprevlogical
    · exact hcurlogical
  · simp
  · exact hset (fun i hi => h'.fits i (by simp [hi]))
      fun hmem => hslots.1.2.2 hmem hslot
  · intro st₀
    rw [hconsts]
    -- the constant is what the operator pushes
    obtain ⟨kp, hkp⟩ := operand_of_const hconst.2 (h'.fits prevp (by simp))
    obtain ⟨k, hk⟩ := operand_of_const hconst.1 (h'.fits prev (by simp))
    simp only [Insn.operand0, hkp, hk, List.headD_cons] at hx hy ⊢
    have hset : (st.seq.constants.set kp (.number n))[kp]? = some (.number n) :=
      List.getElem?_set_self (List.getElem?_eq_some_iff.mp hx).1
    have hbinary : w.binary op (.number x) (.number y) = some (.number n) := by
      simp [World.binary, harith, hn]
    have hop : ∀ code st₁, w.execOp st.seq.constants op code st₁ =
        World.withOperands st₁ (w.binary op) := by
      intro code st₁
      cases op <;> first | rfl | cases harith
    have htaken : ∀ st₁ : List (Value ν), op.taken st₁ = false := by
      intro st₁
      cases op <;> first | rfl | cases harith
    have hread : ∀ (constants : List (Value ν)) k st₁, w.execOp constants .opConstant [k] st₁ =
        constants[k]?.map fun v => (1, v :: st₁) := fun _ _ _ => rfl
    have hstays : ∀ st₁ : List (Value ν), OpCode.opConstant.taken st₁ = false := fun _ => rfl
    simp only [World.run, Insn.is_eq_true.mp hconst.1, Insn.is_eq_true.mp hconst.2, hcode, hkp, hk,
      OpCode.ofNat?_toNat, Option.bind_some, hop, htaken, hread, hset, hx, hy, Option.map_some,
      World.withOperands, hbinary, hstays, Bool.false_eq_true, if_false]
  · exact hset (fun i hi => h'.fits i (by simp [hi]))
      fun hmem => hslots.2.2 (List.mem_append_right _ hslot) hmem

theorem replaceConstJump {st st' : OptState ν} {cur : Insn} {deleted : Bool}
    (h : CodeOf w st.seq l post f) (hpost : ∀ i ∈ post, i.isInert = true) (hl : cur ∈ l)
    (hconst : (st.seq.prev cur.addr).any (·.isConst) = true)
    (hrep : st.replaceConstJump (st.seq.prev cur.addr) cur = .ok (st', deleted)) :
    ∃ l', CodeOf w st'.seq l' post f := by
  unfold OptState.replaceConstJump at hrep
  rw [(h.fits cur hl).isJumpIfFalse_eq_false, Bool.false_and, if_neg (by decide)] at hrep
  split at hrep
  case isFalse =>
    cases hrep
    exact ⟨l, h⟩
  rename_i hcond
  rw [Bool.and_eq_true] at hcond
  have hpeek : (cur.is .opJump || cur.is .opJumpIfFalsePeek || cur.is .opJumpIfTruePeek) = true := by
    have := hcond.1
    simp only [Insn.isJumpIfTrue] at this
    simp [this]
  unfold OptState.replaceJumpInsn at hrep
  rw [if_pos hpeek] at hrep
  split at hrep
  case isFalse =>
    cases hrep
    exact ⟨l, h⟩
  obtain ⟨st₁, hrm, hrep⟩ := Except.bind_eq_ok.mp hrep
  cases hrep
  obtain ⟨seq₁, hseq₁, hst₁⟩ := Except.bind_eq_ok.mp hrm
  cases hst₁
  obtain ⟨p₁, q, rfl⟩ := List.append_of_mem hl
  have hsplit : st.seq.insns = p₁ ++ cur :: (q ++ post) := by rw [h.insns]; simp
  rw [Iseq.prev_of_split hsplit] at hconst hcond
  cases hlast : p₁.getLast? with
  | none => simp [hlast] at hconst
  | some prev =>
    obtain ⟨p, rfl⟩ := List.getLast?_eq_some_iff.mp hlast
    rw [hlast] at hconst hcond
    have h' : CodeOf w st.seq (p ++ prev :: cur :: q) post f := by simpa using h
    exact h'.dropJump hpost hconst (by simpa using hcond.2) hcond.1 hseq₁

theorem simplifyJumpOrConst {opts : CompilerOpts} {st st' : OptState ν} {cur : Insn}
    {next : Option Addr} (h : CodeOf w st.seq l post f) (hpost : ∀ i ∈ post, i.isInert = true)
    (hcur : cur ∈ st.seq.insns) (hnopop : cur.isPopType = false)
    (hs : st.simplifyJumpOrConst opts (st.seq.prev cur.addr) cur = .ok (st', next)) :
    ∃ l', CodeOf w st'.seq l' post f := by
  have hjump : cur.isJump = true → cur ∈ l := by
    intro hj
    rw [h.insns] at hcur
    refine (List.mem_append.mp hcur).resolve_right fun hp => ?_
    have := hpost cur hp
    simp [Insn.isInert, hj] at this
  unfold OptState.simplifyJumpOrConst at hs
  dsimp only at hs
  split at hs
  · -- a jump over nothing: there is its operator at least
    rename_i hnext
    rw [Bool.and_eq_true] at hnext
    obtain ⟨n, hn⟩ := h.closed.operand cur (hjump hnext.1) hnext.1
    simp [Insn.isJumpNextInsn, Insn.operand0, hn] at hnext
  · split at hs
    · rename_i hconst
      rw [Bool.and_eq_true] at hconst
      obtain ⟨⟨st₁, deleted⟩, hrep, hs⟩ := Except.bind_eq_ok.mp hs
      have hkept := h.replaceConstJump hpost (hjump hconst.1) hconst.2 hrep
      split at hs <;> · cases hs; exact hkept
    · have hpop : cur.isPop = false := by
        simp only [Insn.isPopType, Bool.or_eq_false_iff] at hnopop
        exact hnopop.1
      split at hs
      · rw [if_neg (by simp [hpop])] at hs
        cases hs
        exact ⟨l, h⟩
      · cases hs
        exact ⟨l, h⟩

/-- A pass of the loop keeps what the code of the expression gives. -/
theorem optimizeStep {opts : CompilerOpts} {st st' : OptState ν} {cur : Insn} {next : Option Addr}
    (h : CodeOf w st.seq l post f) (hpost : ∀ i ∈ post, i.isInert = true)
    (hcur : cur ∈ st.seq.insns) (hs : st.optimizeStep opts cur = .ok (st', next)) :
    ∃ l', CodeOf w st'.seq l' post f := by
  have hinert : cur ∉ l → cur.isInert = true := by
    intro hl
    rw [h.insns] at hcur
    exact hpost cur ((List.mem_append.mp hcur).resolve_left hl)
  have hnopop : cur.isPopType = false := by
    by_cases hl : cur ∈ l
    · exact (h.fits cur hl).isPopType_eq_false
    · have := hinert hl
      simp only [Insn.isInert, Bool.and_eq_true, Bool.not_eq_true'] at this
      exact this.1.1.2
  unfold OptState.optimizeStep at hs
  cases hfold : OptState.foldOperands st.seq cur with
  | some operands =>
    obtain ⟨prev, prevp⟩ := operands
    rw [hfold] at hs
    have hl : cur ∈ l := by
      by_contra hl
      have := hinert hl
      simp [Insn.isInert, OptState.isBinOp_of_foldOperands hfold] at this
    obtain ⟨p₁, q, rfl⟩ := List.append_of_mem hl
    have hsplit : st.seq.insns = p₁ ++ cur :: (q ++ post) := by rw [h.insns]; simp
    obtain ⟨p, rfl, hprev, hprevp⟩ := OptState.foldOperands_split hsplit hfold
    have h' : CodeOf w st.seq (p ++ prevp :: prev :: cur :: q) post f := by simpa using h
    exact h'.fold hpost (OptState.isBinOp_of_foldOperands hfold) hprev hprevp hs
  | none =>
    rw [hfold] at hs
    obtain ⟨⟨st₁, cur₁⟩, hpops, hs⟩ := Except.bind_eq_ok.mp hs
    have hsame : st₁ = st ∧ cur₁ = cur := by
      unfold OptState.consolidatePops at hpops
      split at hpops
      · cases hpops
        exact ⟨rfl, rfl⟩
      · rw [if_neg (by simp [hnopop])] at hpops
        cases hpops
        exact ⟨rfl, rfl⟩
    obtain ⟨rfl, rfl⟩ := hsame
    exact h.simplifyJumpOrConst hpost hcur hnopop hs

/-- Any number of passes. -/
theorem optimizeLoop {opts : CompilerOpts} (fuel : ℕ) {st st' : OptState ν}
    {cur cur' : Option Addr} (h : CodeOf w st.seq l post f)
    (hpost : ∀ i ∈ post, i.isInert = true)
    (hs : st.optimizeLoop opts fuel cur = .ok (st', cur')) : ∃ l', CodeOf w st'.seq l' post f := by
  induction fuel generalizing st cur l with
  | zero =>
    cases hs
    exact ⟨l, h⟩
  | succ fuel ih =>
    cases cur with
    | none =>
      cases hs
      exact ⟨l, h⟩
    | some a =>
      unfold OptState.optimizeLoop at hs
      cases ha : st.seq.insn? a with
      | none => simp [ha] at hs
      | some cur =>
        rw [ha] at hs
        obtain ⟨⟨st₁, next⟩, hstep, hs⟩ := Except.bind_eq_ok.mp hs
        obtain ⟨l₁, h₁⟩ := h.optimizeStep hpost (Iseq.mem_of_insn? ha).1 hstep
        exact ih h₁ hs

/-- What the words do. -/
theorem exec_eq (h : CodeOf w seq l post f) (st : List (Value ν)) :
    w.exec seq.constants 0 (wordsOf seq.insns) st =
      (f st).bind fun st' => w.exec seq.constants 0 (wordsOf post) st' := by
  rw [h.insns, wordsOf_append, exec_eq_run h.addr_nodup h.closed h.fits, ← h.runs st]
  cases w.run seq.constants none l st with
  | none => rfl
  | some r => rfl

/-- What the chunk does, optimized or not. -/
theorem copyIseqToChunk {opts : CompilerOpts} {code : List ℕ} (h : CodeOf w seq l post f)
    (hpost : ∀ i ∈ post, i.isInert = true)
    (hcopy : seq.copyIseqToChunk opts = .ok (seq', code)) (st : List (Value ν)) :
    w.exec seq'.constants 0 code st =
      (f st).bind fun st' => w.exec seq'.constants 0 (wordsOf post) st' := by
  obtain ⟨hopt, rfl⟩ := Iseq.copyIseqToChunk_eq_ok hcopy
  have h₁ : ∃ l₁, CodeOf w seq' l₁ post f := by
    rcases hopt with rfl | ⟨st₁, hopt, rfl⟩
    · exact ⟨l, h⟩
    · obtain ⟨⟨st₂, cur⟩, hloop, hst⟩ := Except.bind_eq_ok.mp hopt
      cases hst
      exact h.optimizeLoop _ hpost hloop
  obtain ⟨l₁, h₁⟩ := h₁
  exact h₁.exec_eq st

end CodeOf

/-! ## Expressions -/

section

variable [LoxNum ν] {w : World ν}

/-- The code that has been emitted is the code of an expression. -/
theorem Emitted.codeOf {s s' : CompState ν} {l post : List Insn}
    {f : List (Value ν) → Option (List (Value ν))} (h : Emitted w s s' l f) {seq : Iseq ν}
    (hempty : s.current.iseq.insns = [])
    (hinsns : seq.insns = s'.current.iseq.insns ++ post)
    (hconsts : s'.current.iseq.constants <+: seq.constants) : CodeOf w seq l post f := by
  have hsplit : seq.insns = l ++ post := by rw [hinsns, h.insns, hempty, List.nil_append]
  have hfits : ∀ i ∈ l, i.Fits seq.constants := fun i hi => (h.fits i hi).mono hconsts
  have hnd : (l.map (·.addr)).Nodup := by
    have := seq.nodup
    rw [hsplit, List.map_append] at this
    exact (List.nodup_append.mp this).1
  refine ⟨hsplit, h.closed, hfits, h.nodup, fun st => ?_⟩
  have hwords := h.runs seq.constants hconsts [] st
  rw [exec_eq_run hnd h.closed hfits] at hwords
  cases hrun : w.run seq.constants none l st with
  | none =>
    cases hf : f st with
    | none => rfl
    | some st' => simp [hrun, hf, World.exec] at hwords
  | some r =>
    cases hf : f st with
    | none => simp [hrun, hf, World.exec] at hwords
    | some st' => simpa [hrun, hf, World.exec] using hwords

end

/-- Indexing of maps whose keys are no objects. -/
def mapWorld : World ℤ where
  objEqual _ _ := false
  operator op a b :=
    match op, a with
    | .opIndexGet, .map entries =>
      (entries.find? fun e => Value.valEqual (fun _ _ => false) e.1 b).map (·.2)
    | _, _ => none
  locals _ := .nil
  globals _ := none

end Clox
