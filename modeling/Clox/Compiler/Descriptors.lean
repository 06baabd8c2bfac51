import Clox.Compiler.Defaults

/-! # The words behind `OP_CLOSURE`

The descriptors of the upvalues are emitted as instructions without operands, whose opcode is a flag
or a slot. The optimizer reads them as any other instruction. They are left alone exactly if no pass
of its loop removes one of them or gives it another opcode; which instructions a pass treats so is
decided by its tests on the sequence as it finds it (`rewritten`).
-/

namespace Clox

open Emit (bind_eq_ok finishFunction)
open CompState (Grows)

variable {ν : Type}

/-! ## The code of an instruction -/

namespace Iseq

/-- Opcode and number of operands of a linked instruction. -/
def codeAt? (seq : Iseq ν) (a : Addr) : Option (ℕ × ℕ) :=
  (seq.insn? a).map fun i => (i.code, i.numOperands)

theorem codeAt?_of_mem {seq : Iseq ν} {i : Insn} (hi : i ∈ seq.insns) :
    seq.codeAt? i.addr = some (i.code, i.numOperands) := by
  rw [codeAt?, seq.insn?_eq_some hi]
  rfl

theorem codeAt?_eq_some_iff {seq : Iseq ν} {a : Addr} {k n : ℕ} :
    seq.codeAt? a = some (k, n) ↔ (a, k, n) ∈ seq.insns.map Insn.outline := by
  rw [codeAt?, Option.map_eq_some_iff, List.mem_map]
  constructor
  · rintro ⟨i, hi, hcode⟩
    rcases mem_of_insn? hi with ⟨hmem, rfl⟩
    exact ⟨i, hmem, congrArg (i.addr, ·) hcode⟩
  · rintro ⟨i, hmem, hout⟩
    simp only [Insn.outline, Prod.mk.injEq] at hout
    rcases hout with ⟨rfl, rfl, rfl⟩
    exact ⟨i, seq.insn?_eq_some hmem, rfl⟩

theorem codeAt?_congr {seq seq' : Iseq ν}
    (h : seq'.insns.map Insn.outline = seq.insns.map Insn.outline) (a : Addr) :
    seq'.codeAt? a = seq.codeAt? a := by
  refine Option.ext fun p => ?_
  rcases p with ⟨k, n⟩
  rw [codeAt?_eq_some_iff, codeAt?_eq_some_iff, h]

theorem codeAt?_modify {seq : Iseq ν} {x : Addr} {f : Insn → Insn}
    (hf : ∀ i, (f i).addr = i.addr) (g : ℕ × ℕ → ℕ × ℕ) (hg : ∀ i, ((f i).code, (f i).numOperands) =
      g (i.code, i.numOperands)) (a : Addr) :
    (seq.modify x f hf).codeAt? a = if a = x then (seq.codeAt? a).map g else seq.codeAt? a := by
  unfold codeAt? modify
  rw [insn?_mapInsns, Option.map_map]
  cases ha : seq.insn? a with
  | none => simp
  | some i =>
    rcases mem_of_insn? ha with ⟨-, rfl⟩
    by_cases hx : i.addr = x
    · simp [hx, ← hg]
    · simp [hx]

theorem codeAt?_modify_outline {seq : Iseq ν} {x : Addr} {f : Insn → Insn}
    (hf : ∀ i, (f i).addr = i.addr) (hout : ∀ i, (f i).outline = i.outline) (a : Addr) :
    (seq.modify x f hf).codeAt? a = seq.codeAt? a := by
  rw [codeAt?_modify hf id fun i => congrArg Prod.snd (hout i), Option.map_id, id, ite_self]

/-- The walk over the jumps patches operands, which it does not count. -/
theorem outlines_of_walk {seq seq' : Iseq ν} {x : Addr} {offset : ℤ} {err : Abort} {clear : Bool}
    {hf} (h : seq.mapInsnsM (seq.patchAround x offset err clear) hf = .ok seq') :
    seq'.insns.map Insn.outline = seq.insns.map Insn.outline := by
  rcases mapInsnsM_eq_ok h with ⟨hok, hinsns, -⟩
  rw [hinsns, List.map_map]
  refine List.map_congr_left fun i hi => ?_
  rcases hok i hi with ⟨i', hi'⟩
  have haddr := hf i i' hi'
  rw [Function.comp_apply, hi']
  show i'.outline = i.outline
  by_cases hx : i.addr = x
  · unfold patchAround at hi'
    rw [if_pos hx] at hi'
    cases hi'
    rfl
  · rcases patchAround_eq_ok hi' hx with ⟨-, -, hcode, hsize, -, -⟩
    have hnum : i'.numOperands = i.numOperands := Nat.succ.inj hsize
    simp only [Insn.outline, haddr, hcode, hnum]

end Iseq

namespace OptState

theorem codeAt?_remove {st st' : OptState ν} {x : Addr} (h : st.remove x = .ok st') (a : Addr) :
    st'.seq.codeAt? a = if a = x then none else st.seq.codeAt? a := by
  rcases Except.bind_eq_ok.mp h with ⟨seq', hseq, hst⟩
  cases hst
  unfold Iseq.rmInsnAndPatchJumps at hseq
  cases hx : st.seq.insn? x with
  | none =>
    rw [hx] at hseq
    cases hseq
  | some i =>
    rcases Iseq.mem_of_insn? hx with ⟨-, rfl⟩
    rw [hx] at hseq
    rcases Except.bind_eq_ok.mp hseq with ⟨seq₁, hwalk, hrm⟩
    cases hrm
    have hkeep := Iseq.codeAt?_congr (Iseq.outlines_of_walk hwalk) a
    rw [← hkeep]
    show (List.find? _ (List.filter _ seq₁.insns)).map _ = _
    rw [List.find?_filter]
    split
    · rename_i ha
      rw [List.find?_eq_none.mpr, Option.map_none]
      intro j _
      simp [ha]
    · rename_i ha
      unfold Iseq.codeAt? Iseq.insn?
      congr 1
      congr 1
      funext j
      by_cases hj : j.addr = a <;> simp [hj, ha]

theorem codeAt?_addOperand {st st' : OptState ν} {x : Addr} {operand : ℕ}
    (h : st.addOperand x operand = .ok st') (a : Addr) :
    st'.seq.codeAt? a = if a = x then (st.seq.codeAt? a).map (fun p => (p.1, p.2 + 1))
      else st.seq.codeAt? a := by
  rcases Except.bind_eq_ok.mp h with ⟨seq', hseq, hst⟩
  cases hst
  unfold Iseq.addInsnOperand at hseq
  cases hx : st.seq.insn? x with
  | none =>
    rw [hx] at hseq
    cases hseq
  | some i =>
    simp only [hx] at hseq
    split at hseq
    · cases hseq
    · rw [Iseq.codeAt?_congr (Iseq.outlines_of_walk hseq) a]
      refine Iseq.codeAt?_modify (f := fun i => { i with operands := i.operands ++ [operand] })
        (fun _ => rfl) (fun p => (p.1, p.2 + 1)) (fun i => ?_) a
      simp [Insn.numOperands]

theorem codeAt?_jumpToPop (st : OptState ν) (x a : Addr) :
    (st.jumpToPop x).seq.codeAt? a =
      if a = x then (st.seq.codeAt? a).map fun _ => (OpCode.opPop.toNat, 0)
      else st.seq.codeAt? a :=
  Iseq.codeAt?_modify (f := fun i => { i with code := OpCode.opPop.toNat, operands := [] })
    (fun _ => rfl) (fun _ => (OpCode.opPop.toNat, 0)) (fun _ => rfl) a

end OptState

/-! ## What a pass rewrites -/

/-- What becomes of the code of an instruction that is rewritten. -/
inductive Became : Option (ℕ × ℕ) → Option (ℕ × ℕ) → Prop
  /-- It is removed. -/
  | removed (o : Option (ℕ × ℕ)) : Became o none
  /-- An `OP_POP` takes the number of pops as an operand. -/
  | popN (n : ℕ) : Became (some (OpCode.opPop.toNat, n)) (some (OpCode.opPopN.toNat, n + 1))
  /-- A jump only pops its condition. -/
  | pop (n : ℕ) : Became (some (OpCode.opJumpIfFalse.toNat, n)) (some (OpCode.opPop.toNat, 0))

/-- From `seq` to `seq'` the instructions `l` were rewritten, and no others. -/
def Rewritten (l : List Insn) (seq seq' : Iseq ν) : Prop :=
  ∀ a, if a ∈ l.map Insn.addr then Became (seq.codeAt? a) (seq'.codeAt? a)
    else seq'.codeAt? a = seq.codeAt? a

namespace Rewritten

variable {seq seq' : Iseq ν} {st st' : OptState ν}

theorem of_eq (h : ∀ a, seq'.codeAt? a = seq.codeAt? a) : Rewritten [] seq seq' := by
  intro a
  simpa using h a

theorem none (seq : Iseq ν) : Rewritten [] seq seq := of_eq fun _ => rfl

theorem congr {l : List Insn} {seq'' : Iseq ν} (h : Rewritten l seq seq')
    (hcode : ∀ a, seq''.codeAt? a = seq'.codeAt? a) : Rewritten l seq seq'' := by
  intro a
  rw [hcode]
  exact h a

theorem remove {i : Insn} (h : st.remove i.addr = .ok st') : Rewritten [i] st.seq st'.seq := by
  intro a
  rw [OptState.codeAt?_remove h]
  by_cases ha : a = i.addr
  · simp [ha, Became.removed]
  · simp [ha]

theorem remove_two {i j : Insn} {st₁ : OptState ν} (h : st.remove i.addr = .ok st₁)
    (h' : st₁.remove j.addr = .ok st') : Rewritten [i, j] st.seq st'.seq := by
  intro a
  rw [OptState.codeAt?_remove h', OptState.codeAt?_remove h]
  by_cases hj : a = j.addr
  · simp [hj, Became.removed]
  · by_cases hi : a = i.addr
    · simp [hi, Became.removed]
    · simp [hi, hj]

theorem jumpToPop {i : Insn} (hi : i ∈ st.seq.insns) (hcode : i.is .opJumpIfFalse) :
    Rewritten [i] st.seq (st.jumpToPop i.addr).seq := by
  intro a
  rw [OptState.codeAt?_jumpToPop]
  by_cases ha : a = i.addr
  · have hpop := Became.pop i.numOperands
    simp only [Insn.is, beq_iff_eq] at hcode
    simp only [ha, List.map_cons, List.map_nil, List.mem_singleton, if_true, Iseq.codeAt?_of_mem hi,
      Option.map_some, hcode, hpop]
  · simp [ha]

end Rewritten

namespace OptState

/-- What `replaceJumpInsn` rewrites. -/
def replacedJump (jumpInsn : Insn) : List Insn := if jumpInsn.isLabel then [] else [jumpInsn]

/-- What `foldConstants` rewrites. -/
def foldedConstants [LoxNum ν] (seq : Iseq ν) (cur prev prevp : Insn) : List Insn :=
  match seq.foldConstant cur prev prevp with
  | .ok newVal => if newVal.isUndef then [] else [cur, prev]
  | .error _ => []

/-- What `consolidatePops` rewrites. -/
def consolidatedPops (prev : Option Insn) (cur : Insn) : List Insn :=
  match prev with
  | none => []
  | some prev =>
    if prev.isPopType && cur.isPopType && !prev.isJumpTarget && !cur.isJumpTarget then
      if cur.is .opPop then [prev, cur] else [prev]
    else []

/-- What `replaceConstJump` rewrites. -/
def replacedConstJump (prev : Option Insn) (cur : Insn) : List Insn :=
  if cur.isJumpIfFalse && prev.any (·.constBool) then replacedJump cur
  else if cur.isJumpIfTrue && prev.any (!·.constBool) then replacedJump cur
  else []

/-- What `simplifyJumpOrConst` rewrites. -/
def simplifiedJumpOrConst (opts : CompilerOpts) (seq : Iseq ν) (prev : Option Insn) (cur : Insn) :
    List Insn :=
  if cur.isJump && cur.isJumpNextInsn then replacedJump cur
  else if cur.isJump && prev.any (·.isConst) then replacedConstJump prev cur
  else
    match prev with
    | some prev =>
      if !opts.noRemoveUnusedExpressions && cur.isPop && prev.noSideEffectsConst &&
          (seq.next cur.addr).all (!·.is .opBlockContinue) then [prev, cur]
      else []
    | none => []

/-- What the pass of the loop at `cur` removes or gives another opcode. -/
def rewritten [LoxNum ν] (opts : CompilerOpts) (seq : Iseq ν) (cur : Insn) : List Insn :=
  match foldOperands seq cur with
  | some (prev, prevp) => foldedConstants seq cur prev prevp
  | none =>
    consolidatedPops (seq.prev cur.addr) cur ++
      simplifiedJumpOrConst opts seq (seq.prev cur.addr) cur

end OptState

namespace Rewritten

variable {st st' : OptState ν}

theorem replaceJumpInsn {i : Insn} {deleted : Bool} (hi : i ∈ st.seq.insns)
    (h : st.replaceJumpInsn i = .ok (st', deleted)) :
    Rewritten (OptState.replacedJump i) st.seq st'.seq := by
  unfold OptState.replaceJumpInsn at h
  unfold OptState.replacedJump
  cases hlabel : i.isLabel with
  | true =>
    simp only [hlabel, Bool.not_true, Bool.false_eq_true, if_false, if_true] at h ⊢
    split at h
    · cases h
      exact none _
    · split at h <;> cases h
      exact none _
  | false =>
    simp only [hlabel, Bool.not_false, Bool.false_eq_true, if_false, if_true] at h ⊢
    split at h
    · rcases Except.bind_eq_ok.mp h with ⟨st₁, hrm, hst⟩
      cases hst
      exact remove hrm
    · split at h
      · rename_i hcode
        cases h
        exact jumpToPop hi hcode
      · cases h

theorem foldConstants [LoxNum ν] {cur prev prevp : Insn} {next : Option Addr}
    (h : st.foldConstants cur prev prevp = .ok (st', next)) :
    Rewritten (OptState.foldedConstants st.seq cur prev prevp) st.seq st'.seq := by
  rcases Except.bind_eq_ok.mp h with ⟨newVal, hval, h₁⟩
  unfold OptState.foldedConstants
  rw [hval]
  dsimp only
  split at h₁
  · rename_i hundef
    cases h₁
    rw [if_pos hundef]
    exact none _
  · rename_i hundef
    rw [if_neg hundef]
    rcases Except.bind_eq_ok.mp h₁ with ⟨seq₁, hchange, h₂⟩
    rcases Except.bind_eq_ok.mp h₂ with ⟨st₂, hrm, h₃⟩
    rcases Except.bind_eq_ok.mp h₃ with ⟨st₃, hrm', h₄⟩
    cases h₄
    unfold Iseq.changeConstant at hchange
    split at hchange <;> cases hchange
    have hboth := remove_two hrm hrm'
    exact hboth

theorem consolidatePops {prev : Option Insn} {cur cur' : Insn} (hcur : cur ∈ st.seq.insns)
    (h : st.consolidatePops prev cur = .ok (st', cur')) :
    Rewritten (OptState.consolidatedPops prev cur) st.seq st'.seq ∧
      ((st' = st ∧ cur' = cur ∧ OptState.consolidatedPops prev cur = []) ∨
        (prev.any (·.isPopType) = true ∧ cur.isPopType = true ∧ cur'.isPopType = true)) := by
  unfold OptState.consolidatePops at h
  unfold OptState.consolidatedPops
  cases prev with
  | none =>
    cases h
    exact ⟨none _, .inl ⟨rfl, rfl, rfl⟩⟩
  | some prev =>
    dsimp only at h ⊢
    split at h
    case isFalse hpops =>
      cases h
      rw [if_neg hpops]
      exact ⟨none _, .inl ⟨rfl, rfl, rfl⟩⟩
    case isTrue hpops =>
      rw [if_pos hpops]
      simp only [Bool.and_eq_true] at hpops
      rcases Except.bind_eq_ok.mp h with ⟨st₁, hrm, h₁⟩
      split at h₁
      case isTrue hp =>
        rw [if_pos hp]
        rcases Except.bind_eq_ok.mp h₁ with ⟨st₂, hadd, h₂⟩
        cases h₂
        refine ⟨fun a => ?_, .inr ⟨hpops.1.1.1, hpops.1.1.2, rfl⟩⟩
        rw [Iseq.codeAt?_modify _ (fun p => (OpCode.opPopN.toNat, p.2)) (fun _ => rfl),
          OptState.codeAt?_addOperand hadd, OptState.codeAt?_remove hrm]
        by_cases hx : a = prev.addr
        · simp [hx, Became.removed]
        · by_cases ha : a = cur.addr
          · have hpopN := Became.popN cur.numOperands
            simp only [Insn.is, beq_iff_eq] at hp
            have hne : cur.addr ≠ prev.addr := ha ▸ hx
            simpa [ha, hne, hp, Iseq.codeAt?_of_mem hcur] using hpopN
          · simp [ha, hx]
      case isFalse hp =>
        rw [if_neg hp]
        cases h₁
        refine ⟨(remove hrm).congr fun a => ?_, .inr ⟨hpops.1.1.1, hpops.1.1.2, hpops.1.1.2⟩⟩
        exact Iseq.codeAt?_modify_outline (f := fun i => i.setOperand0 _) (fun _ => rfl)
          (fun i => Moves.outline_setOperand0 i _) a

theorem replaceConstJump {prev : Option Insn} {cur : Insn} {deleted : Bool}
    (hcur : cur ∈ st.seq.insns) (h : st.replaceConstJump prev cur = .ok (st', deleted)) :
    Rewritten (OptState.replacedConstJump prev cur) st.seq st'.seq := by
  unfold OptState.replaceConstJump at h
  unfold OptState.replacedConstJump
  split at h
  · rename_i hjump
    rw [if_pos hjump]
    exact replaceJumpInsn hcur h
  · rename_i hjump
    rw [if_neg hjump]
    split at h
    · rename_i hjump'
      rw [if_pos hjump']
      exact replaceJumpInsn hcur h
    · rename_i hjump'
      cases h
      rw [if_neg hjump']
      exact none _

theorem simplifyJumpOrConst {opts : CompilerOpts} {prev : Option Insn} {cur : Insn}
    {next : Option Addr} (hcur : cur.isJump = true → cur ∈ st.seq.insns)
    (h : st.simplifyJumpOrConst opts prev cur = .ok (st', next)) :
    Rewritten (OptState.simplifiedJumpOrConst opts st.seq prev cur) st.seq st'.seq := by
  unfold OptState.simplifyJumpOrConst at h
  unfold OptState.simplifiedJumpOrConst
  dsimp only at h
  split at h
  case isTrue hnext =>
    rw [if_pos hnext]
    rcases Except.bind_eq_ok.mp h with ⟨⟨st₁, deleted⟩, hrep, hst⟩
    cases hst
    rw [Bool.and_eq_true] at hnext
    exact replaceJumpInsn (hcur hnext.1) hrep
  case isFalse hnext =>
    rw [if_neg hnext]
    split at h
    case isTrue hconst =>
      rw [if_pos hconst]
      rcases Except.bind_eq_ok.mp h with ⟨⟨st₁, deleted⟩, hrep, hst⟩
      rw [Bool.and_eq_true] at hconst
      have hrewritten := replaceConstJump (hcur hconst.1) hrep
      split at hst <;> cases hst <;> exact hrewritten
    case isFalse hconst =>
      rw [if_neg hconst]
      cases prev with
      | none =>
        cases h
        exact none _
      | some prev =>
        dsimp only at h ⊢
        split at h
        case isTrue hunused =>
          rw [if_pos hunused]
          rcases Except.bind_eq_ok.mp h with ⟨st₁, hrm, h₁⟩
          rcases Except.bind_eq_ok.mp h₁ with ⟨st₂, hrm', hst⟩
          cases hst
          exact remove_two hrm hrm'
        case isFalse hunused =>
          rw [if_neg hunused]
          cases h
          exact none _

theorem isJump_of_isPopType {i : Insn} (h : i.isPopType = true) : i.isJump = false := by
  simp only [Insn.isPopType, Insn.is, Bool.or_eq_true, beq_iff_eq] at h
  rcases h with hcode | hcode <;> simp [Insn.isJump, Insn.is, hcode]

/-- Behind a pop, a pop is neither a jump nor an unused constant's. -/
theorem simplified_of_pops (opts : CompilerOpts) (seq : Iseq ν) {prev : Option Insn} {cur : Insn}
    (hprev : prev.any (·.isPopType) = true) (hcur : cur.isPopType = true) :
    OptState.simplifiedJumpOrConst opts seq prev cur = [] := by
  have hjump := isJump_of_isPopType hcur
  cases prev with
  | none => cases hprev
  | some prev =>
    have hconst : prev.noSideEffectsConst = false := by
      simp only [Option.any_some, Insn.isPopType, Insn.is, Bool.or_eq_true, beq_iff_eq] at hprev
      rcases hprev with hcode | hcode <;>
        simp [Insn.noSideEffectsConst, Insn.isConst, Insn.is, hcode]
    simp [OptState.simplifiedJumpOrConst, hjump, hconst]

theorem optimizeStep [LoxNum ν] {opts : CompilerOpts} {cur : Insn} {next : Option Addr}
    (hcur : cur ∈ st.seq.insns) (h : st.optimizeStep opts cur = .ok (st', next)) :
    Rewritten (OptState.rewritten opts st.seq cur) st.seq st'.seq := by
  unfold OptState.optimizeStep at h
  unfold OptState.rewritten
  cases hfold : OptState.foldOperands st.seq cur with
  | some p =>
    simp only [hfold] at h ⊢
    exact foldConstants h
  | none =>
    simp only [hfold] at h ⊢
    rcases Except.bind_eq_ok.mp h with ⟨⟨st₁, cur₁⟩, hpops, h₁⟩
    rcases consolidatePops hcur hpops with ⟨hmerged, ⟨rfl, rfl, hnil⟩ | ⟨hprev, hpop, hpop₁⟩⟩
    · rw [hnil, List.nil_append]
      exact simplifyJumpOrConst (fun _ => hcur) h₁
    · -- the merged pop is not rewritten again in this pass
      have hrest := simplifyJumpOrConst (fun hjump => ?_) h₁
      · rw [simplified_of_pops opts _ hprev hpop₁] at hrest
        rw [simplified_of_pops opts _ hprev hpop, List.append_nil]
        refine hmerged.congr fun a => ?_
        have hsame := hrest a
        rwa [List.map_nil, if_neg List.not_mem_nil] at hsame
      · rw [isJump_of_isPopType hpop₁] at hjump
        cases hjump

end Rewritten

namespace OptState

end OptState

/-! ## A run of the loop -/

/-- An instruction with the code `c` and no operands has been rewritten. -/
def Lost (c : ℕ) (o : Option (ℕ × ℕ)) : Prop :=
  o = none ∨ (∃ n, o = some (OpCode.opPop.toNat, n) ∨ o = some (OpCode.opPopN.toNat, n)) ∧
    o ≠ some (c, 0)

theorem Lost.of_became {c : ℕ} {o o' : Option (ℕ × ℕ)} (h : Became o o')
    (hcode : o = some (c, 0) ∨ Lost c o) : Lost c o' := by
  cases h with
  | removed => exact .inl rfl
  | popN n => exact .inr ⟨⟨n + 1, .inr rfl⟩, by simp⟩
  | pop n =>
    refine .inr ⟨⟨0, .inl rfl⟩, ?_⟩
    rcases hcode with hcode | hcode | ⟨⟨m, hcode | hcode⟩, -⟩
    · simp only [Option.some.injEq, Prod.mk.injEq] at hcode
      rw [← hcode.1]
      decide
    · cases hcode
    · cases hcode
    · cases hcode

theorem Lost.ne {c : ℕ} {o : Option (ℕ × ℕ)} (h : Lost c o) : o ≠ some (c, 0) := by
  rcases h with rfl | ⟨-, hne⟩
  · exact nofun
  · exact hne

/-- In at most `fuel` passes from the cursor `cur`, no instruction at one of the addresses `D` is
rewritten. -/
def OptState.Spares [LoxNum ν] (opts : CompilerOpts) (D : List Addr) :
    ℕ → OptState ν → Option Addr → Prop
  | 0, _, _ => True
  | _ + 1, _, none => True
  | fuel + 1, st, some a => ∀ cur, st.seq.insn? a = some cur →
    (∀ i ∈ rewritten opts st.seq cur, i.addr ∉ D) ∧
      ∀ st' next, st.optimizeStep opts cur = .ok (st', next) → Spares opts D fuel st' next

section Run

variable [LoxNum ν] {opts : CompilerOpts} {D : List Addr} {st st' : OptState ν}

/-- What has been rewritten once is not put back. -/
theorem Lost.optimizeLoop {c : ℕ} {a : Addr} (fuel : ℕ) {cur cur' : Option Addr}
    (h : Lost c (st.seq.codeAt? a)) (hrun : st.optimizeLoop opts fuel cur = .ok (st', cur')) :
    Lost c (st'.seq.codeAt? a) := by
  refine OptState.optimizeLoop_keeps (P := fun st => Lost c (st.seq.codeAt? a)) ?_ fuel h hrun
  intro st st' cur next h hcur hstep
  have hpass := Rewritten.optimizeStep hcur hstep a
  split at hpass
  · exact Lost.of_became hpass (.inr h)
  · rw [hpass]
    exact h

end Run

/-! ## Instructions in a row -/

namespace Iseq

end Iseq

/-! ## The descriptors -/

/-- The words of a descriptor. -/
def Upvalue.words (u : Upvalue) : List ℕ := [if u.isLocal then 1 else 0, u.index]

section Called

variable [LoxNum ν]

end Called

end Clox
