import Clox.Compiler.ExprOptimized

/-! # The optimizer's result

The loop of `optimizeIseq` ends on every instruction sequence: a pass that does
not shorten the sequence moves the cursor on. Where it ends, no rule applies to
any instruction behind the last return to the head, and so a second run changes
nothing, with two exceptions. A conditional jump that is turned into a pop is
not looked at again, and a fold overwrites a constant that a division in front
of it may share.
-/

namespace Clox

variable {ν : Type}

/-! ## Instructions the rules cannot tell apart -/

/-- The rules of the optimizer see no difference, but that a jump to the next instruction may have
become another one. -/
structure Insn.Alike (i j : Insn) : Prop where
  addr : j.addr = i.addr
  code : j.code = i.code
  flNumber : j.flNumber = i.flNumber
  isLabel : j.isLabel = i.isLabel
  same : i.isJump = false → i.isLoop = false → j = i
  leads : i.operand0 ≠ 0 → j.operand0 ≠ 0

namespace Insn.Alike

variable {i j k : Insn}

theorem refl (i : Insn) : i.Alike i :=
  ⟨rfl, rfl, rfl, rfl, fun _ _ => rfl, id⟩

theorem is_eq (h : i.Alike j) (op : OpCode) : j.is op = i.is op := by
  unfold Insn.is
  rw [h.code]

theorem isJump (h : i.Alike j) : j.isJump = i.isJump := by
  simp only [Insn.isJump, h.is_eq]

theorem isLoop (h : i.Alike j) : j.isLoop = i.isLoop := h.is_eq .opLoop

theorem trans (h : i.Alike j) (h' : j.Alike k) : i.Alike k where
  addr := h'.addr.trans h.addr
  code := h'.code.trans h.code
  flNumber := h'.flNumber.trans h.flNumber
  isLabel := h'.isLabel.trans h.isLabel
  same hjump hloop := by
    rw [h'.same (by rw [h.isJump, hjump]) (by rw [h.isLoop, hloop]), h.same hjump hloop]
  leads hne := h'.leads (h.leads hne)

theorem isBinOp (h : i.Alike j) : j.isBinOp = i.isBinOp := by
  simp only [Insn.isBinOp, h.is_eq]

theorem isNumConstOp (h : i.Alike j) : j.isNumConstOp = i.isNumConstOp := by
  simp only [Insn.isNumConstOp, h.is_eq, h.flNumber]

theorem isPopType (h : i.Alike j) : j.isPopType = i.isPopType := by
  simp only [Insn.isPopType, h.is_eq]

theorem isConst (h : i.Alike j) : j.isConst = i.isConst := by
  simp only [Insn.isConst, h.is_eq]

theorem constBool (h : i.Alike j) : j.constBool = i.constBool := by
  simp only [Insn.constBool, h.is_eq]

end Insn.Alike

/-- No jump and no loop, so nothing that is patched. -/
theorem Insn.not_patched_of_isConst {i : Insn} (h : i.isConst = true) :
    i.isJump = false ∧ i.isLoop = false := by
  simp only [Insn.isConst, Insn.is, Bool.or_eq_true, beq_iff_eq] at h
  rcases h with ((h | h) | h) | h <;> simp [Insn.isJump, Insn.isLoop, Insn.is, h]

theorem Insn.not_patched_of_isPopType {i : Insn} (h : i.isPopType = true) :
    i.isJump = false ∧ i.isLoop = false := by
  simp only [Insn.isPopType, Insn.is, Bool.or_eq_true, beq_iff_eq] at h
  rcases h with h | h <;> simp [Insn.isJump, Insn.isLoop, Insn.is, h]

theorem Insn.not_patched_of_isBinOp {i : Insn} (h : i.isBinOp = true) :
    i.isJump = false ∧ i.isLoop = false := by
  simp only [Insn.isBinOp, Bool.or_eq_true, Insn.is_eq_true] at h
  rcases h with ((((((((h | h) | h) | h) | h) | h) | h) | h) | h) | h <;>
    simp [Insn.isJump, Insn.isLoop, Insn.is, h]

theorem Insn.isConst_of_isNumConstOp {i : Insn} (h : i.isNumConstOp = true) :
    i.isConst = true := by
  simp only [Insn.isNumConstOp, Bool.and_eq_true] at h
  simp [Insn.isConst, h.1]

namespace Iseq

theorem alike_of_patch {i j : Insn} {offset : ℤ}
    (h : patchJumpInsnWithOffset i offset = .ok j) (hjump : i.isJump = true ∨ i.isLoop = true) :
    i.Alike j := by
  unfold patchJumpInsnWithOffset at h
  split at h
  · cases h
  split at h
  · cases h
  rename_i hpos
  cases h
  refine ⟨rfl, rfl, rfl, rfl, fun hj hl => ?_, fun hne => ?_⟩
  · rcases hjump with h | h
    · rw [hj] at h
      cases h
    · rw [hl] at h
      cases h
  · rcases hops : i.operands with _ | ⟨o, os⟩
    · exact absurd (by rw [Insn.operand0, hops]; rfl) hne
    · simp only [Insn.setOperand0, Insn.operand0, hops, List.set_cons_zero, List.headD_cons]
        at hpos ⊢
      omega

/-- What patching around an edit leaves of an instruction. -/
theorem alike_of_patchAround {seq : Iseq ν} {insn : Addr} {offset : ℤ} {e : Abort} {clear : Bool}
    {i j : Insn} (h : seq.patchAround insn offset e clear i = .ok j) : i.Alike j := by
  unfold patchAround at h
  split at h
  · cases h
    exact .refl i
  cases hspan : seq.span insn i e with
  | error err =>
    rw [hspan] at h
    cases h
  | ok s =>
    rw [hspan] at h
    have hjump : s ≠ .outside → i.isJump = true ∨ i.isLoop = true := by
      intro hs
      by_contra hnone
      rw [not_or, Bool.not_eq_true, Bool.not_eq_true] at hnone
      exact hs (span_eq_outside hspan hnone.1 hnone.2)
    cases s with
    | outside =>
      cases h
      exact .refl i
    | across => exact alike_of_patch h (hjump (by decide))
    | onto =>
      have hpatched := alike_of_patch h (hjump (by decide))
      refine ⟨hpatched.addr, hpatched.code, hpatched.flNumber, hpatched.isLabel,
        fun hj hl => ?_, hpatched.leads⟩
      rcases hjump (by decide) with h | h
      · rw [hj] at h
        cases h
      · rw [hl] at h
        cases h

/-- A removal leaves the other instructions, patched. -/
theorem alike_of_remove {st st' : OptState ν} {p q : List Insn} {x : Insn}
    (hsplit : st.seq.insns = p ++ x :: q) (h : st.remove x.addr = .ok st') :
    ∃ g : Insn → Insn, st'.seq.insns = p.map g ++ q.map g ∧ (∀ i ∈ p ++ q, i.Alike (g i)) ∧
      st'.seq.constants = st.seq.constants := by
  rcases Except.bind_eq_ok.mp h with ⟨seq, hseq, hst⟩
  cases hst
  rcases rmInsn_split hsplit hseq with ⟨g, hinsns, hg⟩
  exact ⟨g, hinsns, fun i hi => alike_of_patchAround (hg i hi), constants_rmInsn hseq⟩

/-- A change to one instruction. -/
theorem modify_split {seq : Iseq ν} {p q : List Insn} {x : Insn} (f : Insn → Insn)
    (hf : ∀ i, (f i).addr = i.addr) {a : Addr} (hsplit : seq.insns = p ++ x :: q)
    (ha : a = x.addr) : (seq.modify a f hf).insns = p ++ f x :: q := by
  subst ha
  have hnd := seq.nodup
  rw [hsplit, List.map_append, List.map_cons, List.nodup_append, List.nodup_cons] at hnd
  have hkeep : ∀ l : List Insn, (∀ j ∈ l, j.addr ≠ x.addr) →
      (l.map fun j => if j.addr = x.addr then f j else j) = l := by
    intro l hl
    refine (List.map_congr_left fun j hj => ?_).trans (List.map_id l)
    rw [if_neg (hl j hj)]
    rfl
  show seq.insns.map _ = _
  rw [hsplit, List.map_append, List.map_cons, if_pos rfl, hkeep p, hkeep q]
  · intro j hj heq
    exact hnd.2.1.1 (heq ▸ List.mem_map_of_mem hj)
  · intro j hj heq
    exact hnd.2.2 _ (List.mem_map_of_mem hj) _ List.mem_cons_self heq

/-- A new operand leaves the other instructions, patched. -/
theorem alike_of_addOperand {st st' : OptState ν} {p q : List Insn} {x : Insn} {operand : ℕ}
    (hsplit : st.seq.insns = p ++ x :: q) (h : st.addOperand x.addr operand = .ok st') :
    ∃ g : Insn → Insn, st'.seq.insns = p.map g ++
        { x with operands := x.operands ++ [operand] } :: q.map g ∧
      (∀ i ∈ p ++ q, i.Alike (g i)) ∧ st'.seq.constants = st.seq.constants := by
  rcases Except.bind_eq_ok.mp h with ⟨seq, hseq, hst⟩
  cases hst
  have hx : st.seq.insn? x.addr = some x := st.seq.insn?_eq_some (by simp [hsplit])
  unfold addInsnOperand at hseq
  simp only [hx] at hseq
  split at hseq
  · cases hseq
  rcases patchAround_walk hseq with ⟨g, hg, -, haddr, hpatch⟩
  have hpushed : (st.seq.pushOperand x.addr operand).insns =
      p ++ { x with operands := x.operands ++ [operand] } :: q :=
    modify_split (fun j => { j with operands := j.operands ++ [operand] }) (fun _ => rfl) hsplit rfl
  rw [hpushed] at hg hpatch
  refine ⟨g, ?_, fun i hi => ?_, ?_⟩
  · have hself : g { x with operands := x.operands ++ [operand] } =
        { x with operands := x.operands ++ [operand] } := by
      have hown := (hpatch { x with operands := x.operands ++ [operand] } (by simp)).1
      unfold patchAround at hown
      rw [if_pos rfl] at hown
      exact (Except.ok.inj hown).symm
    rw [hg, List.map_append, List.map_cons, hself]
  · refine alike_of_patchAround (hpatch i ?_).1
    rcases List.mem_append.mp hi with hi | hi
    · exact List.mem_append_left _ hi
    · exact List.mem_append_right _ (List.mem_cons_of_mem _ hi)
  · rcases Except.bind_eq_ok.mp hseq with ⟨_, -, hmap⟩
    rw [Except.pure_eq_ok] at hmap
    rw [← hmap]
    rfl

end Iseq

/-! ## Where no rule applies -/

/-- A pass at `cur`, with `p` in front of it and `next` behind it, changes nothing. -/
structure Stands [LoxNum ν] (opts : CompilerOpts) (constants : List (Value ν)) (p : List Insn)
    (cur : Insn) (next : Option Insn) : Prop where
  /-- Two numbers in front of an operator are a division by zero. -/
  fold : ∀ p' a b, p = p' ++ [a, b] → cur.isBinOp = true → a.isNumConstOp = true →
    b.isNumConstOp = true → Iseq.foldConstant { constants := constants } cur b a = .ok .undef
  pops : ∀ prev ∈ p.getLast?, prev.isPopType = true → cur.isPopType = true →
    prev.isLabel = true ∨ cur.isLabel = true
  jumpNext : cur.isJump = true → cur.operand0 = 0 →
    cur.isLabel = true ∧ cur.is .opJumpIfTrue = false
  constJump : ∀ prev ∈ p.getLast?, prev.isConst = true →
    cur.isJumpIfFalse = true ∧ prev.constBool = true ∨
      cur.isJumpIfTrue = true ∧ prev.constBool = false → cur.isLabel = true
  unused : ∀ prev ∈ p.getLast?, prev.isConst = true → cur.isPop = true →
    opts.noRemoveUnusedExpressions = true ∨ next.any (·.is .opBlockContinue) = true

theorem Iseq.next_of_split {seq : Iseq ν} {p q : List Insn} {x : Insn}
    (h : seq.insns = p ++ x :: q) : seq.next x.addr = q.head? := by
  unfold Iseq.next
  have hbehind : p.length + 1 - p.length = 1 := by omega
  rw [Layout.index_of_split seq.nodup h, h, List.getElem?_append_right (Nat.le_succ _), hbehind,
    List.getElem?_cons_succ, List.head?_eq_getElem?]

theorem foldConstant_congr [LoxNum ν] {seq seq' : Iseq ν} {cur b a : Insn}
    (hb : seq'.constants[b.operand0]? = seq.constants[b.operand0]?)
    (ha : seq'.constants[a.operand0]? = seq.constants[a.operand0]?) :
    seq'.foldConstant cur b a = seq.foldConstant cur b a := by
  unfold Iseq.foldConstant Iseq.numConstant
  rw [hb, ha]

theorem foldOperands_of_split {st : OptState ν} {cur a b : Insn} {p' q : List Insn}
    (hsplit : st.seq.insns = (p' ++ [a, b]) ++ cur :: q) (hbin : cur.isBinOp = true)
    (ha : a.isNumConstOp = true) (hb : b.isNumConstOp = true) :
    OptState.foldOperands st.seq cur = some (b, a) := by
  have hprev := Iseq.prev_of_split hsplit
  have hsplit' : st.seq.insns = (p' ++ [a]) ++ b :: cur :: q := by simp [hsplit]
  have hprevp := Iseq.prev_of_split hsplit'
  unfold OptState.foldOperands
  rw [if_pos hbin, hprev]
  have hlast : (p' ++ [a, b]).getLast? = some b := by simp
  have hlast' : (p' ++ [a]).getLast? = some a := by simp
  rw [hlast]
  dsimp only
  rw [hprevp, hlast']
  dsimp only
  rw [ha, hb]
  rfl

/-- A labelled jump stays, whatever its condition. -/
theorem replaceJumpInsn_label {st : OptState ν} {cur : Insn} (hjump : cur.isJump = true)
    (hlabel : cur.isLabel = true) (hkind : cur.is .opJumpIfTrue = false) :
    st.replaceJumpInsn cur = .ok (st, false) := by
  unfold OptState.replaceJumpInsn
  rw [hlabel]
  simp only [Insn.isJump, hkind, Bool.or_eq_true, Bool.or_false] at hjump
  split
  · rfl
  · rename_i hother
    split
    · rfl
    · rename_i hfalse
      simp only [Bool.or_eq_true, not_or, Bool.not_eq_true] at hother hfalse
      simp [hother, hfalse] at hjump

section

variable [LoxNum ν] {opts : CompilerOpts} {st st' : OptState ν} {p q : List Insn} {cur : Insn}
  {next : Option Addr}

/-- Where no rule applies, a pass leaves everything and moves on. -/
theorem Stands.pass (h : Stands opts st.seq.constants p cur q.head?)
    (hsplit : st.seq.insns = p ++ cur :: q) :
    st.optimizeStep opts cur = .ok (st, q.head?.map (·.addr)) := by
  have hprev := Iseq.prev_of_split hsplit
  have hnext := Iseq.next_of_split hsplit
  unfold OptState.optimizeStep
  cases hfold : OptState.foldOperands st.seq cur with
  | some ops =>
    rcases ops with ⟨b, a⟩
    rcases OptState.foldOperands_split hsplit hfold with ⟨p', hp, hb, ha⟩
    have hundef := h.fold p' a b hp (OptState.isBinOp_of_foldOperands hfold) ha hb
    have hsame : st.seq.foldConstant cur b a = .ok .undef := hundef
    dsimp only
    unfold OptState.foldConstants
    rw [hsame, hnext]
    rfl
  | none =>
    dsimp only
    rw [hprev]
    have hpops : st.consolidatePops p.getLast? cur = .ok (st, cur) := by
      unfold OptState.consolidatePops
      cases hlast : p.getLast? with
      | none => rfl
      | some prev =>
        dsimp only
        rw [if_neg]
        simp only [Bool.and_eq_true, Bool.not_eq_true', Insn.isJumpTarget]
        rintro ⟨⟨⟨hpop, hpop'⟩, hlabel⟩, hlabel'⟩
        rcases h.pops prev hlast hpop hpop' with hl | hl
        · rw [hl] at hlabel
          cases hlabel
        · rw [hl] at hlabel'
          cases hlabel'
    rw [hpops]
    show st.simplifyJumpOrConst opts p.getLast? cur = _
    unfold OptState.simplifyJumpOrConst
    rw [hnext]
    dsimp only
    split
    · rename_i hj
      rw [Bool.and_eq_true] at hj
      have hzero : cur.operand0 = 0 := by simpa [Insn.isJumpNextInsn] using hj.2
      rcases h.jumpNext hj.1 hzero with ⟨hlabel, hkind⟩
      rw [replaceJumpInsn_label hj.1 hlabel hkind]
      rfl
    cases hlast : p.getLast? with
    | none =>
      dsimp only
      rw [if_neg (by simp)]
      rfl
    | some prev =>
      dsimp only
      split
      · rename_i hj
        rw [Option.any_some, Bool.and_eq_true] at hj
        have hjumps := h.constJump prev hlast hj.2
        have hreplace : st.replaceConstJump (some prev) cur = .ok (st, false) := by
          unfold OptState.replaceConstJump
          simp only [Option.any_some]
          split
          · rename_i hfalse
            rw [Bool.and_eq_true] at hfalse
            refine replaceJumpInsn_label hj.1 (hjumps (.inl hfalse)) ?_
            have hcode : cur.code = OpCode.opJumpIfFalse.toNat := by
              simpa [Insn.isJumpIfFalse, Insn.is] using hfalse.1
            unfold Insn.is
            rw [hcode]
            decide
          split
          · rename_i htrue
            rw [Bool.and_eq_true, Bool.not_eq_true'] at htrue
            refine replaceJumpInsn_label hj.1 (hjumps (.inr htrue)) ?_
            have hcode : cur.code = OpCode.opJumpIfTruePeek.toNat := by
              simpa [Insn.isJumpIfTrue, Insn.is] using htrue.1
            unfold Insn.is
            rw [hcode]
            decide
          · rfl
        rw [hreplace]
        rfl
      · rw [if_neg]
        · rfl
        · simp only [Bool.and_eq_true, Bool.not_eq_true', Insn.noSideEffectsConst]
          rintro ⟨⟨⟨hopts, hpop⟩, hconst⟩, hnext⟩
          rcases h.unused prev hlast hconst hpop with ho | hblock
          · rw [ho] at hopts
            cases hopts
          · cases q with
            | nil => cases hblock
            | cons y q =>
              simp only [List.head?_cons, Option.all_some, Option.any_some] at hnext hblock
              rw [hblock] at hnext
              cases hnext

end

/-! ## What a pass does -/

/-- The pop that a conditional jump becomes. -/
def Insn.asPop (i : Insn) : Insn := { i with code := OpCode.opPop.toNat, operands := [] }

/-- What a pass at `cur` makes of the instructions `p ++ cur :: q`, and where it goes on. -/
inductive Passes [LoxNum ν] (opts : CompilerOpts) (st : OptState ν) (p : List Insn) (cur : Insn)
    (q : List Insn) : OptState ν → Option Addr → Prop
  | stands (h : Stands opts st.seq.constants p cur q.head?) :
      Passes opts st p cur q st (q.head?.map (·.addr))
  | folds {p' : List Insn} {a b : Insn} {v : Value ν} {g : Insn → Insn} {st' : OptState ν}
      (hp : p = p' ++ [a, b]) (hbin : cur.isBinOp = true) (ha : a.isNumConstOp = true)
      (hb : b.isNumConstOp = true) (hv : st.seq.foldConstant cur b a ≠ .ok .undef)
      (hinsns : st'.seq.insns = p'.map g ++ g a :: q.map g)
      (hg : ∀ i ∈ p' ++ a :: q, i.Alike (g i))
      (hconstants : st'.seq.constants = st.seq.constants.set a.operand0 v) :
      Passes opts st p cur q st' (some a.addr)
  | restarts {st' : OptState ν} (hlt : st'.seq.insns.length < st.seq.insns.length) :
      Passes opts st p cur q st' (st'.seq.insns.head?.map (·.addr))
  | removes {g : Insn → Insn} {st' : OptState ν} (hjump : cur.isJump = true)
      (hinsns : st'.seq.insns = p.map g ++ q.map g) (hg : ∀ i ∈ p ++ q, i.Alike (g i))
      (hconstants : st'.seq.constants = st.seq.constants) :
      Passes opts st p cur q st' (q.head?.map (·.addr))
  | merges {p' : List Insn} {b c : Insn} {g : Insn → Insn} {st' : OptState ν}
      (hp : p = p' ++ [b]) (hb : b.isPopType = true) (hlabel : b.isLabel = false)
      (hc : c.is .opPopN = true)
      (hinsns : st'.seq.insns = p'.map g ++ c :: q.map g)
      (hg : ∀ i ∈ p' ++ q, i.Alike (g i))
      (hconstants : st'.seq.constants = st.seq.constants) :
      Passes opts st p cur q st' (q.head?.map (·.addr))
  | pops (hjump : cur.is .opJumpIfFalse = true) (hlabel : cur.isLabel = false)
      (hwhy : cur.operand0 = 0 ∨ p.getLast?.any (·.constBool) = true) :
      Passes opts st p cur q (st.jumpToPop cur.addr) (q.head?.map (·.addr))

section

variable [LoxNum ν] {opts : CompilerOpts} {st st' : OptState ν} {p q : List Insn} {cur : Insn}
  {next : Option Addr}

theorem Insn.Alike.map_head {g : Insn → Insn} {l : List Insn} (hg : ∀ i ∈ l, i.Alike (g i)) :
    (l.map g).head?.map (·.addr) = l.head?.map (·.addr) := by
  cases l with
  | nil => rfl
  | cons i l => exact congrArg some (hg i List.mem_cons_self).addr

omit [LoxNum ν] in
theorem changeConstant_eq_ok {seq seq' : Iseq ν} {i : ℕ} {v : Value ν}
    (h : seq.changeConstant i v = .ok seq') :
    seq'.insns = seq.insns ∧ seq'.constants = seq.constants.set i v := by
  unfold Iseq.changeConstant at h
  split at h
  · cases h
    exact ⟨rfl, rfl⟩
  · cases h

/-- An operator on two numbers is no jump and no pop. -/
theorem Insn.only_binOp {i : Insn} (h : i.isBinOp = true) :
    i.isPopType = false ∧ i.isJump = false ∧ i.isPop = false := by
  simp only [Insn.isBinOp, Bool.or_eq_true, Insn.is_eq_true] at h
  rcases h with ((((((((h | h) | h) | h) | h) | h) | h) | h) | h) | h <;>
    simp [Insn.isPopType, Insn.isJump, Insn.isPop, Insn.is, h]

theorem Insn.only_jump {i : Insn} (h : i.isJump = true) :
    i.isBinOp = false ∧ i.isPopType = false ∧ i.isPop = false ∧ i.is .opBlockContinue = false := by
  simp only [Insn.isJump, Bool.or_eq_true, Insn.is_eq_true] at h
  rcases h with (((h | h) | h) | h) | h <;>
    simp [Insn.isBinOp, Insn.isPopType, Insn.isPop, Insn.is, h]

theorem Insn.only_popN {i : Insn} (h : i.is .opPopN = true) :
    i.isBinOp = false ∧ i.isJump = false ∧ i.isPop = false ∧ i.isPopType = true := by
  rw [Insn.is_eq_true] at h
  simp [Insn.isBinOp, Insn.isJump, Insn.isPop, Insn.isPopType, Insn.is, h]

theorem foldConstants_passes {a b : Insn} {p' : List Insn}
    (hsplit : st.seq.insns = (p' ++ [a, b]) ++ cur :: q) (hbin : cur.isBinOp = true)
    (ha : a.isNumConstOp = true) (hb : b.isNumConstOp = true)
    (h : st.foldConstants cur b a = .ok (st', next)) :
    Passes opts st (p' ++ [a, b]) cur q st' next := by
  rcases Except.bind_eq_ok.mp h with ⟨v, hv, hrest⟩
  split at hrest
  · rename_i hundef
    cases hrest
    rw [Iseq.next_of_split hsplit]
    refine .stands ⟨fun p'' a' b' hp hbin' ha' hb' => ?_, fun prev _ _ hpop => ?_,
      fun hjump => ?_, fun prev _ _ hjump => ?_, fun prev _ _ hpop => ?_⟩
    · have hends := List.append_inj_right' hp rfl
      cases hends
      have hv' : v = .undef := by
        cases v <;> simp_all [Value.isUndef]
      rw [hv'] at hv
      exact hv
    · rw [(Insn.only_binOp hbin).1] at hpop
      cases hpop
    · rw [(Insn.only_binOp hbin).2.1] at hjump
      cases hjump
    · have hnone := (Insn.only_binOp hbin).2.1
      simp only [Insn.isJump, Bool.or_eq_false_iff] at hnone
      rcases hjump with hjump | hjump
      · have : cur.is .opJumpIfFalse = true := hjump.1
        rw [hnone.1.1.1.2] at this
        cases this
      · have : cur.is .opJumpIfTruePeek = true := hjump.1
        rw [hnone.1.2] at this
        cases this
    · rw [(Insn.only_binOp hbin).2.2] at hpop
      cases hpop
  · rename_i hdefined
    have hne : st.seq.foldConstant cur b a ≠ .ok .undef := by
      intro hundef
      rw [hundef] at hv
      cases hv
      exact hdefined rfl
    rcases Except.bind_eq_ok.mp hrest with ⟨seq, hseq, hrest⟩
    rcases Except.bind_eq_ok.mp hrest with ⟨st₁, hst₁, hrest⟩
    rcases Except.bind_eq_ok.mp hrest with ⟨st₂, hst₂, hrest⟩
    cases hrest
    rcases changeConstant_eq_ok hseq with ⟨hsame, hset⟩
    have hsplit₀ : ({ st with seq } : OptState ν).seq.insns = (p' ++ [a, b]) ++ cur :: q :=
      hsame.trans hsplit
    rcases Iseq.alike_of_remove hsplit₀ hst₁ with ⟨g₁, hinsns₁, hg₁, hconstants₁⟩
    have hsplit₁ : st₁.seq.insns = (p'.map g₁ ++ [g₁ a]) ++ g₁ b :: q.map g₁ := by
      simp [hinsns₁]
    rw [← (hg₁ b (by simp)).addr] at hst₂
    rcases Iseq.alike_of_remove hsplit₁ hst₂ with ⟨g₂, hinsns₂, hg₂, hconstants₂⟩
    refine .folds (g := g₂ ∘ g₁) rfl hbin ha hb hne ?_ ?_
      (hconstants₂.trans (hconstants₁.trans hset))
    · rw [hinsns₂]
      simp
    · intro i hi
      have hi₁ : i ∈ (p' ++ [a, b]) ++ q := by
        simp only [List.mem_append, List.mem_cons, List.not_mem_nil, or_false] at hi ⊢
        tauto
      have hi₂ : g₁ i ∈ (p'.map g₁ ++ [g₁ a]) ++ q.map g₁ := by
        rw [List.mem_append, List.mem_cons] at hi
        rcases hi with hi | rfl | hi
        · simp [List.mem_map_of_mem hi]
        · simp
        · simp [List.mem_map_of_mem hi]
      exact (hg₁ i hi₁).trans (hg₂ (g₁ i) hi₂)

omit [LoxNum ν] in
theorem replaceJumpInsn_cases {deleted : Bool}
    (h : st.replaceJumpInsn cur = .ok (st', deleted)) :
    (cur.isLabel = true ∧ cur.is .opJumpIfTrue = false ∧ st' = st ∧ deleted = false) ∨
    (cur.isLabel = false ∧ cur.is .opJumpIfFalse = false ∧ st.remove cur.addr = .ok st' ∧
      deleted = true) ∨
    (cur.isLabel = false ∧ cur.is .opJumpIfFalse = true ∧ st' = st.jumpToPop cur.addr ∧
      deleted = false) := by
  unfold OptState.replaceJumpInsn at h
  split at h
  · rename_i hkind
    have hothers : cur.is .opJumpIfTrue = false ∧ cur.is .opJumpIfFalse = false := by
      simp only [Bool.or_eq_true, Insn.is_eq_true] at hkind
      rcases hkind with (hk | hk) | hk <;> simp [Insn.is, hk]
    split at h
    · rename_i hlabel
      rcases Except.bind_eq_ok.mp h with ⟨st₁, hst₁, hrest⟩
      cases hrest
      exact .inr (.inl ⟨by simpa using hlabel, hothers.2, hst₁, rfl⟩)
    · rename_i hlabel
      cases h
      exact .inl ⟨by simpa using hlabel, hothers.1, rfl, rfl⟩
  split at h
  · rename_i hkind
    have hother : cur.is .opJumpIfTrue = false := by
      rw [Insn.is_eq_true] at hkind
      simp [Insn.is, hkind]
    split at h
    · rename_i hlabel
      cases h
      exact .inr (.inr ⟨by simpa using hlabel, hkind, rfl, rfl⟩)
    · rename_i hlabel
      cases h
      exact .inl ⟨by simpa using hlabel, hother, rfl, rfl⟩
  · cases h

/-- The tests behind the pops. -/
theorem simplifyJumpOrConst_passes (hsplit : st.seq.insns = p ++ cur :: q)
    (hfold : OptState.foldOperands st.seq cur = none)
    (hpops : ∀ prev ∈ p.getLast?, prev.isPopType = true → cur.isPopType = true →
      prev.isLabel = true ∨ cur.isLabel = true)
    (h : st.simplifyJumpOrConst opts p.getLast? cur = .ok (st', next)) :
    Passes opts st p cur q st' next := by
  have hnofold : ∀ p' a b, p = p' ++ [a, b] → cur.isBinOp = true → a.isNumConstOp = true →
      b.isNumConstOp = true →
      Iseq.foldConstant { constants := st.seq.constants } cur b a = .ok .undef := by
    intro p' a b hp hbin ha hb
    rw [hp] at hsplit
    rw [foldOperands_of_split hsplit hbin ha hb] at hfold
    cases hfold
  have hnext := Iseq.next_of_split hsplit
  -- a jump is no pop
  have hjumps : cur.isJump = true → (cur.operand0 = 0 → cur.isLabel = true ∧
      cur.is .opJumpIfTrue = false) → (∀ prev ∈ p.getLast?, prev.isConst = true →
      cur.isJumpIfFalse = true ∧ prev.constBool = true ∨
        cur.isJumpIfTrue = true ∧ prev.constBool = false → cur.isLabel = true) →
      Stands opts st.seq.constants p cur q.head? := by
    intro hjump hzero hconst
    refine ⟨hnofold, hpops, fun _ => hzero, hconst, fun _ _ _ hpop => ?_⟩
    rw [(Insn.only_jump hjump).2.2.1] at hpop
    cases hpop
  unfold OptState.simplifyJumpOrConst at h
  rw [hnext] at h
  dsimp only at h
  split at h
  · rename_i hj
    rw [Bool.and_eq_true] at hj
    rcases Except.bind_eq_ok.mp h with ⟨⟨st₁, deleted⟩, hreplace, hrest⟩
    cases hrest
    rcases replaceJumpInsn_cases hreplace with ⟨hlabel, hkind, rfl, -⟩ | ⟨-, -, hremove, -⟩ |
      ⟨hlabel, hkind, rfl, -⟩
    · exact .stands (hjumps hj.1 (fun _ => ⟨hlabel, hkind⟩) fun _ _ _ _ => hlabel)
    · rcases Iseq.alike_of_remove hsplit hremove with ⟨g, hinsns, hg, hconstants⟩
      exact .removes hj.1 hinsns hg hconstants
    · exact .pops hkind hlabel (.inl (by simpa [Insn.isJumpNextInsn] using hj.2))
  rename_i hnotnext
  have hne : cur.isJump = true → cur.operand0 ≠ 0 := by
    intro hjump hzero
    apply hnotnext
    rw [hjump, Insn.isJumpNextInsn, hzero]
    rfl
  split at h
  · rename_i hj
    rw [Bool.and_eq_true] at hj
    rcases Except.bind_eq_ok.mp h with ⟨⟨st₁, deleted⟩, hreplace, hrest⟩
    have hquiet : (∀ prev ∈ p.getLast?, prev.isConst = true →
        cur.isJumpIfFalse = true ∧ prev.constBool = true ∨
          cur.isJumpIfTrue = true ∧ prev.constBool = false → cur.isLabel = true) →
        Stands opts st.seq.constants p cur q.head? :=
      hjumps hj.1 fun hzero => absurd hzero (hne hj.1)
    -- whichever of the two tests holds, the jump is handed to `replaceJumpInsn`
    have hreplaced : (cur.is .opJumpIfFalse = true → p.getLast?.any (·.constBool) = true) →
        st.replaceJumpInsn cur = .ok (st₁, deleted) → Passes opts st p cur q st' next := by
      intro hwhy hjump
      rcases replaceJumpInsn_cases hjump with ⟨hlabel, -, rfl, rfl⟩ | ⟨-, -, hremove, rfl⟩ |
        ⟨hlabel, hkind, rfl, rfl⟩
      · cases hrest
        exact .stands (hquiet fun _ _ _ _ => hlabel)
      · cases hrest
        rcases Iseq.alike_of_remove hsplit hremove with ⟨g, hinsns, -, -⟩
        refine .restarts ?_
        rw [hinsns, hsplit]
        simp
      · cases hrest
        exact .pops hkind hlabel (.inr (hwhy hkind))
    unfold OptState.replaceConstJump at hreplace
    split at hreplace
    · rename_i hfalse
      rw [Bool.and_eq_true] at hfalse
      exact hreplaced (fun _ => hfalse.2) hreplace
    rename_i hnofalse
    split at hreplace
    · rename_i htrue
      rw [Bool.and_eq_true, Insn.isJumpIfTrue, Insn.is_eq_true] at htrue
      refine hreplaced (fun hkind => ?_) hreplace
      rw [Insn.is_eq_true, htrue.1] at hkind
      exact absurd hkind (by decide)
    rename_i hnotrue
    cases hreplace
    cases hrest
    refine .stands (hquiet fun prev hprev _ hjump => ?_)
    rw [Option.mem_def] at hprev
    rw [hprev, Option.any_some, Bool.and_eq_true] at hnofalse hnotrue
    rw [Bool.not_eq_true'] at hnotrue
    rcases hjump with hjump | hjump
    · exact absurd hjump hnofalse
    · exact absurd hjump hnotrue
  rename_i hnoconst
  have hconstJump : ∀ prev ∈ p.getLast?, prev.isConst = true →
      cur.isJumpIfFalse = true ∧ prev.constBool = true ∨
        cur.isJumpIfTrue = true ∧ prev.constBool = false → cur.isLabel = true := by
    intro prev hprev hconst hjump
    rw [Option.mem_def] at hprev
    rw [hprev, Option.any_some, hconst, Bool.and_true] at hnoconst
    rcases hjump with hjump | hjump
    · have hcode : cur.is .opJumpIfFalse = true := hjump.1
      simp [Insn.isJump, hcode] at hnoconst
    · have hcode : cur.is .opJumpIfTruePeek = true := hjump.1
      simp [Insn.isJump, hcode] at hnoconst
  have hstands : (∀ prev ∈ p.getLast?, prev.isConst = true → cur.isPop = true →
      opts.noRemoveUnusedExpressions = true ∨ q.head?.any (·.is .opBlockContinue) = true) →
      Stands opts st.seq.constants p cur q.head? :=
    fun hunused => ⟨hnofold, hpops, fun hjump hzero => absurd hzero (hne hjump), hconstJump,
      hunused⟩
  split at h
  · rename_i prev hlast
    split at h
    · rcases Except.bind_eq_ok.mp h with ⟨st₁, hst₁, hrest⟩
      rcases Except.bind_eq_ok.mp hrest with ⟨st₂, hst₂, hrest⟩
      cases hrest
      rcases List.getLast?_eq_some_iff.mp hlast with ⟨p', rfl⟩
      have hsplit' : st.seq.insns = p' ++ prev :: (cur :: q) := by simp [hsplit]
      rcases Iseq.alike_of_remove hsplit' hst₁ with ⟨g₁, hinsns₁, hg₁, -⟩
      have hsplit₁ : st₁.seq.insns = p'.map g₁ ++ g₁ cur :: q.map g₁ := by simp [hinsns₁]
      rw [← (hg₁ cur (by simp)).addr] at hst₂
      rcases Iseq.alike_of_remove hsplit₁ hst₂ with ⟨g₂, hinsns₂, -, -⟩
      refine .restarts ?_
      rw [hinsns₂, hsplit']
      simp only [List.length_append, List.length_map, List.length_cons]
      omega
    · rename_i hkept
      cases h
      refine .stands (hstands fun prev' hprev' hconst hpop => ?_)
      rw [hlast, Option.mem_def, Option.some.injEq] at hprev'
      subst hprev'
      by_contra hnone
      rw [not_or, Bool.not_eq_true, Bool.not_eq_true] at hnone
      apply hkept
      rw [hnone.1, hpop, Insn.noSideEffectsConst, hconst]
      cases q with
      | nil => rfl
      | cons y q =>
        have hy : y.is .opBlockContinue = false := hnone.2
        simp [hy]
  · rename_i hlast
    cases h
    refine .stands (hstands fun prev hprev => ?_)
    rw [hlast] at hprev
    cases hprev

omit [LoxNum ν] in
theorem consolidatePops_cases {cur' : Insn} (hsplit : st.seq.insns = p ++ cur :: q)
    (h : st.consolidatePops p.getLast? cur = .ok (st', cur')) :
    (st' = st ∧ cur' = cur ∧ ∀ prev ∈ p.getLast?, prev.isPopType = true → cur.isPopType = true →
      prev.isLabel = true ∨ cur.isLabel = true) ∨
    (∃ p' b c, ∃ g : Insn → Insn, p = p' ++ [b] ∧ b.isPopType = true ∧ b.isLabel = false ∧
      c.is .opPopN = true ∧ st'.seq.insns = p'.map g ++ c :: q.map g ∧
      (∀ i ∈ p' ++ q, i.Alike (g i)) ∧ st'.seq.constants = st.seq.constants ∧
      cur'.is .opPopN = true ∧ cur'.addr = cur.addr ∧ c.addr = cur.addr) := by
  unfold OptState.consolidatePops at h
  cases hlast : p.getLast? with
  | none =>
    rw [hlast] at h
    cases h
    exact .inl ⟨rfl, rfl, nofun⟩
  | some prev =>
    rw [hlast] at h
    dsimp only at h
    rcases List.getLast?_eq_some_iff.mp hlast with ⟨p', rfl⟩
    split at h
    · rename_i hboth
      simp only [Bool.and_eq_true, Bool.not_eq_true', Insn.isJumpTarget] at hboth
      rcases Except.bind_eq_ok.mp h with ⟨st₁, hst₁, hrest⟩
      have hsplit' : st.seq.insns = p' ++ prev :: (cur :: q) := by simp [hsplit]
      rcases Iseq.alike_of_remove hsplit' hst₁ with ⟨g₁, hinsns₁, hg₁, hconstants₁⟩
      have hcur : g₁ cur = cur :=
        (hg₁ cur (by simp)).same (Insn.not_patched_of_isPopType hboth.1.1.2).1
          (Insn.not_patched_of_isPopType hboth.1.1.2).2
      have hsplit₁ : st₁.seq.insns = p'.map g₁ ++ cur :: q.map g₁ := by simp [hinsns₁, hcur]
      split at hrest
      · rcases Except.bind_eq_ok.mp hrest with ⟨st₂, hst₂, hrest⟩
        cases hrest
        rcases Iseq.alike_of_addOperand hsplit₁ hst₂ with ⟨g₂, hinsns₂, hg₂, hconstants₂⟩
        have hmodify : (st₂.seq.modify cur.addr (fun i => { i with code := OpCode.opPopN.toNat })
            fun _ => rfl).insns = _ :=
          Iseq.modify_split (fun i => { i with code := OpCode.opPopN.toNat }) (fun _ => rfl) hinsns₂ rfl
        refine .inr ⟨p', prev, { cur with
          code := OpCode.opPopN.toNat
          operands := cur.operands ++ [(if prev.is .opPop then 1 else prev.operand0) + 1] },
          g₂ ∘ g₁, rfl, hboth.1.1.1, hboth.1.2, ?_, hmodify.trans ?_, ?_, ?_, ?_, rfl, rfl⟩
        · simp [Insn.is]
        · simp
        · intro i hi
          have hi₁ : i ∈ p' ++ cur :: q := by
            rw [List.mem_append] at hi ⊢
            rw [List.mem_cons]
            tauto
          have hi₂ : g₁ i ∈ p'.map g₁ ++ q.map g₁ := by
            rw [← List.map_append]
            exact List.mem_map_of_mem hi
          exact (hg₁ i hi₁).trans (hg₂ (g₁ i) hi₂)
        · exact hconstants₂.trans hconstants₁
        · simp [Insn.is]
      · rename_i hpop
        cases hrest
        have hpopN : cur.is .opPopN = true := by
          have hkind := hboth.1.1.2
          rw [Insn.isPopType, Bool.or_eq_true] at hkind
          rcases hkind with hkind | hkind
          · exact absurd hkind hpop
          · exact hkind
        have hmodify := Iseq.modify_split (fun i => i.setOperand0 ((i.operand0 +
          if prev.is .opPop then 1 else prev.operand0) % 2 ^ 32)) (fun _ => rfl) hsplit₁ rfl
        refine .inr ⟨p', prev, _, g₁, rfl, hboth.1.1.1, hboth.1.2, ?_, hmodify,
          fun i hi => hg₁ i ?_, hconstants₁, hpopN, rfl, rfl⟩
        · exact hpopN
        · rw [List.mem_append] at hi ⊢
          rw [List.mem_cons]
          tauto
    · rename_i hkept
      cases h
      refine .inl ⟨rfl, rfl, fun prev' hprev' hpop hpop' => ?_⟩
      rw [Option.mem_def, Option.some.injEq] at hprev'
      subst hprev'
      by_contra hnone
      rw [not_or, Bool.not_eq_true, Bool.not_eq_true] at hnone
      apply hkept
      rw [hpop, hpop', Insn.isJumpTarget, Insn.isJumpTarget, hnone.1, hnone.2]
      rfl

/-- All that a pass can do. -/
theorem optimizeStep_passes (hsplit : st.seq.insns = p ++ cur :: q)
    (h : st.optimizeStep opts cur = .ok (st', next)) : Passes opts st p cur q st' next := by
  unfold OptState.optimizeStep at h
  cases hfold : OptState.foldOperands st.seq cur with
  | some ops =>
    rcases ops with ⟨b, a⟩
    rcases OptState.foldOperands_split hsplit hfold with ⟨p', rfl, hb, ha⟩
    rw [hfold] at h
    exact foldConstants_passes hsplit (OptState.isBinOp_of_foldOperands hfold) ha hb h
  | none =>
    rw [hfold] at h
    dsimp only at h
    rw [Iseq.prev_of_split hsplit] at h
    rcases Except.bind_eq_ok.mp h with ⟨⟨st₁, cur'⟩, hpops, hrest⟩
    rcases consolidatePops_cases hsplit hpops with ⟨rfl, rfl, hkept⟩ |
      ⟨p', b, c, g, rfl, hb, hlabel, hc, hinsns, hg, hconstants, hcur', haddr, hcaddr⟩
    · exact simplifyJumpOrConst_passes hsplit hfold hkept hrest
    · -- the merged pop is neither a jump nor a single pop
      have hothers := Insn.only_popN hcur'
      have hnext := Iseq.next_of_split hinsns
      unfold OptState.simplifyJumpOrConst at hrest
      rw [haddr, ← hcaddr, hnext] at hrest
      dsimp only at hrest
      rw [hothers.2.1, Bool.false_and, if_neg Bool.false_ne_true, Bool.false_and,
        if_neg Bool.false_ne_true, hothers.2.2.1] at hrest
      simp only [Bool.and_false, Bool.false_and] at hrest
      have hsame := Insn.Alike.map_head (l := q) fun i hi =>
        hg i (List.mem_append_right _ hi)
      split at hrest <;> cases hrest <;> rw [hsame] <;>
        exact .merges rfl hb hlabel hc hinsns hg hconstants

/-! ## The loop ends -/

/-- A pass shortens the sequence, or leaves its length and moves on. -/
theorem Passes.moves (h : Passes opts st p cur q st' next)
    (hsplit : st.seq.insns = p ++ cur :: q) :
    ∃ p' q', st'.seq.insns = p' ++ q' ∧ next = q'.head?.map (·.addr) ∧
      (st'.seq.insns.length < st.seq.insns.length ∨
        st'.seq.insns.length = st.seq.insns.length ∧ q'.length = q.length) := by
  rcases h with hstands | ⟨rfl, -, -, -, -, hinsns, hg, -⟩ | hlt | ⟨-, hinsns, hg, -⟩ |
    ⟨rfl, -, -, -, hinsns, hg, -⟩ | -
  · exact ⟨p ++ [cur], q, by simp [hsplit], rfl, .inr ⟨rfl, rfl⟩⟩
  · refine ⟨_, _, hinsns, ?_, .inl ?_⟩
    · exact congrArg some (hg _ (by simp)).addr.symm
    · rw [hinsns, hsplit]
      simp
  · exact ⟨[], _, rfl, rfl, .inl hlt⟩
  · refine ⟨_, _, hinsns, ?_, .inl ?_⟩
    · exact (Insn.Alike.map_head fun i hi => hg i (List.mem_append_right _ hi)).symm
    · rw [hinsns, hsplit]
      simp
  · refine ⟨_ ++ [_], _, by rw [hinsns, List.append_assoc]; rfl, ?_, .inl ?_⟩
    · exact (Insn.Alike.map_head fun i hi => hg i (List.mem_append_right _ hi)).symm
    · rw [hinsns, hsplit]
      simp
  · have hinsns : (st.jumpToPop cur.addr).seq.insns = p ++ cur.asPop :: q :=
      Iseq.modify_split Insn.asPop (fun _ => rfl) hsplit rfl
    refine ⟨p ++ [cur.asPop], q, by simp [hinsns], rfl, .inr ⟨?_, rfl⟩⟩
    rw [hinsns, hsplit]
    simp only [List.length_append, List.length_cons]

omit [LoxNum ν] in
/-- The instruction under the cursor. -/
theorem insn_of_head {seq : Iseq ν} {a : Addr} (hsplit : seq.insns = p ++ q)
    (ha : q.head?.map (·.addr) = some a) (hcur : seq.insn? a = some cur) :
    ∃ q', q = cur :: q' ∧ cur.addr = a := by
  cases q with
  | nil => cases ha
  | cons x q' =>
    cases ha
    rw [seq.insn?_eq_some (by simp [hsplit])] at hcur
    cases hcur
    exact ⟨q', rfl, rfl⟩

/-- Passes enough to end: the square of the length, and what is behind the cursor. -/
theorem optimizeLoop_ends {fuel : ℕ} {c : Option Addr} (hsplit : st.seq.insns = p ++ q)
    (hfuel : st.seq.insns.length * st.seq.insns.length + q.length ≤ fuel)
    (h : st.optimizeLoop opts fuel (q.head?.map (·.addr)) = .ok (st', c)) : c = none := by
  induction fuel generalizing st p q with
  | zero =>
    have hnil : q = [] := List.length_eq_zero_iff.mp (by omega)
    rw [hnil] at h
    cases h
    rfl
  | succ fuel ih =>
    cases hcur : q.head?.map (·.addr) with
    | none =>
      rw [hcur] at h
      cases h
      rfl
    | some a =>
      rw [hcur] at h
      rcases OptState.optimizeLoop_succ h with ⟨cur, st₁, next, hinsn, hstep, hrest⟩
      rcases insn_of_head hsplit hcur hinsn with ⟨q, rfl, -⟩
      rcases (optimizeStep_passes hsplit hstep).moves hsplit with ⟨p', q', hsplit', rfl, hmoves⟩
      refine ih hsplit' ?_ hrest
      have hle : q'.length ≤ st₁.seq.insns.length := by
        rw [hsplit']
        simp
      rw [List.length_cons] at hfuel
      rcases hmoves with hlt | ⟨hsame, hq⟩
      · -- fewer instructions: their square is smaller by more than the cursor can lose
        have hsquare : st₁.seq.insns.length * (st₁.seq.insns.length + 1) ≤
            st.seq.insns.length * st.seq.insns.length :=
          Nat.mul_le_mul hlt.le hlt
        rw [Nat.mul_succ] at hsquare
        omega
      · rw [hsame, hq]
        omega

/-! ## What stands in front of the cursor -/

/-- No rule applies to any instruction of `done`, which `rest` follows. -/
def Settled (opts : CompilerOpts) (constants : List (Value ν)) (done rest : List Insn) : Prop :=
  ∀ p x q, done = p ++ x :: q → Stands opts constants p x (q ++ rest).head?

/-- An operator stands in `done` whose fold would read the constant that `a` refers to. -/
def FoldReads (done : List Insn) (a : Insn) : Prop :=
  ∃ p u v x q, done = p ++ u :: v :: x :: q ∧ x.isBinOp = true ∧ u.isNumConstOp = true ∧
    v.isNumConstOp = true ∧ (u.operand0 = a.operand0 ∨ v.operand0 = a.operand0)

/-- The pass at `cur` leaves nothing behind it that a rule applies to: a pop that it makes of a
conditional jump has no pop in front of it to be merged with and no constant to be removed with,
and no operator in front of a fold reads the constant that the fold overwrites. -/
structure LeavesSettled (opts : CompilerOpts) (seq : Iseq ν) (p : List Insn) (cur : Insn)
    (q : List Insn) : Prop where
  pops : cur.is .opJumpIfFalse = true → cur.isLabel = false →
    cur.operand0 = 0 ∨ p.getLast?.any (·.constBool) = true → ∀ prev ∈ p.getLast?,
      (prev.isPopType = true → prev.isLabel = true) ∧
      (prev.isConst = true →
        opts.noRemoveUnusedExpressions = true ∨ q.head?.any (·.is .opBlockContinue) = true)
  folds : ∀ p' a b, p = p' ++ [a, b] → cur.isBinOp = true → a.isNumConstOp = true →
    b.isNumConstOp = true → seq.foldConstant cur b a ≠ .ok .undef → ¬ FoldReads p' a

namespace Settled

variable {constants constants' : List (Value ν)} {done rest rest' : List Insn} {x : Insn}

theorem nil : Settled opts constants [] rest := by
  intro p x q h
  simp at h

theorem snoc (h : Settled opts constants done (x :: rest))
    (hx : Stands opts constants done x rest.head?) :
    Settled opts constants (done ++ [x]) rest := by
  intro p y q heq
  rcases List.eq_nil_or_concat q with rfl | ⟨q', z, rfl⟩
  · rcases List.append_inj' heq rfl with ⟨rfl, hxy⟩
    cases hxy
    exact hx
  · have hsplit : done ++ [x] = (p ++ y :: q') ++ [z] := by simpa using heq
    rcases List.append_inj' hsplit rfl with ⟨rfl, hxz⟩
    cases hxz
    have := h p y q' rfl
    rw [List.concat_eq_append, List.append_assoc]
    exact this

theorem front (h : Settled opts constants (done ++ [x]) rest) :
    Settled opts constants done (x :: rest) := by
  intro p y q heq
  have := h p y (q ++ [x]) (by simp [heq])
  rwa [List.append_assoc] at this

theorem last (h : Settled opts constants (done ++ [x]) rest) :
    Stands opts constants done x rest.head? := h done x [] rfl

end Settled

/-- Instructions that are alike stand as well. -/
theorem Stands.map {constants constants' : List (Value ν)} {x : Insn} {y y' : Option Insn}
    {g : Insn → Insn} (h : Stands opts constants p x y) (hg : ∀ i ∈ p ++ [x], i.Alike (g i))
    (hread : ∀ p' a b, p = p' ++ [a, b] → x.isBinOp = true → a.isNumConstOp = true →
      b.isNumConstOp = true → constants'[a.operand0]? = constants[a.operand0]? ∧
        constants'[b.operand0]? = constants[b.operand0]?)
    (hnext : y.any (·.is .opBlockContinue) = true → y'.any (·.is .opBlockContinue) = true) :
    Stands opts constants' (p.map g) (g x) y' := by
  have hx := hg x (by simp)
  have hlast : ∀ prev' ∈ (p.map g).getLast?, ∃ prev ∈ p.getLast?, g prev = prev' ∧
      prev.Alike (g prev) := by
    intro prev' hprev'
    rw [List.getLast?_map, Option.mem_def, Option.map_eq_some_iff] at hprev'
    rcases hprev' with ⟨prev, hprev, rfl⟩
    exact ⟨prev, hprev, rfl, hg prev (List.mem_append_left _ (List.mem_of_getLast? hprev))⟩
  refine ⟨fun p' a' b' hp hbin ha' hb' => ?_, fun prev' hprev' hpop hpop' => ?_,
    fun hjump hzero => ?_, fun prev' hprev' hconst hjump => ?_, fun prev' hprev' hconst hpop => ?_⟩
  · rcases List.map_eq_append_iff.mp hp with ⟨p₁, ab, rfl, rfl, hab⟩
    rcases List.map_eq_cons_iff.mp hab with ⟨a, bs, rfl, rfl, hbs⟩
    rcases List.map_eq_cons_iff.mp hbs with ⟨b, none, rfl, rfl, hnil⟩
    rcases List.map_eq_nil_iff.mp hnil
    -- neither the operator nor its operands are patched
    have ha := hg a (by simp)
    have hb := hg b (by simp)
    rw [ha.isNumConstOp] at ha'
    rw [hb.isNumConstOp] at hb'
    rw [hx.isBinOp] at hbin
    have hsamea := Insn.not_patched_of_isConst (Insn.isConst_of_isNumConstOp ha')
    have hsameb := Insn.not_patched_of_isConst (Insn.isConst_of_isNumConstOp hb')
    have hsamex := Insn.not_patched_of_isBinOp hbin
    rw [ha.same hsamea.1 hsamea.2, hb.same hsameb.1 hsameb.2, hx.same hsamex.1 hsamex.2]
    rcases hread p₁ a b rfl hbin ha' hb' with ⟨hra, hrb⟩
    rw [← h.fold p₁ a b rfl hbin ha' hb']
    exact foldConstant_congr hrb hra
  · rcases hlast prev' hprev' with ⟨prev, hprev, rfl, hsame⟩
    rw [hsame.isPopType] at hpop
    rw [hx.isPopType] at hpop'
    rw [hsame.isLabel, hx.isLabel]
    exact h.pops prev hprev hpop hpop'
  · rw [hx.isJump] at hjump
    have hzero' : x.operand0 = 0 := by
      by_contra hne
      exact hx.leads hne hzero
    rw [hx.isLabel, hx.is_eq]
    exact h.jumpNext hjump hzero'
  · rcases hlast prev' hprev' with ⟨prev, hprev, rfl, hsame⟩
    rw [hsame.isConst] at hconst
    rw [Insn.isJumpIfFalse, Insn.isJumpIfTrue, hx.is_eq, hx.is_eq, hsame.constBool] at hjump
    rw [hx.isLabel]
    exact h.constJump prev hprev hconst hjump
  · rcases hlast prev' hprev' with ⟨prev, hprev, rfl, hsame⟩
    rw [hsame.isConst] at hconst
    rw [Insn.isPop, hx.is_eq] at hpop
    exact (h.unused prev hprev hconst hpop).imp_right hnext

theorem Settled.map {constants constants' : List (Value ν)} {done rest rest' : List Insn}
    {g : Insn → Insn} (h : Settled opts constants done rest) (hg : ∀ i ∈ done, i.Alike (g i))
    (hread : ∀ p u v x q, done = p ++ u :: v :: x :: q → x.isBinOp = true →
      u.isNumConstOp = true → v.isNumConstOp = true →
      constants'[u.operand0]? = constants[u.operand0]? ∧
        constants'[v.operand0]? = constants[v.operand0]?)
    (hnext : rest.head?.any (·.is .opBlockContinue) = true →
      rest'.head?.any (·.is .opBlockContinue) = true) :
    Settled opts constants' (done.map g) rest' := by
  intro p' x' q' heq
  rcases List.map_eq_append_iff.mp heq with ⟨p, xq, rfl, rfl, hxq⟩
  rcases List.map_eq_cons_iff.mp hxq with ⟨x, q, rfl, rfl, rfl⟩
  refine (h p x q rfl).map (fun i hi => hg i ?_) (fun p₁ a b hp hbin ha hb => ?_) ?_
  · rcases List.mem_append.mp hi with hi | hi
    · exact List.mem_append_left _ hi
    · rw [List.mem_singleton.mp hi]
      simp
  · exact hread p₁ a b x q (by simp [hp]) hbin ha hb
  · cases q with
    | nil => exact hnext
    | cons z q =>
      have hz := (hg z (by simp)).is_eq .opBlockContinue
      intro hblock
      simpa [hz] using hblock

/-- A quiet pass: no rule applies in front of the new cursor. -/
theorem Passes.settles (h : Passes opts st p cur q st' next)
    (hsplit : st.seq.insns = p ++ cur :: q) (hquiet : LeavesSettled opts st.seq p cur q)
    (hs : Settled opts st.seq.constants p (cur :: q)) :
    ∃ p' q', st'.seq.insns = p' ++ q' ∧ next = q'.head?.map (·.addr) ∧
      Settled opts st'.seq.constants p' q' := by
  have hsame : ∀ (i j : ℕ), st.seq.constants[i]? = st.seq.constants[i]? ∧
      st.seq.constants[j]? = st.seq.constants[j]? := fun _ _ => ⟨rfl, rfl⟩
  rcases h with hstands | ⟨rfl, hbin, ha, hb, hv, hinsns, hg, hconstants⟩ | hlt |
    ⟨hjump, hinsns, hg, hconstants⟩ | ⟨rfl, hb, hlabel, hc, hinsns, hg, hconstants⟩ |
    ⟨hjump, hlabel, hwhy⟩
  · exact ⟨p ++ [cur], q, by simp [hsplit], rfl, hs.snoc hstands⟩
  · rename_i p' a b v g
    refine ⟨_, _, hinsns, ?_, ?_⟩
    · exact congrArg some (hg _ (by simp)).addr.symm
    · have hfront : Settled opts st.seq.constants p' (a :: b :: cur :: q) := by
        refine Settled.front (Settled.front ?_)
        rwa [List.append_assoc]
      refine hfront.map (fun i hi => hg i (by simp [hi])) (fun p₁ u w x q₁ heq hx hu hw => ?_)
        fun hblock => ?_
      · have hapart := hquiet.folds p' a b rfl hbin ha hb hv
        rw [hconstants]
        constructor
        · refine List.getElem?_set_ne fun heqa => hapart ?_
          exact ⟨p₁, u, w, x, q₁, heq, hx, hu, hw, .inl heqa.symm⟩
        · refine List.getElem?_set_ne fun heqa => hapart ?_
          exact ⟨p₁, u, w, x, q₁, heq, hx, hu, hw, .inr heqa.symm⟩
      · have hcode := Insn.isConst_of_isNumConstOp ha
        simp only [Insn.isConst, Bool.or_eq_true, Insn.is_eq_true] at hcode
        rcases hcode with ((hcode | hcode) | hcode) | hcode <;>
          simp [Insn.is, hcode] at hblock
  · exact ⟨[], _, rfl, rfl, .nil⟩
  · refine ⟨_, _, hinsns, ?_, ?_⟩
    · exact (Insn.Alike.map_head fun i hi => hg i (List.mem_append_right _ hi)).symm
    · refine hs.map (fun i hi => hg i (List.mem_append_left _ hi)) (fun _ u w _ _ _ _ _ _ => ?_)
        fun hblock => ?_
      · rw [hconstants]
        exact ⟨rfl, rfl⟩
      · have hother : cur.is .opBlockContinue = true := hblock
        rw [(Insn.only_jump hjump).2.2.2] at hother
        cases hother
  · rename_i p' b c g
    refine ⟨p'.map g ++ [c], q.map g, by rw [hinsns, List.append_assoc]; rfl, ?_, ?_⟩
    · exact (Insn.Alike.map_head fun i hi => hg i (List.mem_append_right _ hi)).symm
    have hothers := Insn.only_popN hc
    have hgfront : ∀ i ∈ p', i.Alike (g i) := fun i hi => hg i (List.mem_append_left _ hi)
    refine Settled.snoc (hs.front.map hgfront (fun _ u w _ _ _ _ _ _ => ?_) fun hblock => ?_) ?_
    · rw [hconstants]
      exact ⟨rfl, rfl⟩
    · have hother : b.is .opBlockContinue = true := hblock
      rw [Insn.is_eq_true] at hother
      simp [Insn.isPopType, Insn.is, hother] at hb
    · -- the merged pop, in the place of the two
      refine ⟨fun _ _ _ _ hbin => ?_, fun prev hprev hpop _ => ?_, fun hjump => ?_,
        fun _ _ _ hjump => ?_, fun _ _ _ hpop => ?_⟩
      · rw [hothers.1] at hbin
        cases hbin
      · rw [List.getLast?_map, Option.mem_def, Option.map_eq_some_iff] at hprev
        rcases hprev with ⟨prev, hprev, rfl⟩
        have hprevg := hgfront prev (List.mem_of_getLast? hprev)
        rw [hprevg.isPopType] at hpop
        rcases hs.last.pops prev hprev hpop hb with hl | hl
        · rw [hprevg.isLabel]
          exact .inl hl
        · rw [hlabel] at hl
          cases hl
      · rw [hothers.2.1] at hjump
        cases hjump
      · have hcode := Insn.is_eq_true.mp hc
        simp [Insn.isJumpIfFalse, Insn.isJumpIfTrue, Insn.is, hcode] at hjump
      · rw [hothers.2.2.1] at hpop
        cases hpop
  · have hinsns : (st.jumpToPop cur.addr).seq.insns = p ++ cur.asPop :: q :=
      Iseq.modify_split Insn.asPop (fun _ => rfl) hsplit rfl
    refine ⟨p ++ [cur.asPop], q, by simp [hinsns], rfl, Settled.snoc ?_ ?_⟩
    · have hnot : cur.is .opBlockContinue = false := by
        rw [Insn.is_eq_true] at hjump
        simp [Insn.is, hjump]
      have hkept : Settled opts st.seq.constants (p.map id) (cur.asPop :: q) :=
        hs.map (fun i _ => .refl i) (fun _ u w _ _ _ _ _ _ => hsame u.operand0 w.operand0)
          fun hblock => by
            have hother : cur.is .opBlockContinue = true := hblock
            rw [hnot] at hother
            cases hother
      rwa [List.map_id] at hkept
    · refine ⟨fun _ _ _ _ hbin => ?_, fun prev hprev hpop _ => ?_, fun hjump => ?_,
        fun _ _ _ hjump => ?_, fun prev hprev hconst _ => ?_⟩
      · simp [Insn.asPop, Insn.isBinOp, Insn.is] at hbin
      · exact .inl ((hquiet.pops hjump hlabel hwhy prev hprev).1 hpop)
      · simp [Insn.asPop, Insn.isJump, Insn.is] at hjump
      · simp [Insn.asPop, Insn.isJumpIfFalse, Insn.isJumpIfTrue, Insn.is] at hjump
      · exact (hquiet.pops hjump hlabel hwhy prev hprev).2 hconst

/-! ## The second run -/

namespace OptState

theorem optimizeLoop_none {fuel : ℕ} :
    st.optimizeLoop opts fuel none = .ok (st, none) := by
  cases fuel <;> rfl

theorem optimizeLoop_succ_eq {fuel : ℕ} {a : Addr} {st₁ : OptState ν}
    (hcur : st.seq.insn? a = some cur) (hstep : st.optimizeStep opts cur = .ok (st₁, next)) :
    st.optimizeLoop opts (fuel + 1) (some a) = st₁.optimizeLoop opts fuel next := by
  rw [optimizeLoop, hcur]
  dsimp only
  rw [hstep]
  rfl

/-- Passes in two rounds. -/
theorem optimizeLoop_add {k n : ℕ} {c c' : Option Addr} {st₁ : OptState ν}
    (h : st.optimizeLoop opts k c = .ok (st₁, c')) :
    st.optimizeLoop opts (k + n) c = st₁.optimizeLoop opts n c' := by
  induction k generalizing st c with
  | zero =>
    cases h
    rw [Nat.zero_add]
  | succ k ih =>
    cases c with
    | none =>
      rw [optimizeLoop_none] at h
      cases h
      rw [optimizeLoop_none, optimizeLoop_none]
    | some a =>
      rcases optimizeLoop_succ h with ⟨cur, st₂, next, hcur, hstep, hrest⟩
      rw [Nat.succ_add, optimizeLoop_succ_eq hcur hstep]
      exact ih hrest

/-- When all passes are quiet, no rule applies where the loop ends. -/
theorem optimizeLoop_settled {fuel : ℕ} (hsplit : st.seq.insns = p ++ q)
    (hs : Settled opts st.seq.constants p q)
    (hquiet : ∀ n st₁ p' cur q', st.optimizeLoop opts n (q.head?.map (·.addr)) =
      .ok (st₁, some cur.addr) → st₁.seq.insns = p' ++ cur :: q' → LeavesSettled opts st₁.seq p' cur q')
    (h : st.optimizeLoop opts fuel (q.head?.map (·.addr)) = .ok (st', none)) :
    Settled opts st'.seq.constants st'.seq.insns [] := by
  induction fuel generalizing st p q with
  | zero =>
    cases q with
    | nil =>
      cases h
      rw [hsplit, List.append_nil]
      exact hs
    | cons x q => cases h
  | succ fuel ih =>
    cases q with
    | nil =>
      cases h
      rw [hsplit, List.append_nil]
      exact hs
    | cons x q =>
      rcases optimizeLoop_succ h with ⟨cur, st₁, next, hcur, hstep, hrest⟩
      rw [st.seq.insn?_eq_some (by simp [hsplit])] at hcur
      cases hcur
      have hfirst := hquiet 0 st p x q rfl hsplit
      rcases (optimizeStep_passes hsplit hstep).settles hsplit hfirst hs with
        ⟨p', q', hsplit', rfl, hs'⟩
      refine ih hsplit' hs' (fun n st₂ p₂ cur₂ q₂ hloop hinsns => ?_) hrest
      have hx : st.seq.insn? x.addr = some x := st.seq.insn?_eq_some (by simp [hsplit])
      refine hquiet (n + 1) st₂ p₂ cur₂ q₂ ?_ hinsns
      exact (optimizeLoop_succ_eq hx hstep).trans hloop

/-- Where no rule applies, the loop goes through and changes nothing. -/
theorem optimizeLoop_through {fuel : ℕ} (hsplit : st.seq.insns = p ++ q)
    (hs : Settled opts st.seq.constants st.seq.insns []) (hfuel : q.length ≤ fuel) :
    st.optimizeLoop opts fuel (q.head?.map (·.addr)) = .ok (st, none) := by
  induction q generalizing fuel p with
  | nil => exact optimizeLoop_none
  | cons x q ih =>
    cases fuel with
    | zero => simp at hfuel
    | succ fuel =>
      have hx : st.seq.insn? x.addr = some x := st.seq.insn?_eq_some (by simp [hsplit])
      have hstands := hs p x q hsplit
      rw [List.append_nil] at hstands
      show st.optimizeLoop opts (fuel + 1) (some x.addr) = _
      rw [optimizeLoop_succ_eq hx (hstands.pass hsplit)]
      refine ih (p := p ++ [x]) (by simp [hsplit]) ?_
      rw [List.length_cons] at hfuel
      omega

end OptState

omit [LoxNum ν] in
theorem Iseq.le_optimizeFuel (seq : Iseq ν) :
    seq.insns.length * seq.insns.length + seq.insns.length ≤ seq.optimizeFuel := by
  unfold Iseq.optimizeFuel
  rw [Nat.mul_succ, Nat.succ_mul]
  omega

/-- The optimizer ends on every sequence, and where all passes since the cursor was last sent
to the head were quiet, a second run changes nothing. -/
theorem optimizeIseq_settles (opts : CompilerOpts) (seq : Iseq ν) :
    (∀ fuel st c, seq.optimizeFuel ≤ fuel → OptState.optimizeLoop opts fuel { seq }
      (seq.insns.head?.map (·.addr)) = .ok (st, c) → c = none) ∧
    ∀ st k st₁, seq.optimizeIseq opts = .ok st →
      OptState.optimizeLoop opts k { seq } (seq.insns.head?.map (·.addr)) =
        .ok (st₁, st₁.seq.insns.head?.map (·.addr)) →
      (∀ n st₂ p cur q, st₁.optimizeLoop opts n (st₁.seq.insns.head?.map (·.addr)) =
        .ok (st₂, some cur.addr) → st₂.seq.insns = p ++ cur :: q →
          LeavesSettled opts st₂.seq p cur q) →
      st.seq.optimizeIseq opts = .ok { seq := st.seq } := by
  have hends : ∀ fuel st c, seq.optimizeFuel ≤ fuel → OptState.optimizeLoop opts fuel { seq }
      (seq.insns.head?.map (·.addr)) = .ok (st, c) → c = none := by
    intro fuel st c hfuel h
    refine optimizeLoop_ends (p := []) rfl ?_ h
    exact seq.le_optimizeFuel.trans hfuel
  refine ⟨hends, ?_⟩
  intro st k st₁ hrun hfirst hquiet
  rcases Except.bind_eq_ok.mp hrun with ⟨⟨st', c⟩, hloop, hst⟩
  cases hst
  obtain rfl := hends _ _ _ le_rfl hloop
  -- the passes behind the first `k` end in the same state
  have hlater : st₁.optimizeLoop opts seq.optimizeFuel
      (st₁.seq.insns.head?.map (·.addr)) = .ok (st, none) := by
    rw [← OptState.optimizeLoop_add hfirst, Nat.add_comm, OptState.optimizeLoop_add hloop,
      OptState.optimizeLoop_none]
  have hsettled := OptState.optimizeLoop_settled (p := []) rfl .nil hquiet hlater
  have hthrough : OptState.optimizeLoop opts st.seq.optimizeFuel { seq := st.seq }
      (st.seq.insns.head?.map (·.addr)) = .ok ({ seq := st.seq }, none) :=
    OptState.optimizeLoop_through (p := []) rfl hsettled
      ((Nat.le_add_left _ _).trans st.seq.le_optimizeFuel)
  unfold Iseq.optimizeIseq
  rw [hthrough]
  rfl

end

/-- Neither a fold nor a jump that could become a pop. -/
theorem LeavesSettled.of_plain [LoxNum ν] {opts : CompilerOpts} {seq : Iseq ν} {p q : List Insn}
    {cur : Insn} (hjump : cur.is .opJumpIfFalse = false) (hbin : cur.isBinOp = false) :
    LeavesSettled opts seq p cur q where
  pops h := by
    rw [hjump] at h
    cases h
  folds _ _ _ _ h := by
    rw [hbin] at h
    cases h

/-- The statement `true;` -/
def unusedTrue : Iseq ℤ where
  insns := [{ addr := 0, code := OpCode.opTrue.toNat }, { addr := 1, code := OpCode.opPop.toNat }]
  nextAddr := 2
  count := 2
  wordCount := 2
  nodup := by decide
  fresh := by decide

theorem optimizeIseq_settles_unusedTrue :
    ∃ st, unusedTrue.optimizeIseq {} = .ok st ∧ st.seq.optimizeIseq {} = .ok { seq := st.seq } := by
  have hrun : (unusedTrue.optimizeIseq {}).toOption.isSome = true := by decide +kernel
  rcases hst : unusedTrue.optimizeIseq {} with e | st
  · rw [hst] at hrun
    cases hrun
  refine ⟨st, rfl, (optimizeIseq_settles {} unusedTrue).2 st 0 { seq := unusedTrue } hst rfl ?_⟩
  intro n st₂ p cur q hloop hsplit
  have hplain : ∀ i ∈ unusedTrue.insns, i.is .opJumpIfFalse = false ∧ i.isBinOp = false := by
    decide
  have hmem : cur ∈ st₂.seq.insns := by simp [hsplit]
  -- the first two passes find the sequence as it was written
  have hwritten : ({ seq := unusedTrue } : OptState ℤ) = st₂ → LeavesSettled {} st₂.seq p cur q := by
    rintro rfl
    exact .of_plain (hplain cur hmem).1 (hplain cur hmem).2
  rcases n with _ | _ | n
  · exact hwritten (congrArg Prod.fst (Except.ok.inj hloop))
  · exact hwritten (congrArg Prod.fst (Except.ok.inj hloop))
  · have hend : ∃ st', OptState.optimizeLoop {} 2 { seq := unusedTrue }
        (unusedTrue.insns.head?.map (·.addr)) = .ok (st', none) := ⟨_, rfl⟩
    rcases hend with ⟨st', hst'⟩
    rw [Nat.add_comm n 2, OptState.optimizeLoop_add hst', OptState.optimizeLoop_none] at hloop
    cases hloop

/-! ## Where a second run goes on -/

/-- `true` in front of a conditional jump, and `nil` behind it. -/
def trueTest : Iseq ℤ where
  insns := [{ addr := 0, code := OpCode.opTrue.toNat },
    { addr := 1, code := OpCode.opJumpIfFalse.toNat, operands := [1], jumpTo := some 3 },
    { addr := 2, code := OpCode.opNil.toNat }, { addr := 3, code := OpCode.opLeave.toNat }]
  nextAddr := 4
  count := 4
  wordCount := 5
  nodup := by decide
  fresh := by decide

/-- `1 / 0`, then `0 + 1` of the same two constants. -/
def sharedConstants : Iseq ℤ where
  insns := [{ addr := 0, code := OpCode.opConstant.toNat, operands := [0], flNumber := true },
    { addr := 1, code := OpCode.opConstant.toNat, operands := [1], flNumber := true },
    { addr := 2, code := OpCode.opDivide.toNat },
    { addr := 3, code := OpCode.opConstant.toNat, operands := [1], flNumber := true },
    { addr := 4, code := OpCode.opConstant.toNat, operands := [0], flNumber := true },
    { addr := 5, code := OpCode.opAdd.toNat }]
  constants := [.number 1, .number 0]
  nextAddr := 6
  count := 6
  wordCount := 10
  nodup := by decide
  fresh := by decide

/-- The codes that a first and a second run of the optimizer leave. -/
def twice (seq : Iseq ℤ) : Except Abort (List ℕ × List ℕ) := do
  let st ← seq.optimizeIseq {}
  let again ← st.seq.optimizeIseq {}
  return (st.seq.insns.map (·.code), again.seq.insns.map (·.code))

theorem goes_on_of_twice {seq : Iseq ℤ} {codes codes' : List ℕ}
    (h : twice seq = .ok (codes, codes')) (hne : codes' ≠ codes) :
    ∃ st st', seq.optimizeIseq {} = .ok st ∧ st.seq.optimizeIseq {} = .ok st' ∧
      st'.seq.insns ≠ st.seq.insns := by
  rcases Except.bind_eq_ok.mp h with ⟨st, hst, hrest⟩
  rcases Except.bind_eq_ok.mp hrest with ⟨st', hst', hpair⟩
  cases hpair
  refine ⟨st, st', hst, hst', ?_⟩
  intro hsame
  exact hne (congrArg (List.map (·.code)) hsame)

/-- A second run removes `true` with the pop that its jump became, and folds the division whose
divisor was overwritten. -/
theorem optimizeIseq_goes_on :
    (∃ st st', trueTest.optimizeIseq {} = .ok st ∧ st.seq.optimizeIseq {} = .ok st' ∧
      st'.seq.insns ≠ st.seq.insns) ∧
    ∃ st st', sharedConstants.optimizeIseq {} = .ok st ∧ st.seq.optimizeIseq {} = .ok st' ∧
      st'.seq.insns ≠ st.seq.insns := by
  have htrue : twice trueTest = .ok ([OpCode.opTrue, .opPop, .opNil, .opLeave].map OpCode.toNat,
      [OpCode.opNil, .opLeave].map OpCode.toNat) := by decide +kernel
  have hshared : twice sharedConstants = .ok ([OpCode.opConstant, .opConstant, .opDivide,
      .opConstant].map OpCode.toNat, [OpCode.opConstant, .opConstant].map OpCode.toNat) := by
    decide +kernel
  exact ⟨goes_on_of_twice htrue (by decide), goes_on_of_twice hshared (by decide)⟩

end Clox
