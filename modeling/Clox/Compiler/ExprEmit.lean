import Clox.Compiler.ExprCode

/-! # The emission of expressions

`emitNode` appends code that pushes the value of the tree (`emitted_node`), by
one lemma for each function it calls.
-/

namespace Clox

open Layout (width)

variable {ν : Type}

namespace Emit

/-- The instruction `emitInsn` adds. -/
def newInsn (s : CompState ν) (code : ℕ) (operands : List ℕ) (flNumber : Bool) : Insn :=
  { addr := s.current.iseq.nextAddr, code, operands, flNumber, isLabel := s.nextInsnIsLabel }

theorem emitInsn_eq_ok {code : ℕ} {operands : List ℕ} {flNumber : Bool} {s s' : CompState ν}
    {a : Addr} (h : emitInsn code operands flNumber s = .ok (a, s')) :
    a = s.current.iseq.nextAddr ∧
      s'.current.iseq.insns = s.current.iseq.insns ++ [newInsn s code operands flNumber] ∧
      s'.current.iseq.constants = s.current.iseq.constants ∧
      s'.current.constTbl = s.current.constTbl ∧ s'.current.locals = s.current.locals ∧
      s'.enclosing = s.enclosing ∧ s'.current.hadError = s.current.hadError := by
  cases h
  exact ⟨rfl, rfl, rfl, rfl, rfl, rfl, rfl⟩

variable [LoxNum ν] {w : World ν} {s s' : CompState ν}

/-- An instruction that is no jump, behind new constants. -/
theorem emitted_insn {s₀ : CompState ν} (h₀ : Emitted w s₀ s [] some) {op : OpCode}
    {operands : List ℕ} {flNumber : Bool} {a : Addr}
    {f : List (Value ν) → Option (List (Value ν))}
    (h : emitInsn op.toNat operands flNumber s = .ok (a, s'))
    (hexpr : op.isExpr = true) (hjump : op ≠ .opJumpIfFalsePeek ∧ op ≠ .opJumpIfTruePeek)
    (hfits : Insn.OperandsFit s.current.iseq.constants op operands)
    (hslots : op = .opConstant → s₀.current.iseq.constants.length ≤ operands.headD 0)
    (hexec : ∀ constants, s.current.iseq.constants <+: constants → ∀ code st,
      w.execOp constants op (operands ++ code) st = (f st).map fun st' => (operands.length, st')) :
    ∃ l, Emitted w s₀ s' l f := by
  obtain ⟨-, hinsns, hconsts, htbl, hlocals, henclosing, herr⟩ := emitInsn_eq_ok h
  refine ⟨[newInsn s op.toNat operands flNumber], ?_, hconsts ▸ h₀.constants,
    hlocals.trans h₀.locals, henclosing.trans h₀.enclosing, herr.trans h₀.hadError, ?_,
    ⟨?_, trivial⟩, ?_, ?_, ?_, ?_⟩
  · rw [hinsns, h₀.insns, List.append_nil]
  · intro hmemo name idx hidx
    rw [hconsts]
    exact h₀.memoized hmemo name idx (htbl ▸ hidx)
  · intro hj
    cases op <;> simp_all [newInsn, Insn.isJump, Insn.is, OpCode.isExpr]
  · intro i hi
    rw [List.mem_singleton] at hi
    subst hi
    exact ⟨op, rfl, hexpr, hconsts ▸ hfits⟩
  · by_cases hop : op = .opConstant <;> simp [numberSlots, newInsn, Insn.is, hop]
  · intro idx hidx
    by_cases hop : op = .opConstant
    · subst hop
      obtain ⟨k, n, rfl, hn⟩ := hfits
      have hlt := (List.getElem?_eq_some_iff.mp hn).1
      obtain rfl : idx = k := by simpa [numberSlots, newInsn, Insn.is, Insn.operand0] using hidx
      exact ⟨hslots rfl, by rw [hconsts]; exact hlt⟩
    · simp [numberSlots, newInsn, Insn.is, hop] at hidx
  · intro constants hsub code st
    rw [wordsOf_cons, wordsOf_nil, List.append_nil]
    exact exec_straight constants rfl hexpr code st (hexec constants (hconsts ▸ hsub) code st)

theorem emitted_op {s₀ : CompState ν} (h₀ : Emitted w s₀ s [] some) {op : OpCode}
    {operands : List ℕ} {f : List (Value ν) → Option (List (Value ν))}
    (h : emitOp op operands s = .ok ((), s')) (hexpr : op.isExpr = true)
    (hjump : op ≠ .opJumpIfFalsePeek ∧ op ≠ .opJumpIfTruePeek ∧ op ≠ .opConstant)
    (hfits : Insn.OperandsFit s.current.iseq.constants op operands)
    (hexec : ∀ constants, s.current.iseq.constants <+: constants → ∀ code st,
      w.execOp constants op (operands ++ code) st = (f st).map fun st' => (operands.length, st')) :
    ∃ l, Emitted w s₀ s' l f := by
  obtain ⟨a, s₁, hins, hpure⟩ := bind_eq_ok h
  cases hpure
  exact emitted_insn h₀ hins hexpr ⟨hjump.1, hjump.2.1⟩ hfits (fun hop => absurd hop hjump.2.2)
    hexec

/-- An opcode that pushes a value. -/
theorem emitted_push {s₀ : CompState ν} (h₀ : Emitted w s₀ s [] some) {op : OpCode}
    {operands : List ℕ} {v : Option (Value ν)}
    (h : emitOp op operands s = .ok ((), s')) (hexpr : op.isExpr = true)
    (hjump : op ≠ .opJumpIfFalsePeek ∧ op ≠ .opJumpIfTruePeek ∧ op ≠ .opConstant)
    (hfits : Insn.OperandsFit s.current.iseq.constants op operands)
    (hexec : ∀ constants, s.current.iseq.constants <+: constants → ∀ code st,
      w.execOp constants op (operands ++ code) st = v.map fun v => (operands.length, v :: st)) :
    ∃ l, Emitted w s₀ s' l fun st => v.map (· :: st) := by
  apply emitted_op h₀ h hexpr hjump hfits
  intro constants hsub code st
  rw [hexec constants hsub code st, Option.map_map]
  rfl

/-! ### Constants and literals -/

theorem makeConstant_eq_ok {value : Value ν} {idx : ℕ}
    (h : makeConstant value s = .ok (idx, s')) :
    Emitted w s s' [] some ∧ s'.current.iseq.constants[idx]? = some value ∧
      s.current.iseq.constants.length ≤ idx := by
  cases h
  have hsub : s.current.iseq.constants <+: s.current.iseq.constants ++ [value] :=
    List.prefix_append _ _
  refine ⟨⟨by simp, hsub, rfl, rfl, rfl, ?_, trivial, by simp, List.nodup_nil,
    by simp [numberSlots], by simp⟩, ?_, le_rfl⟩
  · intro hmemo name i hi
    exact getElem?_of_prefix hsub (hmemo name i hi)
  · simp

theorem identifierConstant_eq_ok {name : String} {idx : ℕ} (hmemo : s.Memoized)
    (h : identifierConstant name s = .ok (idx, s')) :
    Emitted w s s' [] some ∧ s'.current.iseq.constants[idx]? = some (.string name) := by
  obtain ⟨s₀, s₁, hget, h⟩ := bind_eq_ok h
  cases hget
  cases hlook : s.current.constTbl.lookup name with
  | some i =>
    simp only [hlook] at h
    cases h
    exact ⟨Emitted.refl s, hmemo name idx hlook⟩
  | none =>
    simp only [hlook] at h
    obtain ⟨i, s₁, hmake, h⟩ := bind_eq_ok h
    obtain ⟨hem, hidx, -⟩ := makeConstant_eq_ok (w := w) hmake
    cases h
    refine ⟨⟨hem.insns, hem.constants, hem.locals, hem.enclosing, hem.hadError, ?_, trivial,
      by simp, List.nodup_nil, by simp [numberSlots], by simp⟩, hidx⟩
    intro hm str j hj
    have hj' : ((name, idx) :: s₁.current.constTbl).lookup str = some j := hj
    rw [List.lookup_cons] at hj'
    by_cases hstr : str = name
    · subst hstr
      simp at hj'
      exact hj' ▸ hidx
    · have hne : (str == name) = false := beq_false_of_ne hstr
      rw [hne] at hj'
      exact hem.memoized hm str j hj'

omit [LoxNum ν] in
theorem readConstant_eq {constants constants' : List (Value ν)} (hsub : constants <+: constants')
    {idx : ℕ} {v : Value ν} (hv : constants[idx]? = some v) (code : List ℕ) :
    World.readConstant constants' (idx :: code) = some v := getElem?_of_prefix hsub hv

theorem emitted_number {n : ν} (h : emitNumber n s = .ok ((), s')) :
    ∃ l, Emitted w s s' l fun st => some (.number n :: st) := by
  obtain ⟨idx, s₁, hmake, hins⟩ := bind_eq_ok h
  obtain ⟨h₁, hidx, hle⟩ := makeConstant_eq_ok (w := w) hmake
  obtain ⟨a, s₂, hins, hpure⟩ := bind_eq_ok hins
  cases hpure
  refine emitted_insn h₁ hins rfl ⟨by decide, by decide⟩ ⟨idx, n, rfl, hidx⟩ (fun _ => hle) ?_
  intro constants hsub code st
  rw [List.singleton_append, World.execOp, readConstant_eq hsub hidx]
  rfl

theorem emitted_literal {lit : Literal} {access : String → Access} (hmemo : s.Memoized)
    (hlit : World.IsExpr access (.literal lit) = true)
    (h : emitLiteral lit s = .ok ((), s')) :
    ∃ l, Emitted w s s' l fun st => (World.literal lit).map (· :: st) := by
  cases lit with
  | number numStr => exact emitted_number h
  | regex str => simp [World.IsExpr] at hlit
  | string str isStatic =>
    obtain ⟨idx, s₁, hid, hop⟩ := bind_eq_ok h
    obtain ⟨h₁, hidx⟩ := identifierConstant_eq_ok (w := w) hmemo hid
    refine emitted_push (v := some (.string str)) h₁ hop rfl (by decide) ⟨idx, _, str, rfl, hidx⟩ ?_
    intro constants hsub code st
    rw [World.execOp, List.cons_append, readConstant_eq hsub hidx]
    rfl
  | true =>
    exact emitted_push (v := some (.bool true)) (Emitted.refl s) h rfl (by decide) rfl
      fun _ _ _ _ => rfl
  | false =>
    exact emitted_push (v := some (.bool false)) (Emitted.refl s) h rfl (by decide) rfl
      fun _ _ _ _ => rfl
  | nil =>
    exact emitted_push (v := some .nil) (Emitted.refl s) h rfl (by decide) rfl fun _ _ _ _ => rfl

/-! ### Variables -/

omit [LoxNum ν] in
theorem resolveUpvalue_none {name : String} {c : Compiler ν} {outer : List (Compiler ν)}
    (h : (Compiler.resolveUpvalue name c outer).2.2.1 = none) :
    Compiler.resolveUpvalue name c outer = (c, outer, none, false) := by
  induction outer generalizing c with
  | nil => rfl
  | cons o outer ih =>
    unfold Compiler.resolveUpvalue at h ⊢
    cases hslot : o.resolveLocal name with
    | some slot => simp [hslot] at h
    | none =>
      rcases hup : Compiler.resolveUpvalue name o outer with ⟨o', outer', _ | i, overflow⟩
      · have := ih (c := o) (by rw [hup])
        rw [hup] at this
        cases this
        rfl
      · simp [hslot, hup] at h

omit [LoxNum ν] in
/-- Whether a name is found around a function does not depend on the function. -/
theorem resolveUpvalue_isSome (name : String) (c : Compiler ν) (outer : List (Compiler ν)) :
    (Compiler.resolveUpvalue name c outer).2.2.1.isSome =
      outer.any fun o => (o.resolveLocal name).isSome := by
  induction outer generalizing c with
  | nil => rfl
  | cons o outer ih =>
    have ih' := ih o
    unfold Compiler.resolveUpvalue
    rw [List.any_cons]
    cases hslot : o.resolveLocal name with
    | some slot => rfl
    | none =>
      rcases hup : Compiler.resolveUpvalue name o outer with ⟨o', outer', _ | i, overflow⟩
      · rw [hup] at ih'
        exact ih'
      · rw [hup] at ih'
        exact ih'

omit [LoxNum ν] in
theorem access_eq (hlocals : s'.current.locals = s.current.locals)
    (henclosing : s'.enclosing = s.enclosing) : s'.access = s.access := by
  funext name
  have hlocal : s'.current.resolveLocal name = s.current.resolveLocal name := by
    rw [Compiler.resolveLocal, Compiler.resolveLocal, hlocals]
  have hup : (Compiler.resolveUpvalue name s'.current s'.enclosing).2.2.1.isSome =
      (Compiler.resolveUpvalue name s.current s.enclosing).2.2.1.isSome := by
    rw [resolveUpvalue_isSome, resolveUpvalue_isSome, henclosing]
  unfold CompState.access
  rw [hlocal]
  cases s.current.resolveLocal name with
  | some slot => rfl
  | none =>
    cases h' : (Compiler.resolveUpvalue name s'.current s'.enclosing).2.2.1 <;>
      cases h : (Compiler.resolveUpvalue name s.current s.enclosing).2.2.1 <;>
      simp [h, h'] at hup ⊢

theorem emitted_variable {name : String} (hmemo : s.Memoized) (hname : s.access name ≠ .upvalue)
    (h : namedVariable name .get s = .ok ((), s')) :
    ∃ l, Emitted w s s' l fun st => (w.readVariable s.access name).map (· :: st) := by
  unfold namedVariable at h
  obtain ⟨s₀, s₁, hget, h⟩ := bind_eq_ok h
  cases hget
  unfold CompState.access at hname
  unfold World.readVariable CompState.access
  cases hslot : s.current.resolveLocal name with
  | some slot =>
    simp only [hslot] at h
    obtain ⟨idx, s₁, hid, hop⟩ := bind_eq_ok h
    obtain ⟨h₁, -⟩ := identifierConstant_eq_ok (w := w) hmemo hid
    exact emitted_push (v := some (w.locals slot)) h₁ hop rfl (by decide) ⟨slot, idx, rfl⟩
      fun _ _ _ _ => rfl
  | none =>
    cases hup : (Compiler.resolveUpvalue name s.current s.enclosing).2.2.1 with
    | some i => simp [hslot, hup] at hname
    | none =>
      simp only [hslot, resolveUpvalue_none hup] at h
      obtain ⟨u, s₁, hset, h⟩ := bind_eq_ok h
      cases hset
      rw [if_neg (by simp)] at h
      obtain ⟨idx, s₁, hid, hop⟩ := bind_eq_ok h
      obtain ⟨h₁, hidx⟩ := identifierConstant_eq_ok (w := w) hmemo hid
      have hop' : emitOp .opGetGlobal [idx] s₁ = .ok ((), s') := hop
      refine emitted_push (v := w.globals name) h₁ hop' rfl (by decide) ⟨idx, name, rfl, hidx⟩ ?_
      intro constants hsub code st
      rw [World.execOp, List.singleton_append, readConstant_eq hsub hidx]
      rfl

/-! ### Operators -/

/-- What an operator does to the stack. -/
def onTwo (f : Value ν → Value ν → Option (Value ν)) : List (Value ν) → Option (List (Value ν))
  | rhs :: lhs :: st => (f lhs rhs).map (· :: st)
  | _ => none

def onOne (f : Value ν → Option (Value ν)) : List (Value ν) → Option (List (Value ν))
  | v :: st => (f v).map (· :: st)
  | _ => none

omit [LoxNum ν] in
theorem withOperands_eq (f : Value ν → Value ν → Option (Value ν)) (st : List (Value ν)) :
    World.withOperands st f = (onTwo f st).map fun st' => (0, st') := by
  match st with
  | [] => rfl
  | [_] => rfl
  | rhs :: lhs :: st => simp [World.withOperands, onTwo, Option.map_map, Function.comp_def]

omit [LoxNum ν] in
theorem withOperand_eq (f : Value ν → Option (Value ν)) (st : List (Value ν)) :
    World.withOperand st f = (onOne f st).map fun st' => (0, st') := by
  match st with
  | [] => rfl
  | v :: st => simp [World.withOperand, onOne, Option.map_map, Function.comp_def]

theorem emitted_binary {tok : BinaryTok} (h : emitBinaryOp tok s = .ok ((), s')) :
    ∃ l, Emitted w s s' l (onTwo (w.binary tok.opcode)) := by
  cases tok
  all_goals
    refine emitted_op (Emitted.refl s) h rfl (by decide) rfl fun constants _ code st => ?_
    exact withOperands_eq _ st

theorem emitted_indexGet (h : emitOp .opIndexGet [] s = .ok ((), s')) :
    ∃ l, Emitted w s s' l (onTwo (w.binary .opIndexGet)) :=
  emitted_op (Emitted.refl s) h rfl (by decide) rfl fun _ _ _ st => withOperands_eq _ st

theorem emitted_unary {tok : UnaryTok}
    (h : emitOp (if tok = .minus then .opNegate else .opNot) [] s = .ok ((), s')) :
    ∃ l, Emitted w s s' l (onOne (World.unary tok)) := by
  cases tok with
  | minus =>
    exact emitted_op (Emitted.refl s) h rfl (by decide) rfl fun _ _ _ st => withOperand_eq _ st
  | bang =>
    exact emitted_op (Emitted.refl s) h rfl (by decide) rfl fun _ _ _ st => withOperand_eq _ st

/-- Values on top of the stack become one. -/
theorem emitted_collect {op : OpCode} {n : ℕ} {f : List (Value ν) → Value ν}
    (h : emitOp op [n] s = .ok ((), s'))
    (hop : op = .opArray ∧ f = .array ∨ op = .opMap ∧ f = fun vs => .map (w.mapOf [] vs)) :
    ∃ l, Emitted w s s' l fun st =>
      if n ≤ st.length then some (f (st.take n) :: st.drop n) else none := by
  obtain ⟨rfl, rfl⟩ | ⟨rfl, rfl⟩ := hop
  all_goals
    refine emitted_op (Emitted.refl s) h rfl (by decide) ⟨n, rfl⟩ fun constants _ code st => ?_
    simp only [World.execOp, World.collect, List.singleton_append]
    split <;> rfl

/-! ### `and` and `or` -/

omit [LoxNum ν] in
theorem insns_modify_of_split {seq : Iseq ν} {pre post : List Insn} {x : Insn}
    (h : seq.insns = pre ++ x :: post) (f : Insn → Insn) (hf : ∀ i, (f i).addr = i.addr) :
    (seq.modify x.addr f hf).insns = pre ++ f x :: post := by
  have hnd := seq.nodup
  rw [h, List.map_append, List.map_cons, List.nodup_append', List.nodup_cons,
    List.disjoint_cons_right] at hnd
  obtain ⟨-, ⟨hpost, -⟩, hpre, -⟩ := hnd
  have hkeep : ∀ {l : List Insn}, x.addr ∉ l.map (·.addr) →
      l.map (fun i => if i.addr = x.addr then f i else i) = l := by
    intro l hl
    refine (List.map_congr_left fun i hi => ?_).trans (List.map_id l)
    have hne : i.addr ≠ x.addr := fun heq => hl (List.mem_map.mpr ⟨i, hi, heq⟩)
    exact if_neg hne
  rw [Iseq.modify, Iseq.insns_mapInsns, h, List.map_append, List.map_cons, hkeep hpre, hkeep hpost,
    if_pos rfl]

omit [LoxNum ν] in
theorem insnOffset_eq_ok {first last : Addr} {n : ℕ}
    (h : insnOffset first last s = .ok (n, s')) :
    s' = s ∧ n = width Insn.size
      ((s.current.iseq.insns.drop (Layout.index (·.addr) s.current.iseq.insns first)).take
        (Layout.index (·.addr) s.current.iseq.insns last -
          Layout.index (·.addr) s.current.iseq.insns first)) := by
  obtain ⟨seq, s₁, hseq, h⟩ := bind_eq_ok h
  cases hseq
  obtain ⟨u, s₁, hassert, h⟩ := bind_eq_ok h
  cases h
  refine ⟨?_, rfl⟩
  exact (assert_eq_ok hassert).2

omit [LoxNum ν] in
theorem patchJumpTo_eq_ok {j t : Addr} {offset : ℕ}
    (h : patchJumpTo j offset t false s = .ok ((), s')) :
    s' = { s with current := { s.current with
      iseq := ((s.current.iseq.modify j (fun i => i.setOperand0 offset) fun _ => rfl).modify j
        (fun i => { i with jumpTo := some t }) (addr_jumpTo t)).modify t
        (fun i => { i with isLabel := true }) addr_label } } := by
  unfold patchJumpTo at h
  obtain ⟨seq, s₁, hseq, h⟩ := bind_eq_ok h
  cases hseq
  obtain ⟨patch, s₁, hderef, h⟩ := bind_eq_ok h
  rw [(deref_eq_ok hderef).2] at h
  obtain ⟨_, s₂, hzero, h⟩ := bind_eq_ok h
  rw [(assert_eq_ok hzero).2] at h
  obtain ⟨_, s₃, hnone, h⟩ := bind_eq_ok h
  rw [(assert_eq_ok hnone).2] at h
  obtain ⟨_, s₄, hop, h⟩ := bind_eq_ok h
  cases hop
  rw [if_neg (by decide)] at h
  obtain ⟨_, s₅, hto, h⟩ := bind_eq_ok h
  cases hto
  cases h
  rfl

omit [LoxNum ν] in
/-- Patching a jump to an instruction behind it. -/
theorem insns_patchJumpTo {pre mid post : List Insn} {j t : Insn} {offset : ℕ}
    (hsplit : s.current.iseq.insns = pre ++ j :: (mid ++ t :: post))
    (h : patchJumpTo j.addr offset t.addr false s = .ok ((), s')) :
    s'.current.iseq.insns = pre ++ { j.setOperand0 offset with jumpTo := some t.addr } ::
        (mid ++ { t with isLabel := true } :: post) := by
  obtain rfl := patchJumpTo_eq_ok h
  -- the three stores, one after the other
  have h₁ := insns_modify_of_split hsplit (fun i => i.setOperand0 offset) fun _ => rfl
  have h₂ := insns_modify_of_split h₁ (fun i => { i with jumpTo := some t.addr })
    (addr_jumpTo t.addr)
  rw [← List.cons_append, ← List.append_assoc] at h₂
  have h₃ := insns_modify_of_split h₂ (fun i => { i with isLabel := true }) addr_label
  rw [List.append_assoc, List.cons_append] at h₃
  exact h₃

/-- Where the left operand is on the stack: it stays there, or the right one is evaluated. -/
def onLeft (tok : LogicalTok) (f : List (Value ν) → Option (List (Value ν))) :
    List (Value ν) → Option (List (Value ν))
  | [] => none
  | lhs :: st =>
    if World.decides tok lhs then some (lhs :: st)
    else (f (lhs :: st)).bind (onTwo fun lhs rhs => some (World.logical tok lhs rhs))

/-- The opcodes of `and` and of `or`. -/
structure LogicalOps (tok : LogicalTok) (jump op : OpCode) : Prop where
  jump_eq : jump = if tok = .and then .opJumpIfFalsePeek else .opJumpIfTruePeek
  op_eq : op = if tok = .and then .opAnd else .opOr

namespace LogicalOps

variable {tok : LogicalTok} {jump op : OpCode}

theorem isExpr (h : LogicalOps tok jump op) : jump.isExpr = true ∧ op.isExpr = true := by
  obtain ⟨rfl, rfl⟩ := h
  cases tok <;> decide

omit [LoxNum ν] in
theorem fit (h : LogicalOps tok jump op) (constants : List (Value ν)) (n : ℕ) :
    Insn.OperandsFit constants jump [n] ∧ Insn.OperandsFit constants op [] := by
  obtain ⟨rfl, rfl⟩ := h
  cases tok
  · exact ⟨⟨n, rfl⟩, rfl⟩
  · exact ⟨⟨n, rfl⟩, rfl⟩

theorem isLogical (h : LogicalOps tok jump op) {t : Insn} (ht : t.code = op.toNat) :
    t.isLogical = true ∧ t.isJump = false := by
  obtain ⟨rfl, rfl⟩ := h
  cases tok <;> simp [Insn.isLogical, Insn.isJump, Insn.is, ht]

theorem numberSlots_cons (h : LogicalOps tok jump op) {j : Insn} (hj : j.code = jump.toNat)
    (l : List Insn) : numberSlots (j :: l) = numberSlots l := by
  obtain ⟨rfl, rfl⟩ := h
  cases tok <;> simp [numberSlots, Insn.is, hj]

theorem numberSlots_op (h : LogicalOps tok jump op) {t : Insn} (ht : t.code = op.toNat) :
    numberSlots [t] = [] := by
  obtain ⟨rfl, rfl⟩ := h
  cases tok <;> simp [numberSlots, Insn.is, ht]

theorem execOp_jump (h : LogicalOps tok jump op) (constants : List (Value ν)) (n : ℕ)
    (code : List ℕ) (lhs : Value ν) (st : List (Value ν)) :
    w.execOp constants jump (n :: code) (lhs :: st) =
      some (if World.decides tok lhs then 1 + (n - 1) else 1, lhs :: st) := by
  obtain ⟨rfl, rfl⟩ := h
  cases tok
  · rfl
  · rfl

theorem execOp_op (h : LogicalOps tok jump op) (constants : List (Value ν)) (code : List ℕ)
    (st : List (Value ν)) :
    w.execOp constants op code st =
      (onTwo (fun lhs rhs => some (World.logical tok lhs rhs)) st).map fun st' => (0, st') := by
  obtain ⟨rfl, rfl⟩ := h
  cases tok
  · exact withOperands_eq _ st
  · exact withOperands_eq _ st

end LogicalOps

/-- A peeking jump, the right operand, and the operator the jump lands behind. -/
theorem exec_logical {tok : LogicalTok} {jump op : OpCode} (h : LogicalOps tok jump op)
    {constants : List (Value ν)} {j t : Insn} {l : List Insn}
    {f : List (Value ν) → Option (List (Value ν))}
    (hj : j.code = jump.toNat) (hjop : j.operands = [width Insn.size l + 2])
    (ht : t.code = op.toNat) (htop : t.operands = [])
    (hl : ∀ code st, w.exec constants 0 (wordsOf l ++ code) st =
      (f st).bind fun st' => w.exec constants 0 code st') (code : List ℕ) (st : List (Value ν)) :
    w.exec constants 0 (wordsOf (j :: (l ++ [t])) ++ code) st =
      (onLeft tok f st).bind fun st' => w.exec constants 0 code st' := by
  have hwords : wordsOf (j :: (l ++ [t])) ++ code = j.words ++ (wordsOf l ++ (t.words ++ code)) := by
    simp
  rw [hwords, exec_insn constants hj h.isExpr.1, hjop]
  cases st with
  | nil =>
    obtain ⟨rfl, rfl⟩ := h
    cases tok <;> rfl
  | cons lhs st =>
    rw [List.singleton_append, h.execOp_jump, onLeft, Option.bind_some]
    by_cases hd : World.decides tok lhs = true
    · -- over the right operand and the operator
      have hskip := exec_skip_words (w := w) constants
        ((width Insn.size l + 2) :: (wordsOf l ++ t.words)) 0 code (lhs :: st)
      have hlen : ((width Insn.size l + 2) :: (wordsOf l ++ t.words)).length + 0 =
          1 + (width Insn.size l + 2 - 1) := by
        simp [length_wordsOf, Insn.size, Insn.numOperands, htop]
        omega
      rw [hlen] at hskip
      rw [if_pos hd, if_pos hd]
      simpa using hskip
    · have hskip := exec_skip_words (w := w) constants [width Insn.size l + 2] 0
        (wordsOf l ++ (t.words ++ code)) (lhs :: st)
      rw [if_neg hd, if_neg hd]
      refine hskip.trans ((hl _ _).trans ?_)
      rw [Option.bind_assoc]
      congr 1
      funext st'
      refine exec_straight constants ht h.isExpr.2 code st' ?_
      rw [htop, h.execOp_op]
      rfl

/-- The jump has been emitted in front of the right operand, the operator behind it, and the jump
patched. -/
theorem emitted_logical {tok : LogicalTok} {jump op : OpCode} (hops : LogicalOps tok jump op)
    {s₁ s₂ s₃ s₄ : CompState ν} {l : List Insn} {f : List (Value ν) → Option (List (Value ν))}
    {skipRhsJump : Addr} {tail : Insn} {n : ℕ}
    (hjump : emitJump jump s = .ok (skipRhsJump, s₁)) (hl : Emitted w s₁ s₂ l f)
    (hop : emitOp op [] s₂ = .ok ((), s₃)) (htail : s₃.current.iseq.tail = some tail)
    (hoffset : insnOffset skipRhsJump tail.addr s₃ = .ok (n, s₄))
    (hpatch : patchJumpTo skipRhsJump n tail.addr false s₄ = .ok ((), s')) :
    ∃ l', Emitted w s s' l' (onLeft tok f) := by
  obtain ⟨rfl, hinsns₁, hconsts₁, htbl₁, hlocals₁, henclosing₁, herr₁⟩ := emitInsn_eq_ok hjump
  obtain ⟨a, s₃', hins, hpure⟩ := bind_eq_ok hop
  cases hpure
  obtain ⟨-, hinsns₃, hconsts₃, htbl₃, hlocals₃, henclosing₃, herr₃⟩ := emitInsn_eq_ok hins
  generalize hj : newInsn s jump.toNat [0] false = j at hinsns₁
  generalize ht : newInsn s₂ op.toNat [] false = t at hinsns₃
  have haddr : s.current.iseq.nextAddr = j.addr := hj ▸ rfl
  have hsplit : s₃.current.iseq.insns = s.current.iseq.insns ++ j :: (l ++ t :: []) := by
    rw [hinsns₃, hl.insns, hinsns₁]
    simp
  have hlast : s₃.current.iseq.insns = (s.current.iseq.insns ++ j :: l) ++ t :: [] := by
    rw [hsplit]
    simp
  obtain rfl : tail = t := by
    rw [Iseq.tail, hlast, List.getLast?_append] at htail
    exact (Option.some.inj htail).symm
  rw [haddr] at hoffset hpatch
  obtain ⟨rfl, hn⟩ := insnOffset_eq_ok hoffset
  have hwidth : n = width Insn.size l + 2 := by
    rw [hn, Layout.index_of_split s₄.current.iseq.nodup hsplit,
      Layout.index_of_split s₄.current.iseq.nodup hlast, hsplit]
    have htake : (s.current.iseq.insns ++ j :: l).length - s.current.iseq.insns.length =
        (j :: l).length := by
      rw [List.length_append]
      omega
    rw [List.drop_left, htake, ← List.cons_append, List.take_left, Layout.width_cons, ← hj]
    simp [newInsn, Insn.size, Insn.numOperands]
    omega
  have hinsns := insns_patchJumpTo hsplit hpatch
  obtain ⟨hconsts, htbl, hlocals, henclosing, herr⟩ :
      s'.current.iseq.constants = s₄.current.iseq.constants ∧
      s'.current.constTbl = s₄.current.constTbl ∧ s'.current.locals = s₄.current.locals ∧
      s'.enclosing = s₄.enclosing ∧ s'.current.hadError = s₄.current.hadError := by
    rw [patchJumpTo_eq_ok hpatch]
    exact ⟨rfl, rfl, rfl, rfl, rfl⟩
  set j' : Insn := { j.setOperand0 n with jumpTo := some tail.addr } with hj'
  set t' : Insn := { tail with isLabel := true } with ht'
  have hcodej : j'.code = jump.toNat := by rw [hj', ← hj]; rfl
  have hopsj : j'.operands = [width Insn.size l + 2] := by rw [hj', ← hj, hwidth]; rfl
  have hcodet : t'.code = op.toNat := by rw [ht', ← ht]; rfl
  have hopst : t'.operands = [] := by rw [ht', ← ht]; rfl
  have hconstants : s'.current.iseq.constants = s₂.current.iseq.constants :=
    hconsts.trans hconsts₃
  obtain ⟨hlogical, hnojump⟩ := hops.isLogical hcodet
  refine ⟨j' :: (l ++ [t']), hinsns, ?_, ?_, ?_, ?_, ?_, ⟨?_, ?_⟩, ?_, ?_, ?_, ?_⟩
  · rw [hconstants, ← hconsts₁]
    exact hl.constants
  · rw [hlocals, hlocals₃, hl.locals, hlocals₁]
  · rw [henclosing, henclosing₃, hl.enclosing, henclosing₁]
  · rw [herr, herr₃, hl.hadError, herr₁]
  · intro hmemo name idx hidx
    have hmemo₁ : s₁.Memoized := fun name idx hidx => by
      rw [hconsts₁]
      exact hmemo name idx (htbl₁ ▸ hidx)
    rw [hconstants]
    exact hl.memoized hmemo₁ name idx (by rwa [← htbl₃, ← htbl])
  · exact fun _ => ⟨l, t', [], rfl, rfl, hlogical, hopst, hopsj⟩
  · exact hl.closed.append ⟨fun h => absurd h (by simp [hnojump]), trivial⟩
  · intro i hi
    rw [hconstants]
    rcases List.mem_cons.mp hi with rfl | hi
    · exact ⟨jump, hcodej, hops.isExpr.1, hopsj ▸ (hops.fit _ _).1⟩
    rcases List.mem_append.mp hi with hi | hi
    · exact hl.fits i hi
    · rw [List.mem_singleton] at hi
      subst hi
      exact ⟨op, hcodet, hops.isExpr.2, hopst ▸ (hops.fit _ 0).2⟩
  · rw [hops.numberSlots_cons hcodej, numberSlots_append, hops.numberSlots_op hcodet,
      List.append_nil]
    exact hl.nodup
  · rw [hops.numberSlots_cons hcodej, numberSlots_append, hops.numberSlots_op hcodet,
      List.append_nil, hconstants, ← hconsts₁]
    exact hl.slots
  · intro constants hsub code st
    exact exec_logical hops hcodej hopsj hcodet hopst
      (hl.runs constants (hconstants ▸ hsub)) code st

/-! ### Constant array and map literals -/

omit [LoxNum ν] in
/-- Not on the heap. -/
def Immediate : Value ν → Prop
  | .nil | .bool _ | .number _ => True
  | _ => False

theorem valEqual_of_immediate {k : Value ν} (hk : Immediate k) (key : Value ν)
    (objEqual objEqual' : Value ν → Value ν → Bool) :
    Value.valEqual objEqual k key = Value.valEqual objEqual' k key := by
  cases k <;> first | exact absurd hk id | (cases key <;> rfl)

theorem tableSet_of_immediate {key : Value ν} (hkey : Immediate key) (val : Value ν)
    (objEqual objEqual' : Value ν → Value ν → Bool) {entries : List (Value ν × Value ν)}
    (hentries : ∀ e ∈ entries, Immediate e.1) :
    Value.tableSet objEqual key val entries = Value.tableSet objEqual' key val entries ∧
      ∀ e ∈ Value.tableSet objEqual' key val entries, Immediate e.1 := by
  induction entries with
  | nil => simp [Value.tableSet, hkey]
  | cons e entries ih =>
    obtain ⟨k, v⟩ := e
    obtain ⟨heq, himm⟩ := ih fun e he => hentries e (List.mem_cons_of_mem _ he)
    have hk : Immediate k := hentries (k, v) List.mem_cons_self
    unfold Value.tableSet
    rw [valEqual_of_immediate hk key objEqual objEqual', heq]
    by_cases h : Value.valEqual objEqual' k key = true
    · simp only [h, if_true, true_and]
      intro e he
      rcases List.mem_cons.mp he with rfl | he
      · exact hkey
      · exact hentries e (List.mem_cons_of_mem _ he)
    · simp only [h, true_and]
      intro e he
      rcases List.mem_cons.mp he with rfl | he
      · exact hk
      · exact himm e he

/-- The constant of a map literal is the map `OP_MAP` makes. -/
theorem mapConstant_eq {vs : List (Value ν)} (hvs : ∀ v ∈ vs, Immediate v)
    {entries : List (Value ν × Value ν)} (hentries : ∀ e ∈ entries, Immediate e.1) :
    mapConstant entries vs = w.mapOf entries vs := by
  match vs with
  | [] => rfl
  | [_] => rfl
  | key :: val :: rest =>
    obtain ⟨heq, himm⟩ := tableSet_of_immediate (hvs key List.mem_cons_self) val
      w.objEqual (fun _ _ => false) hentries
    rw [mapConstant, World.mapOf, heq]
    exact mapConstant_eq (fun v hv => hvs v (by simp [hv])) himm

theorem constNode?_eq_some (access : String → Access) {n : Node} {v : Value ν}
    (h : constNode? n = some v) : w.eval access n = some v ∧ Immediate v := by
  unfold constNode? at h
  split at h <;> cases h
  all_goals exact ⟨by simp [World.eval, World.literal], trivial⟩

theorem constNodes?_eq_some (access : String → Access) {ns : List Node} {vs : List (Value ν)}
    (h : constNodes? ns = some vs) :
    w.evalChildren access ns = some vs ∧ ∀ v ∈ vs, Immediate v := by
  induction ns generalizing vs with
  | nil =>
    cases h
    exact ⟨by simp [World.evalChildren], by simp⟩
  | cons n rest ih =>
    unfold constNodes? at h
    split at h
    next v vs' hv hvs =>
      cases h
      obtain ⟨heval, himm⟩ := constNode?_eq_some (w := w) access hv
      obtain ⟨hevals, himms⟩ := ih hvs
      refine ⟨by simp [World.evalChildren, heval, hevals], ?_⟩
      intro u hu
      rcases List.mem_cons.mp hu with rfl | hu
      · exact himm
      · exact himms u hu
    next => cases h

/-! ### Errors -/

omit [LoxNum ν] in
theorem hadError_emitOp {op : OpCode} {operands : List ℕ} {u : Unit}
    (h : emitOp op operands s = .ok (u, s')) : s'.current.hadError = s.current.hadError := by
  obtain ⟨a, s₁, hins, hpure⟩ := bind_eq_ok h
  cases hpure
  exact (emitInsn_eq_ok hins).2.2.2.2.2.2

/-- The guard in front of every node. -/
def unlessError (m : Emit ν Unit) : Emit ν Unit := do
  if (← get).current.hadError then return ()
  m

theorem emitNode_eq (flipped : Bool) {access : String → Access} {n : Node}
    (hexpr : World.IsExpr access n = true) :
    ∃ m : Emit ν Unit, emitNode flipped n = unlessError m := by
  cases n <;> first | exact ⟨_, rfl⟩ | simp [World.IsExpr] at hexpr

omit [LoxNum ν] in
theorem run_unlessError (m : Emit ν Unit) (s : CompState ν) :
    unlessError m s = if s.current.hadError then .ok ((), s) else m s := by
  have hrun : unlessError m s =
      (if s.current.hadError then (pure () : Emit ν Unit) else m) s := rfl
  rw [hrun]
  cases s.current.hadError <;> rfl

omit [LoxNum ν] in
theorem run_of_unlessError {m : Emit ν Unit} {u : Unit}
    (h : unlessError m s = .ok (u, s')) (herr : s'.current.hadError = false) :
    s.current.hadError = false ∧ m s = .ok (u, s') := by
  rw [run_unlessError] at h
  split at h
  · cases h
    simp_all
  · simp_all

/-- After an error nothing is emitted, so it stays. -/
theorem hadError_of_emitNode {flipped : Bool} {access : String → Access} {n : Node}
    (hexpr : World.IsExpr access n = true) {u : Unit}
    (h : emitNode flipped n s = .ok (u, s')) (herr : s'.current.hadError = false) :
    s.current.hadError = false := by
  obtain ⟨m, hm⟩ := emitNode_eq (ν := ν) flipped hexpr
  rw [hm] at h
  exact (run_of_unlessError h herr).1

/-! ### Expressions -/

/-- Two operands. -/
theorem emitted_operands {lhs rhs : Node} {s₁ s₂ : CompState ν} {l₁ : List Insn}
    (h₁ : Emitted w s s₁ l₁ fun st => (w.eval s.access lhs).map (· :: st))
    (h₂ : ∃ l₂, Emitted w s₁ s₂ l₂ fun st => (w.eval s₁.access rhs).map (· :: st))
    {f : Value ν → Value ν → Option (Value ν)} (h₃ : ∃ l₃, Emitted w s₂ s' l₃ (onTwo f)) :
    ∃ l, Emitted w s s' l fun st =>
      ((w.eval s.access lhs).bind fun a => (w.eval s.access rhs).bind (f a)).map (· :: st) := by
  obtain ⟨l₂, h₂⟩ := h₂
  obtain ⟨l₃, h₃⟩ := h₃
  rw [access_eq h₁.locals h₁.enclosing] at h₂
  refine ⟨_, (h₁.append (h₂.append h₃)).congr fun st => ?_⟩
  cases w.eval s.access lhs with
  | none => rfl
  | some a =>
    cases w.eval s.access rhs with
    | none => rfl
    | some b => rfl

theorem length_evalChildren {access : String → Access} {ns : List Node} {vs : List (Value ν)}
    (h : w.evalChildren access ns = some vs) : vs.length = ns.length := by
  induction ns generalizing vs with
  | nil =>
    rw [World.evalChildren] at h
    cases h
    rfl
  | cons n rest ih =>
    rw [World.evalChildren] at h
    cases hv : w.eval access n with
    | none => simp [hv] at h
    | some v =>
      cases hvs : w.evalChildren access rest with
      | none => simp [hv, hvs] at h
      | some vs' =>
        rw [hv, hvs] at h
        cases h
        simp [ih hvs]

/-- An array or map literal, its children on the stack with the first on top. -/
theorem emitted_literalOf {ns : List Node} {s₁ : CompState ν} {op : OpCode}
    {f : List (Value ν) → Value ν}
    (h₁ : ∃ l, Emitted w s s₁ l fun st => (w.evalChildren s.access ns).map (· ++ st))
    (h : emitOp op [ns.length] s₁ = .ok ((), s'))
    (hop : op = .opArray ∧ f = .array ∨ op = .opMap ∧ f = fun vs => .map (w.mapOf [] vs)) :
    ∃ l, Emitted w s s' l fun st => ((w.evalChildren s.access ns).map f).map (· :: st) := by
  obtain ⟨l₁, h₁⟩ := h₁
  obtain ⟨l₂, h₂⟩ := emitted_collect h hop
  refine ⟨_, (h₁.append h₂).congr fun st => ?_⟩
  cases hvs : w.evalChildren s.access ns with
  | none => rfl
  | some vs =>
    have hlen : vs.length = ns.length := length_evalChildren hvs
    simp [← hlen]

/-- An array or map literal, of constants or not. -/
theorem emitted_collection {ns : List Node} {dup op : OpCode} {f const : List (Value ν) → Value ν}
    {msg : String}
    (hop : dup = .opDuparray ∧ op = .opArray ∧ f = .array ∧ const = .array ∨
      dup = .opDupmap ∧ op = .opMap ∧ f = (fun vs => .map (w.mapOf [] vs)) ∧
        const = fun vs => .map (mapConstant [] vs))
    (herr : s'.current.hadError = false)
    (h : (do
      if uint8Max ≤ ns.length then error msg
      else
        match constNodes? ns with
        | some els => emitOp dup [← makeConstant (const els)]
        | none =>
          emitChildrenRev false ns
          emitOp op [ns.length] : Emit ν Unit) s = .ok ((), s'))
    (hchildren : ∀ s₁, s₁.current.hadError = false →
      emitChildrenRev false ns s = .ok ((), s₁) →
      ∃ l, Emitted w s s₁ l fun st => (w.evalChildren s.access ns).map (· ++ st)) :
    ∃ l, Emitted w s s' l fun st => ((w.evalChildren s.access ns).map f).map (· :: st) := by
  split at h
  · -- the error has been reported
    cases h
    cases herr
  cases hconst : constNodes? ns (ν := ν) with
  | some els =>
    rw [hconst] at h
    obtain ⟨hels, himm⟩ := constNodes?_eq_some (w := w) s.access hconst
    obtain ⟨idx, s₁, hmake, hdup⟩ := bind_eq_ok h
    obtain ⟨h₁, hidx, -⟩ := makeConstant_eq_ok (w := w) hmake
    rw [hels]
    obtain ⟨rfl, rfl, rfl, rfl⟩ | ⟨rfl, rfl, rfl, rfl⟩ := hop
    · refine emitted_push (v := some (.array els)) h₁ hdup rfl (by decide) ⟨idx, els, rfl, hidx⟩ ?_
      intro constants hsub code st
      rw [World.execOp, List.singleton_append, readConstant_eq hsub hidx]
      rfl
    · have hmap : mapConstant [] els = w.mapOf [] els := mapConstant_eq himm (by simp)
      refine emitted_push (v := some (.map (w.mapOf [] els))) h₁ hdup rfl (by decide)
        ⟨idx, _, rfl, hidx⟩ ?_
      intro constants hsub code st
      rw [World.execOp, List.singleton_append, readConstant_eq hsub hidx, ← hmap]
      rfl
  | none =>
    rw [hconst] at h
    obtain ⟨_, s₁, hns, hcollect⟩ := bind_eq_ok h
    have herr₁ : s₁.current.hadError = false := hadError_emitOp hcollect ▸ herr
    refine emitted_literalOf (hchildren s₁ herr₁ hns) hcollect ?_
    obtain ⟨-, rfl, rfl, -⟩ | ⟨-, rfl, rfl, -⟩ := hop
    · exact .inl ⟨rfl, rfl⟩
    · exact .inr ⟨rfl, rfl⟩

mutual

/-- The code of an expression pushes its value. -/
theorem emitted_node (n : Node) {s s' : CompState ν} (hexpr : World.IsExpr s.access n = true)
    (hmemo : s.Memoized) (herr : s'.current.hadError = false)
    (h : emitNode false n s = .ok ((), s')) :
    ∃ l, Emitted w s s' l fun st => (w.eval s.access n).map (· :: st) := by
  cases n with
  | literal lit =>
    have h : unlessError (emitLiteral lit) s = .ok ((), s') := h
    simp only [World.eval]
    exact emitted_literal hmemo hexpr (run_of_unlessError h herr).2
  | «variable» name =>
    have h : unlessError (namedVariable name .get) s = .ok ((), s') := h
    have hname : s.access name ≠ .upvalue := by simpa [World.IsExpr] using hexpr
    simp only [World.eval]
    exact emitted_variable hmemo hname (run_of_unlessError h herr).2
  | grouping expr =>
    have h : unlessError (emitNode false expr) s = .ok ((), s') := h
    rw [World.IsExpr] at hexpr
    simp only [World.eval]
    exact emitted_node expr hexpr hmemo herr (run_of_unlessError h herr).2
  | unary tok expr =>
    have h : unlessError (do
      emitNode false expr
      emitOp (if tok = .minus then .opNegate else .opNot) []) s = .ok ((), s') := h
    rw [World.IsExpr] at hexpr
    obtain ⟨_, s₁, hexp, hop⟩ := bind_eq_ok (run_of_unlessError h herr).2
    obtain ⟨l₂, h₂⟩ := emitted_unary (w := w) hop
    have herr₁ : s₁.current.hadError = false := h₂.hadError ▸ herr
    obtain ⟨l₁, h₁⟩ := emitted_node expr hexpr hmemo herr₁ hexp
    refine ⟨_, (h₁.append h₂).congr fun st => ?_⟩
    rw [World.eval]
    cases w.eval s.access expr with
    | none => rfl
    | some v => rfl
  | binary tok lhs rhs =>
    have h : unlessError (do
      emitNode false lhs
      emitNode false rhs
      emitBinaryOp tok) s = .ok ((), s') := h
    rw [World.IsExpr, Bool.and_eq_true] at hexpr
    obtain ⟨_, s₁, hlhs, h⟩ := bind_eq_ok (run_of_unlessError h herr).2
    obtain ⟨_, s₂, hrhs, hop⟩ := bind_eq_ok h
    have h₃ := emitted_binary (w := w) hop
    have herr₂ : s₂.current.hadError = false := h₃.choose_spec.hadError ▸ herr
    obtain ⟨l₁, h₁⟩ := emitted_node lhs hexpr.1 hmemo (hadError_of_emitNode hexpr.2 hrhs herr₂) hlhs
    have hacc := access_eq h₁.locals h₁.enclosing
    simp only [World.eval]
    exact emitted_operands h₁
      (emitted_node rhs (hacc ▸ hexpr.2) (h₁.memoized hmemo) herr₂ hrhs) h₃
  | indexGet obj index =>
    have h : unlessError (do
      emitNode false obj
      emitNode false index
      emitOp .opIndexGet []) s = .ok ((), s') := h
    rw [World.IsExpr, Bool.and_eq_true] at hexpr
    obtain ⟨_, s₁, hobj, h⟩ := bind_eq_ok (run_of_unlessError h herr).2
    obtain ⟨_, s₂, hindex, hop⟩ := bind_eq_ok h
    have h₃ := emitted_indexGet (w := w) hop
    have herr₂ : s₂.current.hadError = false := h₃.choose_spec.hadError ▸ herr
    obtain ⟨l₁, h₁⟩ := emitted_node obj hexpr.1 hmemo (hadError_of_emitNode hexpr.2 hindex herr₂) hobj
    have hacc := access_eq h₁.locals h₁.enclosing
    simp only [World.eval]
    exact emitted_operands h₁
      (emitted_node index (hacc ▸ hexpr.2) (h₁.memoized hmemo) herr₂ hindex) h₃
  | logical tok lhs rhs =>
    have h : unlessError (do
      emitNode false lhs
      let skipRhsJump ← emitJump (if tok = .and then .opJumpIfFalsePeek else .opJumpIfTruePeek)
      emitNode false rhs
      emitOp (if tok = .and then .opAnd else .opOr) []
      let tail := (← deref (← currentIseq).tail).addr
      patchJumpTo skipRhsJump (← insnOffset skipRhsJump tail) tail false) s =
        .ok ((), s') := h
    rw [World.IsExpr, Bool.and_eq_true] at hexpr
    obtain ⟨_, s₁, hlhs, h⟩ := bind_eq_ok (run_of_unlessError h herr).2
    obtain ⟨skipRhsJump, s₂, hjump, h⟩ := bind_eq_ok h
    obtain ⟨_, s₃, hrhs, h⟩ := bind_eq_ok h
    obtain ⟨_, s₄, hop, h⟩ := bind_eq_ok h
    obtain ⟨seq, s₅, hseq, h⟩ := bind_eq_ok h
    cases hseq
    obtain ⟨tail, s₅, hderef, h⟩ := bind_eq_ok h
    obtain ⟨n, s₆, hoffset, hpatch⟩ := bind_eq_ok h
    obtain ⟨htail, rfl⟩ := deref_eq_ok hderef
    -- the operator, the offset and the patch leave the error flag alone
    have herr₃ : s₃.current.hadError = false := by
      rw [← hadError_emitOp hop, ← (insnOffset_eq_ok hoffset).1, ← herr, patchJumpTo_eq_ok hpatch]
    have herr₂ := hadError_of_emitNode hexpr.2 hrhs herr₃
    obtain ⟨-, -, hconsts₂, htbl₂, hlocals₂, henclosing₂, hkept₂⟩ := emitInsn_eq_ok hjump
    obtain ⟨l₁, h₁⟩ := emitted_node lhs hexpr.1 hmemo (hkept₂ ▸ herr₂) hlhs
    have hacc : s₂.access = s.access :=
      (access_eq hlocals₂ henclosing₂).trans (access_eq h₁.locals h₁.enclosing)
    have hmemo₂ : s₂.Memoized := fun name idx hidx => by
      rw [hconsts₂]
      exact h₁.memoized hmemo name idx (htbl₂ ▸ hidx)
    obtain ⟨l₂, h₂⟩ := emitted_node rhs (hacc ▸ hexpr.2) hmemo₂ herr₃ hrhs
    obtain ⟨l, hl⟩ := emitted_logical ⟨rfl, rfl⟩ hjump h₂ hop htail hoffset hpatch
    refine ⟨_, (h₁.append hl).congr fun st => ?_⟩
    rw [hacc, World.eval]
    cases w.eval s.access lhs with
    | none => rfl
    | some a =>
      by_cases hd : World.decides tok a = true
      · simp [onLeft, hd]
      · cases w.eval s.access rhs with
        | none => simp [onLeft, hd]
        | some b => simp [onLeft, onTwo, hd]
  | array children =>
    have h : unlessError (do
      if uint8Max ≤ children.length then error "Too many elements in array literal"
      else
        match constNodes? children with
        | some els => emitOp .opDuparray [← makeConstant (.array els)]
        | none =>
          emitChildrenRev false children
          emitOp .opArray [children.length]) s = .ok ((), s') := h
    rw [World.IsExpr] at hexpr
    have h := (run_of_unlessError h herr).2
    simp only [World.eval]
    refine emitted_collection (.inl ⟨rfl, rfl, rfl, rfl⟩) herr h fun s₁ herr₁ hchildren => ?_
    exact emitted_childrenRev children hexpr hmemo herr₁ hchildren
  | map children =>
    have h : unlessError (do
      assert (children.length % 2 = 0)
      if uint8Max ≤ children.length then error "Too many key-value pairs in map literal"
      else
        match constNodes? children with
        | some els => emitOp .opDupmap [← makeConstant (.map (mapConstant [] els))]
        | none =>
          emitChildrenRev false children
          emitOp .opMap [children.length]) s = .ok ((), s') := h
    rw [World.IsExpr] at hexpr
    obtain ⟨_, s₀, hassert, h⟩ := bind_eq_ok (run_of_unlessError h herr).2
    rw [(assert_eq_ok hassert).2] at h
    simp only [World.eval]
    refine emitted_collection (.inr ⟨rfl, rfl, rfl, rfl⟩) herr h fun s₁ herr₁ hchildren => ?_
    exact emitted_childrenRev children hexpr hmemo herr₁ hchildren
  | _ => simp [World.IsExpr] at hexpr

/-- The code of the children in reverse. -/
theorem emitted_childrenRev (ns : List Node) {s s' : CompState ν}
    (hexpr : World.AreExprs s.access ns = true) (hmemo : s.Memoized)
    (herr : s'.current.hadError = false)
    (h : emitChildrenRev false ns s = .ok ((), s')) :
    ∃ l, Emitted w s s' l fun st => (w.evalChildren s.access ns).map (· ++ st) := by
  cases ns with
  | nil =>
    cases h
    exact ⟨[], (Emitted.refl s).congr fun st => by simp [World.evalChildren]⟩
  | cons n rest =>
    rw [World.AreExprs, Bool.and_eq_true] at hexpr
    obtain ⟨_, s₁, hrest, hn⟩ := bind_eq_ok h
    have herr₁ := hadError_of_emitNode hexpr.1 hn herr
    obtain ⟨l₁, h₁⟩ := emitted_childrenRev rest hexpr.2 hmemo herr₁ hrest
    have hacc := access_eq h₁.locals h₁.enclosing
    obtain ⟨l₂, h₂⟩ := emitted_node n (hacc ▸ hexpr.1) (h₁.memoized hmemo) herr hn
    refine ⟨_, (h₁.append h₂).congr fun st => ?_⟩
    rw [hacc, World.evalChildren]
    cases w.evalChildren s.access rest with
    | none => cases w.eval s.access n <;> rfl
    | some vs => cases w.eval s.access n <;> rfl

end

end Emit

end Clox
