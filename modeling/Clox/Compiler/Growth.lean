import Clox.Compiler.Emit

/-! # What the emission of a node leaves alone

Instructions are only appended; those that are there keep their address, their code and the number
of their operands, and the operands too unless the first one is still to be patched. The functions
around keep theirs, and nothing inside a function's body changes its parameters. Every function that
emits keeps to this (`Moves.emitNode`).
-/

namespace Clox

variable {ν : Type}

/-- The part of an instruction that is not patched: address, code and number of operands. -/
def Insn.outline (i : Insn) : Addr × ℕ × ℕ := (i.addr, i.code, i.numOperands)

/-- The addresses are given out in order, and no instruction has been removed. -/
def Iseq.Numbered (seq : Iseq ν) : Prop := seq.insns.map (·.addr) = List.range seq.nextAddr

/-- The words are counted. -/
def Iseq.Counted (seq : Iseq ν) : Prop := seq.wordCount = Layout.width Insn.size seq.insns

/-- A function but for the tables of its scopes and locals. -/
def ObjFunction.signature (f : ObjFunction ν) : ObjFunction ν :=
  { f with localVariables := [], scopes := [], localsTable := [] }

/-- A compiler but for its locals and upvalues. -/
def Compiler.kept (c : Compiler ν) : ObjFunction ν × Iseq ν × FunctionType × ℕ :=
  (c.function, c.iseq, c.type, c.scopeDepth)

theorem width_eq_of_outlines {l l' : List Insn} (h : l.map Insn.outline = l'.map Insn.outline) :
    Layout.width Insn.size l = Layout.width Insn.size l' := by
  have hsize : ∀ l : List Insn, l.map Insn.size = (l.map Insn.outline).map fun o => o.2.2 + 1 := by
    intro l
    rw [List.map_map]
    rfl
  rw [Layout.width, Layout.width, hsize, hsize, h]

namespace CompState

/-- What changes by instructions, parameters, scopes and functions only. -/
def built (s : CompState ν) := (s.current.iseq.insns.map Insn.outline, s.current.iseq.nextAddr,
  s.current.function.signature, s.current.scopeDepth, s.enclosing.map Compiler.kept, s.functions,
  s.opts, s.current.iseq.insns.map fun i => (i.addr, i.operands), s.current.iseq.wordCount)

/-- And by errors. -/
def solid (s : CompState ν) := (s.built, s.errMessages)

/-- From `s` to `s'` there were only instructions and parameters of the current function, and other
functions that were finished. -/
structure Inside (s s' : CompState ν) : Prop where
  outlines : (s.current.iseq.insns.map Insn.outline) <+: (s'.current.iseq.insns.map Insn.outline)
  numbered : s.current.iseq.Numbered → s'.current.iseq.Numbered
  enclosing : s'.enclosing.map Compiler.kept = s.enclosing.map Compiler.kept
  functions : s.functions <+: s'.functions
  opts : s'.opts = s.opts
  counted : s.current.iseq.Counted → s'.current.iseq.Counted
  settled : ∀ i ∈ s.current.iseq.insns, i.operand0 ≠ 0 →
    ∃ i' ∈ s'.current.iseq.insns, i'.addr = i.addr ∧ i'.operands = i.operands
  messages : s.errMessages <+: s'.errMessages

/-- There were no parameters either. -/
structure Grows (s s' : CompState ν) : Prop extends Inside s s' where
  signature : s'.current.function.signature = s.current.function.signature

variable {s s' s'' : CompState ν}

theorem Inside.refl (s : CompState ν) : Inside s s :=
  ⟨List.prefix_refl _, id, rfl, List.prefix_refl _, rfl, id, fun i hi _ => ⟨i, hi, rfl, rfl⟩,
    List.prefix_refl _⟩

theorem Inside.trans (h : Inside s s') (h' : Inside s' s'') : Inside s s'' where
  outlines := h.outlines.trans h'.outlines
  numbered := h'.numbered ∘ h.numbered
  enclosing := h'.enclosing.trans h.enclosing
  functions := h.functions.trans h'.functions
  opts := h'.opts.trans h.opts
  counted := h'.counted ∘ h.counted
  settled := by
    intro i hi hne
    rcases h.settled i hi hne with ⟨i₁, hi₁, haddr₁, hops₁⟩
    have hne₁ : i₁.operand0 ≠ 0 := by rwa [Insn.operand0, hops₁]
    rcases h'.settled i₁ hi₁ hne₁ with ⟨i₂, hi₂, haddr₂, hops₂⟩
    exact ⟨i₂, hi₂, haddr₂.trans haddr₁, hops₂.trans hops₁⟩
  messages := h.messages.trans h'.messages

theorem Grows.refl (s : CompState ν) : Grows s s := ⟨Inside.refl s, rfl⟩

theorem Grows.trans (h : Grows s s') (h' : Grows s' s'') : Grows s s'' :=
  ⟨h.toInside.trans h'.toInside, h'.signature.trans h.signature⟩

instance : IsPreorder (CompState ν) Inside where
  refl := Inside.refl
  trans _ _ _ := Inside.trans

instance : IsPreorder (CompState ν) Grows where
  refl := Grows.refl
  trans _ _ _ := Grows.trans

theorem numbered_iff (seq : Iseq ν) :
    seq.Numbered ↔ (seq.insns.map Insn.outline).map Prod.fst = List.range seq.nextAddr := by
  rw [List.map_map]
  exact Iff.rfl

theorem Grows.of_built (h : s'.built = s.built) (hmessages : s.errMessages <+: s'.errMessages) :
    Grows s s' ∧ s'.current.scopeDepth = s.current.scopeDepth := by
  simp only [built, Prod.mk.injEq] at h
  rcases h with ⟨houtlines, hnext, hsig, hdepth, hencl, hfuns, hopts, hoperands, hcount⟩
  refine ⟨⟨⟨?_, ?_, hencl, ?_, hopts, ?_, ?_, hmessages⟩, hsig⟩, hdepth⟩
  · exact houtlines ▸ List.prefix_refl _
  · rw [numbered_iff, numbered_iff, houtlines, hnext]
    exact id
  · exact hfuns ▸ List.prefix_refl _
  · intro hcounted
    rw [Iseq.Counted, hcount, hcounted, width_eq_of_outlines houtlines]
  · intro i hi _
    have hmem : (i.addr, i.operands) ∈ s'.current.iseq.insns.map fun i => (i.addr, i.operands) :=
      hoperands ▸ List.mem_map_of_mem hi
    rcases List.mem_map.mp hmem with ⟨i', hi', heq⟩
    exact ⟨i', hi', congrArg Prod.fst heq, congrArg Prod.snd heq⟩

theorem Grows.of_solid (h : s'.solid = s.solid) :
    Grows s s' ∧ s'.current.scopeDepth = s.current.scopeDepth := by
  rcases Prod.mk.inj h with ⟨hbuilt, hmessages⟩
  exact of_built hbuilt (hmessages ▸ List.prefix_refl _)

end CompState

open CompState Emit

/-- `emitForeach` behind the slots of the iterator. -/
def Emit.foreachRest (vars : List String) (emitIter emitBody : Emit ν Unit) : Emit ν Unit := do
  let slots ← declareVarSlots vars
  emitIter
  emitOp .opIter []
  let beforeIterNext : ℤ := (← currentIseq).wordCount + 2
  emitOp .opIterNext []
  let iterDone ← emitJump .opJumpIfFalsePeek
  emitForeachSets vars.length (vars.zip slots) 0
  let beforeForeach := (← deref (← currentIseq).tail).addr
  let lastLoopType := (← get).curLoopType
  modify fun s => { s with curLoopType := .foreach }
  emitLoopBody lastLoopType emitBody
  let afterForeach := (← deref (← currentIseq).tail).addr
  patchContinuesBetween beforeForeach afterForeach
  emitPops (if vars.length = 1 then 1 else if 1 < vars.length then vars.length + 1 else 0)
  emitLoop beforeIterNext
  popScope .foreach
  patchJump iterDone none
  emitOp .opPop []
  patchBreaks beforeForeach (← deref (← currentIseq).tail).addr false
  emitOp .opPop []

/-! ## Runs that keep to it -/

/-- Started at the scope depth `n`, the run ends at the depth `k`, in a state that `R` relates to
the first one. -/
def Moves {α : Type} (R : CompState ν → CompState ν → Prop) (n k : ℕ) (m : Emit ν α) : Prop :=
  ∀ s a s', m s = .ok (a, s') → s.current.scopeDepth = n → R s s' ∧ s'.current.scopeDepth = k

namespace Moves

variable {α β : Type} {R : CompState ν → CompState ν → Prop} {n k l : ℕ} {m : Emit ν α}

theorem bind [IsPreorder (CompState ν) R] {f : α → Emit ν β} (hm : Moves R n k m)
    (hf : ∀ a, Moves R k l (f a)) : Moves R n l (m >>= f) := by
  intro s b s' h hn
  rcases bind_eq_ok h with ⟨a, s₁, h₁, h₂⟩
  have hfirst := hm s a s₁ h₁ hn
  have hrest := hf a s₁ b s' h₂ hfirst.2
  exact ⟨IsTrans.trans _ _ _ hfirst.1 hrest.1, hrest.2⟩

theorem inside (hm : Moves Grows n k m) : Moves Inside n k m := fun s a s' h hn =>
  ⟨(hm s a s' h hn).1.toInside, (hm s a s' h hn).2⟩

theorem of_solid (hm : ∀ s a s', m s = .ok (a, s') → s'.solid = s.solid) : Moves Grows n n m := by
  intro s a s' h hn
  rw [← hn]
  exact Grows.of_solid (hm s a s' h)

theorem of_error (hm : ∀ s, ∃ e, m s = .error e) : Moves R n k m := by
  intro s a s' h
  rcases hm s with ⟨e, he⟩
  rw [he] at h
  cases h

theorem pure (a : α) : Moves Grows n n (Pure.pure a : Emit ν α) :=
  of_solid fun s b s' h => by cases h; rfl

theorem map {f : α → β} (hm : Moves Grows n k m) : Moves Grows n k (f <$> m) :=
  hm.bind fun _ => pure _

theorem throw (e : Abort) : Moves R n k (MonadExcept.throw e : Emit ν α) :=
  of_error fun _ => ⟨e, rfl⟩

theorem get : Moves Grows n n (MonadState.get : Emit ν (CompState ν)) :=
  of_solid fun s b s' h => by cases h; rfl

/-- What is set does not touch the instructions and functions. -/
theorem alter {f : CompState ν → CompState ν} (hf : ∀ s, (f s).solid = s.solid) :
    Moves Grows n n (modify f : Emit ν Unit) := by
  refine of_solid fun s a s' h => ?_
  cases h
  exact hf s

theorem deref (o : Option α) : Moves Grows n n (Emit.deref o : Emit ν α) := by
  cases o with
  | none => exact throw _
  | some a => exact pure a

theorem assert (b : Bool) : Moves Grows n n (Emit.assert b : Emit ν Unit) := by
  cases b with
  | false => exact throw _
  | true => exact pure ()

theorem forM {xs : List β} {f : β → Emit ν Unit} (hf : ∀ x, Moves Grows n n (f x)) :
    Moves Grows n n (ForM.forM xs f) := by
  induction xs with
  | nil => exact pure ()
  | cons x xs ih => exact (hf x).bind fun _ => ih

/-- A loop whose steps are argued about from the state it starts in. -/
theorem forM_grows {xs : List β} {f : β → Emit ν Unit} {s : CompState ν}
    (hf : ∀ x ∈ xs, ∀ t u t', Grows s t → t.current.scopeDepth = n → f x t = .ok (u, t') →
      Grows s t' ∧ t'.current.scopeDepth = n) {t t' : CompState ν} {u : Unit} (hgrows : Grows s t)
    (hn : t.current.scopeDepth = n) (h : ForM.forM xs f t = .ok (u, t')) :
    Grows s t' ∧ t'.current.scopeDepth = n := by
  induction xs generalizing t with
  | nil =>
    cases h
    exact ⟨hgrows, hn⟩
  | cons x xs ih =>
    rw [List.forM_cons] at h
    rcases bind_eq_ok h with ⟨v, t₁, h₁, h₂⟩
    have hfirst := hf x List.mem_cons_self t v t₁ hgrows hn h₁
    exact ih (fun y hy => hf y (List.mem_cons_of_mem x hy)) hfirst.1 hfirst.2 h₂

theorem of_none : ∀ m ∈ (none : Option (Emit ν α)), Moves R n k m := by
  intro m hm
  cases hm

theorem of_some (hm : Moves R n k m) : ∀ x ∈ some m, Moves R n k x := by
  intro x hx
  cases hx
  exact hm

theorem ite {p : Prop} [Decidable p] {m' : Emit ν α} (hm : Moves R n k m)
    (hm' : Moves R n k m') : Moves R n k (if p then m else m') := by
  split
  · exact hm
  · exact hm'

/-! ### The state and the sequence -/

theorem markTop_kept (cs : List (Compiler ν)) :
    (Emit.markTop cs).map Compiler.kept = cs.map Compiler.kept := by
  fun_induction Emit.markTop cs with
  | case1 => rfl
  | case2 c => rfl
  | case3 c rest hne ih => rw [List.map_cons, List.map_cons, ih]

theorem error (msg : String) : Moves Grows n n (Emit.error msg : Emit ν Unit) := by
  intro s a s' h hn
  cases h
  have hbuilt : ({ s with
      errMessages := s.errMessages ++ [msg]
      current := { s.current with hadError := true }
      enclosing := Emit.markTop s.enclosing } : CompState ν).built = s.built := by
    simp only [built, markTop_kept]
  rcases Grows.of_built hbuilt (List.prefix_append _ _) with ⟨hgrows, hdepth⟩
  exact ⟨hgrows, hdepth.trans hn⟩

theorem currentIseq : Moves Grows n n (Emit.currentIseq : Emit ν (Iseq ν)) :=
  get.bind fun _ => pure _

theorem makeConstant (v : Value ν) : Moves Grows n n (Emit.makeConstant v) :=
  of_solid fun s b s' h => by cases h; rfl

theorem identifierConstant (name : String) :
    Moves Grows n n (Emit.identifierConstant name : Emit ν ℕ) := by
  unfold Emit.identifierConstant
  refine get.bind fun s => ?_
  split
  · exact pure _
  · exact (makeConstant _).bind fun idx => bind (alter fun s => rfl) fun _ => pure _

theorem updateInsn {a : Addr} {f : Insn → Insn} (hf : ∀ i, (f i).addr = i.addr)
    (hwords : ∀ i, (f i).words = i.words) :
    Moves Grows n n (Emit.updateInsn a f hf : Emit ν Unit) := by
  refine alter fun s => ?_
  have hmap : ∀ {β : Type} (g : Insn → β), (∀ i, g (f i) = g i) →
      (s.current.iseq.modify a f hf).insns.map g = s.current.iseq.insns.map g := by
    intro β g hg
    rw [Iseq.modify, Iseq.insns_mapInsns, List.map_map]
    refine List.map_congr_left fun i _ => ?_
    rw [Function.comp_apply, apply_ite g, hg, ite_self]
  have hout : ∀ i, (f i).outline = i.outline := by
    intro i
    have := hwords i
    simp only [Insn.words, List.cons.injEq] at this
    simp only [Insn.outline, Insn.numOperands, hf, this]
  have hops : ∀ i, ((f i).addr, (f i).operands) = (i.addr, i.operands) := by
    intro i
    rw [hf, (List.cons.inj (hwords i)).2]
  simp only [solid, built, hmap Insn.outline hout, hmap (fun i => (i.addr, i.operands)) hops]
  rfl

theorem emitInsn (code : ℕ) (operands : List ℕ) (b : Bool) :
    Moves Grows n n (Emit.emitInsn code operands b : Emit ν Addr) := by
  intro s a s' h hn
  cases h
  refine ⟨⟨⟨?_, fun hnum => ?_, rfl, List.prefix_refl _, rfl, fun hcounted => ?_, ?_,
    List.prefix_refl _⟩, rfl⟩, hn⟩
  · rw [Iseq.iseqAddInsn, List.map_append]
    exact List.prefix_append _ _
  · show List.map _ (_ ++ [_]) = List.range (s.current.iseq.nextAddr + 1)
    rw [List.map_append, hnum, List.range_succ]
    rfl
  · show s.current.iseq.wordCount + (operands.length + 1) = Layout.width Insn.size (_ ++ [_])
    rw [Layout.width_append, hcounted]
    rfl
  · exact fun i hi _ => ⟨i, List.mem_append_left _ hi, rfl, rfl⟩

theorem emitOp (op : OpCode) (operands : List ℕ) :
    Moves Grows n n (Emit.emitOp op operands : Emit ν Unit) :=
  (emitInsn _ _ _).bind fun _ => pure ()

theorem emitNumber (x : ν) : Moves Grows n n (Emit.emitNumber x) :=
  (makeConstant _).bind fun _ => (emitInsn _ _ _).bind fun _ => pure ()

theorem emitJump (op : OpCode) : Moves Grows n n (Emit.emitJump op : Emit ν Addr) :=
  emitInsn _ _ _

theorem outline_setOperand0 (i : Insn) (x : ℕ) : (i.setOperand0 x).outline = i.outline := by
  simp [Insn.outline, Insn.setOperand0, Insn.numOperands]

theorem insnOffset (first last : Addr) : Moves Grows n n (Emit.insnOffset first last : Emit ν ℕ) :=
  currentIseq.bind fun _ => (assert _).bind fun _ => pure _

/-- An operand that is still to be patched. -/
theorem setOperand0_grows {s t t' : CompState ν} {a : Addr} {x : ℕ} {u : Unit} (h : Grows s t)
    (hzero : ∀ i ∈ s.current.iseq.insns, i.addr = a → i.operand0 = 0)
    (hrun : Emit.updateInsn a (fun i => i.setOperand0 x) (fun _ => rfl) t = .ok (u, t')) :
    Grows s t' ∧ t'.current.scopeDepth = t.current.scopeDepth := by
  cases hrun
  have hmap : (t.current.iseq.insns.map fun i => if i.addr = a then i.setOperand0 x else i).map
      Insn.outline = t.current.iseq.insns.map Insn.outline := by
    rw [List.map_map]
    refine List.map_congr_left fun i _ => ?_
    rw [Function.comp_apply, apply_ite Insn.outline, outline_setOperand0, ite_self]
  refine ⟨⟨⟨?_, ?_, h.enclosing, h.functions, h.opts, ?_, ?_, h.messages⟩, h.signature⟩, rfl⟩
  · show _ <+: List.map Insn.outline (t.current.iseq.insns.map _)
    exact hmap ▸ h.outlines
  · intro hnum
    have hnum' := (numbered_iff _).mp (h.numbered hnum)
    rw [numbered_iff]
    show (List.map Insn.outline (t.current.iseq.insns.map _)).map Prod.fst = _
    rw [hmap]
    exact hnum'
  · intro hcounted
    exact (h.counted hcounted).trans (width_eq_of_outlines hmap).symm
  · intro i hi hne
    rcases h.settled i hi hne with ⟨i', hi', haddr, hops⟩
    have hother : i'.addr ≠ a := fun ha => hne (hzero i hi (haddr.symm.trans ha))
    refine ⟨i', List.mem_map.mpr ⟨i', hi', ?_⟩, haddr, hops⟩
    exact if_neg hother

/-- What `patchJump` does: the operand is stored, and labels are noted. -/
theorem patchJumpTo_spec {toPatch jumpTo : Addr} {jumpoffset : ℕ} {jumpToNext : Bool}
    {s s' : CompState ν} {u : Unit}
    (h : Emit.patchJumpTo toPatch jumpoffset jumpTo jumpToNext s = .ok (u, s')) :
    ∃ patch t, s.current.iseq.insn? toPatch = some patch ∧ patch.operand0 = 0 ∧
      Emit.updateInsn toPatch (fun i => i.setOperand0 jumpoffset) (fun _ => rfl) s = .ok ((), t) ∧
      ∀ n, t.current.scopeDepth = n → Grows t s' ∧ s'.current.scopeDepth = n := by
  have hrest : ∀ n, Moves Grows n n (do
      if jumpToNext then
        modify fun s => { s with nextInsnIsLabel := true }
        Emit.updateInsn toPatch (fun i => { i with jumpToPrev := some jumpTo }) fun _ => rfl
      else
        Emit.updateInsn toPatch (fun i => { i with jumpTo := some jumpTo }) (Emit.addr_jumpTo jumpTo)
        Emit.updateInsn jumpTo (fun i => { i with isLabel := true }) Emit.addr_label :
          Emit ν Unit) := by
    intro n
    refine ite ?_ ?_
    · exact bind (alter fun s => rfl) fun _ => updateInsn _ fun _ => rfl
    · exact bind (updateInsn _ fun _ => rfl) fun _ => updateInsn _ fun _ => rfl
  rcases bind_eq_ok h with ⟨seq, s₁, hget, h₁⟩
  cases hget
  rcases bind_eq_ok h₁ with ⟨patch, s₂, hderef, h₂⟩
  rcases deref_eq_ok hderef with ⟨hpatch, rfl⟩
  rcases bind_eq_ok h₂ with ⟨_, s₃, hassert, h₃⟩
  rcases assert_eq_ok hassert with ⟨hzero, rfl⟩
  rcases bind_eq_ok h₃ with ⟨_, s₄, hassert', h₄⟩
  rcases assert_eq_ok hassert' with ⟨-, rfl⟩
  rcases bind_eq_ok h₄ with ⟨_, s₅, hset, h₅⟩
  exact ⟨patch, s₅, hpatch, beq_iff_eq.mp hzero, hset, fun n => hrest n _ _ _ h₅⟩

theorem patchJumpTo (toPatch : Addr) (jumpoffset : ℕ) (jumpTo : Addr) (jumpToNext : Bool) :
    Moves Grows n n (Emit.patchJumpTo toPatch jumpoffset jumpTo jumpToNext : Emit ν Unit) := by
  intro s a s' h hn
  rcases patchJumpTo_spec h with ⟨patch, t, hpatch, hzero, hset, hrest⟩
  have hfirst := setOperand0_grows (Grows.refl _) (fun i hi haddr => ?_) hset
  · have hlast := hrest n (hfirst.2.trans hn)
    exact ⟨hfirst.1.trans hlast.1, hlast.2⟩
  · rcases Iseq.mem_of_insn? hpatch with ⟨hmem, hpatchAddr⟩
    rw [Iseq.eq_of_addr_eq _ hi hmem (haddr.trans hpatchAddr.symm)]
    exact hzero

theorem patchJump (toPatch : Addr) (jumpTo : Option Addr) :
    Moves Grows n n (Emit.patchJump toPatch jumpTo : Emit ν Unit) :=
  currentIseq.bind fun _ => (deref _).bind fun _ => (deref _).bind fun _ =>
    (insnOffset _ _).bind fun _ => patchJumpTo _ _ _ _

theorem patchJumps (jumps : List Addr) : Moves Grows n n (Emit.patchJumps jumps : Emit ν Unit) :=
  forM fun jump => patchJump jump none

theorem patchContinuesBetween (a b : Addr) :
    Moves Grows n n (Emit.patchContinuesBetween a b : Emit ν Unit) := by
  refine currentIseq.bind fun seq => forM fun cur => ?_
  refine ite ((currentIseq.bind fun _ => pure _).bind fun jumpTo => ?_) (pure ())
  refine ite ?_ (patchJump _ _)
  exact (deref _).bind fun _ => (assert _).bind fun _ => patchJump _ _

theorem emitLoop (loopStart : ℤ) : Moves Grows n n (Emit.emitLoop loopStart : Emit ν Unit) := by
  refine currentIseq.bind fun seq => (assert _).bind fun _ => (emitInsn _ _ _).bind fun loopInsn =>
    currentIseq.bind fun seq => ?_
  split
  · exact throw _
  · exact bind (updateInsn _ fun _ => rfl) fun _ => updateInsn _ fun _ => rfl

theorem patchBreaks (first last : Addr) (after : Bool) :
    Moves Grows n n (Emit.patchBreaks first last after : Emit ν Unit) := by
  intro s a s' h hn
  rcases bind_eq_ok h with ⟨seq, s₁, hget, h₁⟩
  cases hget
  rcases bind_eq_ok h₁ with ⟨lastInsn, s₂, hderef, h₂⟩
  rcases deref_eq_ok hderef with ⟨-, rfl⟩
  have hlabelled : Moves Grows n n (if after = true then Pure.pure () else
      Emit.updateInsn last (fun i => { i with isLabel := true }) Emit.addr_label : Emit ν Unit) :=
    ite (pure ()) (updateInsn _ fun _ => rfl)
  refine forM_grows (fun cur hcur t u t' hgrows hdepth hcell => ?_) (Grows.refl s₂) hn h₂
  have hmem : cur ∈ s₂.current.iseq.insns :=
    List.mem_of_mem_drop (List.mem_of_mem_take hcur)
  split at hcell
  · rename_i hbreak
    have hzero : ∀ i ∈ s₂.current.iseq.insns, i.addr = cur.addr → i.operand0 = 0 := by
      intro i hi haddr
      rw [Iseq.eq_of_addr_eq _ hi hmem haddr]
      exact beq_iff_eq.mp (Bool.and_eq_true _ _ ▸ hbreak).2
    -- the offset is measured in the state the label is noted in
    have hpatch : ∀ t₁, Grows s₂ t₁ → t₁.current.scopeDepth = n → (do
        let off ← Emit.insnOffset cur.addr last
        let off := if after then off + lastInsn.size else off
        Emit.updateInsn cur.addr (fun i => i.setOperand0 off) fun _ => rfl
        unless after do
          Emit.updateInsn last (fun i => { i with isLabel := true }) Emit.addr_label :
            Emit ν Unit) t₁ = .ok (u, t') → Grows s₂ t' ∧ t'.current.scopeDepth = n := by
      intro t₁ hgrows₁ hdepth₁ hrun
      rcases bind_eq_ok hrun with ⟨off, t₂, hoff, h₃⟩
      have hoffset := insnOffset _ _ _ _ _ hoff hdepth₁
      rcases bind_eq_ok h₃ with ⟨_, t₃, hset, h₄⟩
      have hfirst := setOperand0_grows (hgrows₁.trans hoffset.1) hzero hset
      have hlast := hlabelled _ _ _ h₄ (hfirst.2.trans hoffset.2)
      exact ⟨hfirst.1.trans hlast.1, hlast.2⟩
    cases after with
    | false => exact hpatch t hgrows hdepth hcell
    | true =>
      rcases bind_eq_ok hcell with ⟨_, t₁, hlabel, h₃⟩
      cases hlabel
      have hsolid : ({ t with nextInsnIsLabel := true } : CompState ν).solid = t.solid := rfl
      rcases Grows.of_solid hsolid with ⟨hnoted, hsame⟩
      exact hpatch _ (hgrows.trans hnoted) (hsame.trans hdepth) h₃
  · cases hcell
    exact ⟨hgrows, hdepth⟩

/-! ### Scopes and variables -/

theorem pushScope (stype : CompileScopeType) :
    Moves Grows n (n + 1) (Emit.pushScope stype : Emit ν Unit) := by
  intro s a s' h hn
  cases h
  exact ⟨⟨⟨List.prefix_refl _, id, rfl, List.prefix_refl _, rfl, id, fun i hi _ => ⟨i, hi, rfl, rfl⟩,
    List.prefix_refl _⟩, rfl⟩, congrArg (· + 1) hn⟩

theorem emitReturn : Moves Grows n n (Emit.emitReturn : Emit ν Unit) := by
  have hnil : ∀ op : OpCode, Moves Grows n n (do
      Emit.emitOp .opNil []
      Emit.emitOp op [] : Emit ν Unit) := fun op => (emitOp _ _).bind fun _ => emitOp _ _
  refine get.bind fun s => (assert _).bind fun _ => ite ?_ (ite ?_ (ite ?_ ?_))
  · exact (emitOp _ _).bind fun _ => emitOp _ _
  · exact ite (hnil _) (emitOp _ _)
  · exact ite ((emitOp _ _).bind fun _ => (emitOp _ _).bind fun _ => emitOp _ _) (emitOp _ _)
  · exact hnil _

theorem popLocals (ctype : FunctionType) (depth : ℕ) (ls : List Local) :
    Moves Grows n n (Emit.popLocals ctype depth ls : Emit ν Unit) := by
  induction ls with
  | nil => exact pure ()
  | cons l ls ih =>
    have hrest : Moves Grows n n (do
        Emit.modifyCurrent fun c => { c with locals := c.locals.dropLast }
        Emit.popLocals ctype depth ls : Emit ν Unit) :=
      bind (alter fun s => rfl) fun _ => ih
    refine ite (ite ?_ (ite ?_ hrest)) (pure ())
    · exact (emitOp _ _).bind fun _ => hrest
    · exact (emitOp _ _).bind fun _ => hrest

theorem popScope (stype : CompileScopeType) :
    Moves Grows (n + 1) n (Emit.popScope stype : Emit ν Unit) := by
  refine get.bind fun s => (popLocals _ _ _).bind fun _ => ite (emitReturn.bind fun _ => ?_) ?_
  all_goals
    refine currentIseq.bind fun seq => get.bind fun t => ?_
    cases t.curScope with
    | nil => exact of_error fun _ => ⟨_, rfl⟩
    | cons scope parents =>
      intro s a s' h hn
      cases h
      exact ⟨⟨⟨List.prefix_refl _, id, rfl, List.prefix_refl _, rfl, id,
        fun i hi _ => ⟨i, hi, rfl, rfl⟩, List.prefix_refl _⟩, rfl⟩, congrArg (· - 1) hn⟩

theorem addLocal (name : String) : Moves Grows n n (Emit.addLocal name : Emit ν (Option ℕ)) := by
  refine get.bind fun s => ite ?_ ?_
  · exact (error _).bind fun _ => pure _
  · exact bind (alter fun s => rfl) fun _ => bind (alter fun s => rfl) fun _ => pure _

theorem addFakeLocal (popOnScopeEnd : Bool) :
    Moves Grows n n (Emit.addFakeLocal popOnScopeEnd : Emit ν Unit) :=
  get.bind fun _ => (assert _).bind fun _ => ite (error _) (alter fun _ => rfl)

theorem declareVariable (name : String) :
    Moves Grows n n (Emit.declareVariable name : Emit ν (Option ℕ)) := by
  refine get.bind fun s => ite ?_ (ite ?_ ?_)
  · exact (identifierConstant _).bind fun _ => pure _
  · exact (error _).bind fun _ => pure _
  · refine (addLocal _).bind fun index => ?_
    cases index with
    | none => exact pure _
    | some slot => exact bind (alter fun s => rfl) fun _ => pure _

theorem defineVariable (arg : ℕ) : Moves Grows n n (Emit.defineVariable arg : Emit ν Unit) :=
  get.bind fun _ => ite (emitOp _ _) (alter fun _ => rfl)

theorem addUpvalue_kept {c c' : Compiler ν} {index i : ℕ} {isLocal overflow : Bool}
    (h : c.addUpvalue index isLocal = (c', i, overflow)) : c'.kept = c.kept := by
  unfold Compiler.addUpvalue at h
  split at h
  · cases h
    rfl
  · split at h <;> cases h <;> rfl

/-- Capturing a variable changes locals and upvalues only. -/
theorem resolveUpvalue_kept {name : String} {c c' : Compiler ν} {outers outers' : List (Compiler ν)}
    {r : Option ℕ} {overflow : Bool}
    (h : Compiler.resolveUpvalue name c outers = (c', outers', r, overflow)) :
    c'.kept = c.kept ∧ outers'.map Compiler.kept = outers.map Compiler.kept := by
  induction outers generalizing c c' outers' r overflow with
  | nil =>
    cases h
    exact ⟨rfl, rfl⟩
  | cons outer rest ih =>
    rw [Compiler.resolveUpvalue] at h
    split at h
    · rename_i slot _
      cases hadd : c.addUpvalue (slot % 256) true with
      | mk c₁ r₁ =>
        simp only [hadd] at h
        cases h
        exact ⟨addUpvalue_kept hadd, rfl⟩
    · rcases hrec : Compiler.resolveUpvalue name outer rest with ⟨outer₁, rest₁, r₁, overflow₁⟩
      have hkept : (outer₁ :: rest₁).map Compiler.kept = (outer :: rest).map Compiler.kept := by
        rw [List.map_cons, (ih hrec).1, (ih hrec).2]
        rfl
      cases r₁ with
      | none =>
        simp only [hrec] at h
        cases h
        exact ⟨rfl, hkept⟩
      | some upvalue =>
        cases hadd : c.addUpvalue (upvalue % 256) false with
        | mk c₁ r₁ =>
          simp only [hrec, hadd] at h
          cases h
          exact ⟨addUpvalue_kept hadd, hkept⟩

theorem setResolved {s : CompState ν} {name : String} {r : Option ℕ} {overflow : Bool}
    {current : Compiler ν} {enclosing : List (Compiler ν)}
    (h : Compiler.resolveUpvalue name s.current s.enclosing = (current, enclosing, r, overflow)) :
    ({ s with current, enclosing } : CompState ν).solid = s.solid := by
  rcases resolveUpvalue_kept h with ⟨hcurrent, hencl⟩
  simp only [Compiler.kept, Prod.mk.injEq] at hcurrent
  simp only [solid, built, hcurrent, hencl]

theorem namedVariable (name : String) (getSet : VarOp) :
    Moves Grows n n (Emit.namedVariable name getSet : Emit ν Unit) := by
  have hop : ∀ (op : OpCode) (operands : ℕ → List ℕ), Moves Grows n n (do
      let varNameSlot ← Emit.identifierConstant name
      Emit.emitOp op (operands varNameSlot) : Emit ν Unit) :=
    fun op operands => (identifierConstant _).bind fun _ => emitOp _ _
  intro s a s' h hn
  rcases bind_eq_ok h with ⟨s₀, s₁, hget, h₁⟩
  cases hget
  cases hlocal : s.current.resolveLocal name with
  | some slot =>
    simp only [hlocal] at h₁
    exact hop _ (fun k => [slot, k]) s a s' h₁ hn
  | none =>
    simp only [hlocal] at h₁
    rcases hres : Compiler.resolveUpvalue name s.current s.enclosing with
      ⟨current, enclosing, upvalue, overflow⟩
    simp only [hres] at h₁
    rcases bind_eq_ok h₁ with ⟨_, s₂, hset, h₂⟩
    cases hset
    rcases Grows.of_solid (setResolved hres) with ⟨hgrows, hdepth⟩
    cases upvalue with
    | none =>
      have hglobal := hop (if getSet = .set then .opSetGlobal else .opGetGlobal) fun arg => [arg]
      have hrest := (ite (p := overflow = true) ((error _).bind fun _ => hglobal) hglobal) _ a s' h₂
        (hdepth.trans hn)
      exact ⟨hgrows.trans hrest.1, hrest.2⟩
    | some i =>
      have hup := hop (if getSet = .set then .opSetUpvalue else .opGetUpvalue) fun slot => [i, slot]
      have hrest := (ite (p := overflow = true) ((error _).bind fun _ => hup) hup) _ a s' h₂
        (hdepth.trans hn)
      exact ⟨hgrows.trans hrest.1, hrest.2⟩

/-! ### Expressions and statements -/

theorem emitBinaryOp (tok : BinaryTok) :
    Moves Grows n n (Emit.emitBinaryOp tok : Emit ν Unit) := by
  cases tok <;> exact emitOp _ _

theorem unlessError {m : Emit ν Unit} (hm : Moves Grows n n m) :
    Moves Grows n n (do
      if (← MonadState.get).current.hadError then return
      m) :=
  get.bind fun _ => ite (pure _) hm

theorem emitLiteral [LoxNum ν] (lit : Literal) : Moves Grows n n (Emit.emitLiteral lit : Emit ν Unit) := by
  cases lit with
  | number numStr => exact emitNumber _
  | regex str => exact (identifierConstant _).bind fun _ => emitOp _ _
  | string str isStatic => exact (identifierConstant _).bind fun _ => emitOp _ _
  | true => exact emitOp _ _
  | false => exact emitOp _ _
  | nil => exact emitOp _ _

theorem emitCall {nameTok : String} {lhs : Node} {args : List Node} {emitLhs emitArgs : Emit ν Unit}
    (hlhs : Moves Grows n n emitLhs) (hargs : Moves Grows n n emitArgs) :
    Moves Grows n n (Emit.emitCall nameTok lhs args emitLhs emitArgs) := by
  have hrest : ∀ (callInfo : CallInfo) (op : OpCode) (operands : ℕ → List ℕ), Moves Grows n n (do
      emitArgs
      let id := (← MonadState.get).callInfos.length
      modify fun s => { s with callInfos := s.callInfos ++ [callInfo] }
      let callInfoConstSlot ← Emit.makeConstant (.internal id)
      Emit.emitOp op (operands callInfoConstSlot)
      return some id : Emit ν (Option ℕ)) := fun callInfo op operands =>
    hargs.bind fun _ => get.bind fun s => bind (alter fun s => rfl) fun _ =>
      (makeConstant _).bind fun slot => (emitOp _ _).bind fun _ => pure _
  refine ite ((error _).bind fun _ => pure _) (hlhs.bind fun _ => ?_)
  split
  · refine ((identifierConstant _).bind fun _ => pure _).bind fun arg => ?_
    cases arg with
    | none => exact hrest _ .opCall fun slot => [args.length, slot]
    | some arg => exact hrest _ .opInvoke fun slot => [arg, args.length, slot]
  · exact hrest _ .opCall fun slot => [args.length, slot]

theorem emitClass {name : String} {superClass : Option String} {emitBody : Emit ν Unit}
    (hbody : Moves Grows (n + 1) (n + 1) emitBody) :
    Moves Grows n n (Emit.emitClass name superClass emitBody) := by
  have hend : ∀ enclosing : List String, Moves Grows (n + 1) n (do
      Emit.addFakeLocal false
      emitBody
      Emit.popScope .klass
      Emit.emitOp .opPopCref []
      modify fun s => { s with currentClassOrModule := enclosing }) := fun enclosing =>
    (addFakeLocal _).bind fun _ => hbody.bind fun _ => (popScope _).bind fun _ =>
      (emitOp _ _).bind fun _ => alter fun s => rfl
  refine (identifierConstant _).bind fun arg => get.bind fun s => bind (alter fun s => rfl) fun _ =>
    (pushScope _).bind fun _ => ?_
  cases superClass with
  | none => exact (emitOp _ _).bind fun _ => hend _
  | some superName =>
    exact (namedVariable _ _).bind fun _ => (emitOp _ _).bind fun _ => hend _

theorem emitModule {name : String} {emitBody : Emit ν Unit}
    (hbody : Moves Grows (n + 1) (n + 1) emitBody) :
    Moves Grows n n (Emit.emitModule name emitBody) :=
  (identifierConstant _).bind fun _ => get.bind fun _ => bind (alter fun _ => rfl) fun _ =>
    (emitOp _ _).bind fun _ => (pushScope _).bind fun _ => hbody.bind fun _ =>
      (popScope _).bind fun _ => (emitOp _ _).bind fun _ => alter fun _ => rfl

theorem emitIn {emitExpr emitBody : Emit ν Unit} (hexpr : Moves Grows n n emitExpr)
    (hbody : Moves Grows (n + 1) (n + 1) emitBody) :
    Moves Grows n n (Emit.emitIn emitExpr emitBody) :=
  get.bind fun _ => hexpr.bind fun _ => (emitOp _ _).bind fun _ => bind (alter fun _ => rfl) fun _ =>
    (pushScope _).bind fun _ => hbody.bind fun _ => (popScope _).bind fun _ =>
      (emitOp _ _).bind fun _ => alter fun _ => rfl

theorem emitVarDecl (name : String) (slotIdx : Option ℕ) :
    Moves Grows n n (Emit.emitVarDecl name slotIdx : Emit ν Bool) := by
  refine (declareVariable _).bind fun arg => ?_
  cases arg with
  | none => exact pure _
  | some arg =>
    refine get.bind fun s => ?_
    split
    · exact (emitOp _ _).bind fun _ => pure _
    · exact (emitOp _ _).bind fun _ => pure _
    · exact (identifierConstant _).bind fun _ => (emitOp _ _).bind fun _ => pure _
    · exact (identifierConstant _).bind fun _ => (emitOp _ _).bind fun _ => pure _

theorem emitVarDecls (names : List String) (slotIdx : Option ℕ) :
    Moves Grows n n (Emit.emitVarDecls names slotIdx : Emit ν Unit) := by
  induction names generalizing slotIdx with
  | nil => exact pure _
  | cons name rest ih => exact (emitVarDecl _ _).bind fun _ => ite (ih _) (pure _)

theorem emitVar {name : String} {more : List String} {emitInit : Option (Emit ν Unit)}
    (hinit : ∀ m ∈ emitInit, Moves Grows n n m) :
    Moves Grows n n (Emit.emitVar name more emitInit) := by
  cases emitInit with
  | none => exact (emitOp _ _).bind fun _ => emitVarDecls _ _
  | some m =>
    refine (hinit m rfl).bind fun _ => ite (emitVarDecls _ _) (get.bind fun s => ?_)
    exact ite ((addFakeLocal _).bind fun _ => emitVarDecls _ _) (emitVarDecls _ _)

theorem emitIf {emitCond emitThen : Emit ν Unit} {emitElse : Option (Emit ν Unit)}
    (hcond : Moves Grows n n emitCond) (hthen : Moves Grows (n + 1) (n + 1) emitThen)
    (helse : ∀ m ∈ emitElse, Moves Grows (n + 1) (n + 1) m) :
    Moves Grows n n (Emit.emitIf emitCond emitThen emitElse) := by
  refine hcond.bind fun _ => (emitJump _).bind fun start => (pushScope _).bind fun _ =>
    hthen.bind fun _ => ?_
  cases emitElse with
  | none => exact (patchJump _ _).bind fun _ => popScope _
  | some m =>
    exact (emitJump _).bind fun _ => (patchJump _ _).bind fun _ => (helse m rfl).bind fun _ =>
      (patchJump _ _).bind fun _ => popScope _

theorem emitLoopBody {loopType : LoopType} {emitBody : Emit ν Unit}
    (hbody : Moves Grows n n emitBody) :
    Moves Grows n n (Emit.emitLoopBody loopType emitBody) :=
  get.bind fun _ => bind (alter fun _ => rfl) fun _ => hbody.bind fun _ => alter fun _ => rfl

theorem behind {f : CompState ν → CompState ν} (hf : ∀ s, (f s).solid = s.solid) {m : Emit ν α}
    (hm : Moves Grows n k m) {s : CompState ν} {a : α} {s' : CompState ν}
    (h : m (f s) = .ok (a, s')) (hn : s.current.scopeDepth = n) :
    Grows s s' ∧ s'.current.scopeDepth = k := by
  rcases Grows.of_solid (hf s) with ⟨hgrows, hdepth⟩
  have hrest := hm _ a s' h (hdepth.trans hn)
  exact ⟨hgrows.trans hrest.1, hrest.2⟩

theorem emitWhile {emitCond emitBody : Emit ν Unit} (hcond : Moves Grows n n emitCond)
    (hbody : Moves Grows (n + 1) (n + 1) emitBody) :
    Moves Grows n n (Emit.emitWhile emitCond emitBody) := by
  intro s a s' h hn
  rcases bind_eq_ok h with ⟨s₀, s₁, hget, h₁⟩
  cases hget
  rcases bind_eq_ok h₁ with ⟨_, s₂, hset, h₂⟩
  cases hset
  revert h₂
  generalize s.current.iseq.tail = tail
  intro h₂
  refine behind (f := fun t => { t with
      breakBlock := false, loopStart := ((s.current.iseq.wordCount : ℤ) + 2) })
    (fun _ => rfl) ?_ h₂ hn
  refine hcond.bind fun _ => currentIseq.bind fun seq => (emitJump _).bind fun start =>
    bind (updateInsn _ fun _ => rfl) fun _ => get.bind fun t => bind (alter fun _ => rfl) fun _ =>
    (pushScope _).bind fun _ => (emitLoopBody hbody).bind fun _ => (deref _).bind fun label =>
    bind (updateInsn _ fun _ => rfl) fun _ => get.bind fun t => (emitLoop _).bind fun _ =>
    (patchJump _ _).bind fun _ => currentIseq.bind fun seq => (deref _).bind fun last =>
    (patchBreaks _ _ _).bind fun _ => bind (alter fun _ => rfl) fun _ => popScope _

theorem emitFor {emitInit emitTest emitIncr : Option (Emit ν Unit)} {emitBody : Emit ν Unit}
    (hinit : ∀ m ∈ emitInit, Moves Grows (n + 1) (n + 1) m)
    (htest : ∀ m ∈ emitTest, Moves Grows (n + 1) (n + 1) m)
    (hincr : ∀ m ∈ emitIncr, Moves Grows (n + 1) (n + 1) m)
    (hbody : Moves Grows (n + 1) (n + 1) emitBody) :
    Moves Grows n n (Emit.emitFor emitInit emitTest emitIncr emitBody) := by
  have hgetD : ∀ {o : Option (Emit ν Unit)} {d : Emit ν Unit},
      (∀ m ∈ o, Moves Grows (n + 1) (n + 1) m) → Moves Grows (n + 1) (n + 1) d →
      Moves Grows (n + 1) (n + 1) (o.getD d) := by
    intro o d ho hd
    cases o with
    | none => exact hd
    | some m => exact ho m rfl
  refine (pushScope _).bind fun _ => (hgetD hinit (pure _)).bind fun _ => ?_
  intro s a s' h hn
  rcases bind_eq_ok h with ⟨s₀, s₁, hget, h₁⟩
  cases hget
  rcases bind_eq_ok h₁ with ⟨_, s₂, hset, h₂⟩
  cases hset
  refine behind (f := fun t => { t with
      loopStart := ((s.current.iseq.wordCount : ℤ) + 2) }) (fun _ => rfl) ?_ h₂ hn
  refine (hgetD htest (emitOp _ _)).bind fun _ => (emitJump _).bind fun jump => get.bind fun t =>
    bind (alter fun _ => rfl) fun _ => (emitLoopBody hbody).bind fun _ =>
    (hgetD hincr (pure _)).bind fun _ => (emitLoop _).bind fun _ => (patchJump _ _).bind fun _ =>
    currentIseq.bind fun seq => (deref _).bind fun last => (patchBreaks _ _ _).bind fun _ =>
    bind (alter fun _ => rfl) fun _ => popScope _

theorem declareVarSlots (names : List String) :
    Moves Grows n n (Emit.declareVarSlots names : Emit ν (List ℕ)) := by
  induction names with
  | nil => exact pure _
  | cons name rest ih => exact (declareVariable _).bind fun _ => ih.bind fun _ => pure _

theorem emitForeachSets (numVars : ℕ) (slots : List (String × ℕ)) (slotIdx : ℕ) :
    Moves Grows n n (Emit.emitForeachSets numVars slots slotIdx : Emit ν Unit) := by
  induction slots generalizing slotIdx with
  | nil => exact pure _
  | cons slot rest ih =>
    refine (identifierConstant _).bind fun nameIdx => ite ?_ ?_
    · exact (emitOp _ _).bind fun _ => ih _
    · exact (emitOp _ _).bind fun _ => ih _

theorem emitPops (count : ℕ) : Moves Grows n n (Emit.emitPops count : Emit ν Unit) := by
  induction count with
  | zero => exact pure _
  | succ count ih => exact (emitOp _ _).bind fun _ => ih

theorem foreachRest {vars : List String} {emitIter emitBody : Emit ν Unit}
    (hiter : Moves Grows (n + 1) (n + 1) emitIter) (hbody : Moves Grows (n + 1) (n + 1) emitBody) :
    Moves Grows (n + 1) n (Emit.foreachRest vars emitIter emitBody) :=
  (declareVarSlots _).bind fun _ => hiter.bind fun _ => (emitOp _ _).bind fun _ =>
    currentIseq.bind fun _ => (emitOp _ _).bind fun _ => (emitJump _).bind fun _ =>
    (emitForeachSets _ _ _).bind fun _ => currentIseq.bind fun _ => (deref _).bind fun _ =>
    get.bind fun _ => bind (alter fun _ => rfl) fun _ => (emitLoopBody hbody).bind fun _ =>
    currentIseq.bind fun _ => (deref _).bind fun _ => (patchContinuesBetween _ _).bind fun _ =>
    (emitPops _).bind fun _ => (emitLoop _).bind fun _ => (popScope _).bind fun _ =>
    (patchJump _ _).bind fun _ => (emitOp _ _).bind fun _ => currentIseq.bind fun _ =>
    (deref _).bind fun _ => (patchBreaks _ _ _).bind fun _ => emitOp _ _

theorem emitForeach {vars : List String} {emitIter emitBody : Emit ν Unit}
    (hiter : Moves Grows (n + 1) (n + 1) emitIter) (hbody : Moves Grows (n + 1) (n + 1) emitBody) :
    Moves Grows n n (Emit.emitForeach vars emitIter emitBody) := by
  refine (pushScope _).bind fun _ => (addFakeLocal _).bind fun _ => ite ?_ (foreachRest hiter hbody)
  exact (addFakeLocal _).bind fun _ => foreachRest hiter hbody

theorem emitBreakStmt : Moves Grows n n (Emit.emitBreakStmt : Emit ν Unit) := by
  refine get.bind fun s => ?_
  split
  · exact error _
  · exact emitOp _ _
  · exact emitOp _ _

theorem emitContinueStmt : Moves Grows n n (Emit.emitContinueStmt : Emit ν Unit) := by
  refine get.bind fun s => ?_
  split
  · exact error _
  · exact (emitOp _ _).bind fun _ => (emitOp _ _).bind fun _ => emitOp _ _
  · exact (emitJump _).bind fun _ => updateInsn _ fun _ => rfl
  · exact emitLoop _
  · exact emitLoop _

theorem emitReturnStmt {emitExpr : Option (Emit ν Unit)} (hexpr : ∀ m ∈ emitExpr, Moves Grows n n m) :
    Moves Grows n n (Emit.emitReturnStmt emitExpr) := by
  cases emitExpr with
  | none =>
    refine get.bind fun s => ite ((emitOp _ _).bind fun _ => emitOp _ _) (get.bind fun s => ?_)
    exact ite (emitOp _ _) emitReturn
  | some m =>
    have hend : Moves Grows n n (do
        if (← MonadState.get).breakBlock then
          Emit.assert ((← MonadState.get).current.type = .block)
          Emit.emitOp .opBlockReturn []
        else Emit.emitOp .opReturn [] : Emit ν Unit) :=
      get.bind fun _ =>
        ite (get.bind fun _ => (assert _).bind fun _ => emitOp _ _) (emitOp _ _)
    refine get.bind fun s => ite ?_ ?_
    · exact (emitOp _ _).bind fun _ => hend
    · exact (hexpr m rfl).bind fun _ => hend

/-- The tables of the sequence change, the instructions do not. -/
theorem replaceIseq {g : Iseq ν → Iseq ν} {rest : Iseq ν → Unit → Emit ν α}
    (hg : ∀ seq, (g seq).insns = seq.insns ∧ (g seq).nextAddr = seq.nextAddr ∧
      (g seq).wordCount = seq.wordCount)
    (hrest : ∀ seq u, Moves Grows n k (rest seq u)) :
    Moves Grows n k (Emit.currentIseq >>= fun seq =>
      Emit.modifyIseq (fun _ => g seq) >>= rest seq) := by
  intro s a s' h hn
  rcases bind_eq_ok h with ⟨seq, s₁, hget, h₁⟩
  cases hget
  rcases bind_eq_ok h₁ with ⟨_, s₂, hset, h₂⟩
  cases hset
  refine behind (f := fun t => { t with current := { t.current with iseq := g t.current.iseq } })
    (fun t => ?_) (hrest _ _) h₂ hn
  simp only [solid, built, hg]

section

variable [LoxNum ν]

theorem emitCatch {ifrom ito : ℕ} {className : List String} {var : Option String}
    {emitBlock : Emit ν Unit} {jumpOver : Bool}
    (hblock : Moves Grows (n + 1) (n + 1) emitBlock) :
    Moves Grows n n (Emit.emitCatch ifrom ito className var emitBlock jumpOver) := by
  have hend : Moves Grows (n + 1) n (do
      emitBlock
      let jumps ← if jumpOver then (fun jump => [jump]) <$> Emit.emitJump .opJump else Pure.pure []
      Emit.popScope .try
      return jumps : Emit ν (List Addr)) := by
    refine hblock.bind fun _ => ite ?_ ?_
    · exact bind (map (emitJump _)) fun _ => (popScope _).bind fun _ => pure _
    · exact (popScope _).bind fun _ => pure _
  refine replaceIseq (fun _ => ⟨rfl, rfl, rfl⟩) fun seq _ => (pushScope _).bind fun _ => ?_
  cases var with
  | none => exact hend
  | some varName =>
    exact (makeConstant _).bind fun _ => (emitOp _ _).bind fun _ => (declareVariable _).bind fun _ =>
      (namedVariable _ _).bind fun _ => hend

theorem emitEnsure {ifrom ito : ℕ} {emitBlock : Emit ν Unit}
    (hblock : Moves Grows (n + 1) (n + 1) emitBlock) :
    Moves Grows n n (Emit.emitEnsure ifrom ito emitBlock) :=
  replaceIseq (fun _ => ⟨rfl, rfl, rfl⟩) fun _ _ => (makeConstant _).bind fun _ =>
    (pushScope _).bind fun _ => hblock.bind fun _ => (emitOp _ _).bind fun _ => popScope _

end

/-! ### Functions -/

theorem modifyFunction (f : ObjFunction ν → ObjFunction ν) :
    Moves Inside n n (Emit.modifyFunction f) := by
  intro s a s' h hn
  cases h
  exact ⟨⟨List.prefix_refl _, id, rfl, List.prefix_refl _, rfl, id, fun i hi _ => ⟨i, hi, rfl, rfl⟩,
    List.prefix_refl _⟩, hn⟩

theorem declareParam (name : String) : Moves Grows n n (Emit.declareParam name : Emit ν ℕ) :=
  (declareVariable _).bind fun _ => (defineVariable _).bind fun _ => pure _

theorem declareRegularParams (params : List Node) :
    Moves Inside n n (Emit.declareRegularParams params : Emit ν Unit) := by
  fun_induction Emit.declareRegularParams (ν := ν) params with
  | case1 => exact (pure _).inside
  | case2 name children rest ih =>
    exact (declareParam _).inside.bind fun _ => (modifyFunction _).bind fun _ => ih
  | case3 param rest hparam ih => exact ih

theorem emitDefaultArg {name : String} {emitDefault : Emit ν Unit}
    (hdefault : Moves Grows n n emitDefault) :
    Moves Inside n n (Emit.emitDefaultArg name emitDefault) :=
  (declareParam _).inside.bind fun _ => (modifyFunction _).bind fun _ =>
    currentIseq.inside.bind fun _ => hdefault.inside.bind fun _ =>
    (identifierConstant _).inside.bind fun _ => (emitOp _ _).inside.bind fun _ =>
    (emitOp _ _).inside.bind fun _ => currentIseq.inside.bind fun _ =>
    (deref _).inside.bind fun _ => modifyFunction _

theorem emitKwarg {numParams : ℕ} {name : String} {emitDefault : Emit ν Unit}
    (hdefault : Moves Grows n n emitDefault) :
    Moves Inside n n (Emit.emitKwarg numParams name emitDefault) :=
  (declareParam _).inside.bind fun _ => (emitOp _ _).inside.bind fun _ =>
    (modifyFunction _).bind fun _ => (emitJump _).inside.bind fun _ =>
    hdefault.inside.bind fun _ => (identifierConstant _).inside.bind fun _ =>
    (emitOp _ _).inside.bind fun _ => (emitOp _ _).inside.bind fun _ =>
    (patchJump _ _).inside.bind fun _ => modifyFunction _

theorem emitOtherParam (kind : ParamKind) (name : String) :
    Moves Inside n n (Emit.emitOtherParam kind name : Emit ν Unit) := by
  refine ite ?_ (ite ?_ (modifyFunction _))
  · exact (declareParam _).inside.bind fun _ => (modifyFunction _).bind fun _ => modifyFunction _
  · exact (declareParam _).inside.bind fun _ => (modifyFunction _).bind fun _ => modifyFunction _

end Moves

namespace Emit

/-- `emitFunction` behind the parameters, up to `endCompiler`. -/
def functionRest (ftype : FunctionType) (params : List Node) (emitBody : Emit ν Unit) :
    Emit ν Unit := do
  if params.any isKwargParam then addFakeLocal true
  let oldBreakBlock := (← get).breakBlock
  if ftype = .block then modify fun s => { s with breakBlock := true }
  let oldLoopType := (← get).curLoopType
  modify fun s => { s with curLoopType := .block }
  emitBody
  modify fun s => { s with curLoopType := oldLoopType }
  if ftype = .block then modify fun s => { s with breakBlock := oldBreakBlock }
  popScope .function

/-- `emitFunction` between `initCompiler` and `endCompiler`. -/
def functionCode {α : Type} (ftype : FunctionType) (params : List Node) (emitParams : Emit ν α)
    (emitBody : Emit ν Unit) : Emit ν α := do
  pushScope .function
  declareRegularParams params
  let a ← emitParams
  functionRest ftype params emitBody
  return a

/-- `OP_CLOSURE` and its descriptors. -/
def emitClosure (id : ℕ) (upvalues : List Upvalue) : Emit ν Unit := do
  emitOp .opClosure [← makeConstant (.function id)]
  forM upvalues fun upvalue => do
    let _ ← emitInsn (if upvalue.isLocal then 1 else 0) [] false
    let _ ← emitInsn upvalue.index [] false

theorem emitFunctionCode_eq [LoxNum ν] (name : String) (ftype : FunctionType) (params : List Node)
    (emitParams emitBody : Emit ν Unit) :
    emitFunctionCode name ftype params emitParams emitBody = (do
      initCompiler ftype name
      functionCode ftype params emitParams emitBody
      let upvalues := (← get).current.upvalues
      let id ← endCompiler
      if ftype ≠ .block then emitClosure id upvalues
      return id) := by
  unfold emitFunctionCode functionCode functionRest emitClosure
  by_cases hkwarg : params.any isKwargParam = true <;> by_cases hblock : ftype = .block <;>
    simp [hkwarg, hblock]

end Emit

namespace Moves

variable {α : Type} {n : ℕ}

theorem functionRest {ftype : FunctionType} {params : List Node} {emitBody : Emit ν Unit}
    (hbody : Moves Grows (n + 1) (n + 1) emitBody) :
    Moves Grows (n + 1) n (Emit.functionRest ftype params emitBody) := by
  have hend : ∀ old : Bool, Moves Grows (n + 1) n (do
      if ftype = .block then modify fun s => { s with breakBlock := old }
      Emit.popScope .function : Emit ν Unit) := fun old =>
    ite (bind (alter fun _ => rfl) fun _ => popScope _) (popScope _)
  have hmiddle : ∀ old : Bool, Moves Grows (n + 1) n (do
      let oldLoopType := (← MonadState.get).curLoopType
      modify fun s => { s with curLoopType := .block }
      emitBody
      modify fun s => { s with curLoopType := oldLoopType }
      if ftype = .block then modify fun s => { s with breakBlock := old }
      Emit.popScope .function : Emit ν Unit) := fun old =>
    get.bind fun _ => bind (alter fun _ => rfl) fun _ => hbody.bind fun _ =>
      bind (alter fun _ => rfl) fun _ => hend old
  have hrest : Moves Grows (n + 1) n (do
      let oldBreakBlock := (← MonadState.get).breakBlock
      if ftype = .block then modify fun s => { s with breakBlock := true }
      let oldLoopType := (← MonadState.get).curLoopType
      modify fun s => { s with curLoopType := .block }
      emitBody
      modify fun s => { s with curLoopType := oldLoopType }
      if ftype = .block then modify fun s => { s with breakBlock := oldBreakBlock }
      Emit.popScope .function : Emit ν Unit) :=
    get.bind fun s => ite (bind (alter fun _ => rfl) fun _ => hmiddle _) (hmiddle _)
  exact ite ((addFakeLocal _).bind fun _ => hrest) hrest

theorem functionCode {ftype : FunctionType} {params : List Node} {emitParams : Emit ν α}
    {emitBody : Emit ν Unit} (hparams : Moves Inside (n + 1) (n + 1) emitParams)
    (hbody : Moves Grows (n + 1) (n + 1) emitBody) :
    Moves Inside n n (Emit.functionCode ftype params emitParams emitBody) :=
  (pushScope _).inside.bind fun _ => (declareRegularParams _).bind fun _ => hparams.bind fun _ =>
    (functionRest hbody).inside.bind fun _ => (pure _).inside

theorem emitClosure (id : ℕ) (upvalues : List Upvalue) :
    Moves Grows n n (Emit.emitClosure id upvalues : Emit ν Unit) :=
  (makeConstant _).bind fun _ => (emitOp _ _).bind fun _ => forM fun _ =>
    (emitInsn _ _ _).bind fun _ => (emitInsn _ _ _).bind fun _ => pure _

theorem endCompiler_spec [LoxNum ν] {s s' : CompState ν} {id : ℕ}
    (h : Emit.endCompiler s = .ok (id, s')) :
    ∃ func outer rest, finishFunction s.opts s.current = .ok func ∧ s.enclosing = outer :: rest ∧
      id = s.functions.length ∧
      s' = { s with current := outer, enclosing := rest, functions := s.functions ++ [func] } := by
  rcases bind_eq_ok h with ⟨s₀, s₁, hget, h₁⟩
  cases hget
  rcases bind_eq_ok h₁ with ⟨func, s₂, hfunc, h₂⟩
  cases hf : finishFunction s.opts s.current with
  | error e =>
    rw [hf] at hfunc
    cases hfunc
  | ok func' =>
    rw [hf] at hfunc
    cases hfunc
    cases hencl : s.enclosing with
    | nil =>
      simp only [hencl] at h₂
      cases h₂
    | cons outer rest =>
      simp only [hencl] at h₂
      cases h₂
      exact ⟨func, outer, rest, rfl, rfl, rfl, rfl⟩

/-- What `emitFunction` does to the function around: between its last instruction and the closure
there is nothing, and the new function is kept. -/
theorem emitFunctionCode_spec [LoxNum ν] {name : String} {ftype : FunctionType}
    {params : List Node} {emitParams emitBody : Emit ν Unit} {s s' : CompState ν} {id : ℕ}
    (hparams : ∀ d, Moves Inside d d emitParams) (hbody : ∀ d, Moves Grows d d emitBody)
    (h : Emit.emitFunctionCode name ftype params emitParams emitBody s = .ok (id, s')) :
    ∃ inner func s₁, (do
        Emit.initCompiler ftype name
        Emit.functionCode ftype params emitParams emitBody) s = .ok ((), inner) ∧
      finishFunction s.opts inner.current = .ok func ∧ s₁.functions[id]? = some func ∧
      s₁.current.iseq = s.current.iseq ∧ s₁.current.scopeDepth = s.current.scopeDepth ∧
      Grows s s₁ ∧
      (if ftype ≠ .block then Emit.emitClosure id inner.current.upvalues else Pure.pure ()) s₁ =
        .ok ((), s') := by
  rw [emitFunctionCode_eq] at h
  rcases bind_eq_ok h with ⟨_, s₁, hinit, h₁⟩
  rcases bind_eq_ok h₁ with ⟨_, s₂, hcode, h₂⟩
  rcases bind_eq_ok h₂ with ⟨_, s₃, hget, h₃⟩
  cases hget
  rcases bind_eq_ok h₃ with ⟨id₁, s₄, hend, h₄⟩
  have hinside : Inside s₁ s₂ := by
    cases hinit
    exact (functionCode (hparams _) (hbody _) _ _ _ hcode rfl).1
  cases hinit
  rcases endCompiler_spec hend with ⟨func, outer, rest, hfunc, hencl, rfl, rfl⟩
  have hkept := hinside.enclosing
  rw [hencl, List.map_cons, List.map_cons, List.cons.injEq] at hkept
  simp only [Compiler.kept, Prod.mk.injEq] at hkept
  rcases hkept with ⟨⟨hfunction, hiseq, -, hdepth⟩, hrest⟩
  have hclosure : id = s₂.functions.length ∧
      (if ftype ≠ .block then Emit.emitClosure id s₂.current.upvalues else Pure.pure ())
        { s₂ with current := outer, enclosing := rest, functions := s₂.functions ++ [func] } =
          .ok ((), s') := by
    split at h₄
    · rename_i hblock
      rcases bind_eq_ok h₄ with ⟨_, s₅, hclosure, h₅⟩
      cases h₅
      rw [if_pos hblock]
      exact ⟨rfl, hclosure⟩
    · rename_i hblock
      cases h₄
      rw [if_neg hblock]
      exact ⟨rfl, rfl⟩
  refine ⟨s₂, func, _, hcode, hinside.opts ▸ hfunc, ?_, hiseq, hdepth, ?_, hclosure.2⟩
  · rw [hclosure.1]
    simp
  · refine ⟨⟨?_, ?_, hrest, ?_, hinside.opts, ?_, ?_, hinside.messages⟩, ?_⟩
    · exact hiseq ▸ List.prefix_refl _
    · exact hiseq ▸ fun h => h
    · exact hinside.functions.trans (List.prefix_append _ _)
    · exact hiseq ▸ fun h => h
    · exact hiseq ▸ fun i hi _ => ⟨i, hi, rfl, rfl⟩
    · exact congrArg ObjFunction.signature hfunction

/-- A function inside another one leaves the other as it was, but for its closure. -/
theorem emitFunctionCode [LoxNum ν] {name : String} {ftype : FunctionType} {params : List Node}
    {emitParams emitBody : Emit ν Unit} (hparams : ∀ d, Moves Inside d d emitParams)
    (hbody : ∀ d, Moves Grows d d emitBody) :
    Moves Grows n n (Emit.emitFunctionCode name ftype params emitParams emitBody) := by
  intro s id s' h hn
  rcases emitFunctionCode_spec hparams hbody h with
    ⟨inner, func, s₁, -, -, -, -, hdepth, hgrows, hclosure⟩
  have hlast := (ite (emitClosure id inner.current.upvalues) (pure ())) _ _ _ hclosure
    (hdepth.trans hn)
  exact ⟨hgrows.trans hlast.1, hlast.2⟩

theorem emitFunction [LoxNum ν] {name : String} {ftype : FunctionType} {params : List Node}
    {emitParams emitBody : Emit ν Unit} (hparams : ∀ d, Moves Inside d d emitParams)
    (hbody : ∀ d, Moves Grows d d emitBody) :
    Moves Grows n n (Emit.emitFunction name ftype params emitParams emitBody) := by
  have hname : ∀ (op : OpCode) (id : ℕ), Moves Grows n n (do
      Emit.emitOp op [← Emit.identifierConstant name]
      return id : Emit ν ℕ) := fun op id =>
    (identifierConstant _).bind fun _ => (emitOp _ _).bind fun _ => pure _
  refine (emitFunctionCode hparams hbody).bind fun id => get.bind fun s => ?_
  split
  · exact pure _
  · exact pure _
  · exact pure _
  · refine ite ((namedVariable _ _).bind fun _ => (emitOp _ _).bind fun _ => pure _) ?_
    split
    · exact hname _ _
    · exact hname _ _
    · exact hname _ _
    · exact hname _ _
    · exact hname _ _
    · exact of_error fun _ => ⟨_, rfl⟩

/-! ### Nodes -/

section

variable [LoxNum ν]

mutual

theorem emitNode (flipped : Bool) (node : Node) (n : ℕ) :
    Moves Grows n n (Emit.emitNode flipped node : Emit ν Unit) := by
  cases node with
  | stmtList children => exact unlessError (emitChildren flipped children n)
  | grouping expr => exact unlessError (emitNode flipped expr n)
  | exprStmt expr =>
    exact unlessError ((emitNode flipped expr n).bind fun _ => emitOp _ _)
  | binary tok lhs rhs =>
    exact unlessError ((emitNode flipped lhs n).bind fun _ =>
      (emitNode flipped rhs n).bind fun _ => emitBinaryOp _)
  | binaryAssign tok name rhs =>
    exact unlessError ((namedVariable _ _).bind fun _ => (emitNode flipped rhs n).bind fun _ =>
      (emitBinaryOp _).bind fun _ => namedVariable _ _)
  | logical tok lhs rhs =>
    exact unlessError ((emitNode flipped lhs n).bind fun _ => (emitJump _).bind fun _ =>
      (emitNode flipped rhs n).bind fun _ => (emitOp _ _).bind fun _ =>
      currentIseq.bind fun _ => (deref _).bind fun _ => (insnOffset _ _).bind fun _ =>
      patchJumpTo _ _ _ _)
  | unary tok expr =>
    exact unlessError ((emitNode flipped expr n).bind fun _ => emitOp _ _)
  | literal lit => exact unlessError (emitLiteral lit)
  | array children =>
    refine unlessError (ite (error _) ?_)
    split
    · exact (makeConstant _).bind fun _ => emitOp _ _
    · exact ite ((emitChildren flipped children n).bind fun _ => emitOp _ _)
        ((emitChildrenRev flipped children n).bind fun _ => emitOp _ _)
  | map children =>
    refine unlessError ((assert _).bind fun _ => ite (error _) ?_)
    split
    · exact (makeConstant _).bind fun _ => emitOp _ _
    · exact ite ((emitChildren flipped children n).bind fun _ => emitOp _ _)
        ((emitChildrenRev flipped children n).bind fun _ => emitOp _ _)
  | indexGet obj index =>
    exact unlessError ((emitNode flipped obj n).bind fun _ =>
      (emitNode flipped index n).bind fun _ => emitOp _ _)
  | indexSet obj index rval =>
    exact unlessError ((emitNode flipped obj n).bind fun _ =>
      (emitNode flipped index n).bind fun _ => (emitNode flipped rval n).bind fun _ =>
      emitOp _ _)
  | «variable» name => exact unlessError (namedVariable _ _)
  | constant name => exact unlessError ((identifierConstant _).bind fun _ => emitOp _ _)
  | constantLookup under name =>
    cases under with
    | none =>
      exact unlessError ((emitOp _ _).bind fun _ => (identifierConstant _).bind fun _ => emitOp _ _)
    | some under =>
      exact unlessError ((emitNode flipped under n).bind fun _ =>
        (identifierConstant _).bind fun _ => emitOp _ _)
  | assign name rval =>
    exact unlessError ((emitNode flipped rval n).bind fun _ => namedVariable _ _)
  | assignConstant name rval =>
    exact unlessError ((emitNode flipped rval n).bind fun _ =>
      (identifierConstant _).bind fun _ => emitOp _ _)
  | call nameTok lhs args =>
    cases lhs <;> exact unlessError (bind (emitCall (emitNode flipped _ n)
      (emitChildren flipped args n)) fun _ => pure _)
  | callBlock nameTok lhs args params body =>
    cases lhs <;> exact unlessError (bind (emitCall (emitNode flipped _ n)
      (emitChildren flipped args n)) fun _ => (emitFunction (emitParams flipped params.length params)
      (emitNode flipped body)).bind fun _ => bind (deref _) fun _ => alter fun _ => rfl)
  | toBlock expr =>
    exact unlessError ((emitNode flipped expr n).bind fun _ => emitOp _ _)
  | propAccess obj name =>
    exact unlessError ((emitNode flipped obj n).bind fun _ =>
      (identifierConstant _).bind fun _ => emitOp _ _)
  | propSet obj name rval =>
    exact unlessError ((emitNode flipped obj n).bind fun _ =>
      (emitNode flipped rval n).bind fun _ => (identifierConstant _).bind fun _ => emitOp _ _)
  | propSetBinop tok obj name rval =>
    have hend : Moves Grows n n (do
        Emit.emitNode flipped rval
        Emit.emitBinaryOp tok
        Emit.emitOp .opPropSet [← Emit.identifierConstant name] : Emit ν Unit) :=
      (emitNode flipped rval n).bind fun _ => (emitBinaryOp _).bind fun _ =>
        (identifierConstant _).bind fun _ => emitOp _ _
    refine unlessError ((emitNode false obj n).bind fun _ => get.bind fun _ => ite hend ?_)
    exact (emitNode true obj n).bind fun _ => (identifierConstant _).bind fun _ =>
      (emitOp _ _).bind fun _ => hend
  | this => exact unlessError (emitOp _ _)
  | super name => exact unlessError ((identifierConstant _).bind fun _ => emitOp _ _)
  | splat expr => exact unlessError ((emitNode flipped expr n).bind fun _ => emitOp _ _)
  | kwargInCall name expr => exact unlessError (emitNode flipped expr n)
  | print expr => exact unlessError ((emitNode flipped expr n).bind fun _ => emitOp _ _)
  | var name more init =>
    cases init with
    | none => exact unlessError (emitVar of_none)
    | some init => exact unlessError (emitVar (of_some (emitNode flipped init n)))
  | block children =>
    exact unlessError ((pushScope _).bind fun _ =>
      (emitChildren flipped children (n + 1)).bind fun _ => popScope _)
  | ifStmt cond thenBranch elseBranch =>
    cases elseBranch with
    | none =>
      exact unlessError (emitIf (emitNode flipped cond n) (emitNode flipped thenBranch (n + 1))
        of_none)
    | some elseBranch =>
      exact unlessError (emitIf (emitNode flipped cond n) (emitNode flipped thenBranch (n + 1))
        (of_some (emitNode flipped elseBranch (n + 1))))
  | whileStmt cond body =>
    exact unlessError (emitWhile (emitNode flipped cond n)
      (emitNode flipped body (n + 1)))
  | forStmt init test incr body =>
    cases init <;> cases test <;> cases incr <;>
      refine unlessError (emitFor ?_ ?_ ?_ (emitNode flipped body (n + 1))) <;>
      first
        | exact of_none
        | exact of_some (emitNode flipped _ _)
  | foreachStmt vars iter body =>
    exact unlessError (emitForeach (emitNode flipped iter (n + 1))
      (emitNode flipped body (n + 1)))
  | continueStmt => exact unlessError emitContinueStmt
  | breakStmt => exact unlessError emitBreakStmt
  | param kind name children => exact unlessError (throw _)
  | function kind name params body =>
    refine unlessError (get.bind fun s => ?_)
    split
    · exact error _
    · exact (emitFunction (emitParams flipped params.length params)
        (emitNode flipped body)).bind fun _ => pure _
  | returnStmt expr =>
    cases expr with
    | none => exact unlessError (emitReturnStmt of_none)
    | some expr =>
      exact unlessError (emitReturnStmt (of_some (emitNode flipped expr n)))
  | classStmt name superClass body =>
    exact unlessError (emitClass (emitNode flipped body (n + 1)))
  | moduleStmt name body => exact unlessError (emitModule (emitNode flipped body (n + 1)))
  | inStmt expr body =>
    exact unlessError (emitIn (emitNode flipped expr n) (emitNode flipped body (n + 1)))
  | tryStmt block clauses =>
    have hclauses : ∀ (ifrom : ℕ) (jumpToEnd : Option Addr), Moves Grows n n (do
        let ito := (← Emit.currentIseq).wordCount
        let jumps ← Emit.emitClauses flipped ifrom ito jumpToEnd jumpToEnd.toList clauses
        unless clauses.isEmpty do Emit.patchJumps jumps : Emit ν Unit) := fun ifrom jumpToEnd =>
      currentIseq.bind fun _ => (emitClauses flipped _ _ _ _ clauses n).bind fun _ =>
        ite (pure _) (patchJumps _)
    refine unlessError (currentIseq.bind fun seq => (emitNode flipped block n).bind fun _ =>
      ite ?_ ?_)
    · exact hclauses _ _
    · exact (map (emitJump _)).bind fun jump => hclauses _ _
  | catchStmt className var block => exact unlessError (throw _)
  | tryElse block => exact unlessError (throw _)
  | ensure block => exact unlessError (throw _)
  | throw expr => exact unlessError ((emitNode flipped expr n).bind fun _ => emitOp _ _)

theorem emitChildren (flipped : Bool) (children : List Node) (n : ℕ) :
    Moves Grows n n (Emit.emitChildren flipped children : Emit ν Unit) := by
  cases children with
  | nil => exact pure _
  | cons x rest =>
    exact (emitNode flipped x n).bind fun _ => emitChildren flipped rest n

theorem emitChildrenRev (flipped : Bool) (children : List Node) (n : ℕ) :
    Moves Grows n n (Emit.emitChildrenRev flipped children : Emit ν Unit) := by
  cases children with
  | nil => exact pure _
  | cons x rest =>
    exact (emitChildrenRev flipped rest n).bind fun _ => emitNode flipped x n

theorem emitParams (flipped : Bool) (numParams : ℕ) (params : List Node) (n : ℕ) :
    Moves Inside n n (Emit.emitParams flipped numParams params : Emit ν Unit) := by
  cases params with
  | nil => exact (pure _).inside
  | cons param rest =>
    cases param with
    | param kind name children =>
      have hrest := emitParams flipped numParams rest n
      cases kind with
      | defaultArg =>
        rcases children with _ | ⟨default, _ | ⟨x, more⟩⟩
        · exact (emitOtherParam _ _).bind fun _ => hrest
        · exact (emitDefaultArg (emitNode flipped default n)).bind fun _ => hrest
        · exact (emitOtherParam _ _).bind fun _ => hrest
      | kwarg => exact (emitKwarg (emitChildren flipped children n)).bind fun _ => hrest
      | regular => exact (emitOtherParam _ _).bind fun _ => hrest
      | splat => exact (emitOtherParam _ _).bind fun _ => hrest
      | block => exact (emitOtherParam _ _).bind fun _ => hrest
    | _ => exact throw _

theorem emitClauses (flipped : Bool) (ifrom ito : ℕ) (jumpToEnd : Option Addr) (jumps : List Addr)
    (clauses : List Node) (n : ℕ) :
    Moves Grows n n
      (Emit.emitClauses flipped ifrom ito jumpToEnd jumps clauses : Emit ν (List Addr)) := by
  cases clauses with
  | nil => exact pure _
  | cons clause rest =>
    cases clause with
    | catchStmt className var block =>
      exact (emitCatch (emitNode flipped block (n + 1))).bind fun _ =>
        emitClauses flipped _ _ _ _ rest n
    | tryElse block =>
      cases jumpToEnd with
      | none => exact throw _
      | some jump =>
        exact (patchJump _ _).bind fun _ => (pushScope _).bind fun _ =>
          (emitNode flipped block (n + 1)).bind fun _ => (popScope _).bind fun _ =>
          emitClauses flipped _ _ _ _ rest n
    | ensure block =>
      exact (patchJumps _).bind fun _ => (emitEnsure (emitNode flipped block (n + 1))).bind fun _ =>
        emitClauses flipped _ _ _ _ rest n
    | _ => exact throw _

end

end

end Moves

end Clox
