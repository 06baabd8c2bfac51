import Clox.Compiler.Growth
import Clox.Vm.Foreach

/-! # The code of `foreach`

Where the instructions of a `foreach` statement stand in the words of the sequence, as they are
before the optimizer. They stay where they are emitted, whatever is emitted behind them, and with
their operands, but for the jump behind the loop, which is patched.
-/

namespace Clox

open CompState Emit

variable {ν : Type} {s s' t t' : CompState ν} {u : Unit}

/-! ## Words of an instruction -/

/-- The words of the chunk, where the optimizer is not run. -/
def Iseq.words (seq : Iseq ν) : List ℕ := (seq.insns.map Insn.words).flatten

theorem length_flatten_words (l : List Insn) :
    (l.map Insn.words).flatten.length = Layout.width Insn.size l := by
  rw [List.length_flatten, List.map_map, Layout.width]
  exact congrArg List.sum (List.map_congr_left fun i _ => Insn.length_words i)

theorem codeAt_of_outlines {seq : Iseq ν} {l : List Insn} {i i' : Insn}
    (hpre : (l ++ [i]).map Insn.outline <+: seq.insns.map Insn.outline) (hmem : i' ∈ seq.insns)
    (haddr : i'.addr = i.addr) :
    CodeAt seq.words (Layout.width Insn.size l) (i.code :: i'.operands) := by
  rcases hpre with ⟨rest, hrest⟩
  rw [List.map_append, List.append_assoc] at hrest
  rcases List.map_eq_append_iff.mp hrest.symm with ⟨l₁, behind, hsplit, hfront, hbehind⟩
  rcases List.map_eq_cons_iff.mp hbehind with ⟨i₁, l₂, rfl, hi₁, -⟩
  have hi₁mem : i₁ ∈ seq.insns := by
    rw [hsplit]
    exact List.mem_append_right _ List.mem_cons_self
  have hi₁' : i₁ = i' :=
    seq.eq_of_addr_eq hi₁mem hmem ((congrArg Prod.fst hi₁).trans haddr.symm)
  have hcode : i₁.code = i.code := congrArg (fun o => o.2.1) hi₁
  refine ⟨(l₂.map Insn.words).flatten, ?_⟩
  rw [Iseq.words, hsplit, List.map_append, List.flatten_append, ← width_eq_of_outlines hfront,
    ← length_flatten_words, List.drop_left, ← hcode, ← hi₁']
  rfl

/-- An instruction that is appended stands where the sequence ended, also later on. -/
theorem CompState.Inside.codeAt {i : Insn} (hcounted : s.current.iseq.Counted)
    (hinsns : t.current.iseq.insns = s.current.iseq.insns ++ [i]) (h : Inside t s')
    (hset : i.operand0 ≠ 0 ∨ i.operands = []) :
    CodeAt s'.current.iseq.words s.current.iseq.wordCount i.words := by
  have hpre := h.outlines
  rw [hinsns] at hpre
  have hmem : i ∈ t.current.iseq.insns := by
    rw [hinsns]
    exact List.mem_append_right _ List.mem_cons_self
  rw [hcounted]
  rcases hset with hset | hnil
  · rcases h.settled i hmem hset with ⟨i', hi', haddr, hops⟩
    have := codeAt_of_outlines hpre hi' haddr
    rwa [hops] at this
  · -- without operands, its outline says it all
    rcases hpre with ⟨rest, hrest⟩
    have hout : i.outline ∈ s'.current.iseq.insns.map Insn.outline := by
      rw [← hrest, List.map_append]
      exact List.mem_append_left _ (List.mem_append_right _ List.mem_cons_self)
    rcases List.mem_map.mp hout with ⟨i', hi', hi'out⟩
    have haddr : i'.addr = i.addr := congrArg Prod.fst hi'out
    have hops : i'.operands = i.operands := by
      have hnum : i'.numOperands = i.numOperands := congrArg (fun o => o.2.2) hi'out
      rw [hnil]
      rw [Insn.numOperands, Insn.numOperands, hnil] at hnum
      exact List.length_eq_zero_iff.mp hnum
    have := codeAt_of_outlines ⟨rest, hrest⟩ hi' haddr
    rwa [hops] at this

theorem CompState.Inside.wordCount_le (h : Inside s s') (hcounted : s.current.iseq.Counted) :
    s.current.iseq.wordCount ≤ s'.current.iseq.wordCount := by
  rcases h.outlines with ⟨rest, hrest⟩
  rcases List.map_eq_append_iff.mp hrest.symm with ⟨l₁, l₂, hsplit, hfront, -⟩
  rw [hcounted, h.counted hcounted, hsplit, Layout.width_append, width_eq_of_outlines hfront]
  exact Nat.le_add_right _ _

theorem emitOp_codeAt {op : OpCode} {operands : List ℕ} (h : emitOp op operands s = .ok (u, t))
    (hcounted : s.current.iseq.Counted) (hlater : Inside t s')
    (hset : operands.headD 0 ≠ 0 ∨ operands = []) :
    CodeAt s'.current.iseq.words s.current.iseq.wordCount (op.toNat :: operands) := by
  cases h
  exact hlater.codeAt (i := {
    addr := s.current.iseq.nextAddr
    code := op.toNat
    operands := operands
    isLabel := s.nextInsnIsLabel }) hcounted rfl hset

theorem emitOp_wordCount {op : OpCode} {operands : List ℕ} (h : emitOp op operands s = .ok (u, t)) :
    t.current.iseq.wordCount = s.current.iseq.wordCount + (operands.length + 1) := by
  cases h
  rfl

/-! ## Patches -/

/-- No words are added. -/
def KeepsWords {α : Type} (m : Emit ν α) : Prop :=
  ∀ s a s', m s = .ok (a, s') → s'.current.iseq.wordCount = s.current.iseq.wordCount

namespace KeepsWords

variable {α β : Type} {m : Emit ν α}

theorem bind {f : α → Emit ν β} (hm : KeepsWords m) (hf : ∀ a, KeepsWords (f a)) :
    KeepsWords (m >>= f) := by
  intro s b s' h
  rcases bind_eq_ok h with ⟨a, s₁, h₁, h₂⟩
  exact (hf a _ _ _ h₂).trans (hm _ _ _ h₁)

theorem pure (a : α) : KeepsWords (Pure.pure a : Emit ν α) := by
  intro s b s' h
  cases h
  rfl

theorem ite {p : Prop} [Decidable p] {m' : Emit ν α} (hm : KeepsWords m) (hm' : KeepsWords m') :
    KeepsWords (if p then m else m') := by
  split
  · exact hm
  · exact hm'

theorem forM {xs : List β} {f : β → Emit ν Unit} (hf : ∀ x, KeepsWords (f x)) :
    KeepsWords (ForM.forM xs f) := by
  induction xs with
  | nil => exact pure ()
  | cons x xs ih => exact (hf x).bind fun _ => ih

theorem currentIseq : KeepsWords (Emit.currentIseq : Emit ν (Iseq ν)) := by
  intro s a s' h
  cases h
  rfl

theorem deref (o : Option α) : KeepsWords (Emit.deref o : Emit ν α) := by
  intro s a s' h
  rw [(deref_eq_ok h).2]

theorem assert (b : Bool) : KeepsWords (Emit.assert b : Emit ν Unit) := by
  intro s a s' h
  rw [(assert_eq_ok h).2]

theorem updateInsn {a : Addr} {f : Insn → Insn} (hf : ∀ i, (f i).addr = i.addr) :
    KeepsWords (Emit.updateInsn a f hf : Emit ν Unit) := by
  intro s x s' h
  cases h
  rfl

theorem label : KeepsWords (modify fun s => { s with nextInsnIsLabel := true } : Emit ν Unit) := by
  intro s x s' h
  cases h
  rfl

theorem insnOffset (first last : Addr) : KeepsWords (Emit.insnOffset first last : Emit ν ℕ) :=
  currentIseq.bind fun _ => (assert _).bind fun _ => pure _

theorem patchJumpTo (toPatch : Addr) (jumpoffset : ℕ) (jumpTo : Addr) (jumpToNext : Bool) :
    KeepsWords (Emit.patchJumpTo toPatch jumpoffset jumpTo jumpToNext : Emit ν Unit) := by
  refine currentIseq.bind fun _ => (deref _).bind fun _ => (assert _).bind fun _ =>
    (assert _).bind fun _ => (updateInsn _).bind fun _ => ite ?_ ?_
  · exact label.bind fun _ => updateInsn _
  · exact (updateInsn _).bind fun _ => updateInsn _

theorem patchJump (toPatch : Addr) (jumpTo : Option Addr) :
    KeepsWords (Emit.patchJump toPatch jumpTo : Emit ν Unit) :=
  currentIseq.bind fun _ => (deref _).bind fun _ => (deref _).bind fun _ =>
    (insnOffset _ _).bind fun _ => patchJumpTo _ _ _ _

theorem patchContinuesBetween (a b : Addr) :
    KeepsWords (Emit.patchContinuesBetween a b : Emit ν Unit) := by
  refine currentIseq.bind fun _ => forM fun cur => ite ?_ (pure ())
  refine (currentIseq.bind fun _ => pure _).bind fun jumpTo => ite ?_ (patchJump _ _)
  exact (deref _).bind fun _ => (assert _).bind fun _ => patchJump _ _

theorem patchBreaks (first last : Addr) (after : Bool) :
    KeepsWords (Emit.patchBreaks first last after : Emit ν Unit) := by
  refine currentIseq.bind fun _ => (deref _).bind fun lastInsn => forM fun cur => ite ?_ (pure ())
  have hpatch : KeepsWords (do
      let off ← Emit.insnOffset cur.addr last
      let off := if after then off + lastInsn.size else off
      Emit.updateInsn cur.addr (fun i => i.setOperand0 off) fun _ => rfl
      unless after do
        Emit.updateInsn last (fun i => { i with isLabel := true }) Emit.addr_label : Emit ν Unit) :=
    (insnOffset _ _).bind fun _ => (updateInsn _).bind fun _ => ite (pure ()) (updateInsn _)
  exact ite (label.bind fun _ => hpatch) hpatch

end KeepsWords

theorem insnOffset_eq_ok {first last : Addr} {offset : ℕ}
    (h : insnOffset first last s = .ok (offset, t)) :
    offset = Layout.width Insn.size ((s.current.iseq.insns.drop
      (Layout.index (·.addr) s.current.iseq.insns first)).take
        (Layout.index (·.addr) s.current.iseq.insns last -
          Layout.index (·.addr) s.current.iseq.insns first)) ∧ t = s := by
  rcases bind_eq_ok h with ⟨seq, s₁, hget, h₁⟩
  cases hget
  rcases bind_eq_ok h₁ with ⟨_, s₂, hassert, h₂⟩
  rcases assert_eq_ok hassert with ⟨-, rfl⟩
  cases h₂
  exact ⟨rfl, rfl⟩

/-- From an instruction to the last one. -/
theorem width_to_tail {seq : Iseq ν} {l l' : List Insn} {i last : Insn}
    (hsplit : seq.insns = l ++ i :: l') (hlast : seq.tail = some last) :
    Layout.width Insn.size ((seq.insns.drop (Layout.index (·.addr) seq.insns i.addr)).take
      (Layout.index (·.addr) seq.insns last.addr - Layout.index (·.addr) seq.insns i.addr)) +
        last.size = Layout.width Insn.size (i :: l') := by
  have hindex : Layout.index (·.addr) seq.insns i.addr = l.length :=
    Layout.index_of_split seq.nodup hsplit
  rcases List.eq_nil_or_concat' (i :: l') with hnil | ⟨init, last', hinit⟩
  · cases hnil
  · have hlast' : last' = last := by
      rw [Iseq.tail, hsplit, hinit, ← List.append_assoc, List.getLast?_concat] at hlast
      exact Option.some.inj hlast
    subst hlast'
    have hend : Layout.index (·.addr) seq.insns last'.addr = (l ++ init).length := by
      have hback : seq.insns = (l ++ init) ++ last' :: [] := by
        rw [hsplit, hinit, List.append_assoc]
      exact Layout.index_of_split seq.nodup hback
    rw [hindex, hend, hsplit, List.drop_left, List.length_append, Nat.add_sub_cancel_left, hinit,
      List.take_left, Layout.width_append]
    rfl

/-- A jump that is patched to behind the sequence. -/
theorem patchJump_spec {toPatch : Addr} {l : List Insn} {i : Insn} {n : ℕ}
    (h : patchJump toPatch none s = .ok (u, t)) (hn : s.current.scopeDepth = n)
    (hcounted : s.current.iseq.Counted)
    (hpre : (l ++ [i]).map Insn.outline <+: s.current.iseq.insns.map Insn.outline)
    (haddr : i.addr = toPatch) (hone : i.numOperands = 1) (hlater : Inside t s') :
    CodeAt s'.current.iseq.words (Layout.width Insn.size l)
      [i.code, s.current.iseq.wordCount - Layout.width Insn.size l - 1] := by
  rcases hpre with ⟨rest, hrest⟩
  rw [List.map_append, List.append_assoc] at hrest
  rcases List.map_eq_append_iff.mp hrest.symm with ⟨l₁, behind, hsplit, hfront, hbehind⟩
  rcases List.map_eq_cons_iff.mp hbehind with ⟨i₁, l₂, rfl, hi₁, hl₂⟩
  have haddr₁ : i₁.addr = toPatch := (congrArg Prod.fst hi₁).trans haddr
  rcases bind_eq_ok h with ⟨seq, s₁, hget, h₁⟩
  cases hget
  rcases bind_eq_ok h₁ with ⟨jumpTo, s₂, hderef, h₂⟩
  rcases deref_eq_ok hderef with ⟨hjumpTo, rfl⟩
  rcases bind_eq_ok h₂ with ⟨last, s₃, hderef', h₃⟩
  rcases deref_eq_ok hderef' with ⟨hinsn, rfl⟩
  rcases bind_eq_ok h₃ with ⟨offset, s₄, hoffset, h₄⟩
  rcases insnOffset_eq_ok hoffset with ⟨rfl, rfl⟩
  have htail : s₄.current.iseq.tail = some last := by
    rcases Option.map_eq_some_iff.mp (Option.none_or.symm.trans hjumpTo) with ⟨last', hlast', rfl⟩
    rcases Iseq.mem_of_insn? hinsn with ⟨hmem, hsame⟩
    rw [hlast', s₄.current.iseq.eq_of_addr_eq hmem (List.mem_of_getLast? hlast') hsame]
  have hlastAddr := (Iseq.mem_of_insn? hinsn).2
  have hwidth := width_to_tail hsplit htail
  rw [haddr₁, hlastAddr] at hwidth
  have hcount : s₄.current.iseq.wordCount =
      Layout.width Insn.size l + Layout.width Insn.size (i₁ :: l₂) := by
    rw [hcounted, hsplit, Layout.width_append, width_eq_of_outlines hfront]
  have hnum : i₁.numOperands = 1 := (congrArg (fun o => o.2.2) hi₁).trans hone
  -- the operand counts from behind the jump's own words to behind the last instruction
  have hoperand : Layout.width Insn.size ((s₄.current.iseq.insns.drop
      (Layout.index (·.addr) s₄.current.iseq.insns toPatch)).take
        (Layout.index (·.addr) s₄.current.iseq.insns jumpTo -
          Layout.index (·.addr) s₄.current.iseq.insns toPatch)) + last.numOperands =
      s₄.current.iseq.wordCount - Layout.width Insn.size l - 1 := by
    rw [Insn.size] at hwidth
    omega
  rw [hoperand] at h₄
  rcases Moves.patchJumpTo_spec h₄ with ⟨patch, s₅, hpatch, hzero, hset, hrest'⟩
  cases hset
  rcases hrest' n hn with ⟨hlast, -⟩
  have hops : (i₁.setOperand0 (s₄.current.iseq.wordCount - Layout.width Insn.size l - 1)).operands =
      [s₄.current.iseq.wordCount - Layout.width Insn.size l - 1] := by
    rcases List.length_eq_one_iff.mp hnum with ⟨x, hx⟩
    rw [Insn.setOperand0, hx]
    rfl
  have hpos : s₄.current.iseq.wordCount - Layout.width Insn.size l - 1 ≠ 0 := by
    rw [Layout.width_cons, Insn.size, hnum] at hcount
    omega
  have hmem : i₁.setOperand0 (s₄.current.iseq.wordCount - Layout.width Insn.size l - 1) ∈
      s₄.current.iseq.insns.map fun i => if i.addr = toPatch then
        i.setOperand0 (s₄.current.iseq.wordCount - Layout.width Insn.size l - 1) else i := by
    refine List.mem_map.mpr ⟨i₁, ?_, if_pos haddr₁⟩
    rw [hsplit]
    exact List.mem_append_right _ List.mem_cons_self
  rcases (hlast.toInside.trans hlater).settled _ hmem (by rw [Insn.operand0, hops]; exact hpos) with
    ⟨i', hi', haddr', hops'⟩
  have hpre : (l ++ [i]).map Insn.outline <+: s'.current.iseq.insns.map Insn.outline := by
    have hsame : (s₄.current.iseq.insns.map fun i => if i.addr = toPatch then
        i.setOperand0 (s₄.current.iseq.wordCount - Layout.width Insn.size l - 1) else i).map
          Insn.outline = s₄.current.iseq.insns.map Insn.outline := by
      rw [List.map_map]
      refine List.map_congr_left fun j _ => ?_
      rw [Function.comp_apply, apply_ite Insn.outline, Moves.outline_setOperand0, ite_self]
    refine List.IsPrefix.trans ⟨rest, ?_⟩ (hsame ▸ (hlast.toInside.trans hlater).outlines)
    rw [List.map_append, List.append_assoc]
    exact hrest
  have hcode := codeAt_of_outlines hpre hi' (haddr'.trans (haddr₁.trans haddr.symm))
  rwa [hops', hops] at hcode

theorem emitLoop_spec {loopStart : ℕ} (h : emitLoop ((loopStart : ℤ) + 2) s = .ok (u, t))
    (hcounted : s.current.iseq.Counted) (hlt : loopStart < s.current.iseq.wordCount) {n : ℕ}
    (hn : s.current.scopeDepth = n) (hlater : Inside t s') :
    CodeAt s'.current.iseq.words s.current.iseq.wordCount
        [OpCode.opLoop.toNat, s.current.iseq.wordCount - loopStart] ∧
      t.current.iseq.wordCount = s.current.iseq.wordCount + 2 := by
  rcases bind_eq_ok h with ⟨seq, s₁, hget, h₁⟩
  cases hget
  rcases bind_eq_ok h₁ with ⟨_, s₂, hassert, h₂⟩
  rcases assert_eq_ok hassert with ⟨-, rfl⟩
  rcases bind_eq_ok h₂ with ⟨loopInsn, s₃, hinsn, h₃⟩
  have hoffset : ((s₂.current.iseq.wordCount : ℤ) - ((loopStart : ℤ) + 2) + 2).toNat =
      s₂.current.iseq.wordCount - loopStart := by omega
  rw [hoffset] at hinsn
  have hop : emitOp .opLoop [s₂.current.iseq.wordCount - loopStart] s₂ = .ok ((), s₃) := by
    cases hinsn
    rfl
  rcases bind_eq_ok h₃ with ⟨seq, s₄, hget, h₄⟩
  cases hget
  have hn₃ := (Moves.emitOp _ _ _ _ _ hop hn).2
  -- only the two labels are still to be set
  generalize Iseq.insnAtOffset _ _ = found at h₄
  rcases found with _ | target
  · cases h₄
  have hmoves : Moves Grows n n (do
      updateInsn loopInsn (fun i => { i with jumpTo := some target.addr }) (addr_jumpTo target.addr)
      updateInsn target.addr (fun i => { i with isLabel := true }) addr_label : Emit ν Unit) :=
    Moves.bind (Moves.updateInsn _ fun _ => rfl) fun _ => Moves.updateInsn _ fun _ => rfl
  have hgrows := (hmoves _ _ _ h₄ hn₃).1
  have hwords := ((KeepsWords.updateInsn _).bind fun _ => KeepsWords.updateInsn _) _ _ _ h₄
  refine ⟨?_, ?_⟩
  · exact emitOp_codeAt hop hcounted (hgrows.toInside.trans hlater)
      (.inl (Nat.sub_ne_zero_of_lt hlt))
  · rw [hwords, emitOp_wordCount hop]
    rfl

/-! ## Variables -/

theorem error_message {msg : String} (h : error msg s = .ok (u, t)) :
    t.errMessages = s.errMessages ++ [msg] := by
  cases h
  rfl

/-- A slot that is taken without an error is the next one. -/
theorem addFakeLocal_localCount {popOnScopeEnd : Bool}
    (h : addFakeLocal popOnScopeEnd s = .ok (u, t)) (hok : t.errMessages = s.errMessages) :
    t.current.localCount = s.current.localCount + 1 := by
  rcases bind_eq_ok h with ⟨s₀, s₁, hget, h₁⟩
  cases hget
  rcases bind_eq_ok h₁ with ⟨_, s₂, hassert, h₂⟩
  rcases assert_eq_ok hassert with ⟨-, rfl⟩
  split at h₂
  · rw [error_message h₂] at hok
    exact absurd hok (by simp)
  · cases h₂
    exact List.length_append

theorem declareVariable_localCount {name : String} {r : Option ℕ}
    (h : declareVariable name s = .ok (r, t)) (hok : t.errMessages = s.errMessages) {d : ℕ}
    (hd : s.current.scopeDepth = d + 1) :
    r = some s.current.localCount ∧ t.current.localCount = s.current.localCount + 1 := by
  rcases bind_eq_ok h with ⟨s₀, s₁, hget, h₁⟩
  cases hget
  rw [if_neg (by rw [hd]; exact Nat.succ_ne_zero d)] at h₁
  split at h₁
  · rcases bind_eq_ok h₁ with ⟨_, s₂, herror, h₂⟩
    cases h₂
    rw [error_message herror] at hok
    exact absurd hok (by simp)
  · rcases bind_eq_ok h₁ with ⟨index, s₂, hadd, h₂⟩
    rcases bind_eq_ok hadd with ⟨s₃, s₄, hget, h₃⟩
    cases hget
    split at h₃
    · rcases bind_eq_ok h₃ with ⟨_, s₅, herror, h₄⟩
      cases h₄
      cases h₂
      rw [error_message herror] at hok
      exact absurd hok (by simp)
    · cases h₃
      cases h₂
      exact ⟨rfl, List.length_append⟩

theorem declareVarSlots_spec {vars : List String} {slots : List ℕ}
    (h : declareVarSlots vars s = .ok (slots, t)) (hok : t.errMessages = s.errMessages) {d : ℕ}
    (hd : s.current.scopeDepth = d + 1) :
    slots = List.range' s.current.localCount vars.length := by
  induction vars generalizing s slots with
  | nil =>
    cases h
    rfl
  | cons name rest ih =>
    rcases bind_eq_ok h with ⟨r, s₁, hvar, h₁⟩
    rcases bind_eq_ok h₁ with ⟨more, s₂, hrest, h₂⟩
    cases h₂
    rcases Moves.declareVariable _ _ _ _ hvar hd with ⟨hgrows, hd₁⟩
    have hgrows' := (Moves.declareVarSlots _ _ _ _ hrest hd₁).1
    -- no message was added on the way
    have hsame : s₁.errMessages = s.errMessages :=
      List.IsPrefix.eq_of_length hgrows.messages (Nat.le_antisymm hgrows.messages.length_le
        (hok ▸ hgrows'.messages.length_le)) |>.symm
    rcases declareVariable_localCount hvar hsame hd with ⟨rfl, hcount⟩
    rw [ih hrest (hok.trans hsame.symm) hd₁, hcount]
    rfl

/-! ## The statement -/

theorem emitPops_spec {count n : ℕ} (h : emitPops count s = .ok (u, t))
    (hcounted : s.current.iseq.Counted) (hn : s.current.scopeDepth = n) (hlater : Inside t s') :
    CodeAt s'.current.iseq.words s.current.iseq.wordCount
        (List.replicate count OpCode.opPop.toNat) ∧
      t.current.iseq.wordCount = s.current.iseq.wordCount + count := by
  induction count generalizing s with
  | zero =>
    cases h
    exact ⟨List.nil_prefix, rfl⟩
  | succ count ih =>
    rcases bind_eq_ok h with ⟨_, s₁, hpop, h₁⟩
    rcases Moves.emitOp _ _ _ _ _ hpop hn with ⟨hgrows, hn₁⟩
    have hrest := (Moves.emitPops _ _ _ _ h₁ hn₁).1
    rcases ih h₁ (hgrows.counted hcounted) hn₁ with ⟨hcode, hcount⟩
    have hwords := emitOp_wordCount hpop
    have hfirst := emitOp_codeAt hpop hcounted (hrest.toInside.trans hlater) (.inr rfl)
    rw [List.length_nil, Nat.zero_add] at hwords
    rw [hwords] at hcode hcount
    exact ⟨CodeAt.append_iff.mpr ⟨hfirst, hcode⟩, by omega⟩

theorem identifierConstant_wordCount {name : String} {idx : ℕ}
    (h : identifierConstant name s = .ok (idx, t)) :
    t.current.iseq.wordCount = s.current.iseq.wordCount := by
  rcases bind_eq_ok h with ⟨s₀, s₁, hget, h₁⟩
  cases hget
  cases hlookup : s.current.constTbl.lookup name with
  | none =>
    simp only [hlookup] at h₁
    cases h₁
    rfl
  | some idx =>
    simp only [hlookup] at h₁
    cases h₁
    rfl

/-- The stores for several variables. -/
theorem emitForeachSets_unpack {base numVars n : ℕ} {vars : List String} (slotIdx : ℕ)
    (htwo : 1 < numVars)
    (h : emitForeachSets numVars
      (vars.zip (List.range' (base + 2 + slotIdx) vars.length)) slotIdx s = .ok (u, t))
    (hcounted : s.current.iseq.Counted) (hn : s.current.scopeDepth = n) (hlater : Inside t s') :
    ∃ nameIdxs, nameIdxs.length = vars.length ∧
      CodeAt s'.current.iseq.words s.current.iseq.wordCount (unpackWords base slotIdx nameIdxs) ∧
      t.current.iseq.wordCount = s.current.iseq.wordCount + 4 * nameIdxs.length := by
  induction vars generalizing s slotIdx with
  | nil =>
    cases h
    exact ⟨[], rfl, List.nil_prefix, rfl⟩
  | cons name rest ih =>
    rw [List.length_cons, List.range'_succ, List.zip_cons_cons] at h
    rcases bind_eq_ok h with ⟨nameIdx, s₁, hname, h₁⟩
    rw [if_pos htwo] at h₁
    rcases bind_eq_ok h₁ with ⟨_, s₂, hset, h₂⟩
    rcases Moves.identifierConstant _ _ _ _ hname hn with ⟨hgrows₁, hn₁⟩
    rcases Moves.emitOp _ _ _ _ _ hset hn₁ with ⟨hgrows₂, hn₂⟩
    have hrest := (Moves.emitForeachSets _ _ _ _ _ _ h₂ hn₂).1
    rcases ih (slotIdx + 1) h₂ (hgrows₂.counted (hgrows₁.counted hcounted)) hn₂ with
      ⟨nameIdxs, hlen, hcode, hcount⟩
    have hfirst := emitOp_codeAt hset (hgrows₁.counted hcounted) (hrest.toInside.trans hlater)
      (.inl (by simp))
    have hwords := emitOp_wordCount hset
    rw [identifierConstant_wordCount hname] at hfirst hwords
    rw [hwords] at hcode hcount
    refine ⟨nameIdx :: nameIdxs, congrArg (· + 1) hlen, CodeAt.append_iff.mpr ⟨hfirst, hcode⟩, ?_⟩
    rw [hcount, List.length_cons]
    simp only [List.length_cons, List.length_nil]
    omega

/-- The stores into the variables, which got the slots behind the iterator. -/
theorem emitForeachSets_spec {base n : ℕ} {vars : List String} (hvars : vars ≠ [])
    (h : emitForeachSets vars.length (vars.zip (varSlots base vars.length)) 0 s = .ok (u, t))
    (hcounted : s.current.iseq.Counted) (hn : s.current.scopeDepth = n) (hlater : Inside t s') :
    ∃ nameIdxs, nameIdxs.length = vars.length ∧
      CodeAt s'.current.iseq.words s.current.iseq.wordCount (setWords base nameIdxs) ∧
      t.current.iseq.wordCount = s.current.iseq.wordCount + (setWords base nameIdxs).length := by
  rcases vars with _ | ⟨name, _ | ⟨second, rest⟩⟩
  · exact absurd rfl hvars
  · rcases bind_eq_ok h with ⟨nameIdx, s₁, hname, h₁⟩
    have hone : ¬ 1 < [name].length := Nat.lt_irrefl 1
    rw [if_neg hone] at h₁
    rcases bind_eq_ok h₁ with ⟨_, s₂, hset, h₂⟩
    cases h₂
    have hgrows := (Moves.identifierConstant _ _ _ _ hname hn).1
    have hcode := emitOp_codeAt hset (hgrows.counted hcounted) hlater
      (.inl (by simp))
    have hwords := emitOp_wordCount hset
    rw [identifierConstant_wordCount hname] at hcode hwords
    exact ⟨[nameIdx], rfl, hcode, hwords⟩
  · have htwo : 1 < (name :: second :: rest).length := by simp
    have hslots : varSlots base (name :: second :: rest).length =
        List.range' (base + 2 + 0) (name :: second :: rest).length := by
      rw [varSlots, if_neg (by omega)]
    rw [hslots] at h
    rcases emitForeachSets_unpack 0 htwo h hcounted hn hlater with ⟨nameIdxs, hlen, hcode, hcount⟩
    rw [← hlen] at htwo
    refine ⟨nameIdxs, hlen, ?_, ?_⟩
    · rwa [setWords_of_two htwo]
    · rwa [setWords_of_two htwo, length_unpackWords]

/-- The loop is the statement whose parts were emitted there. -/
structure ForeachLoop.Emitted (loop : ForeachLoop) (emitIter emitBody : Emit ν Unit)
    (s' : CompState ν) : Prop where
  iter : ∃ t t', emitIter t = .ok ((), t') ∧ t'.current.iseq.wordCount = loop.start
  body : ∃ t t', emitBody t = .ok ((), t') ∧ t.current.iseq.wordCount = loop.bodyStart ∧
    t'.current.iseq.wordCount = loop.bodyEnd
  fin : s'.current.iseq.wordCount = loop.fin

theorem foreachRest_spec {vars : List String} {emitIter emitBody : Emit ν Unit}
    {base n : ℕ} {s'' : CompState ν} (hvars : vars ≠ [])
    (hiter : Moves Grows (n + 1) (n + 1) emitIter) (hbody : Moves Grows (n + 1) (n + 1) emitBody)
    (h : foreachRest vars emitIter emitBody s = .ok ((), s')) (hcounted : s.current.iseq.Counted)
    (hn : s.current.scopeDepth = n + 1) (hok : s'.errMessages = s.errMessages)
    (hbase : varSlots base vars.length = List.range' s.current.localCount vars.length)
    (hlater : Inside s' s'') :
    ∃ loop : ForeachLoop, ∃ nameIdxs, nameIdxs.length = vars.length ∧
      loop.Emitted emitIter emitBody s' ∧ loop.Stands s''.current.iseq.words base nameIdxs := by
  rcases bind_eq_ok h with ⟨slots, s₁, hslots, h₁⟩
  rcases bind_eq_ok h₁ with ⟨_, s₂, hiterRun, h₂⟩
  rcases bind_eq_ok h₂ with ⟨_, s₃, hopIter, h₃⟩
  rcases bind_eq_ok h₃ with ⟨seq, s₄, hget, h₄⟩
  cases hget
  rcases bind_eq_ok h₄ with ⟨_, s₅, hopNext, h₅⟩
  rcases bind_eq_ok h₅ with ⟨iterDone, s₆, hjump, h₆⟩
  rcases bind_eq_ok h₆ with ⟨_, s₇, hsets, h₇⟩
  rcases bind_eq_ok h₇ with ⟨seq, s₈, hget, h₈⟩
  cases hget
  rcases bind_eq_ok h₈ with ⟨before, s₉, hderef, h₉⟩
  rcases deref_eq_ok hderef with ⟨-, rfl⟩
  rcases bind_eq_ok h₉ with ⟨t, s₁₀, hget, h₁₀⟩
  cases hget
  rcases bind_eq_ok h₁₀ with ⟨_, s₁₁, hloopType, h₁₁⟩
  rcases bind_eq_ok h₁₁ with ⟨_, s₁₂, hloopBody, h₁₂⟩
  rcases bind_eq_ok h₁₂ with ⟨seq, s₁₃, hget, h₁₃⟩
  cases hget
  rcases bind_eq_ok h₁₃ with ⟨after, s₁₄, hderef, h₁₄⟩
  rcases deref_eq_ok hderef with ⟨-, rfl⟩
  rcases bind_eq_ok h₁₄ with ⟨_, s₁₅, hcontinues, h₁₅⟩
  rcases bind_eq_ok h₁₅ with ⟨_, s₁₆, hpops, h₁₆⟩
  rcases bind_eq_ok h₁₆ with ⟨_, s₁₇, hloop, h₁₇⟩
  rcases bind_eq_ok h₁₇ with ⟨_, s₁₈, hpopScope, h₁₈⟩
  rcases bind_eq_ok h₁₈ with ⟨_, s₁₉, hpatch, h₁₉⟩
  rcases bind_eq_ok h₁₉ with ⟨_, s₂₀, hpop, h₂₀⟩
  rcases bind_eq_ok h₂₀ with ⟨seq, s₂₁, hget, h₂₁⟩
  cases hget
  rcases bind_eq_ok h₂₁ with ⟨last, s₂₂, hderef, h₂₂⟩
  rcases deref_eq_ok hderef with ⟨-, rfl⟩
  rcases bind_eq_ok h₂₂ with ⟨_, s₂₃, hbreaks, hlast⟩
  have hcount : (if vars.length = 1 then 1 else if 1 < vars.length then vars.length + 1 else 0) =
      numPops vars.length := by
    have hpos := List.length_pos_iff.mpr hvars
    unfold numPops
    split
    · rfl
    · exact if_pos (by omega)
  rw [hcount] at hpops
  -- what each part leaves alone
  rcases Moves.declareVarSlots _ _ _ _ hslots hn with ⟨g₁, n₁⟩
  rcases hiter _ _ _ hiterRun n₁ with ⟨g₂, n₂⟩
  rcases Moves.emitOp _ _ _ _ _ hopIter n₂ with ⟨g₃, n₃⟩
  rcases Moves.emitOp _ _ _ _ _ hopNext n₃ with ⟨g₅, n₅⟩
  rcases Moves.emitJump _ _ _ _ hjump n₅ with ⟨g₆, n₆⟩
  rcases Moves.emitForeachSets _ _ _ _ _ _ hsets n₆ with ⟨g₉, n₉⟩
  have hsolid : s₁₁.solid = s₉.solid := by
    cases hloopType
    rfl
  rcases Grows.of_solid hsolid with ⟨g₁₁, hdepth⟩
  have n₁₁ := hdepth.trans n₉
  rcases Moves.emitLoopBody hbody _ _ _ hloopBody n₁₁ with ⟨g₁₄, n₁₄⟩
  rcases Moves.patchContinuesBetween _ _ _ _ _ hcontinues n₁₄ with ⟨g₁₅, n₁₅⟩
  rcases Moves.emitPops _ _ _ _ hpops n₁₅ with ⟨g₁₆, n₁₆⟩
  rcases Moves.emitLoop _ _ _ _ hloop n₁₆ with ⟨g₁₇, n₁₇⟩
  rcases Moves.popScope _ _ _ _ hpopScope n₁₇ with ⟨g₁₈, n₁₈⟩
  rcases Moves.patchJump _ _ _ _ _ hpatch n₁₈ with ⟨g₁₉, n₁₉⟩
  rcases Moves.emitOp _ _ _ _ _ hpop n₁₉ with ⟨g₂₂, n₂₂⟩
  rcases Moves.patchBreaks _ _ _ _ _ _ hbreaks n₂₂ with ⟨g₂₃, n₂₃⟩
  rcases Moves.emitOp _ _ _ _ _ hlast n₂₃ with ⟨g', n'⟩
  -- what is still to come behind each part
  have i₂₃ := g'.toInside.trans hlater
  have i₂₂ := g₂₃.toInside.trans i₂₃
  have i₁₉ := g₂₂.toInside.trans i₂₂
  have i₁₈ := g₁₉.toInside.trans i₁₉
  have i₁₇ := g₁₈.toInside.trans i₁₈
  have i₁₆ := g₁₇.toInside.trans i₁₇
  have i₁₅ := g₁₆.toInside.trans i₁₆
  have i₁₁ := g₁₄.toInside.trans (g₁₅.toInside.trans i₁₅)
  have i₉ := g₁₁.toInside.trans i₁₁
  have i₆ := g₉.toInside.trans i₉
  have i₅ := g₆.toInside.trans i₆
  have i₃ := g₅.toInside.trans i₅
  -- the words are counted
  have c₂ := g₂.counted (g₁.counted hcounted)
  have c₃ := g₃.counted c₂
  have c₅ := g₅.counted c₃
  have c₆ := g₆.counted c₅
  have c₁₅ := g₁₅.counted (g₁₄.counted (g₁₁.counted (g₉.counted c₆)))
  have c₁₆ := g₁₆.counted c₁₅
  have c₁₈ := g₁₈.counted (g₁₇.counted c₁₆)
  have c₁₉ := g₁₉.counted c₁₈
  have c₂₃ := g₂₃.counted (g₂₂.counted c₁₉)
  -- the variables have the slots behind the iterator
  have hmessages : s₁.errMessages = s.errMessages := by
    have hrest := ((g₂.trans g₃).trans (g₅.trans g₆)).trans ((g₉.trans g₁₁).trans (g₁₄.trans g₁₅))
    have hend := ((g₁₆.trans g₁₇).trans (g₁₈.trans g₁₉)).trans ((g₂₂.trans g₂₃).trans g')
    have hle := (hrest.trans hend).messages.length_le
    rw [hok] at hle
    exact (List.IsPrefix.eq_of_length g₁.messages
      (Nat.le_antisymm g₁.messages.length_le hle)).symm
  have hrange := declareVarSlots_spec hslots hmessages hn
  rw [hrange, ← hbase] at hsets
  rcases emitForeachSets_spec hvars hsets c₆ n₆ i₉ with ⟨nameIdxs, hlen, hsetCode, hsetCount⟩
  have w₃ := emitOp_wordCount hopIter
  have w₅ := emitOp_wordCount hopNext
  have w₆ : s₆.current.iseq.wordCount = s₅.current.iseq.wordCount + 2 := by
    cases hjump
    rfl
  have w₁₅ := KeepsWords.patchContinuesBetween _ _ _ _ _ hcontinues
  rcases emitPops_spec hpops c₁₅ n₁₅ i₁₆ with ⟨hpopsCode, w₁₆⟩
  have hiterCode := emitOp_codeAt hopIter c₂ i₃ (.inr rfl)
  have hnextCode := emitOp_codeAt hopNext c₃ i₅ (.inr rfl)
  rw [List.length_nil] at w₃ w₅
  -- the body lies behind the jump
  rcases bind_eq_ok hloopBody with ⟨t, b₁, hget, hb₁⟩
  cases hget
  rcases bind_eq_ok hb₁ with ⟨_, b₂, hlocals, hb₂⟩
  rcases bind_eq_ok hb₂ with ⟨_, b₃, hemitBody, hb₃⟩
  have w₁₁ : b₂.current.iseq.wordCount = s₉.current.iseq.wordCount := by
    cases hlocals
    cases hloopType
    rfl
  have w₁₄ : s₁₄.current.iseq.wordCount = b₃.current.iseq.wordCount := by
    cases hb₃
    rfl
  have hbodyLe := (g₁₁.trans g₁₄).toInside.wordCount_le (g₉.counted c₆)
  have hloopLt : s₃.current.iseq.wordCount < s₁₆.current.iseq.wordCount := by omega
  rcases emitLoop_spec hloop c₁₆ hloopLt n₁₆ i₁₇ with ⟨hloopCode, w₁₇⟩
  have hpopsLe := g₁₈.toInside.wordCount_le (g₁₇.counted c₁₆)
  have hjumpCode : CodeAt s''.current.iseq.words s₅.current.iseq.wordCount
      [OpCode.opJumpIfFalsePeek.toNat, s₁₈.current.iseq.wordCount - s₅.current.iseq.wordCount - 1] := by
    have hbehind := (((g₉.trans g₁₁).trans (g₁₄.trans g₁₅)).trans ((g₁₆.trans g₁₇).trans g₁₈)).outlines
    cases hjump
    rw [c₅]
    exact patchJump_spec hpatch n₁₈ c₁₈ hbehind rfl rfl i₁₉
  have w₁₉ := KeepsWords.patchJump _ _ _ _ _ hpatch
  have w₂₂ := emitOp_wordCount hpop
  have w₂₃ := KeepsWords.patchBreaks _ _ _ _ _ _ hbreaks
  have w' := emitOp_wordCount hlast
  have hpopCode := emitOp_codeAt hpop c₁₉ i₂₂ (.inr rfl)
  have hlastCode := emitOp_codeAt hlast c₂₃ hlater (.inr rfl)
  rw [List.length_nil] at w₂₂ w'
  refine ⟨⟨s₂.current.iseq.wordCount, s₉.current.iseq.wordCount, s₁₄.current.iseq.wordCount,
    s₁₈.current.iseq.wordCount⟩, nameIdxs, hlen, ⟨?_, ?_, ?_⟩, ?_⟩
  · exact ⟨s₁, s₂, hiterRun, rfl⟩
  · exact ⟨b₂, b₃, hemitBody, w₁₁, w₁₄.symm⟩
  · show s'.current.iseq.wordCount = s₁₈.current.iseq.wordCount + 2
    omega
  · rw [← hlen] at hpopsCode w₁₆
    refine ⟨?_, hiterCode, ?_, ?_, ?_, ?_, hbodyLe, ?_, ?_, ?_, ?_⟩
    · rintro rfl
      exact hvars (List.length_eq_zero_iff.mp hlen.symm)
    · rwa [w₃] at hnextCode
    · have hat : s₅.current.iseq.wordCount = s₂.current.iseq.wordCount + 2 := by omega
      rw [hat] at hjumpCode
      exact hjumpCode
    · have hat : s₆.current.iseq.wordCount = s₂.current.iseq.wordCount + 4 := by omega
      rwa [hat] at hsetCode
    · show s₉.current.iseq.wordCount = s₂.current.iseq.wordCount + 4 + _
      omega
    · rwa [w₁₅] at hpopsCode
    · have hat : s₁₆.current.iseq.wordCount =
          s₁₄.current.iseq.wordCount + numPops nameIdxs.length := by omega
      have hfrom : s₃.current.iseq.wordCount = s₂.current.iseq.wordCount + 1 := by omega
      rw [hat, hfrom] at hloopCode
      exact hloopCode
    · show s₁₄.current.iseq.wordCount + numPops nameIdxs.length + 2 ≤ s₁₈.current.iseq.wordCount
      omega
    · have hat : s₂₃.current.iseq.wordCount = s₁₈.current.iseq.wordCount + 1 := by omega
      rw [w₁₉] at hpopCode
      rw [hat] at hlastCode
      exact CodeAt.append_iff.mpr ⟨hpopCode, hlastCode⟩

/-- `emitForeach` puts the statement there. -/
theorem emitForeach_spec {vars : List String} {emitIter emitBody : Emit ν Unit}
    {s'' : CompState ν} (hvars : vars ≠ [])
    (hiter : ∀ n, Moves Grows n n emitIter) (hbody : ∀ n, Moves Grows n n emitBody)
    (h : emitForeach vars emitIter emitBody s = .ok ((), s')) (hcounted : s.current.iseq.Counted)
    (hok : s'.errMessages = s.errMessages) (hlater : Inside s' s'') :
    ∃ loop : ForeachLoop, ∃ nameIdxs, nameIdxs.length = vars.length ∧
      loop.Emitted emitIter emitBody s' ∧
      loop.Stands s''.current.iseq.words s.current.localCount nameIdxs := by
  rcases bind_eq_ok h with ⟨_, s₁, hscope, h₁⟩
  rcases bind_eq_ok h₁ with ⟨_, s₂, hfake, h₂⟩
  rcases Moves.pushScope _ _ _ _ hscope rfl with ⟨g₁, n₁⟩
  rcases Moves.addFakeLocal _ _ _ _ hfake n₁ with ⟨g₂, n₂⟩
  have hlocals : s₁.current.localCount = s.current.localCount := by
    cases hscope
    rfl
  have hmessages : s₁.errMessages = s.errMessages := by
    cases hscope
    rfl
  have hend : ∀ {t : CompState ν} {base : ℕ}, t.current.iseq.Counted →
      t.current.scopeDepth = s.current.scopeDepth + 1 → s.errMessages <+: t.errMessages →
      (s'.errMessages = t.errMessages →
        varSlots base vars.length = List.range' t.current.localCount vars.length) →
      foreachRest vars emitIter emitBody t = .ok ((), s') →
      ∃ loop : ForeachLoop, ∃ nameIdxs, nameIdxs.length = vars.length ∧
        loop.Emitted emitIter emitBody s' ∧ loop.Stands s''.current.iseq.words base nameIdxs := by
    intro t base hcount hn hle hbase hrun
    have hgrows := (Moves.foreachRest (hiter _) (hbody _) _ _ _ hrun hn).1
    have hsame : s'.errMessages = t.errMessages := by
      refine (List.IsPrefix.eq_of_length hgrows.messages (Nat.le_antisymm ?_ ?_)).symm
      · exact hgrows.messages.length_le
      · rw [hok]
        exact hle.length_le
    exact foreachRest_spec hvars (hiter _) (hbody _) hrun hcount hn hsame (hbase hsame) hlater
  have c₂ := g₂.counted (g₁.counted hcounted)
  by_cases htwo : 1 < vars.length
  · rw [if_pos htwo] at h₂
    rcases bind_eq_ok h₂ with ⟨_, s₃, hfake', h₃⟩
    rcases Moves.addFakeLocal _ _ _ _ hfake' n₂ with ⟨g₃, n₃⟩
    refine hend (g₃.counted c₂) n₃ ((g₁.trans g₂).trans g₃).messages (fun hsame => ?_) h₃
    have hall : s₃.errMessages = s.errMessages := hsame.symm.trans hok
    have hfirst : s₂.errMessages = s.errMessages := by
      have hle := g₃.messages
      rw [hall] at hle
      exact hle.eq_of_length (Nat.le_antisymm hle.length_le (g₁.trans g₂).messages.length_le)
    rw [varSlots, if_neg (by omega), addFakeLocal_localCount hfake' (hall.trans hfirst.symm),
      addFakeLocal_localCount hfake (hfirst.trans hmessages.symm), hlocals]
  · rw [if_neg htwo] at h₂
    refine hend c₂ n₂ (g₁.trans g₂).messages (fun hsame => ?_) h₂
    have hpos := List.length_pos_iff.mpr hvars
    have hall : s₂.errMessages = s.errMessages := hsame.symm.trans hok
    rw [varSlots, if_pos (by omega), addFakeLocal_localCount hfake (hall.trans hmessages.symm), hlocals]

section

variable [LoxNum ν]

theorem emitNode_foreachStmt {flipped : Bool} {vars : List String} {iter body : Node}
    (hclean : s.current.hadError = false)
    (h : emitNode flipped (.foreachStmt vars iter body) s = .ok ((), s')) :
    emitForeach vars (emitNode flipped iter) (emitNode flipped body) s = .ok ((), s') := by
  rcases bind_eq_ok h with ⟨s₀, s₁, hget, h₁⟩
  cases hget
  rwa [hclean] at h₁

/-- The code of a `foreach` statement, run on a stack with the locals of the function and the value
of the expression on top: the body is executed once for each element, in order, and the statement
is left with the stack as it was, if and only if all elements of an array are taken. Of a map they
always are. -/
theorem foreach_visitsAll_iff {σ : Type} {flipped : Bool} {vars : List String} {iter body : Node}
    {s'' : CompState ν} (hvars : vars ≠ [])
    (h : emitNode flipped (.foreachStmt vars iter body) s = .ok ((), s'))
    (hclean : s.current.hadError = false) (hok : s'.errMessages = s.errMessages)
    (hcounted : s.current.iseq.Counted) (hlater : Inside s' s'') :
    ∃ loop : ForeachLoop,
      loop.Emitted (emitNode flipped iter) (emitNode flipped body) s' ∧
      ∀ (it : Iterable ν) (bodyRun : Body ν σ) (below : List (Cell ν)) (world : σ),
        it.Counted → below.length = s.current.localCount →
        BodyKeeps bodyRun below.length (below.length + 1 + numPops vars.length) →
        (VisitsAll s''.current.iseq.words loop (varSlots below.length vars.length) bodyRun it.elements
            { ip := loop.start, stack := below ++ [it.cell], world } ↔
          ∀ els, it = .array els → ∀ v ∈ els, Taken vars.length v) := by
  rcases emitForeach_spec hvars (Moves.emitNode flipped iter) (Moves.emitNode flipped body)
    (emitNode_foreachStmt hclean h) hcounted hok hlater with
    ⟨loop, nameIdxs, hlen, hemitted, hstands⟩
  refine ⟨loop, hemitted, ?_⟩
  intro it bodyRun below world hcount hbelow hkeeps
  rw [← hbelow] at hstands
  rw [← hlen] at hkeeps ⊢
  rw [hstands.visitsAll_iff bodyRun world [] below it hkeeps hcount rfl]
  cases it with
  | array els =>
    constructor
    · rintro htaken els' ⟨⟩
      exact htaken
    · intro htaken
      exact htaken els rfl
  | map table =>
    constructor
    · rintro - els ⟨⟩
    · intro _ v hv
      exact taken_of_map _ hv

end

/-- `foreach (item in items) { }` -/
def eachItem : Node := .foreachStmt ["item"] (.variable "items") (.block [])

/-- Where a program starts. -/
def scriptStart : CompState ℤ := { opts := {}, current := freshCompiler 0 .topLevel none }

theorem eachItem_emitted : ∃ s', emitNode false eachItem scriptStart = .ok ((), s') ∧
    s'.errMessages = scriptStart.errMessages := by
  have h : (do
      let ((), s') ← emitNode false eachItem scriptStart
      return decide (s'.errMessages = [])) = .ok true := by
    decide +kernel
  rcases Except.bind_eq_ok.mp h with ⟨⟨_, s'⟩, hemit, h₁⟩
  rw [Except.pure_eq_ok, decide_eq_true_eq] at h₁
  exact ⟨s', hemit, h₁⟩

/-- A body that does nothing. -/
theorem bodyKeeps_id {ν σ : Type} (base height : ℕ) :
    BodyKeeps (ν := ν) (σ := σ) (fun world stack => (world, stack)) base height :=
  fun _ _ h => ⟨h, rfl⟩

theorem foreach_visits_two : ∃ (s' : CompState ℤ) (loop : ForeachLoop),
    emitNode false eachItem scriptStart = .ok ((), s') ∧
    VisitsAll (ν := ℤ) s'.current.iseq.words loop [1] (fun world stack => (world, stack))
      [.number 1, .number 2]
      { ip := loop.start, stack := [.value (.array [.number 1, .number 2])], world := () } := by
  rcases eachItem_emitted with ⟨s', hemit, hok⟩
  rcases foreach_visitsAll_iff (by decide) hemit rfl hok rfl (Inside.refl s') with
    ⟨loop, -, hvisits⟩
  refine ⟨s', loop, hemit, ?_⟩
  refine (hvisits (.array [.number 1, .number 2]) (fun world stack => (world, stack)) [] () trivial
    rfl (bodyKeeps_id _ _)).mpr ?_
  rintro els ⟨⟩ v hv
  have hnumber : ∃ n, v = .number n := by
    rcases List.mem_cons.mp hv with rfl | hv
    · exact ⟨1, rfl⟩
    · exact ⟨2, List.mem_singleton.mp hv⟩
  rcases hnumber with ⟨n, rfl⟩
  exact ⟨rfl, rfl, fun h => absurd h (Nat.lt_irrefl 1)⟩

/-- The `nil` in the array ends the loop. -/
theorem foreach_nil_not_visitsAll : ∃ (s' : CompState ℤ) (loop : ForeachLoop),
    emitNode false eachItem scriptStart = .ok ((), s') ∧
    loop.Emitted (emitNode false (.variable "items")) (emitNode false (.block [])) s' ∧
    ¬ VisitsAll (ν := ℤ) s'.current.iseq.words loop [1] (fun world stack => (world, stack))
      [.number 1, .nil, .number 2]
      { ip := loop.start, stack := [.value (.array [.number 1, .nil, .number 2])], world := () } := by
  rcases eachItem_emitted with ⟨s', hemit, hok⟩
  rcases emitForeach_spec (by decide) (Moves.emitNode false _) (Moves.emitNode false _)
    (emitNode_foreachStmt rfl hemit) rfl hok (Inside.refl s') with
    ⟨loop, nameIdxs, hlen, hemitted, hstands⟩
  refine ⟨s', loop, hemit, hemitted, fun hvisits => ?_⟩
  have hone : nameIdxs.length = 1 := hlen
  have hiff := hstands.visitsAll_iff (ν := ℤ) (fun world stack => (world, stack)) () [] []
    (.array [.number 1, .nil, .number 2]) (bodyKeeps_id _ _) trivial rfl
  rw [hone] at hiff
  have htaken := hiff.mp hvisits .nil (List.mem_cons_of_mem _ List.mem_cons_self)
  cases htaken.1

end Clox
