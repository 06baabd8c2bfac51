import Clox.Compiler.Optimizer

/-! # The edits of the optimizer

What each edit of the optimizer does to the instructions (`Iseq.Edited`): it
gives one instruction another size, or drops it, and changes the operands of
the jumps it patches. A run of the optimizer is a sequence of edits and of
updates in place that change no size and no jump (`Rewrites`); the later files
argue about runs through this relation only.
-/

namespace Clox

open Layout (Resized)

/-- A jump or loop. The words that hold the upvalue descriptors of a closure are instructions
without operands whose code is arbitrary, so the operand is asked for. -/
def Insn.jumps (i : Insn) : Bool := (i.isJump || i.isLoop) && decide (0 < i.numOperands)

theorem Insn.not_jumps_of_isPop {i : Insn} (h : i.is .opPop) : ¬ i.jumps := by
  simp only [Insn.is, beq_iff_eq] at h
  simp [Insn.jumps, Insn.isJump, Insn.isLoop, Insn.is, h]

/-- The words of the edited instruction afterwards, of `size` before. -/
def Edit.newSize (size : ℕ) : Edit → ℕ
  | .remove _ => 0
  | .addOperand _ => size + 1
  | .jumpToPop _ => 1

/-- The edit `e` of `seq` changes the operand of `i`. -/
def Edit.patches {ν : Type} (seq : Iseq ν) (e : Edit) (i : Insn) : Bool :=
  match e with
  | .jumpToPop _ => false
  | .remove x | .addOperand x =>
    match seq.span x i .assertFailed with
    | .ok .outside | .error _ => false
    | .ok _ => true

/-! ## Patching -/

namespace Iseq

variable {ν : Type}

theorem jumpTarget_mapInsns (seq : Iseq ν) {f : Insn → Insn} (hf : ∀ i, (f i).addr = i.addr)
    (jump : Insn) (e : Abort) : (seq.mapInsns f hf).jumpTarget jump e = seq.jumpTarget jump e := by
  unfold jumpTarget
  rcases jump.jumpTo with _ | target <;> rcases jump.jumpToPrev with _ | prev <;> try rfl
  simp only [insn?_mapInsns, next_mapInsns]
  rcases seq.insn? prev with _ | p
  · rfl
  · rcases seq.next prev with _ | n
    · rfl
    · simp [hf]

theorem span_mapInsns (seq : Iseq ν) {f : Insn → Insn} (hf : ∀ i, (f i).addr = i.addr)
    (insn : Addr) (inn : Insn) (e : Abort) :
    (seq.mapInsns f hf).span insn inn e = seq.span insn inn e := by
  unfold span iseqInsnIndex
  simp only [index_mapInsns, jumpTarget_mapInsns]
  simp [hf]

/-- Patching looks at the order of the instructions only. -/
theorem patchAround_mapInsns (seq : Iseq ν) {f : Insn → Insn} (hf : ∀ i, (f i).addr = i.addr)
    (x : Addr) (offset : ℤ) (e : Abort) (clear : Bool) (i : Insn) :
    (seq.mapInsns f hf).patchAround x offset e clear i = seq.patchAround x offset e clear i := by
  have hnext : ((seq.mapInsns f hf).next x).map (·.addr) = (seq.next x).map (·.addr) := by
    rw [next_mapInsns, Option.map_map]
    simp [Function.comp_def, hf]
  unfold patchAround
  rw [span_mapInsns, hnext]

/-- Which jumps an edit patches does not depend on how a missing target is reported. -/
theorem span_eq_ok (seq : Iseq ν) {insn : Addr} {inn : Insn} {e : Abort} (e' : Abort) {s : Span}
    (h : seq.span insn inn e = .ok s) : seq.span insn inn e' = .ok s := by
  have htarget : ∀ {t}, seq.jumpTarget inn e = .ok t → seq.jumpTarget inn e' = .ok t := by
    intro t ht
    unfold jumpTarget at ht ⊢
    rcases hj : inn.jumpTo with _ | target <;> rcases hp : inn.jumpToPrev with _ | prev <;>
      simp only [hj, hp] at ht ⊢ <;> first | exact ht | cases ht
  unfold span at h ⊢
  by_cases hc : Layout.index (·.addr) seq.insns inn.addr < Layout.index (·.addr) seq.insns insn ∧
      inn.isJump = true
  · simp only [if_pos hc] at h ⊢
    cases ht : seq.jumpTarget inn e with
    | error err => simp [ht, bind, Except.bind] at h
    | ok t =>
      rw [htarget ht]
      rwa [ht] at h
  · simp only [if_neg hc] at h ⊢
    exact h

/-- What patching around an edit leaves of an instruction. -/
theorem patchAround_eq_ok {seq : Iseq ν} {insn : Addr} {offset : ℤ} {e : Abort} {clear : Bool}
    {inn inn' : Insn} (h : seq.patchAround insn offset e clear inn = .ok inn')
    (hne : inn.addr ≠ insn) :
    ∃ s, seq.span insn inn e = .ok s ∧ inn'.code = inn.code ∧ inn'.size = inn.size ∧
      (0 < inn.numOperands → (inn'.operand0 : ℤ) =
        if s = .outside then (inn.operand0 : ℤ) else unsignedSum inn.operand0 offset) ∧
      (s = .outside → inn' = inn) := by
  have hpatch : ∀ {j j' : Insn}, patchJumpInsnWithOffset j offset = .ok j' →
      j'.code = j.code ∧ j'.size = j.size ∧
        (0 < j.numOperands → (j'.operand0 : ℤ) = unsignedSum j.operand0 offset) := by
    intro j j' hj
    unfold patchJumpInsnWithOffset at hj
    split at hj
    · cases hj
    · split at hj
      · cases hj
      · rename_i hpos
        cases hj
        refine ⟨rfl, by simp [Insn.size, Insn.numOperands, Insn.setOperand0], fun hn => ?_⟩
        rcases hops : j.operands with _ | ⟨o, os⟩
        · simp [Insn.numOperands, hops] at hn
        · simp only [Insn.setOperand0, Insn.operand0, hops, List.set_cons_zero, List.headD_cons]
            at hpos ⊢
          omega
  unfold patchAround at h
  rw [if_neg hne] at h
  cases hs : seq.span insn inn e with
  | error err => simp [hs] at h
  | ok s =>
    refine ⟨s, rfl, ?_⟩
    cases s with
    | outside =>
      simp only [hs, Except.ok.injEq] at h
      subst h
      simp
    | across =>
      simp only [hs] at h
      obtain ⟨hcode, hsize, hop⟩ := hpatch h
      exact ⟨hcode, hsize, hop, by simp⟩
    | onto =>
      simp only [hs] at h
      obtain ⟨hcode, hsize, hop⟩ := hpatch h
      exact ⟨hcode, hsize, hop, by simp⟩

/-- Only jumps and loops are patched. -/
theorem span_eq_outside {seq : Iseq ν} {insn : Addr} {inn : Insn} {e : Abort} {s : Span}
    (h : seq.span insn inn e = .ok s) (hj : inn.isJump = false) (hl : inn.isLoop = false) :
    s = .outside := by
  unfold span at h
  simp only [hj, hl, Bool.false_eq_true, and_false, if_false] at h
  exact (Except.pure_eq_ok.mp h).symm

/-- `seq'` is `seq` after the edit `e` of its instruction `x`. -/
structure Edited (seq seq' : Iseq ν) (e : Edit) (x : Insn) : Prop where
  mem : x ∈ seq.insns
  addr : x.addr = e.insn
  resized : Resized (·.addr) Insn.size seq.insns seq'.insns e.insn x.size (e.newSize x.size)
  self : ∀ i' ∈ seq'.insns, i'.addr = e.insn → i'.is .opPop
  others : ∀ i' ∈ seq'.insns, i'.addr ≠ e.insn →
    ∃ i ∈ seq.insns, i'.addr = i.addr ∧ i'.code = i.code ∧ i'.size = i.size ∧
      (i'.jumps → (i'.operand0 : ℤ) = if e.patches seq i
        then unsignedSum i.operand0 (e.newSize x.size - x.size) else i.operand0) ∧
      (i'.isJump = false → i'.isLoop = false → i' = i)
  catchTbl : seq'.catchTbl = seq.catchTbl

/-- What `patchAround` makes of the other instructions is what `Edited` asks for. -/
theorem other_of_patchAround {seq : Iseq ν} {e : Edit} {x : Addr} {offset : ℤ} {err : Abort}
    {clear : Bool} (he : e = .remove x ∨ e = .addOperand x) {i i' : Insn}
    (h : seq.patchAround x offset err clear i = .ok i') (hne : i.addr ≠ x) :
    i'.code = i.code ∧ i'.size = i.size ∧ (i'.jumps → (i'.operand0 : ℤ) =
      if e.patches seq i then unsignedSum i.operand0 offset else i.operand0) ∧
      (i'.isJump = false → i'.isLoop = false → i' = i) := by
  obtain ⟨s, hs, hcode, hsize, hop, hout⟩ := patchAround_eq_ok h hne
  refine ⟨hcode, hsize, fun hj => ?_, fun hj hl => hout (span_eq_outside hs ?_ ?_)⟩
  rotate_left
  · simpa [Insn.isJump, Insn.is, hcode] using hj
  · simpa [Insn.isLoop, Insn.is, hcode] using hl
  have hpos : 0 < i.numOperands := by
    simp only [Insn.jumps, Bool.and_eq_true, decide_eq_true_eq] at hj
    simp only [Insn.size] at hsize
    omega
  have hpatches : e.patches seq i = decide (s ≠ .outside) := by
    have hs' := span_eq_ok seq .assertFailed hs
    rcases he with rfl | rfl <;> cases s <;> simp [Edit.patches, hs']
  rw [hop hpos, hpatches]
  by_cases hout : s = .outside <;> simp [hout]

/-- The walk of `mapInsnsM` with `patchAround` keeps addresses and sizes. -/
theorem patchAround_walk {seq seq' : Iseq ν} {x : Addr} {offset : ℤ} {err : Abort} {clear : Bool}
    {hf} (h : seq.mapInsnsM (seq.patchAround x offset err clear) hf = .ok seq') :
    ∃ g : Insn → Insn, seq'.insns = seq.insns.map g ∧ seq'.catchTbl = seq.catchTbl ∧
      (∀ i, (g i).addr = i.addr) ∧
      ∀ i ∈ seq.insns, seq.patchAround x offset err clear i = .ok (g i) ∧ (g i).size = i.size := by
  obtain ⟨hok, hinsns, hcatch⟩ := mapInsnsM_eq_ok h
  refine ⟨_, hinsns, hcatch, fun i => ?_, fun i hi => ?_⟩
  · cases hi : seq.patchAround x offset err clear i with
    | error e => rfl
    | ok i' => exact hf i i' hi
  · obtain ⟨i', hi'⟩ := hok i hi
    refine ⟨by simp [hi', Except.toOption], ?_⟩
    by_cases hx : i.addr = x
    · have : i' = i := by
        unfold patchAround at hi'
        rw [if_pos hx] at hi'
        exact (Except.ok.inj hi').symm
      simp [hi', this, Except.toOption]
    · obtain ⟨_, -, -, hsize, -, -⟩ := patchAround_eq_ok hi' hx
      simpa [hi', Except.toOption] using hsize

theorem rmInsnAndPatchJumps_edited {seq seq' : Iseq ν} {x : Addr}
    (h : seq.rmInsnAndPatchJumps x = .ok seq') :
    (∃ i, seq.Edited seq' (.remove x) i) ∧
      ∀ i ∈ seq'.insns, i.addr ≠ x := by
  unfold rmInsnAndPatchJumps at h
  cases hx : seq.insn? x with
  | none => simp [hx] at h
  | some i =>
    obtain ⟨hi, rfl⟩ := mem_of_insn? hx
    rw [hx] at h
    obtain ⟨seq₁, hw, hrm⟩ := Except.bind_eq_ok.mp h
    rw [Except.pure_eq_ok] at hrm
    subst hrm
    obtain ⟨g, hg, hcatch, haddr, hpatch⟩ := patchAround_walk hw
    have hinsns : (seq₁.iseqRmInsn i).insns =
        (seq.insns.map g).filter fun j => j.addr ≠ (g i).addr := by
      rw [haddr i, ← hg]
      rfl
    have hmem : ∀ i' ∈ (seq₁.iseqRmInsn i).insns, i'.addr ≠ i.addr ∧ ∃ j ∈ seq.insns, i' = g j := by
      intro i' hi'
      rw [hinsns] at hi'
      obtain ⟨hi', hne⟩ := List.mem_filter.mp hi'
      obtain ⟨j, hj, rfl⟩ := List.mem_map.mp hi'
      rw [decide_eq_true_eq, haddr i] at hne
      exact ⟨hne, j, hj, rfl⟩
    refine ⟨⟨i, hi, rfl, ?_, ?_, ?_, hcatch⟩, fun i' hi' => (hmem i' hi').1⟩
    · -- the walk resizes nothing, then the instruction is dropped
      have hrm : Resized (·.addr) Insn.size (seq.insns.map g) _ (g i).addr (g i).size 0 :=
        Layout.resized_remove (hg ▸ seq₁.nodup) (List.mem_map_of_mem (f := g) hi)
      rw [← hinsns] at hrm
      have := hrm.of_map haddr fun j hj => (hpatch j hj).2
      rwa [(hpatch i hi).2, haddr i] at this
    · intro i' hi' haddr'
      exact absurd haddr' (hmem i' hi').1
    · intro i' hi' hne
      obtain ⟨-, j, hj, rfl⟩ := hmem i' hi'
      rw [haddr] at hne
      obtain ⟨hcode, hsize, hop, hout⟩ := other_of_patchAround (Or.inl rfl) (hpatch j hj).1 hne
      refine ⟨j, hj, haddr j, hcode, hsize, fun hjmp => ?_, hout⟩
      rw [hop hjmp]
      simp [Insn.size, Edit.newSize]

theorem addInsnOperand_edited {seq seq' : Iseq ν} {x : Addr} {operand : ℕ}
    (hx : ∀ i ∈ seq.insns, i.addr = x → i.is .opPop)
    (h : seq.addInsnOperand x operand = .ok seq') :
    ∃ i, seq.Edited seq' (.addOperand x) i := by
  unfold addInsnOperand at h
  cases hi : seq.insn? x with
  | none => simp [hi] at h
  | some i =>
    obtain ⟨hmem, rfl⟩ := mem_of_insn? hi
    refine ⟨i, ?_⟩
    simp only [hi] at h
    split at h
    · cases h
    · -- `f` appends the operand, `g` patches the jumps
      set f : Insn → Insn := fun j =>
        if j.addr = i.addr then { j with operands := j.operands ++ [operand] } else j with hf
      obtain ⟨g, hg, hcatch, haddr, hpatch⟩ := patchAround_walk h
      have hfaddr : ∀ j, (f j).addr = j.addr := by
        intro j
        by_cases hj : j.addr = i.addr <;> simp [hf, hj]
      have hinsns : seq'.insns = (seq.insns.map f).map g := hg
      have hfi : (f i).size = i.size + 1 := by simp [hf, Insn.size, Insn.numOperands]
      have hmem' : ∀ i' ∈ seq'.insns, ∃ j ∈ seq.insns, i' = g (f j) := by
        intro i' hi'
        rw [hinsns] at hi'
        obtain ⟨_, hfj, rfl⟩ := List.mem_map.mp hi'
        obtain ⟨j, hj, rfl⟩ := List.mem_map.mp hfj
        exact ⟨j, hj, rfl⟩
      refine ⟨hmem, rfl, ?_, ?_, ?_, hcatch⟩
      · have hmap : Resized (·.addr) Insn.size seq.insns (seq.insns.map f) i.addr i.size (f i).size :=
          Layout.resized_map seq.nodup hmem hfaddr fun j _ hj => by simp [hf, hj]
        rw [hfi] at hmap
        rw [hinsns]
        exact hmap.map haddr fun j hj => (hpatch j hj).2
      · intro i' hi' haddr'
        obtain ⟨j, hj, rfl⟩ := hmem' i' hi'
        have haddr' : j.addr = i.addr := by rwa [haddr, hfaddr] at haddr'
        have hpj := (hpatch _ (List.mem_map_of_mem (f := f) hj)).1
        have hgf : g (f j) = f j := by
          unfold patchAround at hpj
          rw [if_pos ((hfaddr j).trans haddr')] at hpj
          exact (Except.ok.inj hpj).symm
        have hcode : (f j).code = j.code := by simp [hf, haddr']
        rw [hgf]
        simpa [Insn.is, hcode] using hx j hj haddr'
      · intro i' hi' hne
        obtain ⟨j, hj, rfl⟩ := hmem' i' hi'
        rw [haddr, hfaddr] at hne
        have hfj : f j = j := if_neg hne
        have hpj := (hpatch _ (List.mem_map_of_mem (f := f) hj)).1
        rw [hfj] at hpj ⊢
        have hpj' : seq.patchAround i.addr 1 .nullDeref true j = .ok (g j) :=
          (seq.patchAround_mapInsns hfaddr _ _ _ _ j).symm.trans hpj
        obtain ⟨hcode, hsize, hop, hout⟩ := other_of_patchAround (Or.inr rfl) hpj' hne
        refine ⟨j, hj, haddr j, hcode, hsize, fun hjmp => ?_, hout⟩
        rw [hop hjmp]
        simp [Edit.newSize]

/-- The jump rewritten in place; its own operand is gone, and no other is patched. -/
theorem jumpToPop_edited (st : OptState ν) {i : Insn} (hi : i ∈ st.seq.insns) :
    st.seq.Edited (st.jumpToPop i.addr).seq (.jumpToPop i.addr) i := by
  set f : Insn → Insn := fun j =>
    if j.addr = i.addr then { j with code := OpCode.opPop.toNat, operands := [] } else j with hf
  have hfaddr : ∀ j, (f j).addr = j.addr := by
    intro j
    by_cases hj : j.addr = i.addr <;> simp [hf, hj]
  have hinsns : (st.jumpToPop i.addr).seq.insns = st.seq.insns.map f := rfl
  have hfi : (f i).size = 1 := by simp [hf, Insn.size, Insn.numOperands]
  refine ⟨hi, rfl, ?_, ?_, ?_, rfl⟩
  · have hmap : Resized (·.addr) Insn.size st.seq.insns (st.seq.insns.map f) i.addr i.size
        (f i).size :=
      Layout.resized_map st.seq.nodup hi hfaddr fun j _ hj => by simp [hf, hj]
    rwa [hfi] at hmap
  · intro i' hi' haddr'
    rw [hinsns] at hi'
    obtain ⟨j, hj, rfl⟩ := List.mem_map.mp hi'
    rw [hfaddr] at haddr'
    simp [hf, show j.addr = i.addr from haddr', Insn.is]
  · intro i' hi' hne
    rw [hinsns] at hi'
    obtain ⟨j, hj, rfl⟩ := List.mem_map.mp hi'
    rw [hfaddr] at hne
    have hfj : f j = j := if_neg hne
    rw [hfj]
    exact ⟨j, hj, rfl, rfl, rfl, fun _ => by simp [Edit.patches], fun _ _ => rfl⟩

end Iseq

/-! ## Runs -/

namespace OptState

variable {ν : Type} [LoxNum ν] {opts : CompilerOpts} {st st' : OptState ν}

/-- The first pass of a run that has one. -/
theorem optimizeLoop_succ {fuel : ℕ} {a : Addr} {cur' : Option Addr}
    (h : st.optimizeLoop opts (fuel + 1) (some a) = .ok (st', cur')) :
    ∃ cur st₁ next, st.seq.insn? a = some cur ∧ st.optimizeStep opts cur = .ok (st₁, next) ∧
      st₁.optimizeLoop opts fuel next = .ok (st', cur') := by
  unfold optimizeLoop at h
  cases ha : st.seq.insn? a with
  | none =>
    rw [ha] at h
    cases h
  | some cur =>
    rw [ha] at h
    rcases Except.bind_eq_ok.mp h with ⟨⟨st₁, next⟩, hstep, hrest⟩
    exact ⟨cur, st₁, next, rfl, hstep, hrest⟩

/-- What every pass keeps holds at the end of a run. -/
theorem optimizeLoop_keeps {P : OptState ν → Prop}
    (hpass : ∀ {st st' cur next}, P st → cur ∈ st.seq.insns →
      st.optimizeStep opts cur = .ok (st', next) → P st')
    (fuel : ℕ) {cur cur' : Option Addr} (h : P st)
    (hrun : st.optimizeLoop opts fuel cur = .ok (st', cur')) : P st' := by
  induction fuel generalizing st cur with
  | zero =>
    cases hrun
    exact h
  | succ fuel ih =>
    cases cur with
    | none =>
      cases hrun
      exact h
    | some a =>
      rcases optimizeLoop_succ hrun with ⟨i, st₁, next, hi, hstep, hrest⟩
      exact ih (hpass h (Iseq.mem_of_insn? hi).1 hstep) hrest

end OptState

/-- The states a run that starts on `seq₀` can be in. -/
inductive Rewrites {ν : Type} (seq₀ : Iseq ν) : OptState ν → Prop
  | init : Rewrites seq₀ { seq := seq₀ }
  | edit {st : OptState ν} {seq' : Iseq ν} {e : Edit} {x : Insn} (h : Rewrites seq₀ st)
      (he : st.seq.Edited seq' e x) :
      Rewrites seq₀ { seq := seq', edits := st.edits ++ [(st.seq, e)] }
  | update {st : OptState ν} {seq' : Iseq ν} {f : Insn → Insn} (h : Rewrites seq₀ st)
      (hinsns : seq'.insns = st.seq.insns.map f) (haddr : ∀ i, (f i).addr = i.addr)
      (hsize : ∀ i ∈ st.seq.insns, (f i).size = i.size)
      (hbranches : ∀ i ∈ st.seq.insns, (f i).jumps ∨ (f i).is .opBreak → f i = i)
      (hcatch : seq'.catchTbl = st.seq.catchTbl) :
      Rewrites seq₀ { st with seq := seq' }

namespace Rewrites

variable {ν : Type} {seq₀ : Iseq ν}

theorem remove {st st' : OptState ν} {x : Addr} (h : Rewrites seq₀ st)
    (hrm : st.remove x = .ok st') : Rewrites seq₀ st' := by
  obtain ⟨seq', hseq, hst⟩ := Except.bind_eq_ok.mp hrm
  rw [Except.pure_eq_ok] at hst
  subst hst
  obtain ⟨⟨i, he⟩, -⟩ := Iseq.rmInsnAndPatchJumps_edited hseq
  exact h.edit he

/-- A removal leaves the codes of the other instructions alone. -/
theorem code_of_remove {st st' : OptState ν} {x : Addr} (hrm : st.remove x = .ok st') {i : Insn}
    (hi : i ∈ st.seq.insns) : ∀ i' ∈ st'.seq.insns, i'.addr = i.addr → i'.code = i.code := by
  obtain ⟨seq', hseq, hst⟩ := Except.bind_eq_ok.mp hrm
  rw [Except.pure_eq_ok] at hst
  subst hst
  obtain ⟨⟨_, he⟩, hne⟩ := Iseq.rmInsnAndPatchJumps_edited hseq
  intro i' hi' haddr
  obtain ⟨j, hj, haddr', hcode, -⟩ := he.others i' hi' (hne i' hi')
  rw [hcode, st.seq.eq_of_addr_eq hj hi (haddr'.symm.trans haddr)]

theorem addOperand {st st' : OptState ν} {x : Addr} {operand : ℕ} (h : Rewrites seq₀ st)
    (hx : ∀ i ∈ st.seq.insns, i.addr = x → i.is .opPop)
    (hadd : st.addOperand x operand = .ok st') : Rewrites seq₀ st' := by
  obtain ⟨seq', hseq, hst⟩ := Except.bind_eq_ok.mp hadd
  rw [Except.pure_eq_ok] at hst
  subst hst
  obtain ⟨i, he⟩ := Iseq.addInsnOperand_edited hx hseq
  exact h.edit he

theorem replaceJumpInsn {st st' : OptState ν} {i : Insn} {deleted : Bool} (h : Rewrites seq₀ st)
    (hi : i ∈ st.seq.insns) (hrep : st.replaceJumpInsn i = .ok (st', deleted)) :
    Rewrites seq₀ st' := by
  unfold OptState.replaceJumpInsn at hrep
  split at hrep
  · split at hrep
    · obtain ⟨st₁, hrm, hst⟩ := Except.bind_eq_ok.mp hrep
      cases hst
      exact h.remove hrm
    · cases hrep
      exact h
  · split at hrep
    · split at hrep
      · cases hrep
        exact h.edit (Iseq.jumpToPop_edited st hi)
      · cases hrep
        exact h
    · cases hrep

theorem foldConstants [LoxNum ν] {st st' : OptState ν} {cur prev prevp : Insn}
    {next : Option Addr} (h : Rewrites seq₀ st)
    (hf : st.foldConstants cur prev prevp = .ok (st', next)) : Rewrites seq₀ st' := by
  obtain ⟨v, -, hf⟩ := Except.bind_eq_ok.mp hf
  split at hf
  · cases hf
    exact h
  · obtain ⟨seq₁, hchange, hf⟩ := Except.bind_eq_ok.mp hf
    obtain ⟨st₂, hrm, hf⟩ := Except.bind_eq_ok.mp hf
    obtain ⟨st₃, hrm', hf⟩ := Except.bind_eq_ok.mp hf
    cases hf
    have hinsns : seq₁.insns = st.seq.insns.map id ∧ seq₁.catchTbl = st.seq.catchTbl := by
      unfold Iseq.changeConstant at hchange
      split at hchange
      · cases hchange
        simp
      · cases hchange
    have h₁ : Rewrites seq₀ { st with seq := seq₁ } :=
      h.update hinsns.1 (fun _ => rfl) (fun _ _ => rfl) (fun _ _ _ => rfl) hinsns.2
    exact (h₁.remove hrm).remove hrm'

/-- An update of one instruction in place that makes it an `OP_POP_N`. -/
theorem modify {st : OptState ν} (h : Rewrites seq₀ st) {x : Addr} {f : Insn → Insn} {hf}
    (hsize : ∀ i, (f i).size = i.size)
    (hpop : ∀ i ∈ st.seq.insns, i.addr = x → (f i).is .opPopN) :
    Rewrites seq₀ { st with seq := st.seq.modify x f hf } := by
  refine h.update (f := fun i => if i.addr = x then f i else i) rfl ?_ ?_ ?_ rfl
  · intro i
    by_cases hi : i.addr = x <;> simp [hi, hf]
  · intro i _
    by_cases hi : i.addr = x <;> simp [hi, hsize]
  · intro i hi hj
    by_cases hx : i.addr = x
    · have hp := hpop i hi hx
      simp only [Insn.is, beq_iff_eq] at hp
      simp [hx, Insn.jumps, Insn.isJump, Insn.isLoop, Insn.is, hp] at hj
    · exact if_neg hx

/-- Two pops become one; `cur` is still where it was, unless it is an `OP_POP_N` now. -/
theorem consolidatePops {st st' : OptState ν} {prev : Option Insn} {cur cur' : Insn}
    (h : Rewrites seq₀ st) (hcur : cur ∈ st.seq.insns)
    (hc : st.consolidatePops prev cur = .ok (st', cur')) :
    Rewrites seq₀ st' ∧ (cur' ∈ st'.seq.insns ∨ cur'.is .opPopN) := by
  unfold OptState.consolidatePops at hc
  cases prev with
  | none =>
    cases hc
    exact ⟨h, Or.inl hcur⟩
  | some prev =>
    dsimp only at hc
    split at hc
    case isFalse =>
      cases hc
      exact ⟨h, Or.inl hcur⟩
    case isTrue hpops =>
      obtain ⟨st₁, hrm, hc⟩ := Except.bind_eq_ok.mp hc
      have h₁ := h.remove hrm
      have hcode := code_of_remove hrm hcur
      split at hc
      case isTrue hp =>
        obtain ⟨st₂, hadd, hc⟩ := Except.bind_eq_ok.mp hc
        cases hc
        have hx : ∀ i ∈ st₁.seq.insns, i.addr = cur.addr → i.is .opPop := by
          intro i hi haddr
          simpa [Insn.is, hcode i hi haddr] using hp
        have h₂ := h₁.addOperand hx hadd
        refine ⟨h₂.modify (fun _ => rfl) fun i _ _ => ?_, Or.inr ?_⟩ <;> simp [Insn.is]
      case isFalse hp =>
        cases hc
        have hpn : cur.is .opPopN := by
          simp only [Insn.isPopType, Bool.and_eq_true, Bool.or_eq_true] at hpops
          exact hpops.1.1.2.resolve_left hp
        refine ⟨h₁.modify (fun i => by simp [Insn.size, Insn.numOperands, Insn.setOperand0])
          fun i hi haddr => ?_, Or.inr hpn⟩
        simpa [Insn.is, Insn.setOperand0, hcode i hi haddr] using hpn

theorem simplifyJumpOrConst {st st' : OptState ν} {opts : CompilerOpts} {prev : Option Insn}
    {cur : Insn} {next : Option Addr} (h : Rewrites seq₀ st)
    (hcur : cur.isJump → cur ∈ st.seq.insns)
    (hs : st.simplifyJumpOrConst opts prev cur = .ok (st', next)) : Rewrites seq₀ st' := by
  unfold OptState.simplifyJumpOrConst at hs
  dsimp only at hs
  split at hs
  case isTrue hj =>
    obtain ⟨⟨st₁, deleted⟩, hrep, hs⟩ := Except.bind_eq_ok.mp hs
    cases hs
    exact h.replaceJumpInsn (hcur (by simp_all)) hrep
  case isFalse =>
    split at hs
    case isTrue hj =>
      obtain ⟨⟨st₁, deleted⟩, hrep, hs⟩ := Except.bind_eq_ok.mp hs
      have hmem := hcur (by simp_all)
      have h₁ : Rewrites seq₀ st₁ := by
        unfold OptState.replaceConstJump at hrep
        split at hrep
        · exact h.replaceJumpInsn hmem hrep
        · split at hrep
          · exact h.replaceJumpInsn hmem hrep
          · cases hrep
            exact h
      split at hs <;> · cases hs; exact h₁
    case isFalse =>
      cases prev with
      | none =>
        cases hs
        exact h
      | some prev =>
        dsimp only at hs
        split at hs
        · obtain ⟨st₁, hrm, hs⟩ := Except.bind_eq_ok.mp hs
          obtain ⟨st₂, hrm', hs⟩ := Except.bind_eq_ok.mp hs
          cases hs
          exact (h.remove hrm).remove hrm'
        · cases hs
          exact h

/-- One pass of the loop. -/
theorem optimizeStep [LoxNum ν] {st st' : OptState ν} {opts : CompilerOpts} {cur : Insn}
    {next : Option Addr} (h : Rewrites seq₀ st) (hcur : cur ∈ st.seq.insns)
    (hs : st.optimizeStep opts cur = .ok (st', next)) : Rewrites seq₀ st' := by
  unfold OptState.optimizeStep at hs
  split at hs
  · exact h.foldConstants hs
  · obtain ⟨⟨st₁, cur₁⟩, hc, hs⟩ := Except.bind_eq_ok.mp hs
    obtain ⟨h₁, hcur₁⟩ := h.consolidatePops hcur hc
    refine h₁.simplifyJumpOrConst (fun hj => ?_) hs
    refine hcur₁.resolve_right fun hpn => ?_
    simp only [Insn.is, beq_iff_eq] at hpn
    simp [Insn.isJump, Insn.is, hpn] at hj

/-- Any number of passes. -/
theorem optimizeLoop [LoxNum ν] {opts : CompilerOpts} (fuel : ℕ) {st st' : OptState ν}
    {cur cur' : Option Addr} (h : Rewrites seq₀ st)
    (hs : st.optimizeLoop opts fuel cur = .ok (st', cur')) : Rewrites seq₀ st' :=
  OptState.optimizeLoop_keeps (fun h hcur hstep => h.optimizeStep hcur hstep) fuel h hs

end Rewrites

end Clox
