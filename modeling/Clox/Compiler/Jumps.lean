import Clox.Compiler.Edits
import Clox.Compiler.Emit

/-! # Jumps across the optimizer

Where a jump lands under the VM's `ip` arithmetic, and what an edit of the
optimizer does to it. An edit patches the operands of the jumps whose recorded
target is at or behind the edited instruction; the jumps that have to be
patched are those whose span, from the jump to where the VM lands, contains it.
Where the two agree on every edit of a run, every surviving jump lands on what
is left of its landing point.
-/

namespace Clox

open Layout (IsPos before wordsAt start offset firstSurvivor Resized)

namespace Insn

/-- `frame->ip` after a taken jump, or a loop, whose first word is at `start`: the two words are
read, then `ip += ipOffset - 1`, for a loop `ip -= ipOffset + 2`. -/
def landing (i : Insn) (start : ℕ) : ℤ :=
  if i.isLoop then start + 2 - (i.operand0 + 2) else start + 2 + (i.operand0 - 1)

end Insn

/-- The jump or loop `i` lands on the position `t` of the sequence `l`. -/
def LandsOn (l : List Insn) (i : Insn) (t : Option Addr) : Prop :=
  IsPos (·.addr) l t ∧ i.landing (start (·.addr) Insn.size l i.addr) = offset (·.addr) Insn.size l t

instance (l : List Insn) (i : Insn) (t : Option Addr) : Decidable (LandsOn l i t) :=
  inferInstanceAs (Decidable (_ ∧ _))

/-- The instruction `x` is between the jump or loop `i` and where it lands. -/
def spans (l : List Insn) (i : Insn) (x : Addr) : Bool :=
  let s := start (·.addr) Insn.size l i.addr
  let sx := start (·.addr) Insn.size l x
  if i.isLoop then decide (sx < s ∧ i.landing s ≤ sx)
  else i.isJump && decide (s < sx ∧ sx < i.landing s)

/-- The edit `e` of `seq` patches exactly the jumps and loops that span its instruction. -/
def Edit.Agrees {ν : Type} (seq : Iseq ν) (e : Edit) : Prop :=
  ∀ i ∈ seq.insns, i.jumps → i.addr ≠ e.insn → e.patches seq i = spans seq.insns i e.insn

instance {ν : Type} (seq : Iseq ν) (e : Edit) : Decidable (e.Agrees seq) :=
  inferInstanceAs (Decidable (∀ i ∈ seq.insns, _ → _))

/-! ## One jump across one edit -/

/-- `spans` in terms of the order of the cells, for a jump or loop that lands on `t`. -/
theorem spans_iff {l₀ l : List Insn} {x : Addr} (hnd : (l₀.map (·.addr)).Nodup)
    (hsub : (l.map (·.addr)).Sublist (l₀.map (·.addr))) (hx : x ∈ l.map (·.addr))
    {i : Insn} (hi : i ∈ l) (hne : i.addr ≠ x) (hjump : i.isJump ∨ i.isLoop)
    {t : Option Addr} (ht : IsPos (·.addr) l₀ t)
    (hland : i.landing (start (·.addr) Insn.size l i.addr) =
      wordsAt (·.addr) Insn.size (before (·.addr) l₀ t) l) :
    spans l i x = if i.isLoop
      then before (·.addr) l (some i.addr) x && !before (·.addr) l₀ t x
      else !before (·.addr) l (some i.addr) x && before (·.addr) l₀ t x := by
  have hpos : ∀ c ∈ l, 0 < c.size := fun c _ => c.size_pos
  have hik : i.addr ∈ l.map (·.addr) := List.mem_map_of_mem hi
  have hFx := Layout.start_lt_wordsAt_iff hnd hsub hpos ht hx
  have hxi := Layout.start_lt_offset_iff hpos (t := some i.addr) hik hx
  have hix := Layout.start_lt_offset_iff hpos (t := some x) hx hik
  -- two different instructions: one comes first
  have hord : before (·.addr) l (some x) i.addr = true ↔
      before (·.addr) l (some i.addr) x = false := by
    have : Layout.index (·.addr) l i.addr ≠ Layout.index (·.addr) l x :=
      fun h => hne (Layout.index_inj hik h)
    simp only [before, decide_eq_true_eq, decide_eq_false_iff_not]
    omega
  rw [Bool.eq_iff_iff]
  by_cases hl : i.isLoop = true
  · simp only [spans, hl, if_true, decide_eq_true_eq, Bool.and_eq_true, Bool.not_eq_true']
    rw [← hxi, ← Bool.not_eq_true, ← hFx, hland]
    simp only [offset]
    omega
  · have hj : i.isJump = true := hjump.resolve_right hl
    simp only [spans, hl, hj, Bool.true_and, decide_eq_true_eq, Bool.and_eq_true,
      Bool.not_eq_true', Bool.false_eq_true, if_false]
    rw [← hord, ← hix, ← hFx, hland]
    simp only [offset]
    omega

/-- Moving `x` from `m` to `n` words, a jump or loop keeps its landing point when its operand
changes by as much exactly if it spans `x`. -/
theorem landing_edit {l₀ l l' : List Insn} {x : Addr} {m n : ℕ}
    (hnd : (l₀.map (·.addr)).Nodup) (hsub : (l.map (·.addr)).Sublist (l₀.map (·.addr)))
    (hres : Resized (·.addr) Insn.size l l' x m n) (hx : x ∈ l.map (·.addr))
    {i i' : Insn} (hi : i ∈ l) (hi' : i' ∈ l') (haddr : i'.addr = i.addr)
    (hcode : i'.code = i.code) (hne : i.addr ≠ x) (hjump : i.isJump ∨ i.isLoop)
    (hop : (i'.operand0 : ℤ) =
      if spans l i x then Iseq.unsignedSum i.operand0 (n - m) else i.operand0)
    {t : Option Addr} (ht : IsPos (·.addr) l₀ t)
    (hland : i.landing (start (·.addr) Insn.size l i.addr) =
      wordsAt (·.addr) Insn.size (before (·.addr) l₀ t) l) :
    i'.landing (start (·.addr) Insn.size l' i'.addr) =
      wordsAt (·.addr) Insn.size (before (·.addr) l₀ t) l' := by
  have hpos : ∀ {k : List Insn}, ∀ c ∈ k, 0 < c.size := fun c _ => c.size_pos
  have hik : i.addr ∈ l.map (·.addr) := List.mem_map_of_mem hi
  have hik' : i.addr ∈ l'.map (·.addr) := haddr ▸ List.mem_map_of_mem hi'
  have hloop : i'.isLoop = i.isLoop := by simp [Insn.isLoop, Insn.is, hcode]
  rw [spans_iff hnd hsub hx hi hne hjump ht hland] at hop
  -- how `x` and `i` lie to the landing point, before and after
  have hFx := Layout.start_lt_wordsAt_iff hnd hsub hpos ht hx
  have hFi := Layout.start_lt_wordsAt_iff hnd hsub hpos ht hik
  have hFi' := Layout.start_lt_wordsAt_iff hnd (hres.keys.trans hsub) hpos ht hik'
  have hxi := Layout.start_lt_offset_iff (l := l) hpos (t := some i.addr) hik hx
  -- what moves
  have hstart := hres.start_eq (hsub.nodup hnd) hik'
  have hwords := hres.words (before (·.addr) l₀ t)
  rw [← hFi] at hFi'
  simp only [offset] at hxi
  simp only [Insn.landing, hloop, haddr] at hland ⊢
  unfold Iseq.unsignedSum at hop
  by_cases hl : i.isLoop = true
  · rw [if_pos hl] at hop hland ⊢
    cases hF : before (·.addr) l₀ t x <;> cases hB : before (·.addr) l (some i.addr) x <;>
      simp only [hF, hB, Bool.and_true, Bool.and_false, Bool.not_true, Bool.not_false,
        Bool.false_eq_true, if_true, if_false, iff_true, iff_false, not_lt] at * <;>
      omega
  · rw [if_neg hl] at hop hland ⊢
    cases hF : before (·.addr) l₀ t x <;> cases hB : before (·.addr) l (some i.addr) x <;>
      simp only [hF, hB, Bool.and_true, Bool.and_false, Bool.not_true, Bool.not_false,
        Bool.false_eq_true, if_true, if_false, iff_true, iff_false, not_lt] at * <;>
      omega

/-! ## All jumps across a run -/

/-- Between edits: the jumps of `l` land, in `l₀`'s terms, where they did. -/
structure Tracks (l₀ l : List Insn) : Prop where
  keys : (l.map (·.addr)).Sublist (l₀.map (·.addr))
  lands : ∀ i ∈ l, i.jumps → ∃ i₀ ∈ l₀, i.addr = i₀.addr ∧ ∀ t, LandsOn l₀ i₀ t →
    i.landing (start (·.addr) Insn.size l i.addr) =
      wordsAt (·.addr) Insn.size (before (·.addr) l₀ t) l

namespace Tracks

variable {ν : Type} {l₀ : List Insn}

/-- An edit that patches the jumps that span it. -/
theorem edit (hnd : (l₀.map (·.addr)).Nodup) {seq seq' : Iseq ν} {e : Edit} {x : Insn}
    (h : Tracks l₀ seq.insns) (he : seq.Edited seq' e x) (hag : e.Agrees seq) :
    Tracks l₀ seq'.insns := by
  refine ⟨he.resized.keys.trans h.keys, fun i' hi' hj => ?_⟩
  have hne : i'.addr ≠ e.insn := fun hx => Insn.not_jumps_of_isPop (he.self i' hi' hx) hj
  obtain ⟨i, hi, haddr, hcode, hsize, hop, -⟩ := he.others i' hi' hne
  have hop := hop hj
  have hij : i.jumps := by
    have hnum : i'.numOperands = i.numOperands := by simpa [Insn.size] using hsize
    simpa [Insn.jumps, Insn.isJump, Insn.isLoop, Insn.is, hcode, hnum] using hj
  obtain ⟨i₀, hi₀, haddr₀, hlands⟩ := h.lands i hi hij
  refine ⟨i₀, hi₀, haddr.trans haddr₀, fun t ht => ?_⟩
  have hne' : i.addr ≠ e.insn := haddr ▸ hne
  have hjl : i.isJump ∨ i.isLoop := by
    simp only [Insn.jumps, Bool.and_eq_true, Bool.or_eq_true] at hij
    exact hij.1
  rw [hag i hi hij hne'] at hop
  exact landing_edit hnd h.keys he.resized (he.addr ▸ List.mem_map_of_mem he.mem) hi hi' haddr hcode hne' hjl hop ht.1
    (hlands t ht)

/-- In-place updates that leave sizes and jumps alone. -/
theorem map {l : List Insn} (h : Tracks l₀ l) {f : Insn → Insn} (haddr : ∀ i, (f i).addr = i.addr)
    (hsize : ∀ i ∈ l, (f i).size = i.size) (hjumps : ∀ i ∈ l, (f i).jumps → f i = i) :
    Tracks l₀ (l.map f) := by
  have hkeys : (l.map f).map (·.addr) = l.map (·.addr) := by simp [haddr]
  refine ⟨hkeys ▸ h.keys, fun i' hi' hj => ?_⟩
  obtain ⟨i, hi, rfl⟩ := List.mem_map.mp hi'
  have hfi := hjumps i hi hj
  rw [hfi] at hj ⊢
  obtain ⟨i₀, hi₀, haddr₀, hlands⟩ := h.lands i hi hj
  refine ⟨i₀, hi₀, haddr₀, fun t ht => ?_⟩
  have hstart : start (·.addr) Insn.size (l.map f) i.addr = start (·.addr) Insn.size l i.addr := by
    unfold start Layout.index Layout.width
    rw [hkeys, ← List.map_take, List.map_map]
    congr 1
    exact List.map_congr_left fun j hj => hsize j (List.mem_of_mem_take hj)
  rw [hstart, hlands t ht, Layout.wordsAt_map haddr hsize]

end Tracks

/-- `if (x) { print y; } 2; print z;`: the jump lands on the unused constant. -/
def unusedAfterIf : Node :=
  .stmtList [
    .ifStmt (.variable "x") (.block [.stmtList [.print (.variable "y")]]) none,
    .exprStmt (.literal (.number "2")),
    .print (.variable "z")]

/-- Instructions are left out only, and a jump or loop that is left is one of `l₀`. -/
structure Thinned (l₀ l : List Insn) : Prop where
  keys : (l.map (·.addr)).Sublist (l₀.map (·.addr))
  jumps : ∀ i ∈ l, i.jumps → ∃ i₀ ∈ l₀, i₀.addr = i.addr ∧ i₀.code = i.code ∧ i₀.jumps

theorem Rewrites.thinned {ν : Type} {seq₀ : Iseq ν} {st : OptState ν} (h : Rewrites seq₀ st) :
    Thinned seq₀.insns st.seq.insns := by
  induction h with
  | init => exact ⟨List.Sublist.refl _, fun i hi hj => ⟨i, hi, rfl, rfl, hj⟩⟩
  | edit _ he ih =>
    refine ⟨he.resized.keys.trans ih.keys, ?_⟩
    intro i' hi' hj
    have hne := fun hx => Insn.not_jumps_of_isPop (he.self i' hi' hx) hj
    rcases he.others i' hi' hne with ⟨i, hi, haddr, hcode, hsize, -⟩
    have hnum : i'.numOperands = i.numOperands := by simpa [Insn.size] using hsize
    rw [haddr, hcode]
    apply ih.jumps i hi
    simpa [Insn.jumps, Insn.isJump, Insn.isLoop, Insn.is, hcode, hnum] using hj
  | @update st seq' f _ hinsns haddr _ hbranches _ ih =>
    have hkeys : (st.seq.insns.map f).map (·.addr) = st.seq.insns.map (·.addr) := by simp [haddr]
    rw [hinsns]
    refine ⟨hkeys ▸ ih.keys, ?_⟩
    intro i' hi' hj
    rcases List.mem_map.mp hi' with ⟨i, hi, rfl⟩
    have hfi := hbranches i hi (.inl hj)
    rw [hfi] at hj ⊢
    exact ih.jumps i hi hj

/-- However far the optimizer has come, and whatever it did to the operands. -/
theorem optimizeLoop_thins {ν : Type} [LoxNum ν] {opts : CompilerOpts} {seq : Iseq ν} {fuel : ℕ}
    {st : OptState ν} {cur : Option Addr}
    (hrun : OptState.optimizeLoop opts fuel { seq } (seq.insns.head?.map (·.addr)) =
      .ok (st, cur)) : Thinned seq.insns st.seq.insns :=
  (Rewrites.init.optimizeLoop fuel hrun).thinned

/-- The program whose jump is moved. -/
theorem unusedAfterIf_thinned : ∃ (s : CompState ℤ) (st : OptState ℤ) (cur : Option Addr),
    emitProgram {} unusedAfterIf = .ok s ∧ Thinned s.current.iseq.insns st.seq.insns ∧
      OptState.optimizeLoop {} 20 { seq := s.current.iseq }
        (s.current.iseq.insns.head?.map (·.addr)) = .ok (st, cur) := by
  have h : (do
      let s ← (emitProgram {} unusedAfterIf : Except Abort (CompState ℤ))
      let _ ← OptState.optimizeLoop {} 20 { seq := s.current.iseq }
        (s.current.iseq.insns.head?.map Insn.addr)
      return true) = .ok true := by
    decide +kernel
  rcases Except.bind_eq_ok.mp h with ⟨s, hs, h⟩
  rcases Except.bind_eq_ok.mp h with ⟨⟨st, cur⟩, hrun, -⟩
  exact ⟨s, st, cur, hs, optimizeLoop_thins hrun, hrun⟩

end Clox
