import Clox.Compiler.Edits
import Clox.Compiler.Emit

/-! # Side tables across the optimizer

The word offsets the compiler records while it emits code: the rows of the
catch table, the operand of `OP_BREAK`, the lengths of default arguments, the
declaration points of locals and the ends of scopes. None of them is patched
by the optimizer. Each is a distance between two positions, and it stays right
as long as the edits between the two leave the number of words as it is.
-/

namespace Clox

open Layout (IsPos before between wordsAt offset firstSurvivor Resized)

/-- From the position `a` it is `n` words to the position `b`. -/
def Denotes (l : List Insn) (a b : Option Addr) (n : ℕ) : Prop :=
  IsPos (·.addr) l a ∧ IsPos (·.addr) l b ∧
    offset (·.addr) Insn.size l a + n = offset (·.addr) Insn.size l b

instance (l : List Insn) (a b : Option Addr) (n : ℕ) : Decidable (Denotes l a b n) :=
  inferInstanceAs (Decidable (_ ∧ _ ∧ _))

/-- The beginning of the code. -/
def codeStart (l : List Insn) : Option Addr := l.head?.map (·.addr)

/-- The default arguments of a function, one behind the other: where each begins, and its
length. -/
def defaultArgSpans : ℕ → List Param → List (ℕ × ℕ)
  | _, [] => []
  | start, p :: rest =>
    match p.defaultArgIPOffset with
    | some n => (start, n) :: defaultArgSpans (start + n) rest
    | none => defaultArgSpans start rest

/-- The positions of a sequence. -/
def positions (l : List Insn) : List (Option Addr) := none :: l.map fun i => some i.addr

/-- The offsets the side tables of the function record for its code `seq`, each with the position
it is counted from. -/
def recordedOffsets {ν : Type} (seq : Iseq ν) (func : ObjFunction ν) : List (Option Addr × ℕ) :=
  let start := codeStart seq.insns
  seq.catchTbl.flatMap (fun row => [(start, row.ifrom), (start, row.ito), (start, row.itarget)]) ++
  -- OP_BREAK goes on at its own first word plus its operand
  (seq.insns.filter (·.is .opBreak)).map (fun i => (some i.addr, i.operand0)) ++
  (defaultArgSpans 0 func.params).flatMap (fun arg =>
    ((positions seq.insns).filter fun a => decide (Denotes seq.insns start a arg.1)).map
      fun a => (a, arg.2)) ++
  func.localVariables.map (fun v => (start, v.bytecodeDeclareStart)) ++
  func.scopes.filterMap fun sc => sc.bytecodeEnd.map fun n => (start, n)

/-- The tables of `func`, recorded for `seq₀`, are right for the optimized code `seq`: the
optimizer left them alone, and every offset they record denotes the same position. -/
structure SideTablesAgree {ν : Type} (seq₀ seq : Iseq ν) (func : ObjFunction ν) : Prop where
  catchTbl : seq.catchTbl = seq₀.catchTbl
  breaks : ∀ i ∈ seq.insns, i.is .opBreak → i ∈ seq₀.insns
  offsets : ∀ r ∈ recordedOffsets seq₀ func, ∀ b ∈ positions seq₀.insns,
    Denotes seq₀.insns r.1 b r.2 →
      Denotes seq.insns (firstSurvivor (·.addr) seq₀.insns seq.insns r.1)
        (firstSurvivor (·.addr) seq₀.insns seq.insns b) r.2

/-! ## What edits do to a distance -/

/-- Words the edit `e` of `seq` adds. -/
def Edit.change {ν : Type} (seq : Iseq ν) (e : Edit) : ℤ :=
  match seq.insn? e.insn with
  | some i => e.newSize i.size - i.size
  | none => 0

/-- Words the edits add between the positions `a` and `b` of `l₀`. -/
def netChange {ν : Type} (l₀ : List Insn) (a b : Option Addr) : List (Iseq ν × Edit) → ℤ
  | [] => 0
  | (seq, e) :: rest =>
    (if between (·.addr) l₀ a b e.insn then e.change seq else 0) + netChange l₀ a b rest

/-- No edit is between `a` and `b`, but for merges there of one single pop into another. -/
def Quiet {ν : Type} (l₀ : List Insn) (a b : Option Addr) : List (Iseq ν × Edit) → Bool
  | (seq, .remove p) :: (seq', .addOperand c) :: rest =>
    let inside := between (·.addr) l₀ a b
    (!inside p && !inside c || inside p && inside c &&
        decide (Edit.change seq (.remove p) = -1 ∧ Edit.change seq' (.addOperand c) = 1)) &&
      Quiet l₀ a b rest
  | (_, e) :: rest => !between (·.addr) l₀ a b e.insn && Quiet l₀ a b rest
  | [] => true

theorem netChange_append {ν : Type} (l₀ : List Insn) (a b : Option Addr)
    (es es' : List (Iseq ν × Edit)) :
    netChange l₀ a b (es ++ es') = netChange l₀ a b es + netChange l₀ a b es' := by
  induction es with
  | nil => simp [netChange]
  | cons e es ih => simp only [List.cons_append, netChange, ih, Int.add_assoc]

theorem netChange_eq_zero_of_quiet {ν : Type} {l₀ : List Insn} {a b : Option Addr}
    {es : List (Iseq ν × Edit)} (h : Quiet l₀ a b es) : netChange l₀ a b es = 0 := by
  fun_induction Quiet l₀ a b es with
  | case1 seq p seq' c rest inside ih =>
    rw [Bool.and_eq_true, Bool.or_eq_true] at h
    have hrest := ih h.2
    simp only [netChange, Edit.insn, hrest]
    rcases h.1 with hout | hin
    · simp only [Bool.and_eq_true, Bool.not_eq_true', inside] at hout
      simp [hout.1, hout.2]
    · simp only [Bool.and_eq_true, decide_eq_true_eq, inside] at hin
      simp [hin.1.1, hin.1.2, hin.2.1, hin.2.2]
  | case2 seq e rest _ ih =>
    rw [Bool.and_eq_true, Bool.not_eq_true'] at h
    simp [netChange, h.1, ih h.2]
  | case3 => rfl

namespace Rewrites

variable {ν : Type} {seq₀ : Iseq ν}

theorem keys {st : OptState ν} (h : Rewrites seq₀ st) :
    (st.seq.insns.map (·.addr)).Sublist (seq₀.insns.map (·.addr)) := by
  induction h with
  | init => exact List.Sublist.refl _
  | edit _ he ih => exact he.resized.keys.trans ih
  | update _ hinsns haddr _ _ _ ih => simpa [hinsns, Function.comp_def, haddr] using ih

theorem catchTbl {st : OptState ν} (h : Rewrites seq₀ st) :
    st.seq.catchTbl = seq₀.catchTbl := by
  induction h with
  | init => rfl
  | edit _ he ih => exact he.catchTbl.trans ih
  | update _ _ _ _ _ hcatch ih => exact hcatch.trans ih

/-- The optimizer neither makes nor changes an `OP_BREAK`. -/
theorem mem_of_break {st : OptState ν} (h : Rewrites seq₀ st) :
    ∀ i ∈ st.seq.insns, i.is .opBreak → i ∈ seq₀.insns := by
  induction h with
  | init => exact fun i hi _ => hi
  | @edit st seq' e x _ he ih =>
    intro i' hi' hbreak
    have hcode : i'.code = OpCode.opBreak.toNat := by simpa [Insn.is] using hbreak
    have hne : i'.addr ≠ e.insn := by
      intro haddr
      have hpop := he.self i' hi' haddr
      simp [Insn.is, hcode] at hpop
    obtain ⟨i, hi, -, -, -, -, hsame⟩ := he.others i' hi' hne
    have hii' : i' = i := hsame (by simp [Insn.isJump, Insn.is, hcode])
      (by simp [Insn.isLoop, Insn.is, hcode])
    rw [hii'] at hbreak ⊢
    exact ih i hi hbreak
  | update _ hinsns _ _ hbranches _ ih =>
    intro i' hi' hbreak
    rw [hinsns] at hi'
    obtain ⟨i, hi, rfl⟩ := List.mem_map.mp hi'
    have hfi := hbranches i hi (Or.inr hbreak)
    rw [hfi] at hbreak ⊢
    exact ih i hi hbreak

/-- Between two positions there are as many words as before and those the edits added. -/
theorem wordsAt_between {st : OptState ν} (h : Rewrites seq₀ st) (a b : Option Addr) :
    (wordsAt (·.addr) Insn.size (between (·.addr) seq₀.insns a b) st.seq.insns : ℤ) =
      wordsAt (·.addr) Insn.size (between (·.addr) seq₀.insns a b) seq₀.insns +
        netChange seq₀.insns a b st.edits := by
  induction h with
  | init => simp [netChange]
  | @edit st seq' e x _ he ih =>
    have hchange : e.change st.seq = e.newSize x.size - x.size := by
      unfold Edit.change
      rw [← he.addr, st.seq.insn?_eq_some he.mem]
    have hwords := he.resized.words (between (·.addr) seq₀.insns a b)
    simp only [netChange_append, netChange, hchange]
    by_cases hin : between (·.addr) seq₀.insns a b e.insn = true <;>
      simp only [hin, if_true, if_false, Bool.false_eq_true] at hwords ⊢ <;> omega
  | update _ hinsns haddr hsize _ _ ih =>
    rw [hinsns, Layout.wordsAt_map haddr hsize]
    exact ih

/-- A recorded distance denotes the same positions afterwards exactly if the edits between them
add up to nothing. -/
theorem denotes_iff {st : OptState ν} (h : Rewrites seq₀ st) {a b : Option Addr} {n : ℕ}
    (hd : Denotes seq₀.insns a b n) :
    Denotes st.seq.insns (firstSurvivor (·.addr) seq₀.insns st.seq.insns a)
        (firstSurvivor (·.addr) seq₀.insns st.seq.insns b) n ↔
      netChange seq₀.insns a b st.edits = 0 := by
  obtain ⟨ha, hb, hn⟩ := hd
  have hpos : ∀ c ∈ seq₀.insns, 0 < c.size := fun c _ => c.size_pos
  have hle : offset (·.addr) Insn.size seq₀.insns a ≤ offset (·.addr) Insn.size seq₀.insns b := by
    omega
  have hafter := Layout.offset_add_between seq₀.nodup h.keys hpos ha hb hle
  have hbefore := Layout.offset_add_between seq₀.nodup (List.Sublist.refl _) hpos ha hb hle
  have hself : ∀ t, IsPos (·.addr) seq₀.insns t →
      offset (·.addr) Insn.size seq₀.insns (firstSurvivor (·.addr) seq₀.insns seq₀.insns t) =
        offset (·.addr) Insn.size seq₀.insns t := by
    intro t ht
    rw [Layout.offset_firstSurvivor seq₀.nodup (List.Sublist.refl _) ht,
      Layout.offset_eq_wordsAt seq₀.nodup]
  rw [hself a ha, hself b hb] at hbefore
  have hwords := h.wordsAt_between a b
  have hpa := (Layout.firstSurvivor_spec seq₀.nodup h.keys ha).1
  have hpb := (Layout.firstSurvivor_spec seq₀.nodup h.keys hb).1
  constructor
  · rintro ⟨-, -, hn'⟩
    omega
  · intro hnet
    exact ⟨hpa, hpb, by omega⟩

end Rewrites

/-- The optimizer, stopped after any number of passes: if no edit is between the positions of a
recorded distance, but for merges of single pops there, all side tables are right. -/
theorem optimizeLoop_sideTablesAgree {ν : Type} [LoxNum ν] {opts : CompilerOpts} {seq : Iseq ν}
    {func : ObjFunction ν} {fuel : ℕ} {st : OptState ν} {cur : Option Addr}
    (hrun : OptState.optimizeLoop opts fuel { seq } (seq.insns.head?.map (·.addr)) = .ok (st, cur))
    (hquiet : ∀ r ∈ recordedOffsets seq func, ∀ b ∈ positions seq.insns,
      Denotes seq.insns r.1 b r.2 → Quiet seq.insns r.1 b st.edits) :
    SideTablesAgree seq st.seq func := by
  have h := Rewrites.init.optimizeLoop fuel hrun
  refine ⟨h.catchTbl, h.mem_of_break, fun r hr b hb hd => ?_⟩
  exact (h.denotes_iff hd).mpr (netChange_eq_zero_of_quiet (hquiet r hr b hb hd))

/-- `try { print x; } catch (Error) { print y; } print 1 + 2;`: the fold is behind the try. -/
def foldAfterTry : Node :=
  .stmtList [
    .tryStmt (.block [.stmtList [.print (.variable "x")]])
      [.catchStmt ["Error"] none (.block [.stmtList [.print (.variable "y")]])],
    .print (.binary .plus (.literal (.number "1")) (.literal (.number "2")))]

theorem foldAfterTry_sideTablesAgree :
    ∃ (s : CompState ℤ) (st : OptState ℤ) (cur : Option Addr),
      emitProgram {} foldAfterTry = .ok s ∧ st.edits.length = 2 ∧
        OptState.optimizeLoop {} 30 { seq := s.current.iseq }
          (s.current.iseq.insns.head?.map (·.addr)) = .ok (st, cur) ∧
        SideTablesAgree s.current.iseq st.seq s.current.function := by
  have h : (do
      let s ← (emitProgram {} foldAfterTry : Except Abort (CompState ℤ))
      let r ← OptState.optimizeLoop {} 30 { seq := s.current.iseq }
        (s.current.iseq.insns.head?.map Insn.addr)
      let seq := s.current.iseq
      return decide (r.1.edits.length = 2 ∧
        ∀ o ∈ recordedOffsets seq s.current.function, ∀ b ∈ positions seq.insns,
          Denotes seq.insns o.1 b o.2 → Quiet seq.insns o.1 b r.1.edits)) = .ok true := by
    decide +kernel
  obtain ⟨s, hs, h⟩ := Except.bind_eq_ok.mp h
  obtain ⟨⟨st, cur⟩, hrun, h⟩ := Except.bind_eq_ok.mp h
  rw [Except.pure_eq_ok, decide_eq_true_eq] at h
  exact ⟨s, st, cur, hs, h.1, hrun, optimizeLoop_sideTablesAgree hrun h.2⟩

/-- `1; try { print x; } catch (Error) { print y; }` -/
def unusedBeforeTry : Node :=
  .stmtList [
    .exprStmt (.literal (.number "1")),
    .tryStmt (.block [.stmtList [.print (.variable "x")]])
      [.catchStmt ["Error"] none (.block [.stmtList [.print (.variable "y")]])]]

/-- The unused constant in front of the try is removed, the rows of the catch table stay. -/
theorem unusedBeforeTry_catchTbl_drifts :
    ∃ (s : CompState ℤ) (st : OptState ℤ),
      emitProgram {} unusedBeforeTry = .ok s ∧ s.current.hadError = false ∧
        s.current.iseq.optimizeIseq {} = .ok st ∧
        ¬ SideTablesAgree s.current.iseq st.seq s.current.function := by
  have h : (do
      let s ← (emitProgram {} unusedBeforeTry : Except Abort (CompState ℤ))
      let st ← s.current.iseq.optimizeIseq {}
      let l₀ := s.current.iseq.insns
      let l := st.seq.insns
      return decide (s.current.hadError = false ∧
        ∃ r ∈ recordedOffsets s.current.iseq s.current.function, ∃ b ∈ positions l₀,
          Denotes l₀ r.1 b r.2 ∧ ¬ Denotes l (firstSurvivor Insn.addr l₀ l r.1)
            (firstSurvivor Insn.addr l₀ l b) r.2)) = .ok true := by
    decide +kernel
  obtain ⟨s, hs, h⟩ := Except.bind_eq_ok.mp h
  obtain ⟨st, hst, h⟩ := Except.bind_eq_ok.mp h
  rw [Except.pure_eq_ok, decide_eq_true_eq] at h
  obtain ⟨herr, r, hr, b, hb, hd, hdrift⟩ := h
  exact ⟨s, st, hs, herr, hst, fun ht => hdrift (ht.offsets r hr b hb hd)⟩

end Clox
