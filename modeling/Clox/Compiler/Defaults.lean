import Clox.Compiler.Growth
import Clox.Compiler.SideTables

/-! # Default arguments

The code that computes the default arguments stands at the beginning of a function, in the order of
the parameters. Where a call supplies some of them, `doCallCallable` starts the function behind it,
at a word offset it adds up from the lengths the compiler recorded. The loop that adds them goes
over the parameters from the last one on, and the lengths are those before the optimizer.
-/

namespace Clox

open Layout (width before between wordsAt)

variable {ν : Type}

/-! ## The call -/

/-- `numDefaultArgsUnused` of `doCallCallable`, for a call with `argCount` arguments, without a
block instance. -/
def numDefaultArgsUnused (func : ObjFunction ν) (argCount : ℕ) : ℕ :=
  let numDefaultArgsUsed := (func.arity + func.numDefaultArgs) - argCount
  func.numDefaultArgs - numDefaultArgsUsed

/-- The loop over the parameters, from the last one to the first. -/
def skipDefaults : List Param → ℕ → ℕ → Except Abort ℕ
  | [], _, funcOffset => .ok funcOffset
  | param :: rest, unused, funcOffset =>
    match param.kind with
    | .splat | .block => skipDefaults rest unused funcOffset
    | .defaultArg =>
      match param.defaultArgIPOffset with
      | none => .error .nullDeref
      | some offset =>
        if unused - 1 = 0 then .ok (funcOffset + offset)
        else skipDefaults rest (unused - 1) (funcOffset + offset)
    -- default args should be last args, not including splat or block arg
    | .regular | .kwarg => .error .assertFailed

/-- `funcOffset` of `doCallCallable`: the word of the chunk at which the function is started. -/
def funcOffset (func : ObjFunction ν) (argCount : ℕ) : Except Abort ℕ :=
  let unused := numDefaultArgsUnused func argCount
  if 0 < unused then skipDefaults func.params.reverse unused 0 else .ok 0

/-! ## What the loop adds up -/

/-- The recorded length, of a default argument. -/
def Param.skip (p : Param) : Option ℕ :=
  if p.kind = .defaultArg then p.defaultArgIPOffset else none

/-- The loop goes on behind the parameter. -/
def Param.Passable (p : Param) : Prop := p.kind = .splat ∨ p.kind = .block ∨ p.skip.isSome

theorem Param.skip_of_ne {p : Param} (h : p.kind ≠ .defaultArg) : p.skip = none := if_neg h

/-- The loop has gone past `post`, in which it met `unused` default arguments. -/
def Walk (rev : List Param) (unused sum : ℕ) : Prop :=
  ∃ post pre, rev = post ++ pre ∧ (∀ p ∈ post, p.Passable) ∧
    (post.filterMap Param.skip).length = unused ∧ (post.filterMap Param.skip).sum = sum

section Walk

variable {p : Param} {rest : List Param} {unused sum offset : ℕ}

theorem walk_zero_iff {rev : List Param} : Walk rev 0 sum ↔ sum = 0 := by
  constructor
  · rintro ⟨post, pre, -, -, hlen, rfl⟩
    rw [List.length_eq_zero_iff.mp hlen]
    rfl
  · rintro rfl
    exact ⟨[], rev, rfl, by simp, rfl, rfl⟩

theorem walk_cons_of_none (hskip : p.skip = none) (hpos : 0 < unused) :
    Walk (p :: rest) unused sum ↔ (p.kind = .splat ∨ p.kind = .block) ∧ Walk rest unused sum := by
  constructor
  · rintro ⟨post, pre, hsplit, hpass, hlen, hsum⟩
    cases post with
    | nil =>
      rw [← hlen] at hpos
      exact absurd hpos (Nat.lt_irrefl 0)
    | cons q post =>
      rw [List.cons_append, List.cons.injEq] at hsplit
      rcases hsplit with ⟨rfl, hrest⟩
      rw [List.filterMap_cons_none hskip] at hlen hsum
      have hp := hpass p List.mem_cons_self
      rw [Param.Passable, hskip] at hp
      refine ⟨by simpa using hp, post, pre, hrest, fun q hq => ?_, hlen, hsum⟩
      exact hpass q (List.mem_cons_of_mem _ hq)
  · rintro ⟨hkind, post, pre, hrest, hpass, hlen, hsum⟩
    refine ⟨p :: post, pre, by rw [hrest]; rfl, ?_, ?_, ?_⟩
    · refine List.forall_mem_cons.mpr ⟨?_, hpass⟩
      rcases hkind with hkind | hkind
      · exact .inl hkind
      · exact .inr (.inl hkind)
    · rwa [List.filterMap_cons_none hskip]
    · rwa [List.filterMap_cons_none hskip]

theorem walk_cons_of_some (hskip : p.skip = some offset) :
    Walk (p :: rest) (unused + 1) sum ↔ ∃ more, sum = offset + more ∧ Walk rest unused more := by
  constructor
  · rintro ⟨post, pre, hsplit, hpass, hlen, hsum⟩
    cases post with
    | nil => cases hlen
    | cons q post =>
      rw [List.cons_append, List.cons.injEq] at hsplit
      rcases hsplit with ⟨rfl, hrest⟩
      rw [List.filterMap_cons_some hskip] at hlen hsum
      refine ⟨_, hsum.symm, post, pre, hrest, fun q hq => ?_, Nat.succ.inj hlen, rfl⟩
      exact hpass q (List.mem_cons_of_mem _ hq)
  · rintro ⟨more, rfl, post, pre, hrest, hpass, hlen, hsum⟩
    refine ⟨p :: post, pre, by rw [hrest]; rfl, ?_, ?_, ?_⟩
    · refine List.forall_mem_cons.mpr ⟨?_, hpass⟩
      exact .inr (.inr (by rw [hskip]; rfl))
    · rw [List.filterMap_cons_some hskip, List.length_cons, hlen]
    · rw [List.filterMap_cons_some hskip, List.sum_cons, hsum]

/-- Where there are enough default arguments, the loop ends if it goes past enough of them. -/
theorem skipDefaults_eq_ok_iff {rev : List Param} {off e : ℕ} (hpos : 0 < unused)
    (hle : unused ≤ (rev.filterMap Param.skip).length) :
    skipDefaults rev unused off = .ok e ↔ ∃ sum, e = off + sum ∧ Walk rev unused sum := by
  induction rev generalizing unused off with
  | nil =>
    have hzero : unused = 0 := Nat.le_zero.mp hle
    omega
  | cons p rest ih =>
    have hother : p.kind ≠ .defaultArg → unused ≤ (rest.filterMap Param.skip).length ∧
        ∀ sum, Walk (p :: rest) unused sum ↔
          (p.kind = .splat ∨ p.kind = .block) ∧ Walk rest unused sum := by
      intro hne
      have hskip := Param.skip_of_ne hne
      rw [List.filterMap_cons_none hskip] at hle
      exact ⟨hle, fun sum => walk_cons_of_none hskip hpos⟩
    have hpass : p.kind = .splat ∨ p.kind = .block → (skipDefaults rest unused off = .ok e ↔
        ∃ sum, e = off + sum ∧ Walk (p :: rest) unused sum) := by
      intro hkind
      have hne : p.kind ≠ .defaultArg := by
        rcases hkind with h | h <;> rw [h] <;> decide
      simp only [(hother hne).2, hkind, true_and]
      exact ih hpos (hother hne).1
    have hstop : p.kind ≠ .defaultArg → ¬ (p.kind = .splat ∨ p.kind = .block) →
        ((Except.error Abort.assertFailed : Except Abort ℕ) = .ok e ↔
          ∃ sum, e = off + sum ∧ Walk (p :: rest) unused sum) := by
      intro hne hnot
      simp only [(hother hne).2, hnot, false_and, and_false, exists_false, reduceCtorEq]
    unfold skipDefaults
    cases hkind : p.kind with
    | splat => exact hpass (.inl hkind)
    | block => exact hpass (.inr hkind)
    | regular => exact hstop (by rw [hkind]; decide) (by rw [hkind]; decide)
    | kwarg => exact hstop (by rw [hkind]; decide) (by rw [hkind]; decide)
    | defaultArg =>
      have hskip : p.skip = p.defaultArgIPOffset := if_pos hkind
      cases hoffset : p.defaultArgIPOffset with
      | none =>
        rw [hoffset] at hskip
        simp only [walk_cons_of_none hskip hpos, hkind, reduceCtorEq, or_self, false_and, and_false,
          exists_false]
      | some offset =>
        rw [hoffset] at hskip
        rw [List.filterMap_cons_some hskip, List.length_cons] at hle
        obtain ⟨unused, rfl⟩ := Nat.exists_eq_add_of_le' (Nat.succ_le_of_lt hpos)
        simp only [walk_cons_of_some hskip, Nat.add_sub_cancel]
        by_cases hlast : unused = 0
        · subst hlast
          simp only [if_pos, walk_zero_iff, Except.ok.injEq]
          constructor
          · rintro rfl
            exact ⟨offset, rfl, 0, rfl, rfl⟩
          · rintro ⟨_, rfl, _, rfl, rfl⟩
            rfl
        · rw [if_neg hlast, ih (Nat.pos_of_ne_zero hlast) (by omega)]
          constructor
          · rintro ⟨sum, rfl, hwalk⟩
            exact ⟨offset + sum, by omega, sum, rfl, hwalk⟩
          · rintro ⟨_, rfl, more, rfl, hwalk⟩
            exact ⟨more, by omega, hwalk⟩

end Walk

/-! ## Where the function is started -/

/-- The position of the instruction `b`, or the end. -/
def positionOf (l : List Insn) (b : ℕ) : Option Addr := l[b]?.map (·.addr)

/-- In `seq`, which is left of `seq₀`, the word `e` is behind everything that is left of the first
`b` instructions, and in front of what is left of the others. -/
def StartsAt (seq₀ seq : Iseq ν) (b e : ℕ) : Prop :=
  ∃ l₁ l₂, seq.insns = l₁ ++ l₂ ∧ width Insn.size l₁ = e ∧
    (∀ i ∈ l₁, i.addr ∈ (seq₀.insns.take b).map (·.addr)) ∧
    ∀ i ∈ l₂, i.addr ∈ (seq₀.insns.drop b).map (·.addr)

section Start

variable {seq₀ seq : Iseq ν} {b e : ℕ}

theorem before_positionOf (hb : b ≤ seq₀.insns.length) {a : Addr}
    (ha : a ∈ seq₀.insns.map (·.addr)) :
    before (·.addr) seq₀.insns (positionOf seq₀.insns b) a = true ↔
      a ∈ (seq₀.insns.take b).map (·.addr) := by
  have hfirst : a ∈ (seq₀.insns.take b).map (·.addr) ↔
      Layout.index (·.addr) seq₀.insns a < b := by
    rw [List.map_take, Layout.index, List.mem_take_iff_idxOf_lt ha]
  rw [hfirst]
  rcases Nat.lt_or_ge b seq₀.insns.length with hlt | hge
  · have hpos : positionOf seq₀.insns b = some (seq₀.insns[b]).addr := by
      rw [positionOf, List.getElem?_eq_getElem hlt]
      rfl
    rw [hpos, before, decide_eq_true_eq, Layout.index_key_getElem seq₀.nodup hlt]
  · obtain rfl : b = seq₀.insns.length := Nat.le_antisymm hb hge
    have hpos : positionOf seq₀.insns seq₀.insns.length = none := by
      rw [positionOf, List.getElem?_eq_none (Nat.le_refl _)]
      rfl
    rw [hpos, before, decide_eq_true_eq]
    exact ⟨fun _ => Layout.index_lt_length ha, fun _ => ha⟩

/-- The word is the width of what is left of the first instructions. -/
theorem startsAt_iff (hkeys : (seq.insns.map (·.addr)).Sublist (seq₀.insns.map (·.addr)))
    (hb : b ≤ seq₀.insns.length) :
    StartsAt seq₀ seq b e ↔
      wordsAt (·.addr) Insn.size (before (·.addr) seq₀.insns (positionOf seq₀.insns b)) seq.insns =
        e := by
  have hmem : ∀ i ∈ seq.insns, i.addr ∈ seq₀.insns.map (·.addr) := fun i hi =>
    hkeys.subset (List.mem_map_of_mem hi)
  have hdisjoint : List.Disjoint ((seq₀.insns.take b).map (·.addr))
      ((seq₀.insns.drop b).map (·.addr)) := by
    rw [List.map_take, List.map_drop]
    exact List.disjoint_take_drop seq₀.nodup (Nat.le_refl b)
  have hwidth : ∀ l₁ l₂, seq.insns = l₁ ++ l₂ →
      (∀ i ∈ l₁, i.addr ∈ (seq₀.insns.take b).map (·.addr)) →
      (∀ i ∈ l₂, i.addr ∈ (seq₀.insns.drop b).map (·.addr)) →
      wordsAt (·.addr) Insn.size (before (·.addr) seq₀.insns (positionOf seq₀.insns b)) seq.insns =
        width Insn.size l₁ := by
    intro l₁ l₂ hsplit h₁ h₂
    rw [hsplit] at hmem
    have hall : l₁.filter (fun i => before (·.addr) seq₀.insns (positionOf seq₀.insns b) i.addr) =
        l₁ := by
      refine List.filter_eq_self.mpr fun i hi => ?_
      exact (before_positionOf hb (hmem i (List.mem_append_left _ hi))).mpr (h₁ i hi)
    have hnone : l₂.filter (fun i => before (·.addr) seq₀.insns (positionOf seq₀.insns b) i.addr) =
        [] := by
      refine List.filter_eq_nil_iff.mpr fun i hi hbefore => ?_
      rw [before_positionOf hb (hmem i (List.mem_append_right _ hi))] at hbefore
      exact hdisjoint hbefore (h₂ i hi)
    rw [wordsAt, hsplit, List.filter_append, hall, hnone, List.append_nil]
  constructor
  · rintro ⟨l₁, l₂, hsplit, rfl, h₁, h₂⟩
    exact hwidth l₁ l₂ hsplit h₁ h₂
  · rintro rfl
    -- what is left of a list is what is left of its two parts
    have hparts : (seq.insns.map (·.addr)).Sublist ((seq₀.insns.take b).map (·.addr) ++
        (seq₀.insns.drop b).map (·.addr)) := by
      rw [← List.map_append, List.take_append_drop]
      exact hkeys
    rcases List.sublist_append_iff.mp hparts with ⟨k₁, k₂, hk, hk₁, hk₂⟩
    rcases List.map_eq_append_iff.mp hk with ⟨l₁, l₂, hsplit, rfl, rfl⟩
    have h₁ : ∀ i ∈ l₁, i.addr ∈ (seq₀.insns.take b).map (·.addr) := fun i hi =>
      hk₁.subset (List.mem_map_of_mem hi)
    have h₂ : ∀ i ∈ l₂, i.addr ∈ (seq₀.insns.drop b).map (·.addr) := fun i hi =>
      hk₂.subset (List.mem_map_of_mem hi)
    exact ⟨l₁, l₂, hsplit, (hwidth l₁ l₂ hsplit h₁ h₂).symm, h₁, h₂⟩

/-- In the optimized code, the word is that of the emitted code and the words the optimizer added
in front of it. -/
theorem Rewrites.startsAt_iff {st : OptState ν} (h : Rewrites seq₀ st)
    (hb : b ≤ seq₀.insns.length) :
    StartsAt seq₀ st.seq b e ↔ (e : ℤ) = width Insn.size (seq₀.insns.take b) +
      netChange seq₀.insns (codeStart seq₀.insns) (positionOf seq₀.insns b) st.edits := by
  have hbetween : ∀ a ∈ seq₀.insns.map (·.addr),
      between (·.addr) seq₀.insns (codeStart seq₀.insns) (positionOf seq₀.insns b) a =
        before (·.addr) seq₀.insns (positionOf seq₀.insns b) a := by
    intro a ha
    have hstart : before (·.addr) seq₀.insns (codeStart seq₀.insns) a = false := by
      rw [codeStart]
      cases hl : seq₀.insns with
      | nil =>
        rw [hl] at ha
        cases ha
      | cons i l =>
        rw [List.head?_cons, Option.map_some, before, decide_eq_false_iff_not,
          Layout.index_cons_self]
        exact Nat.not_lt_zero _
    rw [between, hstart, Bool.not_false, Bool.and_true]
  have hwords := h.wordsAt_between (codeStart seq₀.insns) (positionOf seq₀.insns b)
  have hcongr : ∀ l : List Insn, (∀ c ∈ l, c.addr ∈ seq₀.insns.map (·.addr)) →
      wordsAt (·.addr) Insn.size
          (between (·.addr) seq₀.insns (codeStart seq₀.insns) (positionOf seq₀.insns b)) l =
        wordsAt (·.addr) Insn.size (before (·.addr) seq₀.insns (positionOf seq₀.insns b)) l :=
    fun l hl => Layout.wordsAt_congr fun c hc => hbetween c.addr (hl c hc)
  rw [hcongr _ fun c hc => h.keys.subset (List.mem_map_of_mem hc),
    hcongr _ fun c hc => List.mem_map_of_mem hc] at hwords
  have hfirst : wordsAt (·.addr) Insn.size
      (before (·.addr) seq₀.insns (positionOf seq₀.insns b)) seq₀.insns =
        width Insn.size (seq₀.insns.take b) := by
    refine (Clox.startsAt_iff (List.Sublist.refl _) hb).mp
      ⟨_, _, (List.take_append_drop b _).symm, rfl, ?_, ?_⟩
    · exact fun i hi => List.mem_map_of_mem hi
    · exact fun i hi => List.mem_map_of_mem hi
  rw [Clox.startsAt_iff h.keys hb, ← hfirst]
  omega

end Start

/-! ## What the compiler records -/

namespace Emit

variable [LoxNum ν]

/-- `emitParams`, with the numbers of the instructions at which the default arguments begin, and the
one behind the last of them. -/
def defaultBounds (flipped : Bool) (numParams : ℕ) : List Node → Emit ν (List ℕ)
  | [] => return [(← currentIseq).insns.length]
  | .param .defaultArg name [default] :: rest => do
    let bound := (← currentIseq).insns.length
    emitDefaultArg name (emitNode flipped default)
    return bound :: (← defaultBounds flipped numParams rest)
  | param :: rest => do
    emitParams flipped numParams [param]
    defaultBounds flipped numParams rest

theorem emitParams_cons (flipped : Bool) (numParams : ℕ) (param : Node) (rest : List Node) :
    (emitParams flipped numParams (param :: rest) : Emit ν Unit) = (do
      emitParams flipped numParams [param]
      emitParams flipped numParams rest) := by
  cases param with
  | param kind name children =>
    cases kind with
    | defaultArg =>
      rcases children with _ | ⟨default, _ | ⟨x, more⟩⟩ <;> simp [emitParams]
    | _ => simp [emitParams]
  | _ => rfl

theorem emitParams_eq (flipped : Bool) (numParams : ℕ) (params : List Node) :
    (emitParams flipped numParams params : Emit ν Unit) =
      (fun _ => ()) <$> defaultBounds flipped numParams params := by
  have hother : ∀ param rest, (emitParams flipped numParams rest : Emit ν Unit) =
      (fun _ => ()) <$> defaultBounds flipped numParams rest →
      (emitParams flipped numParams (param :: rest) : Emit ν Unit) = (fun _ => ()) <$> (do
        emitParams flipped numParams [param]
        defaultBounds flipped numParams rest) := by
    intro param rest ih
    rw [emitParams_cons, ih, map_bind]
  fun_induction defaultBounds (ν := ν) flipped numParams params with
  | case1 => rfl
  | case2 name default rest ih =>
    rw [emitParams_cons, ih]
    funext s
    simp only [emitParams, map_bind, bind_assoc, pure_bind, map_pure]
    rfl
  | case3 param rest hparam ih => exact hother param rest ih

end Emit

open CompState Emit

section Recorded

variable {s s' : CompState ν} {d : ℕ}

/-- The instructions that were there are as wide as they were. -/
theorem width_take_of_outlines {l l' : List Insn}
    (h : l.map Insn.outline <+: l'.map Insn.outline) {b : ℕ} (hb : b ≤ l.length) :
    width Insn.size (l'.take b) = width Insn.size (l.take b) := by
  apply width_eq_of_outlines
  rw [List.map_take, List.map_take]
  rcases h with ⟨more, hmore⟩
  rw [← hmore, List.take_append_of_le_length (by rwa [List.length_map])]

theorem length_le_of_outlines {l l' : List Insn}
    (h : l.map Insn.outline <+: l'.map Insn.outline) : l.length ≤ l'.length := by
  have := h.length_le
  rwa [List.length_map, List.length_map] at this

theorem addrs_of_outlines (l : List Insn) : l.map (·.addr) = (l.map Insn.outline).map Prod.fst := by
  rw [List.map_map]
  rfl

/-- From the last instruction of a sequence to the last one of the sequence after it. -/
theorem iseqInsnWordDiff_eq {seq seq' : Iseq ν} {last : Insn}
    (hpre : seq.insns.map Insn.outline <+: seq'.insns.map Insn.outline)
    (hlt : seq.insns.length < seq'.insns.length) (hlast : seq'.tail = some last) :
    width Insn.size seq'.insns =
      width Insn.size seq.insns + seq'.iseqInsnWordDiff (seq.tail.map (·.addr)) last.addr := by
  obtain ⟨n, hn⟩ : ∃ n, seq'.insns.length = n + 1 :=
    Nat.exists_eq_succ_of_ne_zero (Nat.ne_of_gt (Nat.zero_lt_of_lt hlt))
  have hlast' : seq'.insns[n]? = some last := by
    rw [Iseq.tail, List.getLast?_eq_getElem?, hn, Nat.add_sub_cancel] at hlast
    exact hlast
  obtain ⟨hnlt, hget⟩ := List.getElem?_eq_some_iff.mp hlast'
  have hindex : Layout.index (·.addr) seq'.insns last.addr = n := by
    rw [← hget]
    exact Layout.index_key_getElem seq'.nodup hnlt
  have hall : seq'.insns.take (n + 1) = seq'.insns := by
    rw [← hn, List.take_length]
  have hwidth : width Insn.size seq'.insns =
      width Insn.size seq.insns + width Insn.size (seq'.insns.drop seq.insns.length) := by
    have hsplit := congrArg (width Insn.size) (List.take_append_drop seq.insns.length seq'.insns)
    have hfirst := width_take_of_outlines hpre (Nat.le_refl _)
    rw [List.take_length] at hfirst
    rw [Layout.width_append] at hsplit
    omega
  rw [hwidth, Iseq.iseqInsnWordDiff, hindex, hall]
  cases hbefore : seq.insns.length with
  | zero =>
    have hnil : seq.tail = none := by
      rw [Iseq.tail, List.length_eq_zero_iff.mp hbefore]
      rfl
    rw [hnil, Option.map_none, if_neg (by simp)]
    rfl
  | succ m =>
    -- the last instruction of the shorter sequence is instruction `m` of the longer one
    have hm : m < seq'.insns.length := by omega
    have htail : seq.tail.map (·.addr) = some (seq'.insns[m]).addr := by
      have hpre' : (seq.insns.map (·.addr)) <+: (seq'.insns.map (·.addr)) := by
        rw [addrs_of_outlines, addrs_of_outlines]
        exact hpre.map _
      rw [Iseq.tail, ← List.getLast?_map, List.getLast?_eq_getElem?, List.length_map, hbefore,
        Nat.add_sub_cancel]
      have hmlt : m < (seq.insns.map (·.addr)).length := by rw [List.length_map]; omega
      rw [List.getElem?_eq_getElem hmlt, hpre'.getElem hmlt, List.getElem_map]
    have hindex' : Layout.index (·.addr) seq'.insns (seq'.insns[m]).addr = m :=
      Layout.index_key_getElem seq'.nodup hm
    have hne : some (seq'.insns[m]).addr ≠ some last.addr := by
      intro heq
      have := congrArg (Layout.index (·.addr) seq'.insns) (Option.some.inj heq)
      omega
    rw [htail, if_neg hne]
    simp only [hindex']

theorem error_built {msg : String} {u : Unit} (h : Emit.error msg s = .ok (u, s')) :
    s'.built = s.built := by
  cases h
  simp only [built, Moves.markTop_kept]

theorem addLocal_built {name : String} {slot : Option ℕ} (h : Emit.addLocal name s = .ok (slot, s')) :
    s'.built = s.built := by
  rcases bind_eq_ok h with ⟨s₀, s₁, hget, h₁⟩
  cases hget
  split at h₁
  · rcases bind_eq_ok h₁ with ⟨_, s₂, herror, h₂⟩
    cases h₂
    exact error_built herror
  · cases h₁
    rfl

/-- Inside a scope, a parameter is declared without an instruction. -/
theorem declareParam_built {name : String} {slot : ℕ} (hd : s.current.scopeDepth = d + 1)
    (h : Emit.declareParam name s = .ok (slot, s')) : s'.built = s.built := by
  have hvariable : ∀ {slot : Option ℕ} {t : CompState ν},
      Emit.declareVariable name s = .ok (slot, t) → t.built = s.built := by
    intro slot t h
    rcases bind_eq_ok h with ⟨s₀, s₁, hget, h₁⟩
    cases hget
    rw [if_neg (by rw [hd]; exact Nat.succ_ne_zero d)] at h₁
    split at h₁
    · rcases bind_eq_ok h₁ with ⟨_, s₂, herror, h₂⟩
      cases h₂
      exact error_built herror
    · rcases bind_eq_ok h₁ with ⟨index, s₂, hadd, h₂⟩
      have hbuilt := addLocal_built hadd
      cases index <;> cases h₂ <;> exact hbuilt
  rcases bind_eq_ok h with ⟨declared, s₁, hdeclare, h₁⟩
  have hbuilt := hvariable hdeclare
  have hdepth := (Moves.declareVariable _ _ _ _ hdeclare hd).2
  rcases bind_eq_ok h₁ with ⟨_, s₂, hdefine, h₂⟩
  cases h₂
  rcases bind_eq_ok hdefine with ⟨s₀, s₃, hget, h₃⟩
  cases hget
  rw [if_neg (by rw [hdepth]; exact Nat.succ_ne_zero d)] at h₃
  cases h₃
  exact hbuilt

/-- The parameters of the function, and how many of them have defaults. -/
def CompState.parameters (s : CompState ν) : List Param × ℕ :=
  (s.current.function.params, s.current.function.numDefaultArgs)

theorem CompState.Grows.parameters (h : Grows s s') : s'.parameters = s.parameters := by
  have hsig := h.signature
  rw [CompState.parameters, CompState.parameters]
  exact Prod.ext (congrArg (·.params) hsig) (congrArg (·.numDefaultArgs) hsig)

/-- Required parameters have no code. -/
theorem declareRegularParams_spec {params : List Node} {u : Unit}
    (hd : s.current.scopeDepth = d + 1)
    (h : Emit.declareRegularParams params s = .ok (u, s')) :
    s'.parameters = s.parameters ∧
      s'.current.iseq.insns.map Insn.outline = s.current.iseq.insns.map Insn.outline := by
  fun_induction Emit.declareRegularParams (ν := ν) params generalizing s with
  | case1 =>
    cases h
    exact ⟨rfl, rfl⟩
  | case2 name children rest ih =>
    rcases bind_eq_ok h with ⟨slot, s₁, hparam, h₁⟩
    rcases bind_eq_ok h₁ with ⟨_, s₂, harity, h₂⟩
    have hbuilt := declareParam_built hd hparam
    rcases Moves.declareParam _ _ _ _ hparam hd with ⟨hgrows, hdepth⟩
    cases harity
    have hrest := ih (by exact hdepth) h₂
    exact ⟨hrest.1.trans hgrows.parameters, hrest.2.trans (congrArg Prod.fst hbuilt)⟩
  | case3 param rest hparam ih => exact ih hd h

/-- A default argument: its code is appended, and its width recorded. -/
theorem emitDefaultArg_spec [LoxNum ν] {name : String} {emitDefault : Emit ν Unit} {u : Unit}
    (hd : s.current.scopeDepth = d + 1) (hdefault : Moves Grows (d + 1) (d + 1) emitDefault)
    (h : Emit.emitDefaultArg name emitDefault s = .ok (u, s')) :
    ∃ len, s'.parameters = (s.current.function.params ++
        [{ kind := .defaultArg, name, defaultArgIPOffset := some len }],
        s.current.function.numDefaultArgs + 1) ∧
      width Insn.size s'.current.iseq.insns = width Insn.size s.current.iseq.insns + len := by
  rcases bind_eq_ok h with ⟨slot, s₁, hparam, h₁⟩
  have hbuilt := declareParam_built hd hparam
  rcases bind_eq_ok h₁ with ⟨_, s₂, hcount, h₂⟩
  cases hcount
  rcases bind_eq_ok h₂ with ⟨seq, s₃, hseq, h₃⟩
  cases hseq
  rcases bind_eq_ok h₃ with ⟨_, s₄, hemit, h₄⟩
  rcases bind_eq_ok h₄ with ⟨idx, s₅, hname, h₅⟩
  rcases bind_eq_ok h₅ with ⟨_, s₆, hset, h₆⟩
  rcases bind_eq_ok h₆ with ⟨_, s₇, hpop, h₇⟩
  rcases bind_eq_ok h₇ with ⟨seq, s₈, hseq, h₈⟩
  cases hseq
  rcases bind_eq_ok h₈ with ⟨insnAfter, s₉, hderef, h₉⟩
  rcases deref_eq_ok hderef with ⟨htail, rfl⟩
  cases h₉
  rcases Moves.declareParam _ _ _ _ hparam hd with ⟨hdeclared, hdepth⟩
  have h₁₄ := hdefault _ _ _ hemit hdepth
  have h₄₅ := Moves.identifierConstant name _ _ _ hname h₁₄.2
  have h₅₆ := Moves.emitOp _ _ _ _ _ hset h₄₅.2
  have h₆₇ := Moves.emitOp _ _ _ _ _ hpop h₅₆.2
  have hgrows := ((h₁₄.1.trans h₄₅.1).trans h₅₆.1).trans h₆₇.1
  have hmore : s₁.current.iseq.insns.length < s₉.current.iseq.insns.length := by
    have hlast : s₉.current.iseq.insns.length = s₆.current.iseq.insns.length + 1 := by
      cases hpop
      exact List.length_append
    have hfirst := length_le_of_outlines ((h₁₄.1.trans h₄₅.1).trans h₅₆.1).outlines
    change s₁.current.iseq.insns.length ≤ _ at hfirst
    omega
  simp only [built, Prod.mk.injEq] at hbuilt
  have hkept := hgrows.parameters
  have hbefore := hdeclared.parameters
  refine ⟨s₉.current.iseq.iseqInsnWordDiff (s₁.current.iseq.tail.map (·.addr)) insnAfter.addr, ?_, ?_⟩
  · simp only [CompState.parameters, Prod.mk.injEq] at hkept hbefore ⊢
    rw [hkept.1, hkept.2, hbefore.1, hbefore.2]
    exact ⟨rfl, rfl⟩
  · rw [← width_eq_of_outlines hbuilt.1]
    exact iseqInsnWordDiff_eq hgrows.outlines hmore htail

theorem emitOtherParam_spec {kind : ParamKind} {name : String} {u : Unit}
    (hd : s.current.scopeDepth = d + 1) (h : Emit.emitOtherParam kind name s = .ok (u, s')) :
    s'.parameters = (s.current.function.params ++ [({ kind, name } : Param)],
        s.current.function.numDefaultArgs) ∧
      width Insn.size s'.current.iseq.insns = width Insn.size s.current.iseq.insns := by
  have hdeclared : ∀ {slot : ℕ} {t : CompState ν}, Emit.declareParam name s = .ok (slot, t) →
      t.parameters = s.parameters ∧
        width Insn.size t.current.iseq.insns = width Insn.size s.current.iseq.insns := by
    intro slot t hparam
    have hbuilt := declareParam_built hd hparam
    refine ⟨(Moves.declareParam _ _ _ _ hparam hd).1.parameters, width_eq_of_outlines ?_⟩
    exact congrArg Prod.fst hbuilt
  unfold Emit.emitOtherParam at h
  split at h
  · rcases bind_eq_ok h with ⟨slot, s₁, hparam, h₁⟩
    rcases hdeclared hparam with ⟨hparams, hwidth⟩
    simp only [CompState.parameters, Prod.mk.injEq] at hparams
    cases h₁
    exact ⟨Prod.ext (congrArg (· ++ [_]) hparams.1) hparams.2, hwidth⟩
  · split at h
    · rcases bind_eq_ok h with ⟨slot, s₁, hparam, h₁⟩
      rcases hdeclared hparam with ⟨hparams, hwidth⟩
      simp only [CompState.parameters, Prod.mk.injEq] at hparams
      cases h₁
      exact ⟨Prod.ext (congrArg (· ++ [_]) hparams.1) hparams.2, hwidth⟩
    · cases h
      exact ⟨rfl, rfl⟩

/-- From `s` to `s'` the parameters `ps` were added, and the default arguments among them begin
where `bounds` says. -/
structure Recorded (s s' : CompState ν) (ps : List Param) (bounds : List ℕ) : Prop where
  parameters : s'.parameters = (s.current.function.params ++ ps,
    s.current.function.numDefaultArgs + (ps.filterMap Param.skip).length)
  length : bounds.length = (ps.filterMap Param.skip).length + 1
  widths : ∀ k b, bounds[k]? = some b → b ≤ s'.current.iseq.insns.length ∧
    width Insn.size (s'.current.iseq.insns.take b) =
      width Insn.size s.current.iseq.insns + ((ps.filterMap Param.skip).take k).sum

/-- A parameter without a code of its own. -/
theorem Recorded.other {s₁ : CompState ν} {p : Param} {ps : List Param} {bounds : List ℕ}
    (hparams : s₁.parameters =
      (s.current.function.params ++ [p], s.current.function.numDefaultArgs))
    (hskip : p.skip = none)
    (hwidth : width Insn.size s₁.current.iseq.insns = width Insn.size s.current.iseq.insns)
    (h : Recorded s₁ s' ps bounds) : Recorded s s' (p :: ps) bounds := by
  simp only [CompState.parameters, Prod.mk.injEq] at hparams
  have hps : (p :: ps).filterMap Param.skip = ps.filterMap Param.skip :=
    List.filterMap_cons_none hskip
  refine ⟨?_, by rw [hps]; exact h.length, fun k b hb => ?_⟩
  · rw [h.parameters, hps, hparams.1, hparams.2, List.append_assoc]
    rfl
  · rw [hps, ← hwidth]
    exact h.widths k b hb

/-- A default argument, which begins where the instructions before it end. -/
theorem Recorded.default {s₁ : CompState ν} {name : String} {len : ℕ} {ps : List Param}
    {bounds : List ℕ}
    (hparams : s₁.parameters = (s.current.function.params ++
      [{ kind := .defaultArg, name, defaultArgIPOffset := some len }],
      s.current.function.numDefaultArgs + 1))
    (hwidth : width Insn.size s₁.current.iseq.insns = width Insn.size s.current.iseq.insns + len)
    (hpre : s.current.iseq.insns.map Insn.outline <+: s'.current.iseq.insns.map Insn.outline)
    (h : Recorded s₁ s' ps bounds) :
    Recorded s s' ({ kind := .defaultArg, name, defaultArgIPOffset := some len } :: ps)
      (s.current.iseq.insns.length :: bounds) := by
  simp only [CompState.parameters, Prod.mk.injEq] at hparams
  have hps : (({ kind := .defaultArg, name, defaultArgIPOffset := some len } : Param) ::
      ps).filterMap Param.skip = len :: ps.filterMap Param.skip :=
    List.filterMap_cons_some rfl
  refine ⟨?_, ?_, fun k b hb => ?_⟩
  · rw [h.parameters, hps, hparams.1, hparams.2, List.append_assoc, List.length_cons]
    refine Prod.ext rfl ?_
    show _ + 1 + _ = _ + (_ + 1)
    omega
  · rw [hps, List.length_cons, List.length_cons, h.length]
  · rw [hps]
    cases k with
    | zero =>
      cases hb
      have htake := width_take_of_outlines hpre (Nat.le_refl _)
      rw [List.take_length] at htake
      exact ⟨length_le_of_outlines hpre, htake⟩
    | succ k =>
      have hrest := h.widths k b hb
      refine ⟨hrest.1, ?_⟩
      rw [hrest.2, hwidth, List.take_succ_cons, List.sum_cons, Nat.add_assoc]

theorem defaultBounds_spec [LoxNum ν] {flipped : Bool} {numParams : ℕ} {params : List Node}
    {bounds : List ℕ} (hkwarg : params.any isKwargParam = false)
    (hd : s.current.scopeDepth = d + 1)
    (h : Emit.defaultBounds flipped numParams params s = .ok (bounds, s')) :
    Inside s s' ∧ s'.current.scopeDepth = d + 1 ∧ ∃ ps, Recorded s s' ps bounds := by
  induction params generalizing s bounds with
  | nil =>
    cases h
    refine ⟨Inside.refl _, hd, [], by simp [CompState.parameters], rfl, fun k b hb => ?_⟩
    cases k with
    | zero =>
      cases hb
      exact ⟨Nat.le_refl _, by rw [List.take_length]; rfl⟩
    | succ k => cases hb
  | cons param rest ih =>
    rw [List.any_cons, Bool.or_eq_false_iff] at hkwarg
    have hother : ∀ {kind : ParamKind} {name : String}, (do
          Emit.emitOtherParam kind name
          Emit.emitParams flipped numParams []
          Emit.defaultBounds flipped numParams rest) s = .ok (bounds, s') →
        ({ kind, name } : Param).skip = none →
        Inside s s' ∧ s'.current.scopeDepth = d + 1 ∧ ∃ ps, Recorded s s' ps bounds := by
      intro kind name h hskip
      rcases bind_eq_ok h with ⟨_, s₁, hparam, h₁⟩
      have hmoves := Moves.emitOtherParam kind name _ _ _ hparam hd
      rcases emitOtherParam_spec hd hparam with ⟨hparams, hwidth⟩
      rcases ih hkwarg.2 hmoves.2 h₁ with ⟨hinside, hdepth, ps, hrec⟩
      exact ⟨hmoves.1.trans hinside, hdepth, _, hrec.other hparams hskip hwidth⟩
    cases param with
    | param kind name children =>
      cases kind with
      | defaultArg =>
        rcases children with _ | ⟨default, _ | ⟨x, more⟩⟩
        · exact hother (by simpa [Emit.defaultBounds, Emit.emitParams] using h) rfl
        · rcases bind_eq_ok h with ⟨_, s₀, hseq, h₀⟩
          cases hseq
          rcases bind_eq_ok h₀ with ⟨_, s₁, hparam, h₁⟩
          rcases bind_eq_ok h₁ with ⟨more, s₂, hrest, h₂⟩
          cases h₂
          have hdefault := Moves.emitNode (ν := ν) flipped default (d + 1)
          have hmoves := Moves.emitDefaultArg hdefault _ _ _ hparam hd
          rcases emitDefaultArg_spec hd hdefault hparam with ⟨len, hparams, hwidth⟩
          rcases ih hkwarg.2 hmoves.2 hrest with ⟨hinside, hdepth, ps, hrec⟩
          have hall := hmoves.1.trans hinside
          exact ⟨hall, hdepth, _, hrec.default hparams hwidth hall.outlines⟩
        · exact hother (by simpa [Emit.defaultBounds, Emit.emitParams] using h) rfl
      | kwarg => exact absurd hkwarg.1 (by simp [isKwargParam])
      | regular => exact hother (by simpa [Emit.defaultBounds, Emit.emitParams] using h) rfl
      | splat => exact hother (by simpa [Emit.defaultBounds, Emit.emitParams] using h) rfl
      | block => exact hother (by simpa [Emit.defaultBounds, Emit.emitParams] using h) rfl
    | _ => cases h

end Recorded

/-! ## The function that is called -/

/-- The last `k` default arguments stand behind the required parameters, and their lengths, as they
were recorded, add up to those of the first `k`, together with the words by which the optimizer
changed the code of these. -/
def SkipsAgree (params : List Param) (k : ℕ) (change : ℤ) : Prop :=
  ∃ sum, Walk params.reverse k sum ∧ (sum : ℤ) = ((params.filterMap Param.skip).take k).sum + change

theorem funcOffset_eq_ok_iff {func : ObjFunction ν} {k e : ℕ}
    (hnum : func.numDefaultArgs = (func.params.filterMap Param.skip).length)
    (hk : k ≤ func.numDefaultArgs) :
    funcOffset func (func.arity + k) = .ok e ↔ Walk func.params.reverse k e := by
  have hunused : numDefaultArgsUnused func (func.arity + k) = k := by
    show func.numDefaultArgs - (func.arity + func.numDefaultArgs - (func.arity + k)) = k
    omega
  unfold funcOffset
  rw [hunused]
  rcases Nat.eq_zero_or_pos k with rfl | hpos
  · rw [walk_zero_iff]
    constructor
    · intro h
      cases h
      rfl
    · rintro rfl
      rfl
  · have hle : k ≤ (func.params.reverse.filterMap Param.skip).length := by
      rw [List.filterMap_reverse, List.length_reverse, ← hnum]
      exact hk
    simp only [if_pos hpos, skipDefaults_eq_ok_iff hpos hle, Nat.zero_add, exists_eq_left']

theorem freshCompiler_function (depth : ℕ) (ftype : FunctionType) (name : Option String) :
    (freshCompiler depth ftype name : Compiler ν).function.params = [] ∧
      (freshCompiler depth ftype name : Compiler ν).function.numDefaultArgs = 0 ∧
      (freshCompiler depth ftype name : Compiler ν).iseq = {} ∧
      (freshCompiler depth ftype name : Compiler ν).scopeDepth = depth := by
  by_cases h : ftype = .topLevel
  · simp [freshCompiler, h]
  · simp [freshCompiler, h, Compiler.pushLocal]

section Called

variable [LoxNum ν]

/-- The optimizer, unless it is switched off. -/
def Iseq.optimized (opts : CompilerOpts) (seq : Iseq ν) : Except Abort (OptState ν) :=
  if opts.noOptimize then .ok { seq } else seq.optimizeIseq opts

theorem Iseq.optimized_rewrites {opts : CompilerOpts} {seq : Iseq ν} {st : OptState ν}
    (h : seq.optimized opts = .ok st) : Rewrites seq st := by
  unfold Iseq.optimized at h
  split at h
  · cases h
    exact Rewrites.init
  · rcases Except.bind_eq_ok.mp h with ⟨⟨st', cur⟩, hloop, hst⟩
    cases hst
    exact Rewrites.init.optimizeLoop _ hloop

theorem finishFunction_spec {opts : CompilerOpts} {c : Compiler ν} {func : ObjFunction ν}
    (h : finishFunction opts c = .ok func) : ∃ st, c.iseq.optimized opts = .ok st ∧
      func = { c.function with
        iseq := st.seq, code := (st.seq.insns.map Insn.words).flatten,
        localCount := c.localCountMax, upvaluesInfo := c.upvalues } := by
  rcases Except.bind_eq_ok.mp h with ⟨⟨iseq, code⟩, hcopy, hfunc⟩
  cases hfunc
  have hchunk : ∀ {seq : Iseq ν}, (if seq.insns.length = seq.count then
      Except.ok (seq, (seq.insns.map Insn.words).flatten)
      else Except.error Abort.assertFailed) = .ok (iseq, code) →
      iseq = seq ∧ code = (seq.insns.map Insn.words).flatten := by
    intro seq h
    split at h <;> cases h
    exact ⟨rfl, rfl⟩
  unfold Iseq.copyIseqToChunk at hcopy
  unfold Iseq.optimized
  by_cases hno : opts.noOptimize = true
  · simp only [hno, if_true] at hcopy ⊢
    rcases hchunk hcopy with ⟨rfl, rfl⟩
    exact ⟨_, rfl, rfl⟩
  · simp only [hno] at hcopy ⊢
    rcases Except.bind_eq_ok.mp hcopy with ⟨seq, hseq, hcode⟩
    rcases Except.map_eq_ok.mp hseq with ⟨st, hst, rfl⟩
    rcases hchunk hcode with ⟨rfl, rfl⟩
    exact ⟨st, hst, rfl⟩

/-- The code of the function with its default arguments, in the compiler that is set up for it. -/
def Emit.boundedCode (flipped : Bool) (name : String) (ftype : FunctionType) (params : List Node)
    (body : Node) : Emit ν (List ℕ) := do
  initCompiler ftype name
  functionCode ftype params (defaultBounds flipped params.length params) (emitNode flipped body)

/-- The parameters and the code of a function that has been emitted. -/
theorem boundedCode_spec {flipped : Bool} {name : String} {ftype : FunctionType}
    {params : List Node} {body : Node} {s s' : CompState ν} {bounds : List ℕ}
    (hkwarg : params.any isKwargParam = false)
    (h : Emit.boundedCode flipped name ftype params body s = .ok (bounds, s')) :
    s'.current.function.numDefaultArgs =
        (s'.current.function.params.filterMap Param.skip).length ∧
      bounds.length = s'.current.function.numDefaultArgs + 1 ∧
      ∀ k b, bounds[k]? = some b → b ≤ s'.current.iseq.insns.length ∧
        width Insn.size (s'.current.iseq.insns.take b) =
          ((s'.current.function.params.filterMap Param.skip).take k).sum := by
  rcases bind_eq_ok h with ⟨_, s₁, hinit, h₁⟩
  cases hinit
  rcases freshCompiler_function (ν := ν) s.current.scopeDepth ftype
    (functionName ftype s.currentClassOrModule name) with ⟨hps, hnum, hiseq, hdepth⟩
  rcases bind_eq_ok h₁ with ⟨_, s₂, hpush, h₂⟩
  rcases bind_eq_ok h₂ with ⟨_, s₃, hregular, h₃⟩
  rcases bind_eq_ok h₃ with ⟨bounds', s₄, hbounds, h₄⟩
  rcases bind_eq_ok h₄ with ⟨_, s₅, hrest, h₅⟩
  cases h₅
  have hm₂ := Moves.pushScope .function _ _ _ hpush hdepth
  have hm₃ := Moves.declareRegularParams params _ _ _ hregular hm₂.2
  rcases defaultBounds_spec hkwarg hm₃.2 hbounds with ⟨-, hdepth₄, ps, hrec⟩
  have hm₅ := Moves.functionRest (Moves.emitNode flipped body _) _ _ _ hrest hdepth₄
  rcases declareRegularParams_spec hm₂.2 hregular with ⟨hparams₃, houtlines₃⟩
  -- before the default arguments there is nothing
  have hstart : s₃.parameters = ([], 0) ∧ width Insn.size s₃.current.iseq.insns = 0 := by
    cases hpush
    refine ⟨hparams₃.trans (Prod.ext hps hnum), (width_eq_of_outlines houtlines₃).trans ?_⟩
    show width Insn.size (freshCompiler s.current.scopeDepth ftype _).iseq.insns = 0
    rw [hiseq]
    rfl
  simp only [CompState.parameters, Prod.mk.injEq] at hstart
  have hparams := hm₅.1.parameters.trans hrec.parameters
  rw [hstart.1.1, hstart.1.2, List.nil_append, Nat.zero_add] at hparams
  simp only [CompState.parameters, Prod.mk.injEq] at hparams
  rw [hparams.1, hparams.2]
  refine ⟨rfl, hrec.length, fun k b hb => ?_⟩
  rcases hrec.widths k b hb with ⟨hle, hwidth⟩
  refine ⟨hle.trans (length_le_of_outlines hm₅.1.outlines), ?_⟩
  rw [width_take_of_outlines hm₅.1.outlines hle, hwidth, hstart.2, Nat.zero_add]

/-- `emitFunction` compiles the code with its default arguments. -/
theorem emitFunctionCode_boundedCode {flipped : Bool} {name : String} {ftype : FunctionType}
    {params : List Node} {body : Node} {s s' : CompState ν} {id : ℕ}
    (h : Emit.emitFunctionCode name ftype params (emitParams flipped params.length params)
      (emitNode flipped body) s = .ok (id, s')) :
    ∃ bounds inner func, Emit.boundedCode flipped name ftype params body s = .ok (bounds, inner) ∧
      finishFunction s.opts inner.current = .ok func ∧ s'.functions[id]? = some func := by
  rcases Moves.emitFunctionCode_spec (Moves.emitParams flipped params.length params)
    (Moves.emitNode flipped body) h with
    ⟨inner, func, s₁, hcode, hfunc, hid, -, -, -, hclosure⟩
  rcases bind_eq_ok hcode with ⟨_, s₂, hinit, hcode⟩
  have hmap : (Emit.functionCode ftype params
      ((fun _ => ()) <$> Emit.defaultBounds flipped params.length params)
      (emitNode flipped body) : Emit ν Unit) = (do
        let _ ← Emit.functionCode ftype params (Emit.defaultBounds flipped params.length params)
          (emitNode flipped body)
        return ()) := by
    simp only [Emit.functionCode, map_eq_pure_bind, bind_assoc, pure_bind]
  rw [emitParams_eq, hmap] at hcode
  rcases bind_eq_ok hcode with ⟨bounds, s₃, hbounds, hs₃⟩
  cases hs₃
  have hgrows := (Moves.ite (R := Grows) (p := ftype ≠ .block)
    (Moves.emitClosure id inner.current.upvalues) (Moves.pure ()) _ _ _ hclosure rfl).1
  refine ⟨bounds, inner, func, ?_, hfunc, ?_⟩
  · cases hinit
    exact hbounds
  · rcases hgrows.functions with ⟨more, hmore⟩
    rw [← hmore]
    exact List.getElem?_append_left (List.getElem?_eq_some_iff.mp hid).1 ▸ hid

/-- A call that supplies the first `k` default arguments starts the function behind the code of
these, in front of that of the others, exactly if the recorded lengths of the last `k` say so. -/
theorem funcOffset_startsAt_iff {flipped : Bool} {name : String} {ftype : FunctionType}
    {params : List Node} {body : Node} {s s' : CompState ν} {id : ℕ}
    (h : Emit.emitFunctionCode name ftype params (emitParams flipped params.length params)
      (emitNode flipped body) s = .ok (id, s'))
    (hkwarg : params.any isKwargParam = false) :
    ∃ bounds inner st func,
      Emit.boundedCode flipped name ftype params body s = .ok (bounds, inner) ∧
      inner.current.iseq.optimized s.opts = .ok st ∧ s'.functions[id]? = some func ∧
      func.iseq = st.seq ∧ func.code = (st.seq.insns.map Insn.words).flatten ∧
      bounds.length = func.numDefaultArgs + 1 ∧
      ∀ k b, bounds[k]? = some b →
        ((∃ e, funcOffset func (func.arity + k) = .ok e ∧
            StartsAt inner.current.iseq func.iseq b e) ↔
          SkipsAgree func.params k (netChange inner.current.iseq.insns
            (codeStart inner.current.iseq.insns) (positionOf inner.current.iseq.insns b)
            st.edits)) := by
  rcases emitFunctionCode_boundedCode h with ⟨bounds, inner, func, hcode, hfinish, hfunc⟩
  rcases boundedCode_spec hkwarg hcode with ⟨hnum, hlen, hwidths⟩
  rcases finishFunction_spec hfinish with ⟨st, hst, rfl⟩
  refine ⟨bounds, inner, st, _, hcode, hst, hfunc, rfl, rfl, hlen, fun k b hb => ?_⟩
  rcases hwidths k b hb with ⟨hle, hwidth⟩
  have hk : k ≤ inner.current.function.numDefaultArgs := by
    have := (List.getElem?_eq_some_iff.mp hb).1
    omega
  have hstarts : ∀ e, StartsAt inner.current.iseq st.seq b e ↔ _ := fun e =>
    (Iseq.optimized_rewrites hst).startsAt_iff hle
  rw [hwidth] at hstarts
  exact exists_congr fun e => and_congr (funcOffset_eq_ok_iff hnum hk) (hstarts e)

end Called

/-- At the beginning of a program. -/
def programStart : CompState ℤ := { opts := {}, current := freshCompiler 0 .topLevel none }

/-- `(a, b = 1, c = 2)` -/
def equalDefaults : List Node :=
  [.param .regular "a" [], .param .defaultArg "b" [.literal (.number "1")],
    .param .defaultArg "c" [.literal (.number "2")]]

/-- `fun f(a, b = 1, c = 2) { print a; }`, called with one default argument. -/
theorem equalDefaults_startsAt : ∃ bounds inner func e,
    Emit.boundedCode false "f" .named equalDefaults (.print (.variable "a")) programStart =
      .ok (bounds, inner) ∧ bounds = [0, 3, 6] ∧ funcOffset func (func.arity + 1) = .ok e ∧
      StartsAt inner.current.iseq func.iseq 3 e := by
  have h : (do
      let (id, s') ← Emit.emitFunctionCode "f" .named equalDefaults
        (emitParams false equalDefaults.length equalDefaults)
        (emitNode false (.print (.variable "a"))) programStart
      let (bounds, inner) ← Emit.boundedCode false "f" .named equalDefaults
        (.print (.variable "a")) programStart
      let st ← inner.current.iseq.optimized programStart.opts
      let l := inner.current.iseq.insns
      return decide (bounds = [0, 3, 6] ∧ netChange l (codeStart l) (positionOf l 3) st.edits = 0 ∧
        s'.functions[id]?.map ObjFunction.params = some ([{ kind := .regular, name := "a" },
          { kind := .defaultArg, name := "b", defaultArgIPOffset := some 6 },
          { kind := .defaultArg, name := "c", defaultArgIPOffset := some 6 }] : List Param))) = .ok true := by
    decide +kernel
  rcases Except.bind_eq_ok.mp h with ⟨⟨id, s'⟩, hrun, h₁⟩
  rcases funcOffset_startsAt_iff hrun rfl with
    ⟨bounds, inner, st, func, hcode, hst, hfunc, -, -, -, hiff⟩
  rcases Except.bind_eq_ok.mp h₁ with ⟨⟨bounds', inner'⟩, hcode', h₂⟩
  cases hcode.symm.trans hcode'
  rcases Except.bind_eq_ok.mp h₂ with ⟨st', hst', h₃⟩
  cases hst.symm.trans hst'
  rw [Except.pure_eq_ok, decide_eq_true_eq] at h₃
  rcases h₃ with ⟨rfl, hnet, hparams⟩
  rw [hfunc, Option.map_some, Option.some.injEq] at hparams
  have hagree : SkipsAgree func.params 1 0 := by
    rw [hparams]
    refine ⟨6, ⟨[_], [_, _], rfl, ?_, rfl, rfl⟩, rfl⟩
    intro p hp
    rw [List.mem_singleton.mp hp]
    exact .inr (.inr rfl)
  rcases (hiff 1 3 rfl).mpr (hnet ▸ hagree) with ⟨e, hoffset, hstarts⟩
  exact ⟨_, inner, func, e, hcode, rfl, hoffset, hstarts⟩

/-- `(a, b = 1, c = g(2))` -/
def unequalDefaults : List Node :=
  [.param .regular "a" [], .param .defaultArg "b" [.literal (.number "1")],
    .param .defaultArg "c" [.call "g" (.variable "g") [.literal (.number "2")]]]

/-- `fun f(a, b = 1, c = g(2)) { print a; }`, called with one default argument: the length of `c` is
skipped, and not that of `b`. -/
theorem unequalDefaults_start_behind : ∃ s' id bounds inner func e,
    Emit.emitFunctionCode "f" .named unequalDefaults
        (emitParams false unequalDefaults.length unequalDefaults)
        (emitNode false (.print (.variable "a"))) programStart = .ok (id, s') ∧
      Emit.boundedCode false "f" .named unequalDefaults (.print (.variable "a")) programStart =
        .ok (bounds, inner) ∧ s'.functions[id]? = some func ∧ bounds = [0, 3, 8] ∧
      funcOffset func (func.arity + 1) = .ok e ∧ ¬ StartsAt inner.current.iseq func.iseq 3 e := by
  have h : (do
      let (id, s') ← Emit.emitFunctionCode "f" .named unequalDefaults
        (emitParams false unequalDefaults.length unequalDefaults)
        (emitNode false (.print (.variable "a"))) programStart
      let (bounds, inner) ← Emit.boundedCode false "f" .named unequalDefaults
        (.print (.variable "a")) programStart
      let func ← (s'.functions[id]?).elim (.error .nullDeref) .ok
      let e ← funcOffset func (func.arity + 1)
      let l := inner.current.iseq.insns
      return decide (bounds = [0, 3, 8] ∧
        (func.iseq.insns.map Insn.addr).Sublist (l.map Insn.addr) ∧ 3 ≤ l.length ∧
        wordsAt Insn.addr Insn.size (before Insn.addr l (positionOf l 3)) func.iseq.insns ≠ e)) =
          .ok true := by
    decide +kernel
  rcases Except.bind_eq_ok.mp h with ⟨⟨id, s'⟩, hrun, h₁⟩
  rcases Except.bind_eq_ok.mp h₁ with ⟨⟨bounds, inner⟩, hcode, h₂⟩
  rcases Except.bind_eq_ok.mp h₂ with ⟨func, hfunc, h₃⟩
  rcases Except.bind_eq_ok.mp h₃ with ⟨e, hoffset, h₄⟩
  rw [Except.pure_eq_ok, decide_eq_true_eq] at h₄
  rcases h₄ with ⟨hbounds, hkeys, hle, hne⟩
  have hid : s'.functions[id]? = some func := by
    cases hf : s'.functions[id]? with
    | none =>
      simp only [hf] at hfunc
      cases hfunc
    | some f =>
      simp only [hf] at hfunc
      cases hfunc
      rfl
  refine ⟨s', id, bounds, inner, func, e, hrun, hcode, hid, hbounds, hoffset, ?_⟩
  rw [startsAt_iff hkeys hle]
  exact hne

end Clox
