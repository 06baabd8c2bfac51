import Clox.Compiler.Scoping

/-! # Identifiers denote the declarations in scope

The compiler walks through the scopes of a program (`ScopeStep`); its state
keeps to them on every run. The instruction it emits for an identifier then
accesses the innermost slot of that name, and at run time the upvalue that a
closure holds for the descriptor is the one captured for this slot.
-/

namespace Clox

variable {ν : Type}

/-! ## What an instruction accesses -/

/-- What an instruction for a variable accesses. -/
inductive Target where
  | slot (p : Place)
  | global
deriving DecidableEq, Repr

def Target.ofPlace : Option Place → Target
  | some p => slot p
  | none => global

namespace CompState

/-- What the instruction emitted last accesses. -/
def lastTarget (s : CompState ν) : Option Target :=
  s.current.iseq.tail.bind fun i =>
    if i.is .opGetLocal || i.is .opSetLocal then some (.slot (s.enclosing.length, i.operand0))
    else if i.is .opGetUpvalue || i.is .opSetUpvalue then
      ((s.current.upvalues[i.operand0]?).bind (denote (s.enclosing.map Compiler.upvalues))).map
        .slot
    else if i.is .opGetGlobal || i.is .opSetGlobal then some .global
    else none

end CompState

/-! ## Steps of the compiler -/

/-- A step of the compiler that has to do with scopes, next to the scopes of the program. -/
inductive ScopeStep [LoxNum ν] : CompState ν × Lex → CompState ν × Lex → Prop
  | enterFunction {s s' : CompState ν} {lex : Lex} {ftype : FunctionType} {tok : String}
      (hftype : ftype ≠ .topLevel) (h : Emit.initCompiler ftype tok s = .ok ((), s')) :
      ScopeStep (s, lex) (s', lex.enterFunction)
  | leaveFunction {s s' : CompState ν} {lex : Lex} {id : ℕ}
      (h : Emit.endCompiler s = .ok (id, s')) : ScopeStep (s, lex) (s', lex.tail)
  | pushScope {s s' : CompState ν} {lex : Lex} {stype : CompileScopeType}
      (h : Emit.pushScope stype s = .ok ((), s')) : ScopeStep (s, lex) (s', lex.pushScope)
  /-- A scope is closed in the function that opened it. -/
  | popScope {s s' : CompState ν} {scope : List Binding} {f : LexFunction} {lex : Lex}
      {stype : CompileScopeType} (hopen : f ≠ []) (h : Emit.popScope stype s = .ok ((), s')) :
      ScopeStep (s, (scope :: f) :: lex) (s', f :: lex)
  | declare {s s' : CompState ν} {lex : Lex} {name : String} {slot : Option ℕ}
      (h : Emit.declareVariable name s = .ok (slot, s')) : ScopeStep (s, lex) (s', lex.declare name)
  /-- The variable was declared in the scope it is defined in. -/
  | define {s s' : CompState ν} {lex : Lex} {arg : ℕ}
      (harg : s.current.scopeDepth = 0 ∨
        (s.current.locals[arg]?).map (·.depth) = some s.current.scopeDepth)
      (h : Emit.defineVariable arg s = .ok ((), s')) : ScopeStep (s, lex) (s', lex)
  | temporary {s s' : CompState ν} {lex : Lex} {popOnScopeEnd : Bool}
      (h : Emit.addFakeLocal popOnScopeEnd s = .ok ((), s')) :
      ScopeStep (s, lex) (s', lex.bind .temporary)
  | use {s s' : CompState ν} {lex : Lex} {name : String} {op : VarOp}
      (h : Emit.namedVariable name op s = .ok ((), s')) : ScopeStep (s, lex) (s', lex)
  /-- Everything else leaves the locals, the descriptors and the errors alone. -/
  | emit {s s' : CompState ν} {lex : Lex} (h : s'.view = s.view) : ScopeStep (s, lex) (s', lex)

/-- The compiler keeps to the scopes of the program. -/
structure Steady (s : CompState ν) (lex : Lex) : Prop where
  mirrors : Mirrors s.scopings lex
  infos : ValidInfos s.infos

namespace Steady

variable {s s' : CompState ν} {lex : Lex}

theorem of_view (h : Steady s lex) (hview : s'.view = s.view) : Steady s' lex := by
  refine ⟨?_, ?_⟩
  · rw [show s'.scopings = s.scopings from congrArg Prod.fst hview]
    exact h.mirrors
  · rw [show s'.infos = s.infos from congrArg (·.2.1) hview]
    exact h.infos

/-- The scopes of the innermost function. -/
theorem cons (h : Steady s lex) : ∃ locals d rest f outer, s.scopings = (locals, d) :: rest ∧
    lex = f :: outer ∧ f ≠ [] ∧ d = Lex.depth lex ∧ locals.reverse = localsOf d f ∧
      locals.length ≤ 255 ∧ Mirrors rest outer := by
  cases lex with
  | nil => exact h.mirrors.elim
  | cons f outer =>
    rcases h.mirrors with ⟨hf, hd, hlocals, hlen, hrest⟩
    exact ⟨_, _, _, f, outer, rfl, rfl, hf, hd, hlocals, hlen, hrest⟩

theorem enterFunction (h : Steady s lex) {ftype : FunctionType} {tok : String}
    (hftype : ftype ≠ .topLevel) (hinit : Emit.initCompiler ftype tok s = .ok ((), s')) :
    Steady s' lex.enterFunction := by
  rcases h.cons with ⟨locals, d, rest, f, outer, hs, rfl, hf, hd, hlocals, hlen, hrest⟩
  rcases initCompiler_spec hftype hs hinit with ⟨hscopings, hinfos, _⟩
  refine ⟨?_, ?_⟩
  · rw [hscopings]
    refine ⟨by simp, ?_, rfl, by simp, h.mirrors⟩
    rw [hd]
    simp [Lex.depth]
  · rw [hinfos]
    exact ⟨by simp, List.nodup_nil, by simp, h.infos⟩

theorem leaveFunction [LoxNum ν] (h : Steady s lex) {id : ℕ}
    (hend : Emit.endCompiler s = .ok (id, s')) : Steady s' lex.tail := by
  rcases endCompiler_spec hend with ⟨hscopings, hinfos, _⟩
  rcases h.cons with ⟨locals, d, rest, f, outer, hs, rfl, hf, hd, hlocals, hlen, hrest⟩
  refine ⟨?_, ?_⟩
  · rw [hscopings, hs]
    exact hrest
  · rw [hinfos]
    exact h.infos.2.2.2

theorem pushScope (h : Steady s lex) {stype : CompileScopeType}
    (hpush : Emit.pushScope stype s = .ok ((), s')) : Steady s' lex.pushScope := by
  rcases h.cons with ⟨locals, d, rest, f, outer, hs, rfl, hf, hd, hlocals, hlen, hrest⟩
  rcases pushScope_spec hs hpush with ⟨hscopings, hinfos, _⟩
  refine ⟨?_, by rw [hinfos]; exact h.infos⟩
  rw [hscopings]
  have hpos : 0 < f.length := List.length_pos_of_ne_nil hf
  refine ⟨by simp, ?_, ?_, hlen, hrest⟩
  · rw [hd]
    simp only [Lex.depth, List.map_cons, List.sum_cons, List.length_cons]
    omega
  · rw [hlocals]
    rfl

theorem popScope {scope : List Binding} {f : LexFunction} (h : Steady s ((scope :: f) :: lex))
    (hopen : f ≠ []) {stype : CompileScopeType}
    (hpop : Emit.popScope stype s = .ok ((), s')) : Steady s' (f :: lex) := by
  rcases h.cons with ⟨locals, d, rest, g, outer, hs, hlex, hf, hd, hlocals, hlen, hrest⟩
  cases hlex
  rcases popScope_spec hs hpop with ⟨hscopings, hinfos, _⟩
  refine ⟨?_, by rw [hinfos]; exact h.infos⟩
  have hpos : 0 < f.length := List.length_pos_of_ne_nil hopen
  have hdepth : d = f.length + Lex.depth lex := by
    rw [hd]
    simp [Lex.depth]
  -- the locals of the scope go, and no other
  have hdrop : (locals.reverse.dropWhile fun l => d ≤ l.2) = localsOf (d - 1) f := by
    rw [hlocals, localsOf, List.dropWhile_append_of_pos]
    · have hless := depth_lt_of_mem_localsOf (d := d) (f := f) (by omega)
      cases hrest : localsOf (d - 1) f with
      | nil => rfl
      | cons l ls =>
        have hl := hless l (by rw [hrest]; exact List.mem_cons_self)
        rw [List.dropWhile_cons_of_neg (by simpa using hl)]
    · intro l hl
      rcases List.mem_map.mp hl with ⟨b, _, rfl⟩
      simp
  rw [hscopings, hdrop]
  refine ⟨hopen, ?_, List.reverse_reverse _, ?_, hrest⟩
  · rw [hdepth]
    simp only [Lex.depth, List.map_cons, List.sum_cons]
    omega
  · rw [List.length_reverse, ← hdrop]
    exact (List.dropWhile_suffix _).length_le.trans (by simpa using hlen)

/-- A slot is added to the innermost scope. -/
theorem bind (h : Steady s lex) {locals : List (String × ℕ)} {d : ℕ} {rest : List Scoping}
    {b : Binding} (hs : s.scopings = (locals, d) :: rest)
    (hs' : s'.scopings = (locals ++ [(b.key, d)], d) :: rest) (hinfos : s'.infos = s.infos)
    (hlt : locals.length < 255) : Steady s' (lex.bind b) := by
  rcases h.cons with ⟨_, _, _, f, outer, hs₀, rfl, hf, hd, hlocals, _, hrest⟩
  cases hs.symm.trans hs₀
  refine ⟨?_, by rw [hinfos]; exact h.infos⟩
  rw [hs']
  cases f with
  | nil => exact absurd rfl hf
  | cons scope f =>
    refine ⟨by simp, ?_, ?_, ?_, hrest⟩
    · rw [hd]
      simp [Lex.depth]
    · rw [List.reverse_append, hlocals]
      rfl
    · rw [List.length_append]
      exact hlt

end Steady

/-! ## Identifiers -/

section

variable {s s' : CompState ν} {lex : Lex}

/-- The name constant and the instruction of an identifier. -/
theorem tail_of_identifier {name : String} {op : OpCode} {operands : ℕ → List ℕ}
    (h : (Emit.identifierConstant name >>= fun k => Emit.emitOp op (operands k)) s =
      .ok ((), s')) :
    s'.view = s.view ∧ ∃ i k, s'.current.iseq.tail = some i ∧ i.code = op.toNat ∧
      i.operands = operands k := by
  rcases Emit.bind_eq_ok h with ⟨k, s₁, h₁, h₂⟩
  have hview : s'.view = s.view :=
    (OnlyEmits.emitOp _ _ _ _ _ h₂).trans (OnlyEmits.identifierConstant _ _ _ _ h₁)
  cases h₂
  exact ⟨hview, _, k, List.getLast?_concat .., rfl, rfl⟩

theorem lastTarget_local {name : String} {op : VarOp} {slot : ℕ}
    (h : (Emit.identifierConstant name >>= fun k =>
      Emit.emitOp (if op = .set then .opSetLocal else .opGetLocal) [slot, k]) s = .ok ((), s')) :
    s'.view = s.view ∧ s'.lastTarget = some (.slot (s.enclosing.length, slot)) := by
  rcases tail_of_identifier h with ⟨hview, i, k, htail, hcode, hoperands⟩
  have hlen : s'.enclosing.length = s.enclosing.length := by
    have := congrArg (fun v => v.1.length) hview
    simpa [CompState.view, CompState.scopings, CompState.chain] using this
  refine ⟨hview, ?_⟩
  rw [CompState.lastTarget, htail, Option.bind_some, Insn.operand0, hoperands, hlen]
  cases op <;> simp [Insn.is, hcode]

theorem lastTarget_upvalue {name : String} {op : VarOp} {index : ℕ}
    (h : (Emit.identifierConstant name >>= fun k =>
      Emit.emitOp (if op = .set then .opSetUpvalue else .opGetUpvalue) [index, k]) s =
        .ok ((), s')) :
    s'.view = s.view ∧ s'.lastTarget = ((s.current.upvalues[index]?).bind
      (denote (s.enclosing.map Compiler.upvalues))).map .slot := by
  rcases tail_of_identifier h with ⟨hview, i, k, htail, hcode, hoperands⟩
  have hinfos : s'.current.upvalues = s.current.upvalues ∧
      s'.enclosing.map Compiler.upvalues = s.enclosing.map Compiler.upvalues :=
    List.cons.inj (congrArg (·.2.1) hview)
  refine ⟨hview, ?_⟩
  rw [CompState.lastTarget, htail, Option.bind_some, Insn.operand0, hoperands, hinfos.1, hinfos.2]
  cases op <;> simp [Insn.is, hcode]

theorem lastTarget_global {name : String} {op : VarOp}
    (h : (Emit.identifierConstant name >>= fun k =>
      Emit.emitOp (if op = .set then .opSetGlobal else .opGetGlobal) [k]) s = .ok ((), s')) :
    s'.view = s.view ∧ s'.lastTarget = some .global := by
  rcases tail_of_identifier h with ⟨hview, i, k, htail, hcode, hoperands⟩
  refine ⟨hview, ?_⟩
  rw [CompState.lastTarget, htail, Option.bind_some]
  cases op <;> simp [Insn.is, hcode]

theorem Mirrors.small {ss : List Scoping} (h : Mirrors ss lex) : ∀ x ∈ ss, x.1.length ≤ 255 := by
  induction ss generalizing lex with
  | nil => simp
  | cons x ss ih =>
    cases lex with
    | nil => exact h.elim
    | cons f lex =>
      intro y hy
      rcases List.mem_cons.mp hy with rfl | hy
      · exact h.2.2.2.1
      · exact ih h.2.2.2.2 y hy

/-- The instruction of an identifier that is no local of its function. -/
theorem resolved_onlyEmits (op : VarOp) (name : String) (upvalue : Option ℕ) :
    OnlyEmits (match upvalue with
      | some i => Emit.identifierConstant name >>= fun k =>
        Emit.emitOp (if op = .set then .opSetUpvalue else .opGetUpvalue) [i, k]
      | none => Emit.identifierConstant name >>= fun k =>
        Emit.emitOp (if op = .set then .opSetGlobal else .opGetGlobal) [k] : Emit ν Unit) := by
  cases upvalue with
  | some i => exact OnlyEmits.bind (OnlyEmits.identifierConstant name) fun _ => OnlyEmits.emitOp _ _
  | none => exact OnlyEmits.bind (OnlyEmits.identifierConstant name) fun _ => OnlyEmits.emitOp _ _

/-- An identifier is resolved to the innermost slot that goes by its name. -/
theorem Steady.namedVariable (h : Steady s lex) {name : String} {op : VarOp}
    (huse : Emit.namedVariable name op s = .ok ((), s')) (herr : s'.errMessages = []) :
    Steady s' lex ∧ s.errMessages = [] ∧
      s'.lastTarget = some (.ofPlace (lex.find (·.key == name))) := by
  have hplace := h.mirrors.firstPlace_eq name
  rcases Emit.bind_eq_ok huse with ⟨s₀, s₁, hget, h₁⟩
  cases hget
  rw [← hplace, CompState.chain, firstPlace]
  cases hlocal : s.current.resolveLocal name with
  | some slot =>
    simp only [hlocal] at h₁
    rcases lastTarget_local h₁ with ⟨hview, htarget⟩
    exact ⟨h.of_view hview, (congrArg (·.2.2) hview).symm.trans herr, htarget⟩
  | none =>
    simp only [hlocal] at h₁
    rcases hres : Compiler.resolveUpvalue name s.current s.enclosing with
      ⟨current, enclosing, upvalue, overflow⟩
    simp only [hres] at h₁
    rcases Emit.bind_eq_ok h₁ with ⟨_, s₂, hset, h₂⟩
    cases hset
    cases overflow with
    | true =>
      -- an error has been reported
      rcases Emit.bind_eq_ok h₂ with ⟨_, s₃, herror, h₃⟩
      cases herror
      have hemits := resolved_onlyEmits op name upvalue _ _ _ h₃
      have herr' : s.errMessages ++ ["Too many closure variables in function."] = [] :=
        (congrArg (·.2.2) hemits).symm.trans herr
      simp at herr'
    | false =>
      have hsmall : ∀ o ∈ s.enclosing, o.locals.length ≤ 255 := by
        intro o ho
        have := h.mirrors.small o.scoping (List.mem_cons_of_mem _ (List.mem_map_of_mem ho))
        simpa [Compiler.scoping] using this
      rcases resolveUpvalue_spec name h.infos hsmall hres with
        ⟨hscopings, hext, hvalid, hnone, hsome⟩
      have hsteady : Steady { s with current, enclosing } lex := by
        refine ⟨?_, hvalid⟩
        have hmirrors := h.mirrors
        rw [CompState.scopings, CompState.chain, ← hscopings] at hmirrors
        exact hmirrors
      cases upvalue with
      | some i =>
        rcases hsome i rfl with ⟨d, p, hd, hp, hplace⟩
        rcases lastTarget_upvalue h₂ with ⟨hview, htarget⟩
        refine ⟨hsteady.of_view hview, (congrArg (·.2.2) hview).symm.trans herr, ?_⟩
        show s'.lastTarget = some (.ofPlace (firstPlace name s.enclosing))
        rw [htarget, hplace]
        simp only [hd, Option.bind_some, hp]
        rfl
      | none =>
        rcases lastTarget_global h₂ with ⟨hview, htarget⟩
        refine ⟨hsteady.of_view hview, (congrArg (·.2.2) hview).symm.trans herr, ?_⟩
        show s'.lastTarget = some (.ofPlace (firstPlace name s.enclosing))
        rw [htarget, hnone rfl]
        rfl

/-! ## Runs -/

/-- Every step keeps to the scopes, when there was no error, and there was none before. -/
theorem Steady.step [LoxNum ν] {lex' : Lex} (h : Steady s lex)
    (hstep : ScopeStep (s, lex) (s', lex')) (herr : s'.errMessages = []) : Steady s' lex' := by
  cases hstep with
  | enterFunction hftype hinit => exact h.enterFunction hftype hinit
  | leaveFunction hend => exact h.leaveFunction hend
  | pushScope hpush => exact h.pushScope hpush
  | popScope hopen hpop => exact h.popScope hopen hpop
  | @declare _ _ _ name _ hdeclare =>
    rcases h.cons with ⟨locals, d, rest, f, outer, hs, rfl, hf, hd, hlocals, hlen, hrest⟩
    have hspec := declareVariable_spec hs hdeclare herr
    rw [Lex.declare, ← hd]
    split at hspec <;> rename_i hzero
    · rw [if_pos hzero]
      exact h.of_view hspec
    · rw [if_neg hzero]
      exact h.bind (b := .declared name) hs hspec.1 hspec.2.1 hspec.2.2.2
  | define harg hdefine =>
    rcases h.cons with ⟨locals, d, rest, f, outer, hs, rfl, hf, hd, hlocals, hlen, hrest⟩
    refine h.of_view (defineVariable_spec hs ?_ hdefine)
    rcases scopings_eq_cons.mp hs with ⟨hmap, hdepth, _⟩
    rw [hdepth] at harg
    refine harg.imp id fun hlocal => ?_
    rcases Option.map_eq_some_iff.mp hlocal with ⟨l, hl, hld⟩
    refine ⟨l.name, ?_⟩
    rw [← hmap, List.getElem?_map, hl, ← hld]
    rfl
  | temporary hfake =>
    rcases h.cons with ⟨locals, d, rest, f, outer, hs, rfl, hf, hd, hlocals, hlen, hrest⟩
    rcases addFakeLocal_spec hs hfake herr with ⟨hscopings, hinfos, _, hlt⟩
    exact h.bind (b := .temporary) hs hscopings hinfos hlt
  | use huse => exact (h.namedVariable huse herr).1
  | emit hview => exact h.of_view hview

end

/-! ## Captured upvalues -/

section

variable {V : Type} [Inhabited V]

/-- The upvalues `ids` of a closure of a function whose descriptors, with those of the functions
around it, are `infos`; `captured p u` says that `u` was captured for the slot `p`. -/
inductive ClosureOf (V : Type) [Inhabited V] :
    List (List Upvalue) → List UpvalueId → (Place → UpvalueId → Prop) → Prop
  | script {us : List Upvalue} : ClosureOf V [us] [] fun _ _ => False
  /-- Made by `OP_CLOSURE` in an activation of the function around it. -/
  | made {us outer : List Upvalue} {rest : List (List Upvalue)} {frame : CallFrame V}
      {st st' : LocalsState V} {ids : List UpvalueId} {captured : Place → UpvalueId → Prop}
      (hframe : ClosureOf V (outer :: rest) frame.upvalues captured)
      (hclosure : LocalsState.captureAll frame us st = some (st', ids)) :
      ClosureOf V (us :: outer :: rest) ids fun p u =>
        captured p u ∨ (p.1 = rest.length ∧ st'.upvalueAddr u = some (frame.slots + p.2))

/-- An upvalue is captured for the location, and the others point where they did. -/
theorem captureUpvalue_addr (st : LocalsState V) (loc : ℕ) :
    (st.captureUpvalue loc).1.upvalueAddr (st.captureUpvalue loc).2 = some loc ∧
      ∀ u a, st.upvalueAddr u = some a → (st.captureUpvalue loc).1.upvalueAddr u = some a := by
  have hlink : ∀ above rest, (st.linkUpvalue loc above rest).upvalueAddr st.upvalues.length =
      some loc ∧ ∀ u a, st.upvalueAddr u = some a →
        (st.linkUpvalue loc above rest).upvalueAddr u = some a := by
    intro above rest
    refine ⟨by simp [LocalsState.upvalueAddr, LocalsState.linkUpvalue], fun u a hu => ?_⟩
    rcases Option.bind_eq_some_iff.mp hu with ⟨o, ho, _⟩
    have hlt := (List.getElem?_eq_some_iff.mp ho).1
    rw [LocalsState.upvalueAddr, LocalsState.linkUpvalue, List.getElem?_append_left hlt]
    exact hu
  unfold LocalsState.captureUpvalue
  dsimp only
  split
  · split <;> rename_i haddr
    · exact ⟨haddr, fun _ _ hu => hu⟩
    · exact hlink _ _
  · exact hlink _ _

/-- The upvalues of a closure, descriptor by descriptor. -/
theorem captureAll_addr {frame : CallFrame V} {us : List Upvalue} {st st' : LocalsState V}
    {ids : List UpvalueId} (h : LocalsState.captureAll frame us st = some (st', ids)) :
    (∀ u a, st.upvalueAddr u = some a → st'.upvalueAddr u = some a) ∧
      ∀ (i : ℕ) (d : Upvalue), us[i]? = some d → ∃ u, ids[i]? = some u ∧
        if d.isLocal then st'.upvalueAddr u = some (frame.slots + d.index)
        else frame.upvalues[d.index]? = some u := by
  induction us generalizing st ids with
  | nil =>
    cases h
    exact ⟨fun _ _ hu => hu, nofun⟩
  | cons d us ih =>
    rw [LocalsState.captureAll] at h
    split at h <;> rename_i hlocal
    · rcases Option.map_eq_some_iff.mp h with ⟨⟨st₂, ids₂⟩, hrest, heq⟩
      cases heq
      rcases captureUpvalue_addr st (frame.slots + d.index) with ⟨hnew, hold⟩
      rcases ih hrest with ⟨hkeep, hall⟩
      refine ⟨fun u a hu => hkeep u a (hold u a hu), fun i e he => ?_⟩
      cases i with
      | zero =>
        cases he
        refine ⟨_, rfl, ?_⟩
        rw [if_pos hlocal]
        exact hkeep _ _ hnew
      | succ i => exact hall i e he
    · split at h <;> rename_i hup
      · rcases Option.map_eq_some_iff.mp h with ⟨⟨st₂, ids₂⟩, hrest, heq⟩
        cases heq
        rcases ih hrest with ⟨hkeep, hall⟩
        refine ⟨hkeep, fun i e he => ?_⟩
        cases i with
        | zero =>
          cases he
          refine ⟨_, rfl, ?_⟩
          rw [if_neg hlocal]
          exact hup
        | succ i => exact hall i e he
      · cases h

/-- The upvalue at a descriptor's index was captured for the slot the descriptor denotes. -/
theorem ClosureOf.captured {us : List Upvalue} {rest : List (List Upvalue)} {ids : List UpvalueId}
    {captured : Place → UpvalueId → Prop} (h : ClosureOf V (us :: rest) ids captured) {i : ℕ}
    {d : Upvalue} {p : Place} (hd : us[i]? = some d) (hp : denote rest d = some p) :
    ∃ u, ids[i]? = some u ∧ captured p u := by
  generalize hinfos : us :: rest = infos at h
  induction h generalizing us rest i d with
  | script =>
    cases hinfos
    cases hp
  | made hframe hclosure ih =>
    cases hinfos
    rcases (captureAll_addr hclosure).2 i d hd with ⟨u, hu, haddr⟩
    refine ⟨u, hu, ?_⟩
    rw [denote] at hp
    split at hp <;> rename_i hlocal
    · cases hp
      rw [if_pos hlocal] at haddr
      exact .inr ⟨rfl, haddr⟩
    · rcases Option.bind_eq_some_iff.mp hp with ⟨e, he, hep⟩
      rcases ih he hep rfl with ⟨v, hv, hcaptured⟩
      rw [if_neg hlocal, hv] at haddr
      cases haddr
      exact .inl hcaptured

end

/-! ## Every identifier -/

theorem ValidInfos.suffix {infos infos' : List (List Upvalue)} (h : ValidInfos infos)
    (hsuffix : infos' <:+ infos) : ValidInfos infos' := by
  induction infos with
  | nil =>
    rw [List.suffix_nil.mp hsuffix]
    trivial
  | cons us rest ih =>
    rcases List.suffix_cons_iff.mp hsuffix with rfl | hsuffix
    · exact h
    · exact ih h.2.2.2 hsuffix

end Clox
