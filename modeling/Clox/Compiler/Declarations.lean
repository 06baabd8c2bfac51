import Clox.Compiler.ExprCode
import Clox.Vm.VarDecls

/-! # Variable declarations

The instructions of a `VAR_STMT` behind the code of its expression, as they are in front of the
optimizer, and what is in the variables when they have run.
-/

namespace Clox

open Emit

variable {ν : Type} {s s₁ s₂ t : CompState ν} {name : String} {names : List String}

/-! ## What is appended -/

/-- From `s` to `t` the instructions `l` were appended, and constants; no error was reported and
no scope opened. -/
structure Appends (s t : CompState ν) (l : List Insn) : Prop where
  insns : t.current.iseq.insns = s.current.iseq.insns ++ l
  constants : s.current.iseq.constants <+: t.current.iseq.constants
  memoized : s.Memoized → t.Memoized
  scopeDepth : t.current.scopeDepth = s.current.scopeDepth
  errMessages : t.errMessages = s.errMessages

namespace Appends

theorem refl (s : CompState ν) : Appends s s [] where
  insns := (List.append_nil _).symm
  constants := List.prefix_refl _
  memoized := id
  scopeDepth := rfl
  errMessages := rfl

theorem trans {l l' : List Insn} (h : Appends s s₁ l) (h' : Appends s₁ t l') :
    Appends s t (l ++ l') where
  insns := by rw [h'.insns, h.insns, List.append_assoc]
  constants := h.constants.trans h'.constants
  memoized := h'.memoized ∘ h.memoized
  scopeDepth := h'.scopeDepth.trans h.scopeDepth
  errMessages := h'.errMessages.trans h.errMessages

end Appends

theorem emitOp_appends {op : OpCode} {operands : List ℕ} {u : Unit}
    (h : emitOp op operands s = .ok (u, t)) :
    ∃ i, Appends s t [i] ∧ i.code = op.toNat ∧ i.operands = operands ∧
      t.current.iseq.constants = s.current.iseq.constants ∧ t.current.locals = s.current.locals := by
  cases h
  exact ⟨_, ⟨rfl, List.prefix_refl _, id, rfl, rfl⟩, rfl, rfl, rfl, rfl⟩

theorem identifierConstant_appends {idx : ℕ} (h : identifierConstant name s = .ok (idx, t)) :
    Appends s t [] ∧ t.current.locals = s.current.locals ∧
      (s.Memoized → t.current.iseq.constants[idx]? = some (.string name)) := by
  rcases bind_eq_ok h with ⟨s₀, s₁, hget, h⟩
  cases hget
  cases hlookup : s.current.constTbl.lookup name with
  | some i =>
    simp only [hlookup] at h
    cases h
    exact ⟨Appends.refl s, rfl, fun hmemo => hmemo name idx hlookup⟩
  | none =>
    simp only [hlookup] at h
    cases h
    have hnew : (s.current.iseq.constants ++ [Value.string name])[
        s.current.iseq.constants.length]? = some (.string name) := by simp
    refine ⟨⟨(List.append_nil _).symm, List.prefix_append _ _, ?_, rfl, rfl⟩, rfl, fun _ => hnew⟩
    intro hmemo str j hj
    have hj' : ((name, s.current.iseq.constants.length) :: s.current.constTbl).lookup str =
        some j := hj
    rw [List.lookup_cons] at hj'
    by_cases hstr : str = name
    · subst hstr
      simp only [beq_self_eq_true] at hj'
      cases hj'
      exact hnew
    · rw [beq_false_of_ne hstr] at hj'
      exact getElem?_of_prefix (List.prefix_append _ _) (hmemo str j hj')

/-! ## Declaring -/

/-- `declareVariable` meets no local of the scope with this name. -/
def Compiler.FreeHere (c : Compiler ν) (name : String) : Prop :=
  ∀ l ∈ c.locals.reverse.takeWhile fun l => c.scopeDepth ≤ l.depth, l.name ≠ name

/-- The local `addLocal` makes. -/
def Compiler.newLocal (c : Compiler ν) (name : String) : Local := { name, depth := c.scopeDepth }

theorem error_reports {msg : String} {u : Unit} (h : error msg s = .ok (u, t)) :
    ∃ msg, t.errMessages = s.errMessages ++ [msg] := by
  cases h
  exact ⟨msg, rfl⟩

theorem declareVariable_global (hdepth : s.current.scopeDepth = 0) {r : Option ℕ}
    (h : declareVariable name s = .ok (r, t)) :
    Appends s t [] ∧ t.current.locals = s.current.locals ∧
      ∃ arg, r = some arg ∧ (s.Memoized → t.current.iseq.constants[arg]? = some (.string name)) := by
  rcases bind_eq_ok h with ⟨s₀, s₁, hget, h⟩
  cases hget
  rw [if_pos hdepth] at h
  rcases bind_eq_ok h with ⟨arg, s₂, hconst, h⟩
  cases h
  rcases identifierConstant_appends hconst with ⟨happ, hlocals, hname⟩
  exact ⟨happ, hlocals, arg, rfl, hname⟩

/-- In a scope a name is declared once, in the next slot. -/
theorem declareVariable_local (hdepth : 0 < s.current.scopeDepth) {r : Option ℕ}
    (h : declareVariable name s = .ok (r, t)) :
    (s.current.FreeHere name ∧ s.current.localCount < uint8Max ∧ r = some s.current.localCount ∧
        Appends s t [] ∧
        t.current.locals = s.current.locals ++ [s.current.newLocal name]) ∨
      (¬ (s.current.FreeHere name ∧ s.current.localCount < uint8Max) ∧ r = none ∧
        ∃ msg, t.errMessages = s.errMessages ++ [msg]) := by
  rcases bind_eq_ok h with ⟨s₀, s₁, hget, h⟩
  cases hget
  rw [if_neg (by omega)] at h
  have hany : (s.current.locals.reverse.takeWhile fun l =>
      s.current.scopeDepth ≤ l.depth).any (·.name == name) = true ↔ ¬ s.current.FreeHere name := by
    unfold Compiler.FreeHere
    rw [List.any_eq_true]
    simp
  split at h
  · rename_i hdeclared
    rcases bind_eq_ok h with ⟨_, s₂, herror, h⟩
    cases h
    exact .inr ⟨fun hfree => hany.mp hdeclared hfree.1, rfl, error_reports herror⟩
  · rename_i hnew
    have hfree : s.current.FreeHere name := by
      by_contra hnot
      exact hnew (hany.mpr hnot)
    rcases bind_eq_ok h with ⟨index, s₂, hadd, h⟩
    rcases bind_eq_ok hadd with ⟨s₃, s₄, hget, hadd⟩
    cases hget
    split at hadd
    · rename_i hmax
      rcases bind_eq_ok hadd with ⟨_, s₅, herror, hadd⟩
      cases hadd
      cases h
      exact .inr ⟨fun hroom => absurd hroom.2 (by omega), rfl, error_reports herror⟩
    · rename_i hmax
      cases hadd
      cases h
      exact .inl ⟨hfree, Nat.lt_of_not_le hmax, rfl,
        ⟨(List.append_nil _).symm, List.prefix_refl _, id, rfl, rfl⟩, rfl⟩

/-! ## One variable -/

theorem emitVarDecl_global (hdepth : s.current.scopeDepth = 0) {slotIdx : Option ℕ} {b : Bool}
    (h : emitVarDecl name slotIdx s = .ok (b, t)) (hmemo : s.Memoized) :
    b = true ∧ t.current.locals = s.current.locals ∧ ∃ i, Appends s t [i] ∧
      ∀ constants, t.current.iseq.constants <+: constants →
        VarState.exec constants i = VarState.declGlobal name slotIdx := by
  rcases bind_eq_ok h with ⟨r, s₁, hvar, h⟩
  rcases declareVariable_global hdepth hvar with ⟨happ, hlocals, arg, rfl, hname⟩
  rcases bind_eq_ok h with ⟨s₂, s₃, hget, h⟩
  cases hget
  have hzero : (s₁.current.scopeDepth == 0) = true := by
    rw [happ.scopeDepth, hdepth]
    rfl
  simp only [hzero] at h
  cases slotIdx with
  | none =>
    rcases bind_eq_ok h with ⟨_, s₄, hop, h⟩
    cases h
    rcases emitOp_appends hop with ⟨i, happ', hcode, hops, hconsts, hlocals'⟩
    refine ⟨rfl, hlocals'.trans hlocals, i, happ.trans happ', fun constants hpre => ?_⟩
    have harg : constants[arg]? = some (.string name) :=
      getElem?_of_prefix (hconsts ▸ hpre) (hname hmemo)
    funext vm
    simp only [VarState.exec, hcode, hops, OpCode.ofNat?_toNat, harg]
    rfl
  | some idx =>
    rcases bind_eq_ok h with ⟨_, s₄, hop, h⟩
    cases h
    rcases emitOp_appends hop with ⟨i, happ', hcode, hops, hconsts, hlocals'⟩
    refine ⟨rfl, hlocals'.trans hlocals, i, happ.trans happ', fun constants hpre => ?_⟩
    have harg : constants[arg]? = some (.string name) :=
      getElem?_of_prefix (hconsts ▸ hpre) (hname hmemo)
    funext vm
    simp only [VarState.exec, hcode, hops, OpCode.ofNat?_toNat, harg]
    rfl

theorem emitVarDecl_local (hdepth : 0 < s.current.scopeDepth) {slotIdx : Option ℕ} {b : Bool}
    (h : emitVarDecl name slotIdx s = .ok (b, t)) :
    (s.current.FreeHere name ∧ s.current.localCount < uint8Max ∧ b = true ∧
        t.current.locals = s.current.locals ++ [s.current.newLocal name] ∧
        ∃ i, Appends s t [i] ∧ ∀ constants : List (Value ν),
          VarState.exec constants i = VarState.declLocal s.current.localCount slotIdx) ∨
      (¬ (s.current.FreeHere name ∧ s.current.localCount < uint8Max) ∧ b = false ∧
        ∃ msg, t.errMessages = s.errMessages ++ [msg]) := by
  rcases bind_eq_ok h with ⟨r, s₁, hvar, h⟩
  rcases declareVariable_local hdepth hvar with ⟨hfree, hroom, rfl, happ, hlocals⟩ |
    ⟨hnot, rfl, herror⟩
  · rcases bind_eq_ok h with ⟨s₂, s₃, hget, h⟩
    cases hget
    have hpos : (s₁.current.scopeDepth == 0) = false := by
      rw [happ.scopeDepth, beq_eq_false_iff_ne]
      omega
    simp only [hpos] at h
    refine .inl ⟨hfree, hroom, ?_⟩
    cases slotIdx with
    | none =>
      rcases bind_eq_ok h with ⟨nameIdx, s₄, hconst, h⟩
      rcases bind_eq_ok h with ⟨_, s₅, hop, h⟩
      cases h
      rcases identifierConstant_appends hconst with ⟨happ₂, hlocals₂, -⟩
      rcases emitOp_appends hop with ⟨i, happ₃, hcode, hops, -, hlocals₃⟩
      refine ⟨rfl, by rw [hlocals₃, hlocals₂, hlocals], i, (happ.trans happ₂).trans happ₃, ?_⟩
      intro constants
      funext vm
      simp only [VarState.exec, hcode, hops, OpCode.ofNat?_toNat]
      rfl
    | some idx =>
      rcases bind_eq_ok h with ⟨nameIdx, s₄, hconst, h⟩
      rcases bind_eq_ok h with ⟨_, s₅, hop, h⟩
      cases h
      rcases identifierConstant_appends hconst with ⟨happ₂, hlocals₂, -⟩
      rcases emitOp_appends hop with ⟨i, happ₃, hcode, hops, -, hlocals₃⟩
      refine ⟨rfl, by rw [hlocals₃, hlocals₂, hlocals], i, (happ.trans happ₂).trans happ₃, ?_⟩
      intro constants
      funext vm
      simp only [VarState.exec, hcode, hops, OpCode.ofNat?_toNat]
      rfl
  · cases h
    exact .inr ⟨hnot, rfl, herror⟩

/-! ## Several variables -/

theorem runInsns_append (constants : List (Value ν)) (l l' : List Insn) (vm : VarState ν) :
    VarState.run constants (l ++ l') vm =
      (VarState.run constants l vm).bind (VarState.run constants l') := by
  unfold VarState.run
  rw [List.foldlM_append]
  rfl

theorem emitVarDecls_global (hdepth : s.current.scopeDepth = 0) {slotIdx : Option ℕ} {u : Unit}
    (h : emitVarDecls names slotIdx s = .ok (u, t)) (hmemo : s.Memoized) :
    t.current.locals = s.current.locals ∧ ∃ l, Appends s t l ∧
      ∀ constants, t.current.iseq.constants <+: constants →
        VarState.run constants l = VarState.declGlobals names slotIdx := by
  induction names generalizing s slotIdx with
  | nil =>
    cases h
    exact ⟨rfl, [], Appends.refl _, fun _ _ => rfl⟩
  | cons name names ih =>
    rcases bind_eq_ok h with ⟨b, s₁, hdecl, h⟩
    rcases emitVarDecl_global hdepth hdecl hmemo with ⟨rfl, hlocals, i, happ, hexec⟩
    rw [if_pos rfl] at h
    rcases ih (happ.scopeDepth.trans hdepth) h (happ.memoized hmemo) with
      ⟨hlocals', l, happ', hrun⟩
    refine ⟨hlocals'.trans hlocals, i :: l, happ.trans happ', fun constants hpre => ?_⟩
    funext vm
    have hfirst : VarState.run constants [i] vm = VarState.declGlobal name slotIdx vm := by
      rw [← hexec constants (happ'.constants.trans hpre)]
      exact bind_pure _
    have hsplit := runInsns_append constants [i] l vm
    rw [List.singleton_append, hfirst, hrun constants hpre] at hsplit
    exact hsplit

theorem freeHere_concat {c c' : Compiler ν} {l : Local} (hlocals : c'.locals = c.locals ++ [l])
    (hdepth : c'.scopeDepth = c.scopeDepth) (hl : l.depth = c.scopeDepth) (name : String) :
    c'.FreeHere name ↔ c.FreeHere name ∧ l.name ≠ name := by
  unfold Compiler.FreeHere
  rw [hlocals, List.reverse_append, List.reverse_singleton, List.singleton_append, hdepth,
    List.takeWhile_cons_of_pos (by simp [hl])]
  simp only [List.mem_cons, forall_eq_or_imp]
  exact and_comm

/-- The names can be declared in the scope, one after the other. -/
def Compiler.Admits (c : Compiler ν) (names : List String) : Prop :=
  (∀ n ∈ names, c.FreeHere n) ∧ (names ≠ [] → c.localCount + names.length ≤ uint8Max)

theorem emitVarDecls_local (hdepth : 0 < s.current.scopeDepth) (hnodup : names.Nodup)
    {slotIdx : Option ℕ} {u : Unit} (h : emitVarDecls names slotIdx s = .ok (u, t)) :
    (s.current.Admits names ∧
        t.current.locals = s.current.locals ++ names.map s.current.newLocal ∧
        ∃ l, Appends s t l ∧ ∀ constants : List (Value ν), VarState.run constants l =
          VarState.declLocals names.length s.current.localCount slotIdx) ∨
      (¬ s.current.Admits names ∧ ∃ msg, t.errMessages = s.errMessages ++ [msg]) := by
  induction names generalizing s slotIdx with
  | nil =>
    cases h
    refine .inl ⟨⟨fun n hn => absurd hn List.not_mem_nil, fun hne => absurd rfl hne⟩, (List.append_nil _).symm, [],
      Appends.refl _, fun _ => rfl⟩
  | cons name names ih =>
    rcases List.nodup_cons.mp hnodup with ⟨hfresh, hrest⟩
    rcases bind_eq_ok h with ⟨b, s₁, hdecl, h⟩
    rcases emitVarDecl_local hdepth hdecl with ⟨hfree, hroom, rfl, hlocals, i, happ, hexec⟩ |
      ⟨hnot, rfl, herror⟩
    · rw [if_pos rfl] at h
      have hdepth₁ : 0 < s₁.current.scopeDepth := by
        rw [happ.scopeDepth]
        exact hdepth
      have hcount : s₁.current.localCount = s.current.localCount + 1 := by
        unfold Compiler.localCount
        rw [hlocals, List.length_append, List.length_singleton]
      have hfree₁ : ∀ n, s₁.current.FreeHere n ↔ s.current.FreeHere n ∧ name ≠ n :=
        freeHere_concat hlocals happ.scopeDepth rfl
      have hnew : s₁.current.newLocal = s.current.newLocal := by
        funext n
        unfold Compiler.newLocal
        rw [happ.scopeDepth]
      have hadmits : s₁.current.Admits names ↔ s.current.Admits (name :: names) := by
        unfold Compiler.Admits
        rw [hcount, List.length_cons]
        constructor
        · rintro ⟨hall, hlen⟩
          refine ⟨fun n hn => ?_, fun _ => ?_⟩
          · rcases List.mem_cons.mp hn with rfl | hn
            · exact hfree
            · exact ((hfree₁ n).mp (hall n hn)).1
          · by_cases hnil : names = []
            · subst hnil
              exact hroom
            · have := hlen hnil
              omega
        · rintro ⟨hall, hlen⟩
          refine ⟨fun n hn => (hfree₁ n).mpr ⟨hall n (List.mem_cons_of_mem _ hn), ?_⟩, fun _ => ?_⟩
          · rintro rfl
            exact hfresh hn
          · have := hlen (List.cons_ne_nil _ _)
            omega
      rcases ih hdepth₁ hrest h with ⟨hok, hlocals', l, happ', hrun⟩ | ⟨hnot, herror⟩
      · refine .inl ⟨hadmits.mp hok, ?_, i :: l, happ.trans happ', fun constants => ?_⟩
        · rw [hlocals', hlocals, hnew, List.map_cons, List.append_assoc]
          rfl
        · funext vm
          have hfirst : VarState.run constants [i] vm =
              VarState.declLocal s.current.localCount slotIdx vm := by
            rw [← hexec constants]
            exact bind_pure _
          have hsplit := runInsns_append constants [i] l vm
          rw [List.singleton_append, hfirst, hrun constants, hcount] at hsplit
          exact hsplit
      · exact .inr ⟨fun hok => hnot (hadmits.mpr hok), happ.errMessages ▸ herror⟩
    · cases h
      refine .inr ⟨fun hok => hnot ⟨hok.1 name List.mem_cons_self, ?_⟩, herror⟩
      have := hok.2 (List.cons_ne_nil _ _)
      rw [List.length_cons] at this
      omega

/-! ## The statement -/

/-- The values of the variables: that of the expression for one variable, its elements for more than
one, nil without an expression. -/
def declValues (k : ℕ) : Option (Value ν) → List (Value ν)
  | none => List.replicate k .nil
  | some v => varValues k v

/-- The expression, if there is one, was compiled up to `s₁` and had this value. -/
def Initialized (emitInit : Option (Emit ν Unit)) (value : Option (Value ν)) (s s₁ : CompState ν) :
    Prop :=
  match emitInit, value with
  | none, none => s₁ = s
  | some emitInit, some _ => emitInit s = .ok ((), s₁)
  | _, _ => False

/-- A read of the name behind the statement gives the value; in a scope it is that of a local which
the statement made. -/
def ReadsBack (roGlobals : String → Option (Value ν)) (s₁ t : CompState ν) (vm : VarState ν)
    (name : String) (v : Value ν) : Prop :=
  if s₁.current.scopeDepth = 0 then vm.readGlobal roGlobals name = some v
  else ∃ slot, t.current.resolveLocal name = some slot ∧ s₁.current.localCount ≤ slot ∧
    vm.readLocal slot = some v

/-- The statement was accepted, its variables have the values, nothing else was changed, and the
stack is as high as the code behind it takes it to be. -/
structure DeclaredAll (roGlobals : String → Option (Value ν)) (s₁ t : CompState ν) (vm vm' : VarState ν)
    (names : List String) (values : List (Value ν)) : Prop where
  accepted : t.errMessages = s₁.errMessages
  height : vm'.stack.length = t.current.localCount
  below : ∀ slot < s₁.current.localCount,
    vm'.stack[slot]? = vm.stack[slot]? ∧ vm'.readLocal slot = vm.readLocal slot
  others : ∀ n, 0 < s₁.current.scopeDepth ∨ n ∉ names → vm'.globals n = vm.globals n
  values : List.Forall₂ (ReadsBack roGlobals s₁ t vm') names values

/-- What was emitted behind the expression runs, and declares the variables. -/
def DeclaresAll (roGlobals : String → Option (Value ν)) (s₁ t : CompState ν) (vm : VarState ν)
    (names : List String) (values : List (Value ν)) : Prop :=
  ∃ vm', VarState.run t.current.iseq.constants
      (t.current.iseq.insns.drop s₁.current.iseq.insns.length) vm = some vm' ∧
    DeclaredAll roGlobals s₁ t vm vm' names values

/-- In global scope there is one variable or no expression, and the variables that are left out are
nil anyway. In a scope there is one variable, or all of them are set from an array and none has the
name of a slot without a name. -/
def DeclaresWhen (roGlobals : String → Option (Value ν)) (s₁ : CompState ν) (vm : VarState ν)
    (name : String) (more : List String) (value : Option (Value ν)) : Prop :=
  if s₁.current.scopeDepth = 0 then
    (value = none ∨ more = []) ∧ name ∉ unredefinableGlobals ∧
      (roGlobals name = none ∨ roGlobals name = some (value.getD .nil)) ∧
      ∀ n ∈ more, vm.readGlobal roGlobals n = some .nil
  else
    more = [] ∧ s₁.current.FreeHere name ∧ s₁.current.localCount < uint8Max ∨
      more ≠ [] ∧ (∃ els, value = some (.array els)) ∧
        (∀ n ∈ name :: more, s₁.current.FreeHere n ∧ n ≠ "_") ∧
        s₁.current.localCount + 1 + (more.length + 1) ≤ uint8Max

section Statement

variable {roGlobals : String → Option (Value ν)} {emitInit : Option (Emit ν Unit)} {u : Unit}
  {more : List String} {value : Option (Value ν)} {v : Value ν} {vm vm' : VarState ν}
  {base : List (Value ν)} {l : List Insn}

theorem drop_of_appends (h : Appends s₁ t l) :
    t.current.iseq.insns.drop s₁.current.iseq.insns.length = l := by
  rw [h.insns, List.drop_left]

/-- One variable, or no expression: a value is on the stack, and one variable is declared. -/
theorem emitVar_single (h : emitVar name more emitInit s = .ok (u, t))
    (hinit : Initialized emitInit value s s₁) (hone : value = none ∨ more = [])
    (hstack : vm.stack = base ++ value.toList) :
    ∃ s₂ l₀, Appends s₁ s₂ l₀ ∧ s₂.current.locals = s₁.current.locals ∧
      emitVarDecls [name] none s₂ = .ok (u, t) ∧ ∀ constants : List (Value ν),
        VarState.run constants l₀ vm = some { vm with stack := base ++ [value.getD .nil] } := by
  rcases vm with ⟨stack, table, globals⟩
  simp only at hstack
  subst hstack
  cases emitInit with
  | none =>
    cases value with
    | some v => exact hinit.elim
    | none =>
      cases hinit
      rcases bind_eq_ok h with ⟨_, s₂, hop, h⟩
      rcases emitOp_appends hop with ⟨i, happ, hcode, hops, -, hlocals⟩
      refine ⟨s₂, [i], happ, hlocals, h, fun constants => ?_⟩
      unfold VarState.run
      simp only [List.foldlM_cons, List.foldlM_nil, VarState.exec, hcode, hops,
        OpCode.ofNat?_toNat, Option.toList_none, List.append_nil]
      rfl
  | some emitInit =>
    cases value with
    | none => exact hinit.elim
    | some v =>
      rcases hone with hnone | rfl
      · cases hnone
      · rcases bind_eq_ok h with ⟨_, s₂, hrun, h⟩
        cases hrun.symm.trans hinit
        exact ⟨s₁, [], Appends.refl _, rfl, h, fun constants => rfl⟩

/-- Several variables from an expression. -/
theorem emitVar_several (h : emitVar name more emitInit s = .ok (u, t))
    (hinit : Initialized emitInit (some v) s s₁) (hmore : more ≠ []) :
    if s₁.current.scopeDepth = 0 then emitVarDecls (name :: more) (some 0) s₁ = .ok (u, t)
    else ∃ s₂, addFakeLocal true s₁ = .ok ((), s₂) ∧
      emitVarDecls (name :: more) (some 0) s₂ = .ok (u, t) := by
  cases emitInit with
  | none => exact hinit.elim
  | some emitInit =>
    rcases bind_eq_ok h with ⟨_, s₂, hrun, h⟩
    cases hrun.symm.trans hinit
    have hempty : more.isEmpty = false := by simpa using hmore
    rw [hempty, if_neg Bool.false_ne_true] at h
    rcases bind_eq_ok h with ⟨s₂, s₃, hget, h⟩
    cases hget
    split
    · rename_i hzero
      rw [if_neg (by omega)] at h
      exact h
    · rename_i hpos
      rw [if_pos (by omega)] at h
      rcases bind_eq_ok h with ⟨_, s₃, hfake, h⟩
      exact ⟨s₃, hfake, h⟩

theorem declValues_single (hone : value = none ∨ more = []) :
    declValues (more.length + 1) value = value.getD .nil :: List.replicate more.length .nil := by
  cases value with
  | none => rfl
  | some v =>
    rcases hone with hnone | rfl
    · cases hnone
    · rfl

theorem forall₂_replicate_iff {α β : Type} {R : α → β → Prop} {as : List α} {b : β} :
    List.Forall₂ R as (List.replicate as.length b) ↔ ∀ a ∈ as, R a b := by
  induction as with
  | nil => simp
  | cons a as ih =>
    rw [List.length_cons, List.replicate_succ, List.forall₂_cons, ih, List.forall_mem_cons]

/-- One variable in global scope. -/
theorem declares_single_global (hzero : s₁.current.scopeDepth = 0)
    (h : emitVar name more emitInit s = .ok (u, t)) (hinit : Initialized emitInit value s s₁)
    (hone : value = none ∨ more = []) (hmemo : s₁.Memoized) (hnodup : (name :: more).Nodup)
    (hstack : vm.stack = base ++ value.toList) (hbase : base.length = s₁.current.localCount) :
    DeclaresAll roGlobals s₁ t vm (name :: more) (declValues (more.length + 1) value) ↔
      name ∉ unredefinableGlobals ∧
        (roGlobals name = none ∨ roGlobals name = some (value.getD .nil)) ∧
        ∀ n ∈ more, vm.readGlobal roGlobals n = some .nil := by
  rcases emitVar_single h hinit hone hstack with ⟨s₂, l₀, happ, hlocals, hdecls, hpush⟩
  rcases emitVarDecls_global (happ.scopeDepth.trans hzero) hdecls (happ.memoized hmemo) with
    ⟨hlocals', l, happ', hrun⟩
  have hcount : t.current.localCount = base.length := by
    unfold Compiler.localCount at hbase ⊢
    rw [hlocals', hlocals, hbase]
  have hall : VarState.run t.current.iseq.constants
      (t.current.iseq.insns.drop s₁.current.iseq.insns.length) vm =
        if name ∈ unredefinableGlobals then none
        else some { vm with
          stack := base
          globals := Function.update vm.globals name (some (value.getD .nil)) } := by
    rw [drop_of_appends (happ.trans happ'), runInsns_append, hpush, Option.bind_some,
      hrun _ (List.prefix_refl _), VarState.declGlobals, VarState.declGlobal,
      VarState.defineGlobal_concat]
    split <;> rfl
  unfold DeclaresAll
  rw [hall, declValues_single hone]
  have hread : ∀ n ∈ more, ∀ g : Option (Value ν),
      Function.update vm.globals name g n = vm.globals n := by
    intro n hn g
    apply Function.update_of_ne
    rintro rfl
    exact (List.nodup_cons.mp hnodup).1 hn
  have hself : (roGlobals name).or (some (value.getD .nil)) = some (value.getD .nil) ↔
      roGlobals name = none ∨ roGlobals name = some (value.getD .nil) := by
    cases roGlobals name <;> simp
  constructor
  · rintro ⟨vm', hvm', hdeclared⟩
    split at hvm'
    · cases hvm'
    · rename_i hname
      cases hvm'
      rcases List.forall₂_cons.mp hdeclared.values with ⟨hfirst, hrest⟩
      unfold ReadsBack at hfirst hrest
      simp only [if_pos hzero, VarState.readGlobal, Function.update_self] at hfirst hrest
      refine ⟨hname, hself.mp hfirst, fun n hn => ?_⟩
      have := forall₂_replicate_iff.mp hrest n hn
      rwa [hread n hn] at this
  · rintro ⟨hname, hro, hrest⟩
    rw [if_neg hname]
    refine ⟨_, rfl, ?_⟩
    constructor
    · exact happ'.errMessages.trans happ.errMessages
    · exact hcount.symm
    · intro slot hslot
      rw [← hbase] at hslot
      have hbelow : vm.stack[slot]? = base[slot]? := by
        rw [hstack, List.getElem?_append_left hslot]
      unfold VarState.readLocal
      rw [hbelow]
      exact ⟨rfl, rfl⟩
    · rintro n (hpos | hn)
      · omega
      · apply Function.update_of_ne
        rintro rfl
        exact hn List.mem_cons_self
    · apply List.Forall₂.cons
      · unfold ReadsBack
        simp only [if_pos hzero, VarState.readGlobal, Function.update_self]
        exact hself.mpr hro
      · apply forall₂_replicate_iff.mpr
        intro n hn
        unfold ReadsBack
        simp only [if_pos hzero, VarState.readGlobal, hread n hn]
        exact hrest n hn

/-- Several variables in global scope leave the array on the stack. -/
theorem not_declares_several_global (hzero : s₁.current.scopeDepth = 0)
    (h : emitVar name more emitInit s = .ok (u, t)) (hinit : Initialized emitInit (some v) s s₁)
    (hmore : more ≠ []) (hmemo : s₁.Memoized) (hstack : vm.stack = base ++ [v])
    (hbase : base.length = s₁.current.localCount) {names : List String} {values : List (Value ν)} :
    ¬ DeclaresAll roGlobals s₁ t vm names values := by
  have hdecls := emitVar_several h hinit hmore
  rw [if_pos hzero] at hdecls
  rcases emitVarDecls_global hzero hdecls hmemo with ⟨hlocals, l, happ, hrun⟩
  rintro ⟨vm', hvm', hdeclared⟩
  rw [drop_of_appends happ, hrun _ (List.prefix_refl _)] at hvm'
  have hheight := hdeclared.height
  unfold Compiler.localCount at hbase hheight
  rw [VarState.stack_declGlobals hvm', hstack, List.length_append, List.length_singleton, hlocals]
    at hheight
  omega

/-- The name stands for the slot it was given. -/
theorem resolveLocal_declared {c : Compiler ν} {ls : List Local} {mk : String → Local}
    (hlocals : c.locals = ls ++ names.map mk) (hmk : ∀ n, (mk n).name = n) (hnodup : names.Nodup)
    {i : ℕ} {n : String} (hi : names[i]? = some n) :
    c.resolveLocal n = some (ls.length + i) := by
  have hfound : ∀ start, (names.map mk).findIdxs (·.name == n) start = [i + start] := by
    clear hlocals
    induction names generalizing i with
    | nil => cases hi
    | cons m names ih =>
      intro start
      rcases List.nodup_cons.mp hnodup with ⟨hfresh, hrest⟩
      rw [List.map_cons, List.findIdxs_cons, hmk]
      cases i with
      | zero =>
        cases hi
        have hnone : (names.map mk).findIdxs (·.name == n) (start + 1) = [] := by
          rw [List.findIdxs_eq_nil_iff]
          intro l hl
          rcases List.mem_map.mp hl with ⟨k, hk, rfl⟩
          rw [hmk, beq_eq_false_iff_ne]
          rintro rfl
          exact hfresh hk
        rw [beq_self_eq_true, if_pos rfl, hnone, Nat.zero_add]
      | succ i =>
        have hmem : n ∈ names := List.mem_of_getElem? hi
        have hne : (m == n) = false := by
          rw [beq_eq_false_iff_ne]
          rintro rfl
          exact hfresh hmem
        rw [hne, if_neg Bool.false_ne_true, ih hrest hi, Nat.add_right_comm]
        rfl
  unfold Compiler.resolveLocal
  rw [hlocals, List.findIdxs_append, hfound, List.getLast?_concat]
  congr 1
  omega

theorem resolveLocal_name {c : Compiler ν} {n : String} {slot : ℕ}
    (h : c.resolveLocal n = some slot) : ∃ l, c.locals[slot]? = some l ∧ l.name = n := by
  have hmem := List.mem_of_getLast? h
  rcases List.mem_findIdxs_iff_exists_getElem_pos.mp hmem with ⟨hlt, hname⟩
  exact ⟨_, List.getElem?_eq_getElem hlt, by simpa using hname⟩

/-- One variable in a scope. -/
theorem declares_single_local (hpos : 0 < s₁.current.scopeDepth)
    (h : emitVar name more emitInit s = .ok (u, t)) (hinit : Initialized emitInit value s s₁)
    (hone : value = none ∨ more = []) (hnodup : (name :: more).Nodup)
    (hstack : vm.stack = base ++ value.toList) (hbase : base.length = s₁.current.localCount)
    (hroom : t.current.localCount ≤ vm.localsTable.length) :
    DeclaresAll roGlobals s₁ t vm (name :: more) (declValues (more.length + 1) value) ↔
      more = [] ∧ s₁.current.FreeHere name ∧ s₁.current.localCount < uint8Max := by
  rcases emitVar_single h hinit hone hstack with ⟨s₂, l₀, happ, hlocals, hdecls, hpush⟩
  have hpos₂ : 0 < s₂.current.scopeDepth := by
    rw [happ.scopeDepth]
    exact hpos
  have hcount₂ : s₂.current.localCount = base.length := by
    unfold Compiler.localCount at hbase ⊢
    rw [hlocals, hbase]
  have hadmits : s₂.current.Admits [name] ↔
      s₁.current.FreeHere name ∧ s₁.current.localCount < uint8Max := by
    unfold Compiler.Admits Compiler.FreeHere
    rw [hcount₂, hbase, hlocals, happ.scopeDepth]
    simp only [List.mem_singleton, forall_eq, ne_eq, List.cons_ne_nil, not_false_eq_true,
      forall_const, List.length_singleton, Nat.succ_le_iff]
  rcases emitVarDecls_local hpos₂ (List.nodup_singleton name) hdecls with
    ⟨hok, hlocals', l, happ', hrun⟩ | ⟨hnot, msg, herror⟩
  · have hlen : t.current.localCount = base.length + 1 := by
      unfold Compiler.localCount at hcount₂ ⊢
      rw [hlocals', List.length_append, hcount₂]
      rfl
    have hall : VarState.run t.current.iseq.constants
        (t.current.iseq.insns.drop s₁.current.iseq.insns.length) vm = some { vm with
          stack := base ++ [value.getD .nil]
          localsTable := vm.localsTable.set base.length (value.getD .nil) } := by
      rw [drop_of_appends (happ.trans happ'), runInsns_append, hpush, Option.bind_some, hrun, hcount₂,
        List.length_singleton, VarState.declLocals, VarState.declLocal,
        VarState.setLocal_concat (by omega)]
      rfl
    unfold DeclaresAll
    rw [hall, declValues_single hone, and_iff_left (hadmits.mp hok)]
    constructor
    · rintro ⟨vm', -, hdeclared⟩
      rcases more with _ | ⟨n, more⟩
      · rfl
      · -- the second name has no local
        rcases List.forall₂_cons.mp hdeclared.values with ⟨-, hrest⟩
        rcases List.forall₂_cons.mp hrest with ⟨hread, -⟩
        unfold ReadsBack at hread
        rw [if_neg (by omega)] at hread
        rcases hread with ⟨slot, hslot, hge, -⟩
        rcases resolveLocal_name hslot with ⟨found, hfound, hname⟩
        have hlast : slot = s₂.current.locals.length := by
          have hlt := (List.getElem?_eq_some_iff.mp hfound).1
          unfold Compiler.localCount at hlen hcount₂
          omega
        rw [hlocals', hlast, List.getElem?_append_right (Nat.le_refl _), Nat.sub_self] at hfound
        cases hfound
        have hsame : name = n := hname
        exact absurd (hsame ▸ List.mem_cons_self) (List.nodup_cons.mp hnodup).1
    · rintro rfl
      refine ⟨_, rfl, ?_⟩
      constructor
      · exact happ'.errMessages.trans happ.errMessages
      · rw [hlen, List.length_append, List.length_singleton]
      · intro slot hslot
        rw [← hbase] at hslot
        unfold VarState.readLocal
        rw [hstack, List.getElem?_append_left hslot, List.getElem?_append_left hslot,
          List.getElem?_set_ne (by omega)]
        exact ⟨rfl, rfl⟩
      · exact fun n _ => rfl
      · apply List.Forall₂.cons
        · unfold ReadsBack
          rw [if_neg (by omega)]
          have hslot := resolveLocal_declared hlocals' (fun _ => rfl) (List.nodup_singleton name)
            (show [name][0]? = some name from rfl)
          unfold Compiler.localCount at hcount₂
          rw [hcount₂, Nat.add_zero] at hslot
          refine ⟨base.length, hslot, hbase.ge, ?_⟩
          unfold VarState.readLocal
          rw [List.getElem?_set_self (by omega)]
          rfl
        · exact List.Forall₂.nil
  · constructor
    · rintro ⟨vm', -, hdeclared⟩
      have haccepted := hdeclared.accepted
      rw [herror, happ.errMessages] at haccepted
      exact absurd haccepted (by simp)
    · rintro ⟨-, hok⟩
      exact absurd (hadmits.mpr hok) hnot

/-- Several variables in a scope. -/
theorem declares_several_local (hpos : 0 < s₁.current.scopeDepth)
    (h : emitVar name more emitInit s = .ok (u, t)) (hinit : Initialized emitInit (some v) s s₁)
    (hmore : more ≠ []) (hnodup : (name :: more).Nodup) (hstack : vm.stack = base ++ [v])
    (hbase : base.length = s₁.current.localCount)
    (hroom : t.current.localCount ≤ vm.localsTable.length) :
    DeclaresAll roGlobals s₁ t vm (name :: more) (declValues (more.length + 1) (some v)) ↔
      (∃ els, v = .array els) ∧ (∀ n ∈ name :: more, s₁.current.FreeHere n ∧ n ≠ "_") ∧
        s₁.current.localCount + 1 + (more.length + 1) ≤ uint8Max := by
  have hsev := emitVar_several h hinit hmore
  rw [if_neg (by omega)] at hsev
  rcases hsev with ⟨s₂, hfake, hdecls⟩
  rcases bind_eq_ok hfake with ⟨s₃, s₄, hget, hfake⟩
  cases hget
  rcases bind_eq_ok hfake with ⟨_, s₅, hassert, hfake⟩
  rcases assert_eq_ok hassert with ⟨-, rfl⟩
  split at hfake
  · -- there was no slot left for the array
    rename_i hmax
    constructor
    · rintro ⟨vm', -, hdeclared⟩
      have hpos₂ : 0 < s₂.current.scopeDepth := by
        cases hfake
        exact hpos
      have haccepted := hdeclared.accepted
      rcases error_reports hfake with ⟨msg₀, hreported⟩
      rcases emitVarDecls_local hpos₂ hnodup hdecls with ⟨-, -, l, happ, -⟩ | ⟨-, msg, herror⟩
      · rw [happ.errMessages, hreported] at haccepted
        exact absurd haccepted (by simp)
      · rw [herror, hreported] at haccepted
        exact absurd haccepted (by simp)
    · rintro ⟨-, -, hfits⟩
      omega
  · rename_i hslot
    have hlocals₂ : s₂.current.locals = s₅.current.locals ++ [s₅.current.newLocal "_"] := by
      cases hfake
      rfl
    have hdepth₂ : s₂.current.scopeDepth = s₅.current.scopeDepth := by
      cases hfake
      rfl
    have hsame : s₂.errMessages = s₅.errMessages ∧
        s₂.current.iseq.insns = s₅.current.iseq.insns := by
      cases hfake
      exact ⟨rfl, rfl⟩
    have hcount₂ : s₂.current.localCount = base.length + 1 := by
      unfold Compiler.localCount at hbase ⊢
      rw [hlocals₂, List.length_append, List.length_singleton, hbase]
    have hadmits : s₂.current.Admits (name :: more) ↔
        (∀ n ∈ name :: more, s₅.current.FreeHere n ∧ n ≠ "_") ∧
          s₅.current.localCount + 1 + (more.length + 1) ≤ uint8Max := by
      unfold Compiler.Admits
      rw [hcount₂, hbase, List.length_cons]
      have hfree : ∀ n, s₂.current.FreeHere n ↔ s₅.current.FreeHere n ∧ n ≠ "_" := by
        intro n
        rw [freeHere_concat hlocals₂ hdepth₂ rfl]
        exact and_congr_right fun _ => ne_comm
      simp only [hfree, ne_eq, List.cons_ne_nil, not_false_eq_true, forall_const]
    rw [← hadmits]
    have hpos₂ : 0 < s₂.current.scopeDepth := by
      rw [hdepth₂]
      exact hpos
    rcases emitVarDecls_local hpos₂ hnodup hdecls with ⟨hok, hlocals', l, happ, hrun⟩ |
      ⟨hnot, msg, herror⟩
    · have hdrop : t.current.iseq.insns.drop s₅.current.iseq.insns.length = l := by
        rw [happ.insns, hsame.2, List.drop_left]
      have hlen : t.current.localCount = base.length + 1 + (more.length + 1) := by
        unfold Compiler.localCount at hcount₂ ⊢
        rw [hlocals', List.length_append, hcount₂, List.length_map, List.length_cons]
      unfold DeclaresAll
      rw [hdrop, hrun, hcount₂, and_iff_left hok]
      rcases vm with ⟨stack, table, globals⟩
      simp only at hstack hroom
      subst hstack
      constructor
      · rintro ⟨vm', hvm', -⟩
        by_contra hv
        have hnone : VarState.declLocals (name :: more).length (base.length + 1) (some 0)
            ⟨base ++ [v], table, globals⟩ = none :=
          VarState.declLocals_not_array ⟨[], table, globals⟩ fun els heq => hv ⟨els, heq⟩
        rw [hnone] at hvm'
        cases hvm'
      · rintro ⟨els, rfl⟩
        have htop : base.length + 1 = base.length + 1 + ([] : List (Value ν)).length := rfl
        have hfits : base.length + 1 + (name :: more).length ≤ table.length := by
          rw [List.length_cons, ← hlen]
          exact hroom
        rcases VarState.declLocals_unpack ⟨[], table, globals⟩ [] htop hfits with
          ⟨vm', hvm', hstack', hglobals', htable'⟩
        rw [List.append_nil] at hvm'
        refine ⟨vm', hvm', ?_⟩
        have hkept : ∀ slot < s₅.current.localCount, vm'.localsTable[slot]? = table[slot]? := by
          intro slot hslot
          rw [htable', if_neg (by omega)]
        constructor
        · exact happ.errMessages.trans hsame.1
        · rw [hstack', hlen]
          simp only [List.length_append, List.length_nil, List.length_map, List.length_range',
            List.length_cons, Nat.zero_add]
        · intro slot hslot
          have hbelow : vm'.stack[slot]? = (base ++ [Value.array els])[slot]? := by
            rw [hstack', List.getElem?_append_left]
            rw [List.length_append]
            omega
          unfold VarState.readLocal
          rw [hkept slot hslot, hbelow]
          exact ⟨rfl, rfl⟩
        · exact fun n _ => congrFun hglobals' n
        · have hvalues : declValues (more.length + 1) (some (Value.array els)) =
              (List.range (more.length + 1)).map fun i => els[i]?.getD .nil := by
            have htwo : more.length + 1 ≠ 1 := by
              have := List.length_pos_iff.mpr hmore
              omega
            rw [declValues, varValues, if_neg htwo]
            rfl
          rw [hvalues, List.forall₂_iff_get]
          refine ⟨by simp, fun i hi hi' => ?_⟩
          have hname : (name :: more)[i]? = some ((name :: more).get ⟨i, hi⟩) :=
            List.getElem?_eq_getElem hi
          have hslot := resolveLocal_declared hlocals' (fun _ => rfl) hnodup hname
          unfold Compiler.localCount at hcount₂
          rw [hcount₂] at hslot
          unfold ReadsBack
          rw [if_neg (by omega)]
          refine ⟨_, hslot, by omega, ?_⟩
          unfold VarState.readLocal
          rw [htable', if_pos ⟨by omega, by omega⟩, Nat.add_sub_cancel_left]
          simp
    · constructor
      · rintro ⟨vm', -, hdeclared⟩
        have haccepted := hdeclared.accepted
        rw [herror, hsame.1] at haccepted
        exact absurd haccepted (by simp)
      · rintro ⟨-, hok⟩
        exact absurd hok hnot

/-- For every number of variables and of earlier locals, in global scope and in any other: a
`VAR_STMT` declares its variables if and only if there is one of them, or they are set from an array
in a scope that is not the global one. -/
theorem emitVar_declares_iff (h : emitVar name more emitInit s = .ok (u, t))
    (hinit : Initialized emitInit value s s₁) (hmemo : s₁.Memoized) (hnodup : (name :: more).Nodup)
    (hstack : vm.stack = base ++ value.toList) (hbase : base.length = s₁.current.localCount)
    (hroom : t.current.localCount ≤ vm.localsTable.length) :
    DeclaresAll roGlobals s₁ t vm (name :: more) (declValues (more.length + 1) value) ↔
      DeclaresWhen roGlobals s₁ vm name more value := by
  unfold DeclaresWhen
  by_cases hone : value = none ∨ more = []
  · split
    · rename_i hzero
      rw [declares_single_global hzero h hinit hone hmemo hnodup hstack hbase, and_iff_right hone]
    · rename_i hpos
      rw [declares_single_local (by omega) h hinit hone hnodup hstack hbase hroom]
      constructor
      · exact Or.inl
      · rintro (hsingle | ⟨hmore, ⟨els, hels⟩, -⟩)
        · exact hsingle
        · rcases hone with hnone | hnil
          · rw [hnone] at hels
            cases hels
          · exact absurd hnil hmore
  · rcases not_or.mp hone with ⟨hsome, hmore⟩
    rcases Option.ne_none_iff_exists'.mp hsome with ⟨v, rfl⟩
    split
    · rename_i hzero
      constructor
      · intro hdeclares
        exact absurd hdeclares
          (not_declares_several_global hzero h hinit hmore hmemo hstack hbase)
      · exact fun hwhen => absurd hwhen.1 hone
    · rename_i hpos
      rw [declares_several_local (by omega) h hinit hmore hnodup hstack hbase hroom]
      constructor
      · rintro ⟨⟨els, rfl⟩, hrest⟩
        exact .inr ⟨hmore, ⟨els, rfl⟩, hrest⟩
      · rintro (⟨hnil, -⟩ | ⟨-, ⟨els, hels⟩, hrest⟩)
        · exact absurd hnil hmore
        · exact ⟨⟨els, Option.some.inj hels⟩, hrest⟩

end Statement

/-- The compiler at the start of a script, or in its first scope. -/
def declStart (scopeDepth : ℕ) : CompState ℤ :=
  { opts := {}, current := freshCompiler scopeDepth .topLevel none }

theorem declStart_memoized (scopeDepth : ℕ) : (declStart scopeDepth).Memoized := by
  intro name idx hlookup
  cases hlookup

theorem exists_ok {α : Type} {r : Except Abort (Unit × CompState ℤ)} {f : CompState ℤ → α} {a : α}
    (h : (r.toOption.map fun p => f p.2) = some a) : ∃ t, r = .ok ((), t) ∧ f t = a := by
  rcases r with _ | ⟨u, t⟩
  · cases h
  · exact ⟨t, rfl, Option.some.inj h⟩

/-- `{ var a, b = []; }` -/
theorem bothUnpacked_declares_iff : ∃ s₁ t : CompState ℤ,
    emitVar "a" ["b"] (some (emitOp .opArray [0])) (declStart 1) = .ok ((), t) ∧
      (DeclaresAll (fun _ => none) s₁ t ⟨[.array []], List.replicate 3 .nil, fun _ => none⟩ ["a", "b"]
          (declValues 2 (some (.array []))) ↔
        DeclaresWhen (fun _ => none) s₁ ⟨[.array []], List.replicate 3 .nil, fun _ => none⟩ "a" ["b"]
          (some (.array []))) := by
  rcases exists_ok (r := emitOp .opArray [0] (declStart 1)) (f := fun t => t.current.localCount)
    (a := 0) (by decide +kernel) with ⟨s₁, hinit, hcount₁⟩
  rcases exists_ok (r := emitVar "a" ["b"] (some (emitOp .opArray [0])) (declStart 1))
    (f := fun t => t.current.localCount) (a := 3) (by decide +kernel) with ⟨t, hrun, hcount⟩
  rcases emitOp_appends hinit with ⟨i, happ, -⟩
  have hstack : [Value.array []] = [] ++ [(Value.array [] : Value ℤ)] := rfl
  exact ⟨s₁, t, hrun, emitVar_declares_iff hrun hinit (happ.memoized (declStart_memoized 1))
    (by decide) hstack hcount₁.symm (by rw [hcount]; rfl)⟩

/-- `var a, b;` and `var a, b = [];` at the start of a script: `b` is not declared, and the array
stays on the stack. -/
theorem second_name_undeclared :
    (∃ t, emitVar "a" ["b"] none (declStart 0) = .ok ((), t) ∧
      ¬ DeclaresAll (fun _ => none) (declStart 0) t ⟨[], [], fun _ => none⟩ ["a", "b"]
        (declValues 2 none)) ∧
    ∃ s₁ t, emitOp .opArray [0] (declStart 0) = .ok ((), s₁) ∧
      emitVar "a" ["b"] (some (emitOp .opArray [0])) (declStart 0) = .ok ((), t) ∧
      ¬ DeclaresAll (fun _ => none) s₁ t ⟨[.array []], [], fun _ => none⟩ ["a", "b"]
        (declValues 2 (some (.array []))) := by
  constructor
  · rcases exists_ok (r := emitVar "a" ["b"] none (declStart 0))
      (f := fun t => t.current.localCount) (a := 0) (by decide +kernel) with ⟨t, hrun, -⟩
    refine ⟨t, hrun, fun hdeclares => ?_⟩
    have hinit : Initialized (none : Option (Emit ℤ Unit)) none (declStart 0) (declStart 0) := rfl
    have hstack : ([] : List (Value ℤ)) = [] ++ [] := rfl
    have hwhen := (declares_single_global rfl hrun hinit (.inl rfl) (declStart_memoized 0)
      (by decide) hstack rfl).mp hdeclares
    cases hwhen.2.2 "b" List.mem_cons_self
  · rcases exists_ok (r := emitOp .opArray [0] (declStart 0)) (f := fun t => t.current.localCount)
      (a := 0) (by decide +kernel) with ⟨s₁, hinit, hcount₁⟩
    rcases exists_ok (r := emitVar "a" ["b"] (some (emitOp .opArray [0])) (declStart 0))
      (f := fun t => t.current.localCount) (a := 0) (by decide +kernel) with ⟨t, hrun, -⟩
    rcases emitOp_appends hinit with ⟨i, happ, -⟩
    have hstack : [Value.array []] = [] ++ [(Value.array [] : Value ℤ)] := rfl
    have hbase : ([] : List (Value ℤ)).length = s₁.current.localCount := hcount₁.symm
    refine ⟨s₁, t, hinit, hrun, not_declares_several_global happ.scopeDepth hrun hinit
      (List.cons_ne_nil _ _) (happ.memoized (declStart_memoized 0)) hstack hbase⟩

end Clox
