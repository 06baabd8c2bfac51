import Mathlib.Data.List.GetD
import Clox.Compiler.Closures

/-! # The compiler keeps to lexical scoping

The steps of the compiler that open and close scopes and functions, declare
variables and resolve identifiers, next to the lexical scopes of the program.
The locals of the compilers mirror the scopes, so an identifier is resolved to
the innermost slot that goes by its name: the innermost declaration, unless a
slot the compiler named itself hides it.
-/

namespace Clox

variable {ν : Type}

/-- The locals of a compiler, by name and depth, and its scope depth. -/
abbrev Scoping := List (String × ℕ) × ℕ

def Compiler.scoping (c : Compiler ν) : Scoping :=
  (c.locals.map fun l => (l.name, l.depth), c.scopeDepth)

namespace CompState

/-- `current` and the compilers that enclose it. -/
def chain (s : CompState ν) : List (Compiler ν) := s.current :: s.enclosing

def scopings (s : CompState ν) : List Scoping := s.chain.map Compiler.scoping

/-- The descriptors of the functions that are being compiled. -/
def infos (s : CompState ν) : List (List Upvalue) := s.chain.map Compiler.upvalues

end CompState

/-! ## Locals mirror the scopes -/

/-- The locals of a function with these scopes, the last one first; `d` is the depth of the
innermost scope. -/
def localsOf : ℕ → LexFunction → List (String × ℕ)
  | _, [] => []
  | d, scope :: f => scope.map (fun b => (b.key, d)) ++ localsOf (d - 1) f

def Mirrors : List Scoping → Lex → Prop
  | [], [] => True
  | (locals, scopeDepth) :: rest, f :: lex =>
    f ≠ [] ∧ scopeDepth = (Lex.depth (f :: lex)) ∧ locals.reverse = localsOf scopeDepth f ∧
      locals.length ≤ 255 ∧ Mirrors rest lex
  | _, _ => False

theorem localsOf_keys (d : ℕ) (f : LexFunction) :
    (localsOf d f).map (·.1) = f.flatten.map Binding.key := by
  induction f generalizing d with
  | nil => rfl
  | cons scope f ih =>
    simp only [localsOf, List.map_append, List.map_map, ih, List.flatten_cons]
    rfl

/-- The locals of the scopes further out are less deep. -/
theorem depth_lt_of_mem_localsOf {d : ℕ} {f : LexFunction} (hd : f.length ≤ d) :
    ∀ l ∈ localsOf (d - 1) f, l.2 < d := by
  induction f generalizing d with
  | nil => simp [localsOf]
  | cons scope f ih =>
    intro l hl
    simp only [List.length_cons] at hd
    rcases List.mem_append.mp hl with hl | hl
    · rcases List.mem_map.mp hl with ⟨b, _, rfl⟩
      show d - 1 < d
      omega
    · have := ih (d := d - 1) (by omega) l hl
      omega

/-! ## Resolving an identifier -/

/-- The last of the locals with the name. -/
theorem findIdxs_getLast? {locals : List Local} {bs : List Binding} (level : ℕ) (name : String)
    (h : locals.reverse.map (·.name) = bs.map Binding.key) :
    (locals.findIdxs (·.name == name)).getLast? =
      ((Lex.numbered level bs).find? fun s => s.2.key == name).map (·.1.2) := by
  induction bs generalizing locals with
  | nil =>
    have hnil : locals = [] := by simpa using h
    subst hnil
    rfl
  | cons b bs ih =>
    cases hr : locals.reverse with
    | nil => simp [hr] at h
    | cons l ls =>
      have hlocals : locals = ls.reverse ++ [l] := by
        rw [← List.reverse_reverse locals, hr, List.reverse_cons]
      rw [hr, List.map_cons, List.map_cons, List.cons.injEq] at h
      have hlen : ls.length = bs.length := by
        have := congrArg List.length h.2
        simpa using this
      have hkeys : ls.reverse.reverse.map (·.name) = bs.map Binding.key := by
        rw [List.reverse_reverse]
        exact h.2
      have hrest := ih hkeys
      rw [hlocals, List.findIdxs_append, Lex.numbered, List.find?_cons, ← h.1]
      cases hname : l.name == name with
      | true => simp [List.findIdxs_cons, hname, hlen]
      | false =>
        simp only [List.findIdxs_singleton, hname, Bool.false_eq_true, if_false, List.append_nil]
        exact hrest

/-- The first function, from the inside out, with a local of the name, and its slot. -/
def firstPlace (name : String) : List (Compiler ν) → Option Place
  | [] => none
  | c :: rest =>
    match c.resolveLocal name with
    | some slot => some (rest.length, slot)
    | none => firstPlace name rest

theorem Mirrors.length_eq {ss : List Scoping} {lex : Lex} (h : Mirrors ss lex) :
    ss.length = lex.length := by
  induction ss generalizing lex with
  | nil =>
    cases lex with
    | nil => rfl
    | cons f lex => exact h.elim
  | cons s ss ih =>
    cases lex with
    | nil => exact h.elim
    | cons f lex => rw [List.length_cons, List.length_cons, ih h.2.2.2.2]

/-- A compiler's locals, when they mirror the scopes of its function. -/
theorem Mirrors.resolveLocal_eq {c : Compiler ν} {rest : List (Compiler ν)} {f : LexFunction}
    {lex : Lex} (h : Mirrors ((c :: rest).map Compiler.scoping) (f :: lex)) (name : String) :
    c.resolveLocal name =
      ((Lex.numbered lex.length f.flatten).find? fun s => s.2.key == name).map (·.1.2) := by
  apply findIdxs_getLast?
  have hkeys := congrArg (List.map Prod.fst) h.2.2.1
  rw [localsOf_keys, ← List.map_reverse, List.map_map] at hkeys
  exact hkeys

theorem find?_numbered_level {level : ℕ} {bs : List Binding} {p : Place × Binding → Bool}
    {s : Place × Binding} (h : (Lex.numbered level bs).find? p = some s) :
    s.1 = (level, s.1.2) := by
  have := (Lex.slot_lt_of_mem_numbered (List.mem_of_find?_eq_some h)).1
  rw [← this]

theorem Mirrors.firstPlace_eq {cs : List (Compiler ν)} {lex : Lex}
    (h : Mirrors (cs.map Compiler.scoping) lex) (name : String) :
    firstPlace name cs = lex.find (·.key == name) := by
  induction cs generalizing lex with
  | nil =>
    cases lex with
    | nil => rfl
    | cons f lex => exact h.elim
  | cons c rest ih =>
    cases lex with
    | nil => exact h.elim
    | cons f lex =>
      have hlen : rest.length = lex.length := by
        have := Mirrors.length_eq h.2.2.2.2
        rwa [List.length_map] at this
      rw [firstPlace, h.resolveLocal_eq, Lex.find, Lex.slots, List.find?_append]
      cases hfind : (Lex.numbered lex.length f.flatten).find? fun s => s.2.key == name with
      | none => exact ih h.2.2.2.2
      | some s =>
        rw [Option.map_some, Option.some_or, Option.map_some, find?_numbered_level hfind, hlen]

/-! ## Upvalue descriptors -/

theorem addUpvalue_spec {c c' : Compiler ν} {index i : ℕ} {isLocal : Bool}
    (hlen : c.upvalues.length ≤ lxMaxUpvalues)
    (h : c.addUpvalue index isLocal = (c', i, false)) :
    c'.scoping = c.scoping ∧ c.upvalues <+: c'.upvalues ∧
      c'.upvalues[i]? = some ⟨index, isLocal⟩ ∧
      (c'.upvalues = c.upvalues ∨
        (c'.upvalues = c.upvalues ++ [⟨index, isLocal⟩] ∧ ⟨index, isLocal⟩ ∉ c.upvalues ∧
          c.upvalues.length < lxMaxUpvalues)) := by
  unfold Compiler.addUpvalue at h
  split at h <;> rename_i hfind
  · cases h
    rcases List.findIdx?_eq_some_iff_getElem.mp hfind with ⟨hlt, hp, _⟩
    refine ⟨rfl, List.prefix_refl _, ?_, .inl rfl⟩
    rw [List.getElem?_eq_getElem hlt]
    simp only [Bool.and_eq_true, beq_iff_eq] at hp
    rw [← hp.1, ← hp.2]
  · split at h <;> rename_i hfull
    · cases h
    · cases h
      refine ⟨rfl, List.prefix_append .., by simp, .inr ⟨rfl, ?_, ?_⟩⟩
      · intro hmem
        have := List.findIdx?_eq_none_iff.mp hfind _ hmem
        simp at this
      · exact Nat.lt_of_le_of_ne hlen hfull

theorem resolveLocal_lt {c : Compiler ν} {name : String} {slot : ℕ}
    (h : c.resolveLocal name = some slot) : slot < c.locals.length := by
  have hmem := List.mem_of_getLast? h
  have := List.lt_add_of_mem_findIdxs _ hmem
  simpa using this

theorem map_modify_eq {α β : Type} {l : List α} {i : ℕ} {f : α → α} {g : α → β}
    (hf : ∀ a, l[i]? = some a → g (f a) = g a) : (l.modify i f).map g = l.map g := by
  apply List.ext_getElem?
  intro j
  rw [List.getElem?_map, List.getElem?_map, List.getElem?_modify]
  by_cases hij : i = j
  · subst hij
    cases ha : l[i]? with
    | none => rfl
    | some a => simpa using hf a ha
  · cases l[j]? <;> simp [hij]

/-- Marking a local as captured does not change its name or depth. -/
theorem mark_scoping (c : Compiler ν) (slot : ℕ) :
    ({ c with locals := c.locals.modify slot fun l => { l with isUpvalue := true } } :
      Compiler ν).scoping = c.scoping := by
  exact Prod.ext (map_modify_eq fun _ _ => rfl) rfl

/-- A descriptor that denotes a slot is added. -/
theorem ValidInfos.add {us us' : List Upvalue} {rest rest' : List (List Upvalue)} {d : Upvalue}
    (h : ValidInfos (us :: rest)) (hext : Extends rest rest') (hrest : ValidInfos rest')
    (hd : (denote rest' d).isSome) (hindex : d.index < 256)
    (hus : us' = us ∨ (us' = us ++ [d] ∧ d ∉ us ∧ us.length < lxMaxUpvalues)) :
    ValidInfos (us' :: rest') := by
  rcases h with ⟨hlen, hnodup, hall, _⟩
  have hall' : ∀ e ∈ us, (denote rest' e).isSome ∧ e.index < 256 := by
    intro e he
    rcases Option.isSome_iff_exists.mp (hall e he).1 with ⟨p, hp⟩
    exact ⟨Option.isSome_iff_exists.mpr ⟨p, denote_extends hext hp⟩, (hall e he).2⟩
  rcases hus with rfl | ⟨rfl, hnot, hlt⟩
  · exact ⟨hlen, hnodup, hall', hrest⟩
  · refine ⟨?_, ?_, ?_, hrest⟩
    · rw [List.length_append]
      exact hlt
    · refine List.nodup_append.mpr ⟨hnodup, by simp, ?_⟩
      intro a ha b hb
      cases List.mem_singleton.mp hb
      rintro rfl
      exact hnot ha
    · intro e he
      rcases List.mem_append.mp he with he | he
      · exact hall' e he
      · cases List.mem_singleton.mp he
        exact ⟨hd, hindex⟩

/-- What `resolveUpvalue` leaves behind: the scopes as they were, more descriptors, and an index
that denotes the first local of the name. -/
theorem resolveUpvalue_spec (name : String) {c c' : Compiler ν} {outers outers' : List (Compiler ν)}
    {r : Option ℕ} (hvalid : ValidInfos ((c :: outers).map Compiler.upvalues))
    (hsmall : ∀ o ∈ outers, o.locals.length ≤ 255)
    (h : Compiler.resolveUpvalue name c outers = (c', outers', r, false)) :
    (c' :: outers').map Compiler.scoping = (c :: outers).map Compiler.scoping ∧
      Extends ((c :: outers).map Compiler.upvalues) ((c' :: outers').map Compiler.upvalues) ∧
      ValidInfos ((c' :: outers').map Compiler.upvalues) ∧
      (r = none → firstPlace name outers = none) ∧
      ∀ i, r = some i → ∃ d p, c'.upvalues[i]? = some d ∧
        denote (outers'.map Compiler.upvalues) d = some p ∧ firstPlace name outers = some p := by
  induction outers generalizing c c' outers' r with
  | nil =>
    cases h
    exact ⟨rfl, .refl _, hvalid, fun _ => rfl, nofun⟩
  | cons outer rest ih =>
    have hlen : c.upvalues.length ≤ lxMaxUpvalues := hvalid.1
    rw [Compiler.resolveUpvalue] at h
    split at h <;> rename_i hlocal
    · -- a local of the function around this one
      rename_i slot
      have hslot : slot < outer.locals.length := resolveLocal_lt hlocal
      have hsmall' := hsmall outer (by simp)
      have hmod : slot % 256 = slot := Nat.mod_eq_of_lt (by omega)
      have hscoping₀ := mark_scoping outer slot
      rw [hmod] at h
      generalize hmark : ({ outer with
        locals := outer.locals.modify slot fun l => { l with isUpvalue := true } } :
          Compiler ν) = outer₀ at h hscoping₀
      have hupv₀ : outer₀.upvalues = outer.upvalues := by
        rw [← hmark]
      rcases hadd : c.addUpvalue slot true with ⟨c₁, i₁, overflow⟩
      simp only [hadd] at h
      cases h
      rcases addUpvalue_spec hlen hadd with ⟨hscoping, hprefix, hget, hus⟩
      have hden : denote ((outer₀ :: rest).map Compiler.upvalues) ⟨slot, true⟩ =
          some (rest.length, slot) := by
        simp [denote]
      have hext : Extends ((outer :: rest).map Compiler.upvalues)
          ((outer₀ :: rest).map Compiler.upvalues) := by
        rw [List.map_cons, List.map_cons, hupv₀]
        exact .refl _
      refine ⟨?_, ?_, ?_, (fun hi => by cases hi), fun i hi => ?_⟩
      · simp only [List.map_cons, hscoping, hscoping₀]
      · exact .cons hprefix hext
      · have hrest : ValidInfos ((outer₀ :: rest).map Compiler.upvalues) := by
          rw [List.map_cons, hupv₀]
          exact hvalid.2.2.2
        exact hvalid.add hext hrest (by rw [hden]; rfl) (by
          show slot < 256
          omega) hus
      · cases hi
        refine ⟨⟨slot, true⟩, (rest.length, slot), hget, hden, ?_⟩
        rw [firstPlace, hlocal]
    · -- a variable further out
      have hvalid' : ValidInfos ((outer :: rest).map Compiler.upvalues) := hvalid.2.2.2
      rcases hrec : Compiler.resolveUpvalue name outer rest with ⟨outer₁, rest₁, r₁, overflow₁⟩
      cases r₁ with
      | none =>
        simp only [hrec] at h
        cases h
        rcases ih hvalid' (fun o ho => hsmall o (List.mem_cons_of_mem _ ho)) hrec with
          ⟨hscoping, hext, hval, hplace, _⟩
        refine ⟨?_, ?_, ?_, fun _ => ?_, nofun⟩
        · rw [List.map_cons, hscoping]
          rfl
        · exact .cons (List.prefix_refl _) hext
        · rcases hvalid with ⟨h₁, h₂, h₃, _⟩
          refine ⟨h₁, h₂, fun d hd => ⟨?_, (h₃ d hd).2⟩, hval⟩
          rcases Option.isSome_iff_exists.mp (h₃ d hd).1 with ⟨p, hp⟩
          exact Option.isSome_iff_exists.mpr ⟨p, denote_extends hext hp⟩
        · rw [firstPlace, hlocal]
          exact hplace rfl
      | some up =>
        rcases hadd : c.addUpvalue (up % 256) false with ⟨c₁, i₁, overflow⟩
        simp only [hrec, hadd] at h
        cases overflow₁ with
        | true => simp at h
        | false =>
          cases overflow with
          | true => simp at h
          | false =>
            cases h
            rcases ih hvalid' (fun o ho => hsmall o (List.mem_cons_of_mem _ ho)) hrec with
              ⟨hscoping, hext, hval, _, hsome⟩
            rcases hsome up rfl with ⟨d, p, hd, hdp, hplace⟩
            have hup : up < outer₁.upvalues.length := (List.getElem?_eq_some_iff.mp hd).1
            have hmax : outer₁.upvalues.length ≤ 256 := hval.1
            have hmod : up % 256 = up := Nat.mod_eq_of_lt (by omega)
            rw [hmod] at hadd
            rcases addUpvalue_spec hlen hadd with ⟨hscoping', hprefix, hget, hus⟩
            have hden : denote ((outer₁ :: rest₁).map Compiler.upvalues) ⟨up, false⟩ = some p := by
              simp [denote, hd, hdp]
            refine ⟨?_, ?_, ?_, (fun hi => by cases hi), fun i hi => ?_⟩
            · rw [List.map_cons, hscoping, hscoping']
              rfl
            · exact .cons hprefix hext
            · exact hvalid.add hext hval (by rw [hden]; rfl) (by
                show up < 256
                omega) hus
            · cases hi
              refine ⟨⟨up, false⟩, p, hget, hden, ?_⟩
              rw [firstPlace, hlocal]
              exact hplace

/-! ## Code is emitted without touching the scopes -/

/-- What scoping is about in a state of the compiler. -/
def CompState.view (s : CompState ν) : List Scoping × List (List Upvalue) × List String :=
  (s.scopings, s.infos, s.errMessages)

/-- The computation only emits code. -/
def OnlyEmits {α : Type} (m : Emit ν α) : Prop :=
  ∀ s a s', m s = .ok (a, s') → s'.view = s.view

/-- A lifted computation leaves the state alone. -/
theorem Emit.liftM_eq_ok {α : Type} {x : Except Abort α} {s s' : CompState ν} {a : α}
    (h : (liftM x : Emit ν α) s = .ok (a, s')) : s' = s := by
  cases x <;> cases h
  rfl

namespace OnlyEmits

variable {α β : Type}

theorem pure (a : α) : OnlyEmits (Pure.pure a : Emit ν α) := by
  intro s b s' h
  cases h
  rfl

theorem bind {m : Emit ν α} {f : α → Emit ν β} (hm : OnlyEmits m) (hf : ∀ a, OnlyEmits (f a)) :
    OnlyEmits (m >>= f) := by
  intro s b s' h
  rcases Emit.bind_eq_ok h with ⟨a, s₁, h₁, h₂⟩
  exact (hf a s₁ b s' h₂).trans (hm s a s₁ h₁)

theorem get : OnlyEmits (MonadState.get : Emit ν (CompState ν)) := by
  intro s a s' h
  cases h
  rfl

theorem assert (b : Bool) : OnlyEmits (Emit.assert b : Emit ν Unit) := by
  intro s a s' h
  cases b <;> cases h
  rfl

theorem makeConstant (v : Value ν) : OnlyEmits (Emit.makeConstant v) := by
  intro s a s' h
  cases h
  rfl

theorem modifyConstTbl (f : List (String × ℕ) → List (String × ℕ)) :
    OnlyEmits (Emit.modifyCurrent fun c => { c with constTbl := f c.constTbl } : Emit ν Unit) := by
  intro s a s' h
  cases h
  rfl

theorem identifierConstant (name : String) : OnlyEmits (Emit.identifierConstant name : Emit ν ℕ) := by
  unfold Emit.identifierConstant
  refine bind get fun s => ?_
  split
  · exact pure _
  · exact bind (makeConstant _) fun idx => bind (modifyConstTbl _) fun _ => pure _

theorem emitOp (op : OpCode) (operands : List ℕ) :
    OnlyEmits (Emit.emitOp op operands : Emit ν Unit) := by
  intro s a s' h
  cases h
  rfl

theorem emitReturn : OnlyEmits (Emit.emitReturn : Emit ν Unit) := by
  unfold Emit.emitReturn
  refine bind get fun s => bind (assert _) fun _ => ?_
  split
  · exact bind (emitOp _ _) fun _ => emitOp _ _
  · split
    · split
      · exact bind (emitOp _ _) fun _ => emitOp _ _
      · exact emitOp _ _
    · split
      · split
        · exact bind (emitOp _ _) fun _ => bind (emitOp _ _) fun _ => emitOp _ _
        · exact emitOp _ _
      · exact bind (emitOp _ _) fun _ => emitOp _ _

end OnlyEmits

/-! ## What the scope operations do -/

section

variable {s s' : CompState ν} {locals : List (String × ℕ)} {d : ℕ} {rest : List Scoping}

theorem scopings_eq_cons : s.scopings = (locals, d) :: rest ↔
    s.current.locals.map (fun l => (l.name, l.depth)) = locals ∧ s.current.scopeDepth = d ∧
      s.enclosing.map Compiler.scoping = rest := by
  constructor
  · intro hs
    have hcons : s.current.scoping = (locals, d) ∧ s.enclosing.map Compiler.scoping = rest :=
      List.cons.inj hs
    exact ⟨congrArg Prod.fst hcons.1, congrArg Prod.snd hcons.1, hcons.2⟩
  · rintro ⟨rfl, rfl, rfl⟩
    rfl

theorem initCompiler_spec {ftype : FunctionType} {tok : String} (hf : ftype ≠ .topLevel)
    (hs : s.scopings = (locals, d) :: rest) (h : Emit.initCompiler ftype tok s = .ok ((), s')) :
    s'.scopings = ([("", d)], d) :: s.scopings ∧ s'.infos = [] :: s.infos ∧
      s'.errMessages = s.errMessages := by
  have hd := (scopings_eq_cons.mp hs).2.1
  cases h
  refine ⟨?_, ?_, rfl⟩
  · show (Emit.freshCompiler s.current.scopeDepth ftype _).scoping :: s.scopings = _
    rw [Emit.freshCompiler, if_neg hf, hd]
    rfl
  · show (Emit.freshCompiler s.current.scopeDepth ftype _).upvalues :: s.infos = _
    rw [Emit.freshCompiler, if_neg hf]
    rfl

theorem endCompiler_spec [LoxNum ν] {id : ℕ} (h : Emit.endCompiler s = .ok (id, s')) :
    s'.scopings = s.scopings.tail ∧ s'.infos = s.infos.tail ∧ s'.errMessages = s.errMessages := by
  rcases Emit.bind_eq_ok h with ⟨s₀, s₁, hget, h₁⟩
  cases hget
  rcases Emit.bind_eq_ok h₁ with ⟨func, s₂, hfunc, h₂⟩
  have hs₂ := Emit.liftM_eq_ok hfunc
  subst hs₂
  unfold CompState.scopings CompState.infos CompState.chain
  cases hencl : s₂.enclosing with
  | nil =>
    simp only [hencl] at h₂
    cases h₂
  | cons outer rest =>
    simp only [hencl] at h₂
    cases h₂
    exact ⟨rfl, rfl, rfl⟩

theorem pushScope_spec {stype : CompileScopeType} (hs : s.scopings = (locals, d) :: rest)
    (h : Emit.pushScope stype s = .ok ((), s')) :
    s'.scopings = (locals, d + 1) :: rest ∧ s'.infos = s.infos ∧
      s'.errMessages = s.errMessages := by
  rcases scopings_eq_cons.mp hs with ⟨hlocals, hdepth, hrest⟩
  cases h
  exact ⟨scopings_eq_cons.mpr ⟨hlocals, congrArg (· + 1) hdepth, hrest⟩, rfl, rfl⟩

theorem popLocals_spec {ctype : FunctionType} {depth : ℕ} {ls : List Local}
    (hs : s.scopings = ((ls.map fun l => (l.name, l.depth)).reverse, d) :: rest)
    (h : Emit.popLocals ctype depth ls s = .ok ((), s')) :
    s'.scopings =
        (((ls.map fun l => (l.name, l.depth)).dropWhile fun l => depth ≤ l.2).reverse, d) :: rest ∧
      s'.infos = s.infos ∧ s'.errMessages = s.errMessages := by
  induction ls generalizing s with
  | nil =>
    cases h
    exact ⟨hs, rfl, rfl⟩
  | cons l ls ih =>
    rw [Emit.popLocals] at h
    rw [List.map_cons, List.dropWhile_cons]
    by_cases hdepth : depth ≤ l.depth
    · rw [if_pos hdepth] at h
      rw [if_pos (by simpa using hdepth)]
      -- whichever opcode is emitted, the local goes
      have hdrop : ∃ s₁ : CompState ν, s₁.view = s.view ∧
          Emit.popLocals ctype depth ls { s₁ with
            current := { s₁.current with locals := s₁.current.locals.dropLast } } =
              .ok ((), s') := by
        split at h
        · rcases Emit.bind_eq_ok h with ⟨_, s₁, h₁, h₂⟩
          exact ⟨s₁, OnlyEmits.emitOp _ _ _ _ _ h₁, h₂⟩
        · split at h
          · rcases Emit.bind_eq_ok h with ⟨_, s₁, h₁, h₂⟩
            exact ⟨s₁, OnlyEmits.emitOp _ _ _ _ _ h₁, h₂⟩
          · exact ⟨s, rfl, h⟩
      rcases hdrop with ⟨s₁, hview, h₁⟩
      have hs₁ : s₁.scopings = s.scopings := congrArg Prod.fst hview
      rcases scopings_eq_cons.mp (hs₁.trans hs) with ⟨hlocals, hd, hrest⟩
      have hdropped : s₁.current.locals.dropLast.map (fun l => (l.name, l.depth)) =
          (ls.map fun l => (l.name, l.depth)).reverse := by
        rw [List.map_dropLast, hlocals]
        simp
      have hs₂ : CompState.scopings { s₁ with
          current := { s₁.current with locals := s₁.current.locals.dropLast } } =
            ((ls.map fun l => (l.name, l.depth)).reverse, d) :: rest :=
        scopings_eq_cons.mpr ⟨hdropped, hd, hrest⟩
      rcases ih hs₂ h₁ with ⟨hscopings, hinfos, herr⟩
      exact ⟨hscopings, hinfos.trans (congrArg (·.2.1) hview), herr.trans (congrArg (·.2.2) hview)⟩
    · rw [if_neg hdepth] at h
      rw [if_neg (by simpa using hdepth)]
      cases h
      exact ⟨hs, rfl, rfl⟩

/-- The end of `popScope`: the scope is closed. -/
def Emit.closeScope : Emit ν Unit := do
  let wordCount := (← currentIseq).wordCount
  match (← get).curScope with
  | [] => throw .nullDeref
  | scope :: parents =>
    modifyFunction fun f => { f with
      scopes := f.scopes.modify scope fun sc => { sc with bytecodeEnd := some wordCount } }
    modify fun s => { s with curScope := parents }
  modifyCurrent fun c => { c with scopeDepth := c.scopeDepth - 1 }

theorem closeScope_spec (hs : s.scopings = (locals, d) :: rest)
    (h : Emit.closeScope s = .ok ((), s')) :
    s'.scopings = (locals, d - 1) :: rest ∧ s'.infos = s.infos ∧
      s'.errMessages = s.errMessages := by
  rcases scopings_eq_cons.mp hs with ⟨hlocals, hdepth, hrest⟩
  rcases Emit.bind_eq_ok h with ⟨_, s₁, hget, h₁⟩
  cases hget
  rcases Emit.bind_eq_ok h₁ with ⟨_, s₂, hget, h₂⟩
  cases hget
  split at h₂
  · rcases Emit.bind_eq_ok h₂ with ⟨_, _, hthrow, _⟩
    cases hthrow
  · cases h₂
    exact ⟨scopings_eq_cons.mpr ⟨hlocals, congrArg (· - 1) hdepth, hrest⟩, rfl, rfl⟩

theorem popScope_spec {stype : CompileScopeType} (hs : s.scopings = (locals, d) :: rest)
    (h : Emit.popScope stype s = .ok ((), s')) :
    s'.scopings = ((locals.reverse.dropWhile fun l => d ≤ l.2).reverse, d - 1) :: rest ∧
      s'.infos = s.infos ∧ s'.errMessages = s.errMessages := by
  rcases scopings_eq_cons.mp hs with ⟨hlocals, hd, _⟩
  rcases Emit.bind_eq_ok h with ⟨s₀, s₁, hget, h₁⟩
  cases hget
  rcases Emit.bind_eq_ok h₁ with ⟨_, s₂, hpop, h₂⟩
  have hpopped := popLocals_spec (by rw [hs, List.map_reverse, List.reverse_reverse, hlocals]) hpop
  rw [List.map_reverse, hlocals, hd] at hpopped
  have hreturn : ∃ s₃, s₃.view = s₂.view ∧ Emit.closeScope s₃ = .ok ((), s') := by
    split at h₂
    · rcases Emit.bind_eq_ok h₂ with ⟨_, s₃, h₃, h₄⟩
      exact ⟨s₃, OnlyEmits.emitReturn _ _ _ h₃, h₄⟩
    · exact ⟨s₂, rfl, h₂⟩
  rcases hreturn with ⟨s₃, hview, h₃⟩
  have hs₃ : s₃.scopings = s₂.scopings := congrArg Prod.fst hview
  rcases closeScope_spec (hs₃.trans hpopped.1) h₃ with ⟨hscopings, hinfos, herr⟩
  exact ⟨hscopings, hinfos.trans ((congrArg (·.2.1) hview).trans hpopped.2.1),
    herr.trans ((congrArg (·.2.2) hview).trans hpopped.2.2)⟩

theorem addFakeLocal_spec {popOnScopeEnd : Bool} (hs : s.scopings = (locals, d) :: rest)
    (h : Emit.addFakeLocal popOnScopeEnd s = .ok ((), s')) (herr : s'.errMessages = []) :
    s'.scopings = (locals ++ [("_", d)], d) :: rest ∧ s'.infos = s.infos ∧
      s.errMessages = [] ∧ locals.length < 255 := by
  rcases scopings_eq_cons.mp hs with ⟨hlocals, hd, hrest⟩
  have hlen : locals.length = s.current.locals.length := by
    rw [← hlocals, List.length_map]
  rcases Emit.bind_eq_ok h with ⟨s₀, s₁, hget, h₁⟩
  cases hget
  rcases Emit.bind_eq_ok h₁ with ⟨_, s₂, hassert, h₂⟩
  rcases Emit.assert_eq_ok hassert with ⟨_, rfl⟩
  split at h₂ <;> rename_i hfull
  · cases h₂
    simp at herr
  · cases h₂
    refine ⟨scopings_eq_cons.mpr ⟨?_, hd, hrest⟩, rfl, herr, ?_⟩
    · rw [← hlocals, ← hd]
      exact List.map_append
    · rw [hlen]
      exact Nat.lt_of_not_le hfull

theorem addLocal_spec {name : String} {slot : Option ℕ} (hs : s.scopings = (locals, d) :: rest)
    (h : Emit.addLocal name s = .ok (slot, s')) (herr : s'.errMessages = []) :
    s'.scopings = (locals ++ [(name, d)], d) :: rest ∧ s'.infos = s.infos ∧
      s.errMessages = [] ∧ locals.length < 255 := by
  rcases scopings_eq_cons.mp hs with ⟨hlocals, hd, hrest⟩
  have hlen : locals.length = s.current.locals.length := by
    rw [← hlocals, List.length_map]
  rcases Emit.bind_eq_ok h with ⟨s₀, s₁, hget, h₁⟩
  cases hget
  split at h₁ <;> rename_i hfull
  · cases h₁
    simp at herr
  · cases h₁
    refine ⟨scopings_eq_cons.mpr ⟨?_, hd, hrest⟩, rfl, herr, ?_⟩
    · rw [← hlocals, ← hd]
      exact List.map_append
    · rw [hlen]
      exact Nat.lt_of_not_le hfull

theorem declareVariable_spec {name : String} {slot : Option ℕ}
    (hs : s.scopings = (locals, d) :: rest)
    (h : Emit.declareVariable name s = .ok (slot, s')) (herr : s'.errMessages = []) :
    if d = 0 then s'.view = s.view
    else s'.scopings = (locals ++ [(name, d)], d) :: rest ∧ s'.infos = s.infos ∧
      s.errMessages = [] ∧ locals.length < 255 := by
  rcases scopings_eq_cons.mp hs with ⟨hlocals, hd, hrest⟩
  rcases Emit.bind_eq_ok h with ⟨s₀, s₁, hget, h₁⟩
  cases hget
  rw [← hd]
  by_cases hdepth : s.current.scopeDepth = 0
  · rw [if_pos hdepth]
    rw [if_pos hdepth] at h₁
    exact OnlyEmits.bind (OnlyEmits.identifierConstant name) (fun _ => OnlyEmits.pure _) _ _ _ h₁
  · rw [if_neg hdepth]
    rw [if_neg hdepth] at h₁
    split at h₁
    · cases h₁
      simp at herr
    · rcases Emit.bind_eq_ok h₁ with ⟨index, s₂, hadd, h₂⟩
      have hview : s'.view = s₂.view := by
        cases index <;> cases h₂ <;> rfl
      have herr₂ : s₂.errMessages = [] := (congrArg (·.2.2) hview).symm.trans herr
      rcases addLocal_spec hs hadd herr₂ with ⟨hscopings, hinfos, herr', hlen⟩
      rw [hd]
      exact ⟨(congrArg Prod.fst hview).trans hscopings, (congrArg (·.2.1) hview).trans hinfos,
        herr', hlen⟩

theorem defineVariable_spec {arg : ℕ} (hs : s.scopings = (locals, d) :: rest)
    (harg : d = 0 ∨ ∃ name, locals[arg]? = some (name, d))
    (h : Emit.defineVariable arg s = .ok ((), s')) : s'.view = s.view := by
  rcases scopings_eq_cons.mp hs with ⟨hlocals, hd, hrest⟩
  rcases Emit.bind_eq_ok h with ⟨s₀, s₁, hget, h₁⟩
  cases hget
  by_cases hdepth : s.current.scopeDepth = 0
  · rw [if_pos hdepth] at h₁
    exact OnlyEmits.emitOp _ _ _ _ _ h₁
  · rw [if_neg hdepth] at h₁
    rcases harg with hzero | ⟨name, hname⟩
    · exact absurd (hd.trans hzero) hdepth
    · cases h₁
      -- the depth is set to what it was
      have hsame : (s.current.locals.modify arg fun l =>
          { l with depth := s.current.scopeDepth }).map (fun l => (l.name, l.depth)) =
            s.current.locals.map fun l => (l.name, l.depth) := by
        apply map_modify_eq
        intro l hl
        rw [← hlocals, List.getElem?_map, hl] at hname
        exact Prod.ext rfl (hd.trans (congrArg Prod.snd (Option.some.inj hname)).symm)
      refine Prod.ext ?_ rfl
      rw [CompState.view, CompState.view, hs]
      exact scopings_eq_cons.mpr ⟨hsame.trans hlocals, hd, hrest⟩

end

end Clox
