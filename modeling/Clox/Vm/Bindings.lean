import Clox.Compiler.State
import Clox.Runtime.Table
import Mathlib.Logic.Relation

/-! # Bindings

`localVariableSet`, `localVariableGet`, `localVariables` and `eval` of a `Binding`. The names of
the local variables and their slots are in a table of the function, which all its activations
share; the values are in the locals table of each activation. Names are strings, with a hash that
is a parameter; values are any type with a `NIL_VAL`.
-/

namespace Clox.Bindings

open Probing

/-! ## Names and slots of a function -/

/-- What a binding sees of an `ObjFunction`; `declarations` are the names and the slots of
all variables that were declared (`variables`). The `localsTable` changes and is kept apart. -/
structure Function where
  topLevel : Bool
  localCount : ℕ
  declarations : List (String × ℕ)
  deriving DecidableEq, Repr

/-- What the compiler of a function does to its locals. -/
inductive Declares {ν : Type} : Compiler ν → Compiler ν → Prop
  | declare {s s' : CompState ν} {name : String} {slot : Option ℕ}
      (h : Emit.declareVariable name s = .ok (slot, s')) : Declares s.current s'.current
  | temporary {s s' : CompState ν} {popOnScopeEnd : Bool} {u : Unit}
      (h : Emit.addFakeLocal popOnScopeEnd s = .ok (u, s')) : Declares s.current s'.current
  /-- `popScope`. The slot of the function itself was there before its scopes were opened. -/
  | leave {c : Compiler ν} {n : ℕ} (h : c.type = .topLevel ∨ 0 < n) :
      Declares c { c with locals := c.locals.take n }
  /-- Everything else. -/
  | other {c c' : Compiler ν} (htype : c'.type = c.type)
      (hcount : c'.localCount = c.localCount) (hmax : c'.localCountMax = c.localCountMax)
      (hvariables : c'.function.localVariables = c.function.localVariables)
      (htable : c'.function.localsTable = c.function.localsTable) : Declares c c'

/-- A compiler of a function, wherever it has got to. -/
def Declared {ν : Type} (c : Compiler ν) : Prop :=
  ∃ depth ftype name, Relation.ReflTransGen Declares (Emit.freshCompiler depth ftype name) c

/-- The slot that the compiler gave a name. -/
def declaredSlot {ν : Type} (c : Compiler ν) (name : String) : Option ℕ :=
  c.function.localsTable.lookup name

/-- The function that the compiler has made. The order of the names in the table depends on their
hashes. -/
structure Compiles {ν : Type} (hash : String → ℕ) (c : Compiler ν) (f : Function)
    (t : Table String ℕ) : Prop where
  declared : Declared c
  topLevel : f.topLevel = decide (c.type = .topLevel)
  localCount : f.localCount = c.localCountMax
  declarations : f.declarations = c.function.localVariables.map fun v => (v.name, v.slot)
  table : t.Stands (fun a b => a == b) hash (declaredSlot c)

section Declared

variable {ν : Type} {c c' : Compiler ν} {s s' : CompState ν}

/-- The names of the table are those that were declared, with the slot of one of the
declarations, and no slot is outside of the locals. -/
structure Slotted (c : Compiler ν) : Prop where
  listed : ∀ name slot, declaredSlot c name = some slot →
    ∃ v ∈ c.function.localVariables, v.name = name ∧ v.slot = slot
  named : ∀ v ∈ c.function.localVariables, (declaredSlot c v.name).isSome
  below : ∀ v ∈ c.function.localVariables, v.slot < c.localCountMax
  behind : c.type ≠ .topLevel → ∀ v ∈ c.function.localVariables, v.slot ≠ 0
  first : c.type ≠ .topLevel → 0 < c.localCount ∧ 0 < c.localCountMax

theorem Slotted.congr (hs : Slotted c) (htype : c'.type = c.type)
    (hcount : c.type ≠ .topLevel → 0 < c.localCount → 0 < c'.localCount)
    (hmax : c.localCountMax ≤ c'.localCountMax)
    (hvariables : c'.function.localVariables = c.function.localVariables)
    (htable : c'.function.localsTable = c.function.localsTable) : Slotted c' := by
  have hslot (name : String) : declaredSlot c' name = declaredSlot c name := by
    rw [declaredSlot, htable, declaredSlot]
  constructor
  · intro name slot hname
    rw [hslot] at hname
    rw [hvariables]
    exact hs.listed name slot hname
  · intro v hv
    rw [hvariables] at hv
    rw [hslot]
    exact hs.named v hv
  · intro v hv
    rw [hvariables] at hv
    exact Nat.lt_of_lt_of_le (hs.below v hv) hmax
  · intro hnot v hv
    rw [hvariables] at hv
    exact hs.behind (htype ▸ hnot) v hv
  · intro hnot
    rcases hs.first (htype ▸ hnot) with ⟨hfirst, hfirstMax⟩
    exact ⟨hcount (htype ▸ hnot) hfirst, by omega⟩

theorem Slotted.fresh (depth : ℕ) (ftype : FunctionType) (name : Option String) :
    Slotted (Emit.freshCompiler depth ftype name : Compiler ν) := by
  have hvariables : (Emit.freshCompiler depth ftype name : Compiler ν).function.localVariables =
      [] := by
    rw [Emit.freshCompiler]
    split <;> rfl
  have htable : (Emit.freshCompiler depth ftype name : Compiler ν).function.localsTable = [] := by
    rw [Emit.freshCompiler]
    split <;> rfl
  constructor
  · intro n slot hslot
    rw [declaredSlot, htable] at hslot
    cases hslot
  · intro v hv
    rw [hvariables] at hv
    cases hv
  · intro v hv
    rw [hvariables] at hv
    cases hv
  · intro _ v hv
    rw [hvariables] at hv
    cases hv
  · intro htype
    have hne : ftype ≠ .topLevel := by
      rintro rfl
      exact htype rfl
    rw [Emit.freshCompiler, if_neg hne]
    exact ⟨Nat.zero_lt_one, Nat.zero_lt_one⟩

/-- A constant is no declaration. -/
theorem identifierConstant_slotted {name : String} {idx : ℕ} (hs : Slotted s.current)
    (h : Emit.identifierConstant name s = .ok (idx, s')) : Slotted s'.current := by
  rcases Emit.bind_eq_ok h with ⟨s₀, s₁, hget, h₁⟩
  cases hget
  cases hlookup : s.current.constTbl.lookup name with
  | some i =>
    simp only [hlookup] at h₁
    cases h₁
    exact hs
  | none =>
    simp only [hlookup] at h₁
    rcases Emit.bind_eq_ok h₁ with ⟨idx₁, s₂, hmake, h₂⟩
    rcases Emit.bind_eq_ok hmake with ⟨iseq, s₃, hiseq, h₃⟩
    cases hiseq
    cases h₃
    cases h₂
    exact hs.congr rfl (fun _ h => h) (Nat.le_refl _) rfl rfl

/-- The name gets the slot behind the other locals. -/
theorem Slotted.declare {name : String} (hs : Slotted c) {v : LocalVariable} (hname : v.name = name)
    (hslot : v.slot = c.localCount) {l : Local} (htype : c'.type = c.type)
    (hcount : c'.localCount = (c.pushLocal l).localCount)
    (hmax : c'.localCountMax = (c.pushLocal l).localCountMax)
    (hvariables : c'.function.localVariables = c.function.localVariables ++ [v])
    (htable : c'.function.localsTable =
      (name, c.localCount) :: c.function.localsTable.filter (·.1 ≠ name)) : Slotted c' := by
  have hcount' : c'.localCount = c.localCount + 1 := by
    rw [hcount, Compiler.localCount, Compiler.pushLocal, List.length_append]
    rfl
  have hmax' : c'.localCountMax = max c.localCountMax (c.localCount + 1) := hmax
  have hself : declaredSlot c' name = some c.localCount := by
    rw [declaredSlot, htable, List.lookup_cons_self]
  have hother (n : String) (hn : n ≠ name) : declaredSlot c' n = declaredSlot c n := by
    rw [declaredSlot, htable, List.lookup_cons, beq_false_of_ne hn, declaredSlot]
    show (c.function.localsTable.filter (·.1 ≠ name)).lookup n = _
    generalize c.function.localsTable = t
    induction t with
    | nil => rfl
    | cons e t ih =>
      by_cases he : e.1 = name
      · have hne : (n == e.1) = false := beq_false_of_ne (he ▸ hn)
        rw [List.filter_cons_of_neg (by simpa using he), List.lookup_cons, hne]
        exact ih
      · rw [List.filter_cons_of_pos (by simpa using he), List.lookup_cons, List.lookup_cons, ih]
  constructor
  · intro n slot hn
    rw [hvariables]
    by_cases heq : n = name
    · subst heq
      rw [hself] at hn
      cases hn
      exact ⟨v, List.mem_append_right _ List.mem_cons_self, hname, hslot⟩
    · rw [hother n heq] at hn
      rcases hs.listed n slot hn with ⟨w, hw, hboth⟩
      exact ⟨w, List.mem_append_left _ hw, hboth⟩
  · intro w hw
    by_cases heq : w.name = name
    · rw [heq, hself]
      rfl
    · rw [hother w.name heq]
      rw [hvariables] at hw
      rcases List.mem_append.mp hw with hold | hnew
      · exact hs.named w hold
      · rw [List.mem_singleton.mp hnew, hname] at heq
        exact absurd rfl heq
  · intro w hw
    rw [hmax']
    rw [hvariables] at hw
    rcases List.mem_append.mp hw with hold | hnew
    · have hlt := hs.below w hold
      omega
    · rw [List.mem_singleton.mp hnew, hslot]
      omega
  · intro hnot w hw
    rw [htype] at hnot
    rw [hvariables] at hw
    rcases List.mem_append.mp hw with hold | hnew
    · exact hs.behind hnot w hold
    · rw [List.mem_singleton.mp hnew, hslot]
      have hpos := (hs.first hnot).1
      omega
  · intro _
    constructor
    · omega
    · omega

theorem declareVariable_slotted {name : String} {slot : Option ℕ} (hs : Slotted s.current)
    (h : Emit.declareVariable name s = .ok (slot, s')) : Slotted s'.current := by
  rcases Emit.bind_eq_ok h with ⟨s₀, s₁, hget, h₁⟩
  cases hget
  by_cases hdepth : s.current.scopeDepth = 0
  · -- a global: only the constant is added
    rw [if_pos hdepth] at h₁
    rcases Emit.bind_eq_ok h₁ with ⟨arg, s₂, hconst, h₂⟩
    cases h₂
    exact identifierConstant_slotted hs hconst
  · rw [if_neg hdepth] at h₁
    split at h₁
    · rcases Emit.bind_eq_ok h₁ with ⟨_, s₂, herror, h₂⟩
      cases herror
      cases h₂
      exact hs.congr rfl (fun _ h => h) (Nat.le_refl _) rfl rfl
    · rcases Emit.bind_eq_ok h₁ with ⟨index, s₂, hadd, h₂⟩
      rcases Emit.bind_eq_ok hadd with ⟨s₃, s₄, hget, h₃⟩
      cases hget
      split at h₃
      · rcases Emit.bind_eq_ok h₃ with ⟨_, s₅, herror, h₄⟩
        cases herror
        cases h₄
        cases h₂
        exact hs.congr rfl (fun _ h => h) (Nat.le_refl _) rfl rfl
      · cases h₃
        cases h₂
        exact hs.declare rfl rfl rfl rfl rfl rfl rfl

theorem addFakeLocal_slotted {popOnScopeEnd : Bool} {u : Unit} (hs : Slotted s.current)
    (h : Emit.addFakeLocal popOnScopeEnd s = .ok (u, s')) : Slotted s'.current := by
  rcases Emit.bind_eq_ok h with ⟨s₀, s₁, hget, h₁⟩
  cases hget
  rcases Emit.bind_eq_ok h₁ with ⟨_, s₂, hassert, h₂⟩
  rcases Emit.assert_eq_ok hassert with ⟨-, rfl⟩
  split at h₂
  · cases h₂
    exact hs.congr rfl (fun _ h => h) (Nat.le_refl _) rfl rfl
  · cases h₂
    refine hs.congr rfl (fun _ _ => ?_) (Nat.le_max_left _ _) rfl rfl
    show 0 < (_ ++ [_] : List Local).length
    rw [List.length_append]
    exact Nat.succ_pos _

theorem Declares.slotted (hs : Slotted c) (h : Declares c c') : Slotted c' := by
  cases h with
  | declare h => exact declareVariable_slotted hs h
  | temporary h => exact addFakeLocal_slotted hs h
  | leave h =>
    refine hs.congr rfl ?_ (Nat.le_refl _) rfl rfl
    intro hnot hpos
    rcases h with htop | hn
    · exact absurd htop hnot
    · rw [Compiler.localCount, List.length_take]
      exact Nat.lt_min.mpr ⟨hn, hpos⟩
  | other htype hcount hmax hvariables htable =>
    exact hs.congr htype (fun _ hpos => hcount ▸ hpos) (Nat.le_of_eq hmax.symm) hvariables htable

theorem Declared.slotted (h : Declared c) : Slotted c := by
  rcases h with ⟨depth, ftype, name, hrun⟩
  induction hrun with
  | refl => exact Slotted.fresh depth ftype name
  | tail _ hstep ih => exact hstep.slotted ih

end Declared

/-! ## Locals tables -/

/-- An `ObjScope`: the locals table of an activation, its capacity being the length of `tbl`, and
the stack slots of the activation while it runs. -/
structure Scope (V : Type) where
  size : ℕ
  tbl : List V
  frame : Option (ℕ → V)

/-- The table of the function and its activations. -/
structure World (V : Type) where
  localsTable : Table String ℕ
  scopes : List (Scope V)

/-- What a method gives. -/
inductive Out (V : Type)
  | value (v : V)
  | variables (entries : List (String × V))
  /-- The name is no local: a global is read. -/
  | global
  /-- Memory is read that is not in the locals table. -/
  | outside
  deriving DecidableEq, Repr

/-- `LX_MAX_LOCALS` -/
def lxMaxLocals : ℕ := 256

section Operations

variable {V : Type} [Inhabited V] (hash : String → ℕ) (f : Function)

/-- `growLocalsTable`. There may be room already, and then the size can shrink. -/
def growLocalsTable (s : Scope V) (size : ℕ) : Scope V :=
  if size ≤ s.tbl.length then { s with size }
  else { s with size, tbl := s.tbl ++ List.replicate (2 * size - s.tbl.length) default }

/-- `scope->localsTable.tbl[slot]` -/
def readTbl (s : Scope V) (slot : ℕ) : Out V :=
  match s.tbl[slot]? with
  | some v => .value v
  | none => .outside

/-- `tableGet` of `func->localsTable` -/
def slotOf (t : Table String ℕ) (name : String) : Option (Option ℕ) :=
  tableGet (fun a b => a == b) hash t name

/-- `lxBindingLocalVariableSet` -/
def localVariableSet (w : World V) (scope : ℕ) (name : String) (val : V) :
    Option (Out V × World V) := do
  let res ← slotOf hash w.localsTable name
  let (slot, localsTable) ← match res with
    | some slot => some (slot, w.localsTable)
    | none => do
      let slot := w.localsTable.count + 1
      let (_, localsTable) ← tableSet (fun a b => a == b) hash w.localsTable name slot
      some (slot, localsTable)
  let scopes := w.scopes.modify scope fun s =>
    let s := growLocalsTable s (slot + 1)
    { s with tbl := s.tbl.set slot val }
  some (.value val, { localsTable, scopes })

/-- `lxBindingLocalVariableGet` -/
def localVariableGet (w : World V) (s : Scope V) (name : String) : Option (Out V) := do
  let res ← slotOf hash w.localsTable name
  match res with
  | some slot => some (readTbl s slot)
  | none => some (.value default)

/-- The names and slots, in the order of `TABLE_FOREACH`. -/
def entries (t : Table String ℕ) : List (String × ℕ) := t.entries.filterMap id

/-- `lxBindingLocalVariables` -/
def localVariables (w : World V) (s : Scope V) : Out V :=
  match (entries w.localsTable).mapM fun e => s.tbl[e.2]?.map fun v => (e.1, v) with
  | some l => .variables l
  | none => .outside

/-- `initBindingEvalCompiler`. The locals get the slots in which they are met. -/
def initBindingEvalCompiler (t : Table String ℕ) : Compiler Unit :=
  let scopeDepth := if f.topLevel then 0 else 1
  -- `initCompiler` without a first local, as for the top level
  let c : Compiler Unit := Emit.freshCompiler scopeDepth .topLevel none
  let c := { c with type := .eval, function := { c.function with ftype := .eval } }
  let c := if f.topLevel then c else c.pushLocal { name := "", depth := scopeDepth }
  (entries t).foldl (fun c e => c.pushLocal { name := e.1, depth := scopeDepth }) c

/-- What the code of `Binding#eval` reads for a name. It has a stack of its own. -/
def evalRead (w : World V) (s : Scope V) (name : String) : Out V :=
  let c := initBindingEvalCompiler f w.localsTable
  if lxMaxLocals < c.localCount then .outside
  else
    match c.resolveLocal name with
    | none => .global
    | some slot => if slot < s.size then readTbl s slot else .outside

/-- `OP_GET_LOCAL` in the function itself -/
def getLocal (s : Scope V) (frame : ℕ → V) (slot : ℕ) : Option V :=
  if slot < s.size then s.tbl[slot]? else some (frame slot)

/-- `newScope` -/
def newScope (frame : ℕ → V) : Scope V :=
  ⟨f.localCount, List.replicate f.localCount default, some frame⟩

/-- `setupLocalsTable` -/
def setupLocalsTable (s : Scope V) (frame : ℕ → V) (localsSize : ℕ) : Scope V :=
  let s := if s.size < localsSize then growLocalsTable s localsSize else s
  { s with tbl := (List.range localsSize).map frame ++ s.tbl.drop localsSize }

end Operations

/-- What happens to the function and its activations. -/
inductive Step (V : Type)
  | localVariableSet (scope : ℕ) (name : String) (val : V)
  | localVariableGet (scope : ℕ) (name : String)
  | localVariables (scope : ℕ)
  /-- Code that `Binding#eval` runs reads a name. -/
  | evalRead (scope : ℕ) (name : String)
  /-- The function is called: its stack slots, of which the first ones are the arguments. -/
  | call (frame : ℕ → V) (localsSize : ℕ)

section Runs

variable {V : Type} [Inhabited V] (hash : String → ℕ) (f : Function)

/-- `none` is a probe of the table without an end, or a binding that there is not. -/
def step (w : World V) : Step V → Option (Out V × World V)
  | .localVariableSet scope name val => localVariableSet hash w scope name val
  | .localVariableGet scope name => do
    let s ← w.scopes[scope]?
    let out ← localVariableGet hash w s name
    some (out, w)
  | .localVariables scope => do
    let s ← w.scopes[scope]?
    some (localVariables w s, w)
  | .evalRead scope name => do
    let s ← w.scopes[scope]?
    some (evalRead f w s name, w)
  | .call frame localsSize =>
    some (.value default,
      { w with scopes := w.scopes ++ [setupLocalsTable (newScope f frame) frame localsSize] })

/-! ## The store -/

/-- The variables of an activation by name. -/
abbrev Store (V : Type) := String → Option V

/-- What the variables of a new activation are: arguments, or nil. -/
def calledStore (slots : String → Option ℕ) (frame : ℕ → V) (localsSize : ℕ) : Store V :=
  fun name => (slots name).map fun slot => if slot < localsSize then frame slot else default

/-- What is in the variables after a step. -/
def stepStores (slots : String → Option ℕ) (stores : List (Store V)) : Step V → List (Store V)
  | .localVariableSet scope name val =>
    stores.modify scope fun store => Function.update store name (some val)
  | .call frame localsSize => stores ++ [calledStore slots frame localsSize]
  | _ => stores

/-- What a step should give. -/
def Answers (stores : List (Store V)) (out : Out V) : Step V → Prop
  | .localVariableSet _ _ val => out = .value val
  | .localVariableGet scope name =>
    ∀ store, stores[scope]? = some store → out = .value ((store name).getD default)
  | .localVariables scope =>
    ∀ store, stores[scope]? = some store → ∃ l, out = .variables l ∧ (l.map Prod.fst).Nodup ∧
      ∀ name v, (name, v) ∈ l ↔ store name = some v
  | .evalRead scope name =>
    ∀ store, stores[scope]? = some store → out = ((store name).elim .global .value)
  | .call _ _ => True

/-- The slots that the function itself uses: the one of its receiver and those of its
variables. -/
def OwnSlot (slot : ℕ) : Prop :=
  (f.topLevel = false ∧ slot = 0) ∨ ∃ name, (name, slot) ∈ f.declarations

/-- A step leaves the activations as they are, except for the variable that it sets; that one has
the value for the function itself too. -/
def Keeps (w w' : World V) (e : Step V) : Prop :=
  ∀ scope s, w.scopes[scope]? = some s → ∃ s', w'.scopes[scope]? = some s' ∧ s'.frame = s.frame ∧
    match e with
    | .localVariableSet target name val =>
      (scope ≠ target → s' = s) ∧
      ∀ slot, OwnSlot f slot → scope = target →
        if slotOf hash w.localsTable name = some (some slot) then
          ∀ frame, getLocal s' frame slot = some val
        else
          s'.tbl[slot]? = s.tbl[slot]? ∧
            ∀ frame, s.frame = some frame → getLocal s' frame slot = getLocal s frame slot
    | _ => s' = s

/-- The steps go on as they would on stores. -/
def Follows (slots : String → Option ℕ) : World V → List (Store V) → List (Step V) → Prop
  | _, _, [] => True
  | w, stores, e :: run =>
    ∃ out w', step hash f w e = some (out, w') ∧ Answers stores out e ∧ Keeps hash f w w' e ∧
      Follows slots w' (stepStores slots stores e) run

/-! ## When they do -/

/-- A name is in a slot, by a declaration or by the table. -/
def Uses (w : World V) (name : String) (slot : ℕ) : Prop :=
  (name, slot) ∈ f.declarations ∨ slotOf hash w.localsTable name = some (some slot)

/-- The slot that `localVariableSet` writes to. -/
def targetSlot (w : World V) (name : String) : ℕ :=
  ((slotOf hash w.localsTable name).join).getD (w.localsTable.count + 1)

/-- The function finds the value of the slot `other` where it was, in its locals table or on the
stack, when the size has become that for `slot`; or it is the same in both. -/
def Steady (s : Scope V) (slot other : ℕ) : Prop :=
  ∀ frame, s.frame = some frame → (other < s.size ↔ other ≤ slot) ∨
    s.tbl[other]? = some (frame other)

/-- The condition on a step. -/
def Meets (w : World V) : Step V → Prop
  | .localVariableSet scope name _ =>
    scope < w.scopes.length ∧
    (∀ name' slot, Uses hash f w name' slot → slot = targetSlot hash w name → name' = name) ∧
    (slotOf hash w.localsTable name = some none → w.scopes.length = 1) ∧
    (∀ s, w.scopes[scope]? = some s → ∀ slot, OwnSlot f slot → slot ≠ targetSlot hash w name →
      Steady s (targetSlot hash w name) slot)
  | .localVariableGet scope _ => scope < w.scopes.length
  | .localVariables scope => scope < w.scopes.length
  | .evalRead scope name =>
    let c := initBindingEvalCompiler f w.localsTable
    scope < w.scopes.length ∧ c.localCount ≤ lxMaxLocals ∧
    slotOf hash w.localsTable name = some (c.resolveLocal name) ∧
    ∀ s, w.scopes[scope]? = some s → ∀ slot, c.resolveLocal name = some slot → slot < s.size
  | .call _ _ =>
    ∀ name slot, slotOf hash w.localsTable name = some (some slot) → (name, slot) ∈ f.declarations

/-- All steps of a run meet it. -/
def MeetsAll : World V → List (Step V) → Prop
  | _, [] => True
  | w, e :: run =>
    Meets hash f w e ∧ ∀ out w', step hash f w e = some (out, w') → MeetsAll w' run

end Runs

/-! ## Each step -/

section Proofs

variable {V : Type} {ν : Type} {hash : String → ℕ} {f : Function} {w : World V}
  {slots m : String → Option ℕ} {stores : List (Store V)} {name : String} {slot : ℕ} {val : V}
  {s : Scope V} {t : Table String ℕ} {c : Compiler ν}

theorem stringKeys (hash : String → ℕ) : LawfulKeys (fun a b : String => a == b) hash where
  refl _ := beq_self_eq_true _
  symm h := by
    rw [eq_of_beq h]
    exact beq_self_eq_true _
  trans h h' := by
    rw [eq_of_beq h, eq_of_beq h']
    exact beq_self_eq_true _
  hash_eq h := by rw [eq_of_beq h]

/-- What the compiler has seen to. -/
structure Named (f : Function) (slots : String → Option ℕ) : Prop where
  listed : ∀ name slot, slots name = some slot → (name, slot) ∈ f.declarations
  named : ∀ name slot, (name, slot) ∈ f.declarations → (slots name).isSome
  below : ∀ name slot, (name, slot) ∈ f.declarations → slot < f.localCount
  behind : f.topLevel = false → ∀ name slot, (name, slot) ∈ f.declarations → slot ≠ 0
  first : f.topLevel = false → 0 < f.localCount

theorem Compiles.named (h : Compiles hash c f t) : Named f (declaredSlot c) := by
  have hs := h.declared.slotted
  have hmem (name : String) (slot : ℕ) : (name, slot) ∈ f.declarations ↔
      ∃ v ∈ c.function.localVariables, v.name = name ∧ v.slot = slot := by
    rw [h.declarations, List.mem_map]
    simp only [Prod.mk.injEq]
  have htop (hf : f.topLevel = false) : c.type ≠ .topLevel := by
    rw [h.topLevel] at hf
    exact of_decide_eq_false hf
  constructor
  · intro name slot hslot
    exact (hmem name slot).mpr (hs.listed name slot hslot)
  · intro name slot hdecl
    rcases (hmem name slot).mp hdecl with ⟨v, hv, rfl, rfl⟩
    exact hs.named v hv
  · intro name slot hdecl
    rcases (hmem name slot).mp hdecl with ⟨v, hv, rfl, rfl⟩
    rw [h.localCount]
    exact hs.below v hv
  · intro hf name slot hdecl
    rcases (hmem name slot).mp hdecl with ⟨v, hv, rfl, rfl⟩
    exact hs.behind (htop hf) v hv
  · intro hf
    rw [h.localCount]
    exact (hs.first (htop hf)).2

theorem Named.ownSlot_lt (hn : Named f slots) (h : OwnSlot f slot) : slot < f.localCount := by
  rcases h with ⟨hf, rfl⟩ | ⟨name, hdecl⟩
  · exact hn.first hf
  · exact hn.below name slot hdecl

/-- The table stands for `m`, which has the declared names and perhaps others, and all slots are
in the locals tables. -/
structure Sound (hash : String → ℕ) (f : Function) (slots : String → Option ℕ) (w : World V)
    (m : String → Option ℕ) : Prop where
  table : w.localsTable.Stands (fun a b => a == b) hash m
  kept : ∀ name slot, slots name = some slot → m name = some slot
  room : ∀ s ∈ w.scopes, f.localCount ≤ s.tbl.length
  inside : ∀ s ∈ w.scopes, ∀ name slot, m name = some slot → slot < s.tbl.length

/-- The stores have what is in the slots of the names. -/
structure Agrees (m : String → Option ℕ) (scopes : List (Scope V)) (stores : List (Store V)) :
    Prop where
  length : stores.length = scopes.length
  same : ∀ (i : ℕ) (s : Scope V) (store : Store V), scopes[i]? = some s →
    stores[i]? = some store → ∀ name, store name = (m name).bind fun slot => s.tbl[slot]?

theorem Sound.slotOf (hs : Sound hash f slots w m) (name : String) :
    slotOf hash w.localsTable name = some (m name) :=
  tableGet_eq_some (stringKeys hash) hs.table name

/-- A name that the compiler does not know has no declared slot. -/
theorem Sound.slots_eq_none (hs : Sound hash f slots w m) (hname : m name = none) :
    slots name = none := by
  cases hslot : slots name with
  | none => rfl
  | some slot =>
    rw [hs.kept name slot hslot] at hname
    cases hname

/-- The slot that is written to is another one than those of the other names. -/
theorem Sound.ne_target (hs : Sound hash f slots w m) {e : Step V} {scope : ℕ}
    (he : e = .localVariableSet scope name val) (hmeets : Meets hash f w e) {name' : String}
    (hslot : m name' = some slot) (hne : name' ≠ name) : slot ≠ targetSlot hash w name := by
  subst he
  intro heq
  apply hne
  apply hmeets.2.1 name' slot _ heq
  right
  rw [hs.slotOf, hslot]

/-- The function's own slots are written to by their own names only. -/
theorem Sound.own_ne_target (hs : Sound hash f slots w m) (hn : Named f slots) {e : Step V}
    {scope : ℕ} (he : e = .localVariableSet scope name val) (hmeets : Meets hash f w e)
    (hown : OwnSlot f slot) (hnot : m name ≠ some slot) : slot ≠ targetSlot hash w name := by
  subst he
  intro heq
  have htarget : targetSlot hash w name = (m name).getD (w.localsTable.count + 1) := by
    rw [targetSlot, hs.slotOf]
    rfl
  cases hm : m name with
  | some k =>
    rw [htarget, hm] at heq
    rw [hm] at hnot
    exact hnot (congrArg some heq.symm)
  | none =>
    rcases hown with ⟨hf, hzero⟩ | ⟨name', hdecl⟩
    · rw [hzero, htarget, hm] at heq
      exact absurd heq (Nat.succ_ne_zero _).symm
    · -- the name would have been declared
      have hname := hmeets.2.1 name' slot (Or.inl hdecl) heq
      subst hname
      have hsome := hn.named _ _ hdecl
      rw [hs.slots_eq_none hm] at hsome
      cases hsome

/-- Reading changes nothing. -/
theorem Keeps.refl {e : Step V} (he : ∀ scope name val, e ≠ .localVariableSet scope name val) :
    Keeps hash f w w e := by
  intro i s hi
  refine ⟨s, hi, rfl, ?_⟩
  cases e with
  | localVariableSet scope name val => exact absurd rfl (he scope name val)
  | localVariableGet scope name => rfl
  | localVariables scope => rfl
  | evalRead scope name => rfl
  | call frame localsSize => rfl

/-- What a name stands for is in its slot. -/
theorem readTbl_eq (hs : Sound hash f slots w m) (hmem : s ∈ w.scopes)
    (hslot : m name = some slot) :
    ∃ v, s.tbl[slot]? = some v ∧ readTbl s slot = .value v := by
  have hlt := hs.inside s hmem name slot hslot
  refine ⟨s.tbl[slot], List.getElem?_eq_getElem hlt, ?_⟩
  rw [readTbl, List.getElem?_eq_getElem hlt]

/-- `TABLE_FOREACH` comes by every name once. -/
theorem mem_entries (hs : Sound hash f slots w m) :
    (name, slot) ∈ entries w.localsTable ↔ m name = some slot := by
  rw [hs.table.represents name slot, entries, List.mem_filterMap]
  constructor
  · rintro ⟨cell, hcell, heq⟩
    rcases List.mem_iff_getElem?.mp hcell with ⟨i, hi⟩
    rw [id] at heq
    exact ⟨i, name, heq ▸ hi, beq_self_eq_true name⟩
  · rintro ⟨i, n, hi, hn⟩
    rw [eq_of_beq hn] at hi
    exact ⟨_, List.mem_of_getElem? hi, rfl⟩

theorem nodup_entries (hs : Sound hash f slots w m) :
    ((entries w.localsTable).map Prod.fst).Nodup := by
  have hpairs := (hs.table.distinct (stringKeys hash)).pairwise
  have hkeys : keys w.localsTable.entries = (entries w.localsTable).map Prod.fst := by
    rw [keys, entries, List.map_filterMap]
    rfl
  rw [hkeys] at hpairs
  apply hpairs.imp
  intro a b hab heq
  rw [heq, beq_self_eq_true] at hab
  cases hab

/-- The values beside the names. -/
theorem mapM_values {l : List (String × ℕ)} (hl : ∀ e ∈ l, e.2 < s.tbl.length) :
    ∃ l', (l.mapM fun e => s.tbl[e.2]?.map fun v => (e.1, v)) = some l' ∧
      l'.map Prod.fst = l.map Prod.fst ∧
      ∀ name v, (name, v) ∈ l' ↔ ∃ slot, (name, slot) ∈ l ∧ s.tbl[slot]? = some v := by
  induction l with
  | nil =>
    refine ⟨[], rfl, rfl, ?_⟩
    intro name v
    simp
  | cons e l ih =>
    rcases ih fun e he => hl e (List.mem_cons_of_mem _ he) with ⟨l', hl', hnames, hmem⟩
    have hlt := hl e List.mem_cons_self
    have hv : s.tbl[e.2]? = some s.tbl[e.2] := List.getElem?_eq_getElem hlt
    refine ⟨(e.1, s.tbl[e.2]) :: l', ?_, ?_, ?_⟩
    · rw [List.mapM_cons, hl', hv]
      rfl
    · rw [List.map_cons, List.map_cons, hnames]
    · intro name v
      rw [List.mem_cons, hmem]
      constructor
      · rintro (heq | ⟨slot, hslot, hval⟩)
        · cases heq
          exact ⟨e.2, List.mem_cons_self, hv⟩
        · exact ⟨slot, List.mem_cons_of_mem _ hslot, hval⟩
      · rintro ⟨slot, hslot, hval⟩
        rcases List.mem_cons.mp hslot with heq | hin
        · left
          subst heq
          rw [hv] at hval
          rw [← Option.some.inj hval]
        · exact Or.inr ⟨slot, hin, hval⟩

variable [Inhabited V]

/-- The scope in which `localVariableSet` has written. -/
def written (s : Scope V) (slot : ℕ) (val : V) : Scope V :=
  { growLocalsTable s (slot + 1) with tbl := (growLocalsTable s (slot + 1)).tbl.set slot val }

theorem size_written : (written s slot val).size = slot + 1 := by
  rw [written, growLocalsTable]
  split <;> rfl

theorem frame_written : (written s slot val).frame = s.frame := by
  rw [written, growLocalsTable]
  split <;> rfl

theorem length_growLocalsTable (s : Scope V) (slot : ℕ) :
    slot < (growLocalsTable s (slot + 1)).tbl.length ∧
      s.tbl.length ≤ (growLocalsTable s (slot + 1)).tbl.length := by
  rw [growLocalsTable]
  split
  · rename_i hroom
    exact ⟨hroom, Nat.le_refl _⟩
  · rename_i hroom
    rw [List.length_append, List.length_replicate]
    constructor
    · omega
    · omega

theorem tbl_written_self : (written s slot val).tbl[slot]? = some val := by
  have hlt := (length_growLocalsTable s slot).1
  rw [written, List.getElem?_set_self hlt]

theorem tbl_written_of_ne {other : ℕ} (hne : other ≠ slot) (hother : other < s.tbl.length) :
    (written s slot val).tbl[other]? = s.tbl[other]? := by
  rw [written, List.getElem?_set_ne (Ne.symm hne), growLocalsTable]
  split
  · rfl
  · exact List.getElem?_append_left hother

theorem length_written : slot < (written s slot val).tbl.length ∧
    s.tbl.length ≤ (written s slot val).tbl.length := by
  rw [written, List.length_set]
  exact length_growLocalsTable s slot

/-- What `localVariableSet` does, when it has found or made a slot. -/
theorem localVariableSet_eq (hs : Sound hash f slots w m) (scope : ℕ) (name : String) (val : V) :
    ∃ t m', localVariableSet hash w scope name val = some (.value val,
        ⟨t, w.scopes.modify scope fun s => written s (targetSlot hash w name) val⟩) ∧
      t.Stands (fun a b => a == b) hash m' ∧
      m' = Function.update m name (some (targetSlot hash w name)) := by
  cases hm : m name with
  | some slot =>
    have htarget : targetSlot hash w name = slot := by
      rw [targetSlot, hs.slotOf, hm]
      rfl
    refine ⟨w.localsTable, m, ?_, hs.table, ?_⟩
    · rw [localVariableSet, hs.slotOf, hm, htarget]
      rfl
    · rw [htarget, ← hm, Function.update_eq_self]
  | none =>
    have htarget : targetSlot hash w name = w.localsTable.count + 1 := by
      rw [targetSlot, hs.slotOf, hm]
      rfl
    rcases tableSet_eq_some (stringKeys hash) hs.table name (w.localsTable.count + 1) with
      ⟨t, hset, hstands, -⟩
    refine ⟨t, _, ?_, hstands, ?_⟩
    · rw [localVariableSet, hs.slotOf, hm, htarget]
      show (tableSet _ hash w.localsTable name (w.localsTable.count + 1)).bind _ = _
      rw [hset]
      rfl
    · rw [htarget]
      funext n
      rw [assign]
      by_cases hn : name = n
      · subst hn
        rw [if_pos (beq_self_eq_true name), Function.update_self]
      · rw [if_neg (by simpa using hn), Function.update_of_ne (Ne.symm hn)]

theorem modified_self {l : List (Scope V)} {i : ℕ} (hi : l[i]? = some s) :
    (l.modify i fun s => written s slot val)[i]? = some (written s slot val) := by
  rw [List.getElem?_modify_eq, hi]
  rfl

/-- The step of `localVariableSet`. -/
theorem set_right (hn : Named f slots) (hs : Sound hash f slots w m)
    (ha : Agrees m w.scopes stores) {scope : ℕ}
    (hmeets : Meets hash f w (.localVariableSet scope name val)) :
    ∃ out w' m', step hash f w (.localVariableSet scope name val) = some (out, w') ∧
      Answers stores out (.localVariableSet scope name val) ∧
      Keeps hash f w w' (.localVariableSet scope name val) ∧
      Sound hash f slots w' m' ∧
      Agrees m' w'.scopes (stepStores slots stores (.localVariableSet scope name val)) := by
  rcases localVariableSet_eq hs scope name val with ⟨t, m', hset, hstands, hm'⟩
  generalize htarget : targetSlot hash w name = target at hset hm'
  have hself : m' name = some target := by
    rw [hm', Function.update_self]
  have hother (n : String) (hne : n ≠ name) : m' n = m n := by
    rw [hm', Function.update_of_ne hne]
  have hapart (n : String) (k : ℕ) (hk : m n = some k) (hne : n ≠ name) : k ≠ target :=
    htarget ▸ hs.ne_target rfl hmeets hk hne
  have hcases (s : Scope V) (hs' : s ∈ w.scopes.modify scope fun s => written s target val) :
      (∃ s₀ ∈ w.scopes, s = written s₀ target val) ∨ s ∈ w.scopes := by
    rcases List.mem_iff_getElem?.mp hs' with ⟨i, hi⟩
    rw [List.getElem?_modify] at hi
    rcases Option.map_eq_some_iff.mp hi with ⟨s₀, hs₀, rfl⟩
    split
    · exact Or.inl ⟨s₀, List.mem_of_getElem? hs₀, rfl⟩
    · exact Or.inr (List.mem_of_getElem? hs₀)
  refine ⟨_, _, m', hset, rfl, ?_, ⟨hstands, ?_, ?_, ?_⟩, ⟨?_, ?_⟩⟩
  · -- what is kept
    intro i s hi
    by_cases hscope : i = scope
    · subst hscope
      refine ⟨written s target val, modified_self hi, frame_written, ?_⟩
      refine ⟨fun hne => absurd rfl hne, ?_⟩
      intro slot hown _
      rw [hs.slotOf]
      have hroom : slot < s.tbl.length :=
        Nat.lt_of_lt_of_le (hn.ownSlot_lt hown) (hs.room s (List.mem_of_getElem? hi))
      split
      · rename_i heq
        intro frame
        have hslot : target = slot := by
          rw [← htarget, targetSlot, hs.slotOf, Option.some.inj heq]
          rfl
        subst hslot
        rw [getLocal, size_written, if_pos (Nat.lt_succ_self _), tbl_written_self]
      · rename_i hnot
        have hne : slot ≠ target := htarget ▸ hs.own_ne_target hn rfl hmeets hown
          fun heq => hnot (congrArg some heq)
        have hsame : (written s target val).tbl[slot]? = s.tbl[slot]? :=
          tbl_written_of_ne hne hroom
        refine ⟨hsame, ?_⟩
        intro frame hframe
        rw [getLocal, getLocal, size_written, hsame]
        have hsteady := hmeets.2.2.2 s hi slot hown (htarget ▸ hne) frame hframe
        rw [htarget] at hsteady
        rcases hsteady with hiff | hboth
        · by_cases hlt : slot < s.size
          · rw [if_pos hlt, if_pos (Nat.lt_succ_of_le (hiff.mp hlt))]
          · have hgt : ¬ slot < target + 1 := fun h => hlt (hiff.mpr (Nat.le_of_lt_succ h))
            rw [if_neg hlt, if_neg hgt]
        · rw [hboth, ite_self, ite_self]
    · refine ⟨s, ?_, rfl, fun _ => rfl, fun _ _ heq => absurd heq hscope⟩
      exact (List.getElem?_modify_ne _ _ (Ne.symm hscope)).trans hi
  · intro n k hk
    by_cases hne : n = name
    · subst hne
      have hold := hs.kept n k hk
      rw [hself, ← htarget, targetSlot, hs.slotOf, hold]
      rfl
    · rw [hother n hne]
      exact hs.kept n k hk
  · intro s hs'
    rcases hcases s hs' with ⟨s₀, hs₀, rfl⟩ | hold
    · exact Nat.le_trans (hs.room s₀ hs₀) length_written.2
    · exact hs.room s hold
  · intro s hs' n k hk
    by_cases hne : n = name
    · subst hne
      rw [hself] at hk
      cases hk
      cases hm : m n with
      | some k =>
        -- the slot was there before, in every activation
        have hk : target = k := by
          rw [← htarget, targetSlot, hs.slotOf, hm]
          rfl
        rcases hcases s hs' with ⟨s₀, hs₀, rfl⟩ | hold
        · exact length_written.1
        · rw [hk]
          exact hs.inside s hold n k hm
      | none =>
        -- it is new, and there is only the activation that was written to
        have hone := hmeets.2.2.1 (by rw [hs.slotOf, hm])
        have hscope := hmeets.1
        rcases List.mem_iff_getElem?.mp hs' with ⟨i, hi⟩
        have hlt := (List.getElem?_eq_some_iff.mp hi).1
        rw [List.length_modify] at hlt
        have hsame : i = scope := by omega
        subst hsame
        rcases List.getElem?_eq_some_iff.mp hi with ⟨_, rfl⟩
        rw [List.getElem_modify_eq]
        exact length_written.1
    · rw [hother n hne] at hk
      rcases hcases s hs' with ⟨s₀, hs₀, rfl⟩ | hold
      · exact Nat.lt_of_lt_of_le (hs.inside s₀ hs₀ n k hk) length_written.2
      · exact hs.inside s hold n k hk
  · show (stores.modify scope _).length = (w.scopes.modify scope _).length
    rw [List.length_modify, List.length_modify]
    exact ha.length
  · intro i s store hi hstore n
    by_cases hscope : i = scope
    · subst hscope
      rw [stepStores, List.getElem?_modify_eq] at hstore
      rcases Option.map_eq_some_iff.mp hstore with ⟨store₀, hstore₀, rfl⟩
      rw [List.getElem?_modify_eq] at hi
      rcases Option.map_eq_some_iff.mp hi with ⟨s₀, hs₀, rfl⟩
      by_cases hne : n = name
      · subst hne
        rw [Function.update_self, hself, Option.bind_some, tbl_written_self]
      · rw [Function.update_of_ne hne, hother n hne, ha.same i s₀ store₀ hs₀ hstore₀ n]
        cases hk : m n with
        | none => rfl
        | some k =>
          have hroom := hs.inside s₀ (List.mem_of_getElem? hs₀) n k hk
          exact (tbl_written_of_ne (hapart n k hk hne) hroom).symm
    · rw [stepStores, List.getElem?_modify_ne _ _ (Ne.symm hscope)] at hstore
      rw [List.getElem?_modify_ne _ _ (Ne.symm hscope)] at hi
      rw [ha.same i s store hi hstore n]
      by_cases hne : n = name
      · subst hne
        cases hm : m n with
        | some k =>
          rw [hself, ← htarget, targetSlot, hs.slotOf, hm]
          rfl
        | none =>
          have hone := hmeets.2.2.1 (by rw [hs.slotOf, hm])
          have hbound := hmeets.1
          have hlt := (List.getElem?_eq_some_iff.mp hi).1
          omega
      · rw [hother n hne]

theorem get_right (hs : Sound hash f slots w m) (ha : Agrees m w.scopes stores) {scope : ℕ}
    (hmeets : Meets hash f w (.localVariableGet scope name)) :
    ∃ out, step hash f w (.localVariableGet scope name) = some (out, w) ∧
      Answers stores out (.localVariableGet scope name) := by
  have hscope : w.scopes[scope]? = some w.scopes[scope] := List.getElem?_eq_getElem hmeets
  have hmem := List.mem_of_getElem? hscope
  generalize w.scopes[scope] = s at hscope hmem
  cases hm : m name with
  | none =>
    refine ⟨.value default, ?_, ?_⟩
    · rw [step, hscope]
      show (localVariableGet hash w s name).bind _ = _
      rw [localVariableGet, hs.slotOf, hm]
      rfl
    · intro store hstore
      rw [ha.same scope s store hscope hstore name, hm]
      rfl
  | some slot =>
    rcases readTbl_eq hs hmem hm with ⟨v, hv, hread⟩
    refine ⟨readTbl s slot, ?_, ?_⟩
    · rw [step, hscope]
      show (localVariableGet hash w s name).bind _ = _
      rw [localVariableGet, hs.slotOf, hm]
      rfl
    · intro store hstore
      rw [ha.same scope s store hscope hstore name, hm, Option.bind_some, hv, hread]
      rfl

theorem eval_right (hs : Sound hash f slots w m) (ha : Agrees m w.scopes stores) {scope : ℕ}
    (hmeets : Meets hash f w (.evalRead scope name)) :
    ∃ out, step hash f w (.evalRead scope name) = some (out, w) ∧
      Answers stores out (.evalRead scope name) := by
  rcases hmeets with ⟨hlt, hcount, hresolve, hsize⟩
  have hscope : w.scopes[scope]? = some w.scopes[scope] := List.getElem?_eq_getElem hlt
  have hmem := List.mem_of_getElem? hscope
  generalize w.scopes[scope] = s at hscope hmem
  rw [hs.slotOf] at hresolve
  refine ⟨evalRead f w s name, ?_, ?_⟩
  · rw [step, hscope]
    rfl
  · intro store hstore
    rw [ha.same scope s store hscope hstore name]
    rw [evalRead, if_neg (Nat.not_lt.mpr hcount)]
    cases hm : m name with
    | none =>
      rw [← Option.some.inj hresolve, hm]
      rfl
    | some slot =>
      rcases readTbl_eq hs hmem hm with ⟨v, hv, hread⟩
      have hslot : (initBindingEvalCompiler f w.localsTable).resolveLocal name = some slot := by
        rw [← Option.some.inj hresolve, hm]
      rw [hslot, Option.bind_some, hv]
      show (if slot < s.size then readTbl s slot else .outside) = _
      rw [if_pos (hsize s hscope slot hslot), hread]
      rfl

theorem variables_right (hs : Sound hash f slots w m) (ha : Agrees m w.scopes stores) {scope : ℕ}
    (hmeets : Meets hash f w (.localVariables scope)) :
    ∃ out, step hash f w (.localVariables scope) = some (out, w) ∧
      Answers stores out (.localVariables scope) := by
  have hscope : w.scopes[scope]? = some w.scopes[scope] := List.getElem?_eq_getElem hmeets
  have hmem := List.mem_of_getElem? hscope
  generalize w.scopes[scope] = s at hscope hmem
  have hinside : ∀ e ∈ entries w.localsTable, e.2 < s.tbl.length := by
    intro e he
    exact hs.inside s hmem e.1 e.2 ((mem_entries hs).mp he)
  rcases mapM_values hinside with ⟨l, hl, hnames, hvalues⟩
  refine ⟨.variables l, ?_, ?_⟩
  · rw [step, hscope]
    show some (localVariables w s, w) = _
    rw [localVariables, hl]
  · intro store hstore
    refine ⟨l, rfl, ?_, ?_⟩
    · rw [hnames]
      exact nodup_entries hs
    · intro name v
      rw [hvalues, ha.same scope s store hscope hstore name]
      constructor
      · rintro ⟨slot, hslot, hv⟩
        rw [(mem_entries hs).mp hslot]
        exact hv
      · intro hv
        rcases Option.bind_eq_some_iff.mp hv with ⟨slot, hslot, hv'⟩
        exact ⟨slot, (mem_entries hs).mpr hslot, hv'⟩

/-- The variables of a function that is called are its arguments, or nil. -/
theorem setupLocalsTable_newScope (f : Function) (frame : ℕ → V) (localsSize : ℕ) :
    f.localCount ≤ (setupLocalsTable (newScope f frame) frame localsSize).tbl.length ∧
      ∀ slot < f.localCount, (setupLocalsTable (newScope f frame) frame localsSize).tbl[slot]? =
        some (if slot < localsSize then frame slot else default) := by
  rw [setupLocalsTable]
  by_cases hmany : f.localCount < localsSize
  · -- there are more arguments than locals
    rw [if_pos (show (newScope f frame).size < localsSize from hmany)]
    constructor
    · show f.localCount ≤ ((List.range localsSize).map frame ++ _).length
      rw [List.length_append, List.length_map, List.length_range]
      omega
    · intro slot hslot
      have hlt : slot < localsSize := Nat.lt_trans hslot hmany
      show ((List.range localsSize).map frame ++ _)[slot]? = _
      rw [List.getElem?_append_left (by simpa using hlt), List.getElem?_map,
        List.getElem?_range hlt, if_pos hlt]
      rfl
  · rw [if_neg (show ¬ (newScope f frame).size < localsSize from hmany)]
    constructor
    · show f.localCount ≤ ((List.range localsSize).map frame ++
        (List.replicate f.localCount default).drop localsSize).length
      rw [List.length_append, List.length_map, List.length_range, List.length_drop,
        List.length_replicate]
      omega
    · intro slot hslot
      show ((List.range localsSize).map frame ++
        (List.replicate f.localCount default).drop localsSize)[slot]? = _
      by_cases hlt : slot < localsSize
      · rw [List.getElem?_append_left (by simpa using hlt), List.getElem?_map,
          List.getElem?_range hlt, if_pos hlt]
        rfl
      · rw [List.getElem?_append_right (by simpa using hlt), List.drop_replicate,
          List.getElem?_replicate_of_lt (by simp only [List.length_map, List.length_range]; omega),
          if_neg hlt]

theorem call_right (hn : Named f slots) (hs : Sound hash f slots w m)
    (ha : Agrees m w.scopes stores) {frame : ℕ → V} {localsSize : ℕ}
    (hmeets : Meets hash f w (.call frame localsSize)) :
    ∃ out w', step hash f w (.call frame localsSize) = some (out, w') ∧
      Keeps hash f w w' (.call frame localsSize) ∧ Sound hash f slots w' m ∧
      Agrees m w'.scopes (stepStores slots stores (.call frame localsSize)) := by
  rcases setupLocalsTable_newScope f frame localsSize with ⟨hlength, hvalues⟩
  generalize hnew : setupLocalsTable (newScope f frame) frame localsSize = new at hlength hvalues
  have hdeclared (name : String) (slot : ℕ) (h : m name = some slot) :
      (name, slot) ∈ f.declarations := hmeets name slot (by rw [hs.slotOf, h])
  refine ⟨.value default, ⟨w.localsTable, w.scopes ++ [new]⟩, by rw [← hnew]; rfl, ?_,
    ⟨hs.table, hs.kept, ?_, ?_⟩, ⟨?_, ?_⟩⟩
  · intro i s hi
    refine ⟨s, ?_, rfl, rfl⟩
    have hlt := (List.getElem?_eq_some_iff.mp hi).1
    exact (List.getElem?_append_left hlt).trans hi
  · intro s hs'
    rcases List.mem_append.mp hs' with hold | hlast
    · exact hs.room s hold
    · rw [List.mem_singleton.mp hlast]
      exact hlength
  · intro s hs' name slot hslot
    rcases List.mem_append.mp hs' with hold | hlast
    · exact hs.inside s hold name slot hslot
    · rw [List.mem_singleton.mp hlast]
      exact Nat.lt_of_lt_of_le (hn.below name slot (hdeclared name slot hslot)) hlength
  · show (stores ++ [_]).length = (w.scopes ++ [new]).length
    rw [List.length_append, List.length_append, ha.length]
    rfl
  · intro i s store hi hstore name
    rw [stepStores] at hstore
    by_cases hold : i < w.scopes.length
    · rw [List.getElem?_append_left hold] at hi
      rw [List.getElem?_append_left (by rw [ha.length]; exact hold)] at hstore
      exact ha.same i s store hi hstore name
    · -- the new activation
      have hi' : i = w.scopes.length := by
        have hlt := (List.getElem?_eq_some_iff.mp hi).1
        rw [List.length_append, List.length_singleton] at hlt
        omega
      subst hi'
      rw [List.getElem?_concat_length] at hi
      rw [← ha.length, List.getElem?_concat_length] at hstore
      cases hi
      cases hstore
      rw [calledStore]
      cases hm : m name with
      | none =>
        rw [hs.slots_eq_none hm]
        rfl
      | some slot =>
        have hdecl := hdeclared name slot hm
        rcases Option.isSome_iff_exists.mp (hn.named name slot hdecl) with ⟨slot', hslot'⟩
        have hsame := hs.kept name slot' hslot'
        rw [hm] at hsame
        cases hsame
        rw [hslot', Option.bind_some, hvalues slot (hn.below name slot hdecl)]
        rfl

/-- One step, of any kind. -/
theorem step_right (hn : Named f slots) (hs : Sound hash f slots w m)
    (ha : Agrees m w.scopes stores) {e : Step V} (hmeets : Meets hash f w e) :
    ∃ out w' m', step hash f w e = some (out, w') ∧ Answers stores out e ∧
      Keeps hash f w w' e ∧ Sound hash f slots w' m' ∧
      Agrees m' w'.scopes (stepStores slots stores e) := by
  cases e with
  | localVariableSet scope name val => exact set_right hn hs ha hmeets
  | localVariableGet scope name =>
    have hreads (i : ℕ) (n : String) (v : V) :
        Step.localVariableGet scope name ≠ .localVariableSet i n v := by
      intro heq
      cases heq
    rcases get_right hs ha hmeets with ⟨out, hstep, hout⟩
    exact ⟨out, w, m, hstep, hout, Keeps.refl hreads, hs, ha⟩
  | localVariables scope =>
    have hreads (i : ℕ) (n : String) (v : V) :
        Step.localVariables scope ≠ .localVariableSet i n v := by
      intro heq
      cases heq
    rcases variables_right hs ha hmeets with ⟨out, hstep, hout⟩
    exact ⟨out, w, m, hstep, hout, Keeps.refl hreads, hs, ha⟩
  | evalRead scope name =>
    have hreads (i : ℕ) (n : String) (v : V) :
        Step.evalRead scope name ≠ .localVariableSet i n v := by
      intro heq
      cases heq
    rcases eval_right hs ha hmeets with ⟨out, hstep, hout⟩
    exact ⟨out, w, m, hstep, hout, Keeps.refl hreads, hs, ha⟩
  | call frame localsSize =>
    rcases call_right hn hs ha hmeets with ⟨out, w', hstep, hkeeps, hs', ha'⟩
    exact ⟨out, w', m, hstep, trivial, hkeeps, hs', ha'⟩

theorem run_right (hn : Named f slots) (hs : Sound hash f slots w m)
    (ha : Agrees m w.scopes stores) {run : List (Step V)} (hmeets : MeetsAll hash f w run) :
    Follows hash f slots w stores run := by
  induction run generalizing w m stores with
  | nil => trivial
  | cons e run ih =>
    rcases hmeets with ⟨hmeet, hrest⟩
    rcases step_right hn hs ha hmeet with ⟨out, w', m', hstep, hout, hkeeps, hs', ha'⟩
    exact ⟨out, w', hstep, hout, hkeeps, ih hs' ha' (hrest out w' hstep)⟩

/-- The variables of the activations as they are now. -/
def storesOf (slots : String → Option ℕ) (scopes : List (Scope V)) : List (Store V) :=
  scopes.map fun s name => (slots name).bind fun slot => s.tbl[slot]?

/-- Every run of steps that meet the condition goes on as it would on stores. -/
theorem bindings_follow (hf : Compiles hash c f t) (scopes : List (Scope V))
    (hscopes : ∀ s ∈ scopes, f.localCount ≤ s.tbl.length) (run : List (Step V))
    (hmeets : MeetsAll hash f ⟨t, scopes⟩ run) :
    Follows hash f (declaredSlot c) ⟨t, scopes⟩ (storesOf (declaredSlot c) scopes) run := by
  have hn := hf.named
  refine run_right hn (m := declaredSlot c) ⟨hf.table, fun _ _ h => h, hscopes, ?_⟩ ⟨?_, ?_⟩ hmeets
  · intro s hs name slot hslot
    exact Nat.lt_of_lt_of_le (hn.below name slot (hn.listed name slot hslot)) (hscopes s hs)
  · rw [storesOf, List.length_map]
  · intro i s store hi hstore name
    rw [storesOf, List.getElem?_map, hi] at hstore
    cases hstore
    rfl

end Proofs

/-! ## Two functions -/

/-- All names have one hash here. -/
def flatHash (_ : String) : ℕ := 1

/-- The table of one name. -/
def oneName (name : String) (slot : ℕ) : Table String ℕ :=
  ⟨1, (List.replicate 8 none).set 1 (some (name, slot))⟩

theorem oneName_stands (name : String) (slot : ℕ) :
    (oneName name slot).Stands (fun a b => a == b) flatHash fun n => [(name, slot)].lookup n := by
  rcases tableSet_eq_some (stringKeys flatHash) initTable_stands name slot with
    ⟨t, hset, hstands, -⟩
  have hmade : tableSet (fun a b => a == b) flatHash initTable name slot =
      some (true, oneName name slot) := by
    simp [tableSet, growFull, Table.full, resize, initTable, growCapacity, findEntry, search,
      oneName, flatHash]
  rw [hmade] at hset
  cases hset
  have hmap : assign (fun a b : String => a == b) name slot (fun _ => none) =
      fun n => [(name, slot)].lookup n := by
    funext n
    rw [assign, List.lookup_cons]
    by_cases hn : name = n
    · subst hn
      rw [if_pos (beq_self_eq_true name), beq_self_eq_true]
    · rw [if_neg (by simpa using hn), beq_false_of_ne (Ne.symm hn)]
      rfl
  rwa [hmap] at hstands

/-- The compiler in the scopes of a function. -/
def inFunction (scopeDepth : ℕ) : CompState Unit where
  opts := {}
  current := { Emit.freshCompiler 0 .named (some "f") with scopeDepth }

theorem inFunction_declared (scopeDepth : ℕ) : Declared (inFunction scopeDepth).current :=
  ⟨0, .named, some "f", Relation.ReflTransGen.single (.other rfl rfl rfl rfl rfl)⟩

theorem Declared.step {ν : Type} {c c' : Compiler ν} (hc : Declared c) (h : Declares c c') :
    Declared c' := by
  rcases hc with ⟨depth, ftype, name, hrun⟩
  exact ⟨depth, ftype, name, hrun.tail h⟩

/-- `var a;` -/
def oneVar : Function := ⟨false, 2, [("a", 1)]⟩

theorem oneVar_compiles : ∃ c : Compiler Unit, Compiles flatHash c oneVar (oneName "a" 1) := by
  have hdeclare : Emit.declareVariable "a" (inFunction 1) = .ok (some 1, _) := rfl
  exact ⟨_, (inFunction_declared 1).step (.declare hdeclare), rfl, rfl, rfl, oneName_stands "a" 1⟩

/-- `foreach (x in xs)`; the slot in front of that of the variable is for the iterator. -/
def oneLoop : Function := ⟨false, 3, [("x", 2)]⟩

theorem oneLoop_compiles : ∃ c : Compiler Unit, Compiles flatHash c oneLoop (oneName "x" 2) ∧
    declaredSlot c "x" = some 2 := by
  have hiterator : Emit.addFakeLocal true (inFunction 2) = .ok ((),
      { inFunction 2 with
        current := (inFunction 2).current.pushLocal { name := "_", depth := 2 } }) := rfl
  have hdeclare : Emit.declareVariable "x" { inFunction 2 with
      current := (inFunction 2).current.pushLocal { name := "_", depth := 2 } } =
    .ok (some 2, _) := rfl
  exact ⟨_, ⟨((inFunction_declared 2).step (.temporary hiterator)).step (.declare hdeclare), rfl,
    rfl, rfl, oneName_stands "x" 2⟩, rfl⟩

/-- A new name gets the slot of the loop variable: there are two slots more than names. -/
theorem loop_variable_lost : ∃ c : Compiler Unit,
    Compiles flatHash c oneLoop (oneName "x" 2) ∧
    ¬ Follows flatHash oneLoop (declaredSlot c) ⟨oneName "x" 2, [⟨3, [0, 0, 7], none⟩]⟩
      (storesOf (declaredSlot c) [(⟨3, [0, 0, 7], none⟩ : Scope ℕ)])
      [.localVariableSet 0 "n" 5, .localVariableGet 0 "x"] := by
  rcases oneLoop_compiles with ⟨c, hc, hslot⟩
  refine ⟨c, hc, ?_⟩
  rintro ⟨out, w', hset, -, -, out', w'', hget, hanswer, -⟩
  have hset' : step flatHash oneLoop ⟨oneName "x" 2, [(⟨3, [0, 0, 7], none⟩ : Scope ℕ)]⟩
      (.localVariableSet 0 "n" 5) = some (.value 5,
        ⟨⟨2, [none, some ("x", 2), some ("n", 2), none, none, none, none, none]⟩,
          [⟨3, [0, 0, 5], none⟩]⟩) := rfl
  rw [hset'] at hset
  cases hset
  have hget' : step flatHash oneLoop
      ⟨⟨2, [none, some ("x", 2), some ("n", 2), none, none, none, none, none]⟩,
        [(⟨3, [0, 0, 5], none⟩ : Scope ℕ)]⟩ (.localVariableGet 0 "x") = some (.value 5, _) := rfl
  rw [hget'] at hget
  cases hget
  have hfive := hanswer _ rfl
  beta_reduce at hfive
  rw [Function.update_of_ne (by decide), hslot] at hfive
  cases hfive

/-- A function with one variable, and a binding in it. -/
theorem bindings_follow_oneVar : ∃ c : Compiler Unit, Compiles flatHash c oneVar (oneName "a" 1) ∧
    Follows flatHash oneVar (declaredSlot c) ⟨oneName "a" 1, [⟨2, [0, 0], none⟩]⟩
      (storesOf (declaredSlot c) [(⟨2, [0, 0], none⟩ : Scope ℕ)])
      [.evalRead 0 "a", .localVariableSet 0 "a" 5, .localVariableGet 0 "a"] := by
  rcases oneVar_compiles with ⟨c, hc⟩
  have hroom : ∀ s ∈ [(⟨2, [0, 0], none⟩ : Scope ℕ)], oneVar.localCount ≤ s.tbl.length := by
    intro s hs
    rw [List.mem_singleton.mp hs]
    exact Nat.le_refl 2
  refine ⟨c, hc, bindings_follow hc _ hroom _ ?_⟩
  have hslot (name : String) : slotOf flatHash (oneName "a" 1) name =
      some ([("a", 1)].lookup name) :=
    tableGet_eq_some (stringKeys flatHash) (oneName_stands "a" 1) name
  refine ⟨⟨Nat.zero_lt_one, by decide, rfl, ?_⟩, ?_⟩
  · intro s hs slot hresolve
    cases hs
    have hone : (initBindingEvalCompiler oneVar (oneName "a" 1)).resolveLocal "a" = some 1 := rfl
    rw [hone] at hresolve
    cases hresolve
    exact Nat.lt_succ_self 1
  · intro out w' hread
    have hread' : step flatHash oneVar ⟨oneName "a" 1, [(⟨2, [0, 0], none⟩ : Scope ℕ)]⟩
        (.evalRead 0 "a") = some (.value 0, _) := rfl
    rw [hread'] at hread
    cases hread
    refine ⟨⟨Nat.zero_lt_one, ?_, ?_, ?_⟩, ?_⟩
    · intro name slot huses _
      rcases huses with hdecl | htable
      · exact congrArg Prod.fst (List.mem_singleton.mp hdecl)
      · rw [hslot, List.lookup_cons] at htable
        by_contra hne
        rw [beq_false_of_ne hne] at htable
        cases htable
    · intro hnew
      rw [hslot] at hnew
      cases hnew
    · intro s hs slot _ _ frame hframe
      cases hs
      cases hframe
    · intro out w' hset
      have hset' : step flatHash oneVar ⟨oneName "a" 1, [(⟨2, [0, 0], none⟩ : Scope ℕ)]⟩
        (.localVariableSet 0 "a" 5) = some (.value 5, ⟨oneName "a" 1, [⟨2, [0, 5], none⟩]⟩) := rfl
      rw [hset'] at hset
      cases hset
      exact ⟨Nat.zero_lt_one, fun _ _ _ => trivial⟩

end Clox.Bindings
