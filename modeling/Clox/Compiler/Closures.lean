import Clox.Compiler.State
import Clox.Lib.Except
import Clox.Vm.Locals

/-! # Lexical scoping and upvalue descriptors

The scopes of a program as the compiler walks through it, with what each slot
stands for, and what the compiler makes of them: its locals, and for each
function the descriptors `resolveUpvalue` builds. A descriptor denotes a slot
of a function further out; the closures `OP_CLOSURE` makes hold the upvalues
captured for just these slots.
-/

namespace Clox

/-! ## Lexical scopes -/

/-- What a slot of a function stands for. -/
inductive Binding where
  | declared (name : String)
  /-- The slot of a value the compiler keeps on the stack (`addFakeLocal`). -/
  | temporary
  /-- The first slot, of the function or the receiver. -/
  | callee
deriving DecidableEq, Repr

/-- The name the compiler gives the slot. -/
def Binding.key : Binding → String
  | declared name => name
  | temporary => "_"
  | callee => ""

/-- The open scopes of a function, innermost first, with their slots, the last one first. -/
abbrev LexFunction := List (List Binding)

/-- The functions around a place in the program, innermost first. -/
abbrev Lex := List LexFunction

/-- A slot of a function: the number of functions around it, and the slot. -/
abbrev Place := ℕ × ℕ

namespace Lex

/-- At the start of a program. -/
def top : Lex := [[[]]]

/-- Scopes that are open, in all functions. -/
def depth (lex : Lex) : ℕ := (lex.map fun f => f.length - 1).sum

def enterFunction (lex : Lex) : Lex := [[.callee]] :: lex

def pushScope : Lex → Lex
  | f :: lex => ([] :: f) :: lex
  | [] => []

def popScope : Lex → Lex
  | (_ :: f) :: lex => f :: lex
  | lex => lex

def bind (b : Binding) : Lex → Lex
  | (scope :: f) :: lex => ((b :: scope) :: f) :: lex
  | lex => lex

/-- Declare a variable; outside of all scopes it is a global. -/
def declare (name : String) (lex : Lex) : Lex :=
  if lex.depth = 0 then lex else lex.bind (.declared name)

/-- The slots of one function, from the last to the first. -/
def numbered (level : ℕ) : List Binding → List (Place × Binding)
  | [] => []
  | b :: rest => ((level, rest.length), b) :: numbered level rest

/-- All slots, from the inside out. -/
def slots : Lex → List (Place × Binding)
  | [] => []
  | f :: lex => numbered lex.length f.flatten ++ slots lex

/-- The innermost slot that meets `p`. -/
def find (p : Binding → Bool) (lex : Lex) : Option Place :=
  (lex.slots.find? fun s => p s.2).map (·.1)

/-- From the inside out, the first slot that goes by the name, if there is one, is a declaration of
it: no temporary and no function or receiver. -/
def Unhidden (name : String) : List (Place × Binding) → Prop
  | [] => True
  | s :: rest => s.2 = .declared name ∨ (s.2.key ≠ name ∧ Unhidden name rest)

/-- Only the names of the slots that are no declarations are ever hidden. -/
theorem unhidden_of_ne {name : String} (htemporary : name ≠ "_") (hcallee : name ≠ "")
    (slots : List (Place × Binding)) : Unhidden name slots := by
  induction slots with
  | nil => trivial
  | cons s rest ih =>
    rcases s with ⟨p, b⟩
    cases b with
    | declared other =>
      by_cases hname : other = name
      · exact .inl (congrArg _ hname)
      · exact .inr ⟨hname, ih⟩
    | temporary => exact .inr ⟨htemporary.symm, ih⟩
    | callee => exact .inr ⟨hcallee.symm, ih⟩

theorem slot_lt_of_mem_numbered {level : ℕ} {bs : List Binding} {s : Place × Binding}
    (hs : s ∈ numbered level bs) : s.1.1 = level ∧ s.1.2 < bs.length := by
  induction bs with
  | nil => cases hs
  | cons b bs ih =>
    rcases List.mem_cons.mp hs with rfl | hs
    · exact ⟨rfl, Nat.lt_succ_self _⟩
    · exact ⟨(ih hs).1, Nat.lt_succ_of_lt (ih hs).2⟩

end Lex

/-! ## What a descriptor denotes -/

/-- The slot a descriptor denotes, in a function inside others with these descriptors, innermost
first. -/
def denote : List (List Upvalue) → Upvalue → Option Place
  | [], _ => none
  | outer :: rest, d =>
    if d.isLocal then some (rest.length, d.index) else (outer[d.index]?).bind (denote rest)

/-- The descriptors of functions, innermost first: no two alike, each denotes a slot, its index
fits a byte. -/
def ValidInfos : List (List Upvalue) → Prop
  | [] => True
  | us :: rest => us.length ≤ lxMaxUpvalues ∧ us.Nodup ∧
      (∀ d ∈ us, (denote rest d).isSome ∧ d.index < 256) ∧ ValidInfos rest

/-- Each function's descriptors have been added to. -/
def Extends : List (List Upvalue) → List (List Upvalue) → Prop :=
  List.Forall₂ fun us us' => us <+: us'

theorem Extends.refl (infos : List (List Upvalue)) : Extends infos infos :=
  List.forall₂_same.mpr fun us _ => List.prefix_refl us

theorem denote_extends {rest rest' : List (List Upvalue)} (h : Extends rest rest') {d : Upvalue}
    {p : Place} (hd : denote rest d = some p) : denote rest' d = some p := by
  induction h generalizing d with
  | nil => cases hd
  | @cons us us' rest rest' hus hrest ih =>
    rw [denote] at hd ⊢
    split at hd <;> rename_i hl
    · rw [if_pos hl, ← List.Forall₂.length_eq hrest]
      exact hd
    · rw [if_neg hl]
      rcases Option.bind_eq_some_iff.mp hd with ⟨e, he, hep⟩
      rcases hus with ⟨more, rfl⟩
      have hlt := (List.getElem?_eq_some_iff.mp he).1
      rw [List.getElem?_append_left hlt, he]
      exact ih hep

end Clox
