import Clox.Ast.Node
import Clox.Lib.Separators
import Clox.Parser.Tokens
import Mathlib.Algebra.Group.Action.Defs
import Mathlib.Algebra.Order.BigOperators.Group.List
import Mathlib.Data.List.TakeWhile
import Mathlib.Logic.Function.Basic

/-! # Interpolated strings

The branch of `primary` for strings. Every `${` up to the next `}` is parsed by
a scanner and a parser of its own, and the pieces are put together with `+`. A
brace inside an expression ends it early, and behind a complete interpolation
an open `${` makes the text be read on from a null pointer.
-/

namespace Clox.Parsing

open Separators

/-- What the branch uses of the scanner and of the rest of the parser. `expression` works on the
scanner and the parser that are current. -/
structure Front (σ : Type) where
  scanToken : σ → Token × σ
  initScanner : List Char → σ
  expression : Parse σ Node

/-- The scanners and parsers by address, and the pointers to the current ones. -/
structure Memory (σ : Type) where
  scanners : ℕ → σ
  parsers : ℕ → Parser
  /-- `static Scanner *current` -/
  scanner : ℕ
  /-- `static Parser *current` -/
  current : ℕ
  nextScanner : ℕ
  nextParser : ℕ

abbrev Parses (σ : Type) := StateT (Memory σ) (Except Stop)

variable {σ : Type} (fr : Front σ)

/-- A step of the current parser with the current scanner. -/
def onCurrent {α : Type} (f : Parse σ α) : Parses σ α := fun m => do
  let (a, st) ← f ⟨m.parsers m.current, m.scanners m.scanner⟩
  return (a, { m with
    scanners := Function.update m.scanners m.scanner st.scanner
    parsers := Function.update m.parsers m.current st.parser })

def setScanner (scan : ℕ) : Parses σ Unit := modify ({ · with scanner := scan })

def setCurrent (p : ℕ) : Parses σ Unit := modify ({ · with current := p })

/-- `ALLOCATE` and `initScanner`, which makes the scanner current. -/
def newScanner (contents : List Char) : Parses σ Unit := modify fun m => { m with
  scanners := Function.update m.scanners m.nextScanner (fr.initScanner contents)
  scanner := m.nextScanner
  nextScanner := m.nextScanner + 1 }

/-- `Parser newParser; initParser(&newParser)` -/
def newParser : Parses σ ℕ := fun m => .ok (m.nextParser, { m with
  parsers := Function.update m.parsers m.nextParser initParser
  nextParser := m.nextParser + 1 })

def freeParser (p : ℕ) : Parses σ Unit := modify fun m => { m with
  parsers := Function.update m.parsers p initParser }

def parseExpression (p : ℕ) : Parses σ Node := do
  let oldCurrent := (← get).current
  setCurrent p
  onCurrent (advance fr.scanToken)
  let ret ← onCurrent fr.expression
  setCurrent oldCurrent
  return ret

/-- An error of the inner parser comes back by `longjmp` and is one of the outer parser. -/
def rethrow (oldParser : ℕ) (f : Parses σ Node) : Parses σ Node := fun m =>
  match f m with
  | .error (.syntaxError _ _) =>
    .error (.syntaxError (m.parsers oldParser).previous "Error in interpolation")
  | r => r

/-- One interpolation. -/
def interpolated (oldParser : ℕ) (contents : List Char) : Parses σ Node := do
  newScanner fr contents
  let p ← newParser
  let inner ← rethrow oldParser (parseExpression fr p)
  freeParser p
  return inner

/-- `STRING_TYPE` -/
def stringNode (str : List Char) : Node := .literal (.string (String.ofList str) false)

/-- The call of `String()` on the result of an interpolated expression. -/
def toStringCall (inner : Node) : Node := .call "String" (.constant "String") [inner]

def interpBegin : List Char := ['$', '{']

/-- The loop over the interpolations from `beg` on. The last argument is what stands behind `end`,
`none` for a null pointer. -/
def interpolations (oldParser : ℕ) : ℕ → List Char → List Node → Option (List Char) →
    Parses σ (List Node × Option (List Char))
  | 0, _, vnodes, behind => return (vnodes, behind)
  | fuel + 1, beg, vnodes, behind =>
    match find interpBegin beg with
    | none => return (vnodes, behind)
    | some (before, opened) =>
      match find ['}'] opened with
      | none => return (vnodes, none)
      | some (contents, rest) => do
        let inner ← interpolated fr oldParser contents
        interpolations oldParser fuel rest (vnodes ++ [stringNode before, toStringCall inner])
          (some rest)

/-- The chain of binary operations, open to the right. -/
def binopChain : Node → List Node → Node
  | n, [] => n
  | n, next :: nodes => .binary .plus n (binopChain next nodes)

/-- `stringTogetherNodesBinop(nodes, TOKEN_PLUS, "+")`; the last node of fewer than two has no
parent. -/
def stringTogetherNodesBinop : List Node → Except Stop Node
  | n :: next :: nodes => .ok (binopChain n (next :: nodes))
  | _ => .error (.abort .nullDeref)

/-- What `primary` does with the string token it consumed. -/
def stringExpr : Parses σ Node := do
  let m ← get
  let strTok := (m.parsers m.current).previous
  let str := strTok.lexeme.toList
  let (vnodes, behind) ← interpolations fr m.current (str.length + 1) str [] none
  if vnodes = [] then
    setScanner m.scanner
    setCurrent m.current
    return stringNode str
  else
    match behind with
    | none => throw (.abort .undefinedBehaviour)
    | some rest =>
      setScanner m.scanner
      setCurrent m.current
      stringTogetherNodesBinop (vnodes ++ [stringNode rest])

/-- `primary`, the branch for strings; `other` stands for the branches behind it. -/
def primary (other : Parses σ Node) : Parses σ Node := do
  if ← onCurrent (matchTok fr.scanToken .stringDquote) then stringExpr fr
  else if ← onCurrent (matchTok fr.scanToken .stringSquote) then stringExpr fr
  else other

/-! ## An interpolation -/

/-- What parsing a text by itself gives. -/
def parseText (text : List Char) : Except Stop Node := do
  let (_, st) ← advance fr.scanToken ⟨initParser, fr.initScanner text⟩
  let (node, _) ← fr.expression st
  return node

/-- Between two moments no scanner and no parser changed that was there before. -/
structure Kept (m m' : Memory σ) : Prop where
  current : m'.current = m.current
  scanner_le : m.nextScanner ≤ m'.nextScanner
  parser_le : m.nextParser ≤ m'.nextParser
  scanners : ∀ a, a < m.nextScanner → m'.scanners a = m.scanners a
  parsers : ∀ a, a < m.nextParser → m'.parsers a = m.parsers a

theorem Kept.refl (m : Memory σ) : Kept m m :=
  ⟨rfl, Nat.le_refl _, Nat.le_refl _, fun _ _ => rfl, fun _ _ => rfl⟩

theorem Kept.trans {m m₁ m₂ : Memory σ} (h : Kept m m₁) (h₁ : Kept m₁ m₂) : Kept m m₂ where
  current := h₁.current.trans h.current
  scanner_le := h.scanner_le.trans h₁.scanner_le
  parser_le := h.parser_le.trans h₁.parser_le
  scanners a ha := (h₁.scanners a (ha.trans_le h.scanner_le)).trans (h.scanners a ha)
  parsers a ha := (h₁.parsers a (ha.trans_le h.parser_le)).trans (h.parsers a ha)

variable {fr}

theorem bind_ok {τ α β : Type} {x : StateT τ (Except Stop) α} {f : α → StateT τ (Except Stop) β}
    {m m' : τ} {a : α} (h : x m = .ok (a, m')) : (x >>= f) m = f a m' := by
  change (x m >>= fun r => f r.1 r.2) = _
  rw [h]
  rfl

theorem bind_error {τ α β : Type} {x : StateT τ (Except Stop) α} {f : α → StateT τ (Except Stop) β}
    {m : τ} {e : Stop} (h : x m = .error e) : (x >>= f) m = .error e := by
  change (x m >>= fun r => f r.1 r.2) = _
  rw [h]
  rfl

/-- What a step of the current parser leaves. -/
def Memory.put (m : Memory σ) (st : State σ) : Memory σ := { m with
  scanners := Function.update m.scanners m.scanner st.scanner
  parsers := Function.update m.parsers m.current st.parser }

/-- The objects that are current. -/
def Memory.state (m : Memory σ) : State σ := ⟨m.parsers m.current, m.scanners m.scanner⟩

@[simp] theorem Memory.put_state (m : Memory σ) (st : State σ) : (m.put st).state = st := by
  simp [put, state]

theorem Memory.put_put (m : Memory σ) (st st' : State σ) : (m.put st).put st' = m.put st' := by
  simp [put]

theorem onCurrent_ok {α : Type} {f : Parse σ α} {m : Memory σ} {a : α} {st : State σ}
    (h : f m.state = .ok (a, st)) : onCurrent f m = .ok (a, m.put st) := by
  change (f m.state >>= fun r => pure (r.1, m.put r.2)) = _
  rw [h]
  rfl

theorem onCurrent_error {α : Type} {f : Parse σ α} {m : Memory σ} {e : Stop}
    (h : f m.state = .error e) : onCurrent f m = .error e := by
  change (f m.state >>= fun r => pure (r.1, m.put r.2)) = _
  rw [h]
  rfl

/-- The inner parser works on its own scanner and its own parser. -/
theorem parseExpression_eq (m : Memory σ) (p : ℕ) (text : List Char)
    (h : Memory.state { m with current := p } = ⟨initParser, fr.initScanner text⟩) :
    (∃ e, parseText fr text = .error e ∧ parseExpression fr p m = .error e) ∨
    ∃ node st, parseText fr text = .ok node ∧ parseExpression fr p m =
      .ok (node, { Memory.put { m with current := p } st with current := m.current }) := by
  have hstart : parseExpression fr p m = (do
      onCurrent (advance fr.scanToken)
      let ret ← onCurrent fr.expression
      setCurrent m.current
      return ret : Parses σ Node) { m with current := p } := rfl
  rw [hstart]
  cases hadvance : advance fr.scanToken ⟨initParser, fr.initScanner text⟩ with
  | error e =>
    left
    refine ⟨e, ?_, bind_error (onCurrent_error (h ▸ hadvance))⟩
    simp only [parseText, hadvance]
    rfl
  | ok r =>
    obtain ⟨u, st⟩ := r
    rw [bind_ok (onCurrent_ok (h ▸ hadvance))]
    cases hexpr : fr.expression st with
    | error e =>
      left
      refine ⟨e, ?_, bind_error (onCurrent_error ?_)⟩
      · simp only [parseText, hadvance, bind, Except.bind, hexpr]
      · rwa [Memory.put_state]
    | ok r =>
      obtain ⟨node, st'⟩ := r
      right
      refine ⟨node, st', ?_, ?_⟩
      · simp only [parseText, hadvance, bind, Except.bind, hexpr]
        rfl
      · rw [bind_ok (onCurrent_ok (by rw [Memory.put_state]; exact hexpr)), Memory.put_put]
        rfl

/-- The memory with a new scanner on the contents and a new parser. -/
def Memory.opened (m : Memory σ) (scan : σ) : Memory σ := { m with
  scanners := Function.update m.scanners m.nextScanner scan
  scanner := m.nextScanner
  nextScanner := m.nextScanner + 1
  parsers := Function.update m.parsers m.nextParser initParser
  nextParser := m.nextParser + 1 }

variable (fr) in
/-- A parsed interpolation keeps the scanners and parsers there were. -/
theorem interpolated_eq (m : Memory σ) (oldParser : ℕ) (contents : List Char) :
    (∃ e e', parseText fr contents = .error e ∧ interpolated fr oldParser contents m = .error e') ∨
    ∃ node m', parseText fr contents = .ok node ∧
      interpolated fr oldParser contents m = .ok (node, m') ∧ Kept m m' := by
  have hstart : interpolated fr oldParser contents m = (do
      let inner ← rethrow oldParser (parseExpression fr m.nextParser)
      freeParser m.nextParser
      return inner : Parses σ Node) (m.opened (fr.initScanner contents)) := rfl
  have hstate : Memory.state { m.opened (fr.initScanner contents) with current := m.nextParser } =
      ⟨initParser, fr.initScanner contents⟩ := by
    simp [Memory.state, Memory.opened]
  rw [hstart]
  rcases parseExpression_eq (m.opened (fr.initScanner contents)) m.nextParser contents hstate with
    ⟨e, htext, hparse⟩ | ⟨node, st, htext, hparse⟩
  · left
    have hrethrow : ∃ e', rethrow oldParser (parseExpression fr m.nextParser)
        (m.opened (fr.initScanner contents)) = .error e' := by
      simp only [rethrow, hparse]
      cases e with
      | syntaxError tok message => exact ⟨_, rfl⟩
      | abort why => exact ⟨_, rfl⟩
    rcases hrethrow with ⟨e', hrethrow⟩
    exact ⟨e, e', htext, bind_error hrethrow⟩
  · right
    obtain ⟨m₂, hm₂, hparse⟩ : ∃ m₂, m₂ = _ ∧ parseExpression fr m.nextParser
      (m.opened (fr.initScanner contents)) = .ok (node, m₂) := ⟨_, rfl, hparse⟩
    have hrethrow : rethrow oldParser (parseExpression fr m.nextParser)
        (m.opened (fr.initScanner contents)) = .ok (node, m₂) := by
      simp only [rethrow, hparse]
    refine ⟨node, { m₂ with parsers := Function.update m₂.parsers m.nextParser initParser }, htext,
      bind_ok hrethrow, ?_⟩
    subst hm₂
    refine ⟨rfl, Nat.le_succ _, Nat.le_succ _, ?_, ?_⟩
    · intro a ha
      simp [Memory.put, Memory.opened, Function.update_of_ne ha.ne]
    · intro a ha
      simp [Memory.put, Memory.opened, Function.update_of_ne ha.ne]

/-! ## The loop -/

/-- How the loop divides the text from `beg` on: what stands before and what stands inside each
interpolation, and what is behind the last one. -/
def split : ℕ → List Char → Option (List Char) → List (List Char × List Char) × Option (List Char)
  | 0, _, behind => ([], behind)
  | fuel + 1, beg, behind =>
    match find interpBegin beg with
    | none => ([], behind)
    | some (before, opened) =>
      match find ['}'] opened with
      | none => ([], none)
      | some (contents, rest) =>
        ((before, contents) :: (split fuel rest (some rest)).1, (split fuel rest (some rest)).2)

/-- The nodes of the pieces, each inner text parsed. -/
inductive Parsed (fr : Front σ) : List (List Char × List Char) → List Node → Prop where
  | nil : Parsed fr [] []
  | cons {before contents : List Char} {inner : Node} {cs : List (List Char × List Char)}
      {ns : List Node} (h : parseText fr contents = .ok inner) (hcs : Parsed fr cs ns) :
      Parsed fr ((before, contents) :: cs) (stringNode before :: toStringCall inner :: ns)

variable (fr) in
theorem interpolations_eq (oldParser fuel : ℕ) (beg : List Char) (vnodes : List Node)
    (behind : Option (List Char)) (m : Memory σ) :
    ((∃ e, interpolations fr oldParser fuel beg vnodes behind m = .error e) ∧
      ¬ ∃ ns, Parsed fr (split fuel beg behind).1 ns) ∨
    ∃ ns m', Parsed fr (split fuel beg behind).1 ns ∧
      interpolations fr oldParser fuel beg vnodes behind m =
        .ok ((vnodes ++ ns, (split fuel beg behind).2), m') ∧ Kept m m' := by
  induction fuel generalizing beg vnodes behind m with
  | zero => exact .inr ⟨[], m, .nil, by rw [List.append_nil]; rfl, .refl m⟩
  | succ fuel ih =>
    rw [interpolations, split]
    cases find interpBegin beg with
    | none => exact .inr ⟨[], m, .nil, by rw [List.append_nil]; rfl, .refl m⟩
    | some r =>
      obtain ⟨before, opened⟩ := r
      dsimp only
      cases find ['}'] opened with
      | none => exact .inr ⟨[], m, .nil, by rw [List.append_nil]; rfl, .refl m⟩
      | some r =>
        obtain ⟨contents, rest⟩ := r
        dsimp only
        rcases interpolated_eq fr m oldParser contents with
          ⟨e, e', htext, hinter⟩ | ⟨inner, m₁, htext, hinter, hkept⟩
        · -- the text is no expression
          left
          refine ⟨⟨e', bind_error hinter⟩, ?_⟩
          rintro ⟨ns, hparsed⟩
          rcases hparsed with _ | ⟨hok, _⟩
          rw [htext] at hok
          cases hok
        · rw [bind_ok hinter]
          rcases ih rest (vnodes ++ [stringNode before, toStringCall inner]) (some rest) m₁ with
            ⟨herr, hnot⟩ | ⟨ns, m', hparsed, hloop, hkept'⟩
          · left
            refine ⟨herr, ?_⟩
            rintro ⟨ns, hparsed⟩
            rcases hparsed with _ | ⟨_, hrest⟩
            exact hnot ⟨_, hrest⟩
          · right
            refine ⟨stringNode before :: toStringCall inner :: ns, m', .cons htext hparsed, ?_,
              hkept.trans hkept'⟩
            rw [hloop, List.append_assoc]
            rfl

/-! ## What a tree denotes -/

/-- The text a concatenation of literals and calls of `String()` denotes, when `str` gives the text
of an expression. -/
def denote (str : Node → List Char) : Node → Option (List Char)
  | .literal (.string s false) => some s.toList
  | .call _ (.constant name) [inner] => if name = "String" then some (str inner) else none
  | .binary .plus lhs rhs => do
    let x ← denote str lhs
    let y ← denote str rhs
    return x ++ y
  | _ => none

/-- What a list of operands denotes. -/
def denoteAll (str : Node → List Char) : List Node → Option (List Char)
  | [] => some []
  | n :: ns => do
    let x ← denote str n
    let y ← denoteAll str ns
    return x ++ y

variable {str : Node → List Char}

@[simp] theorem denote_stringNode (s : List Char) : denote str (stringNode s) = some s := by
  simp [stringNode, denote]

@[simp] theorem denote_toStringCall (inner : Node) :
    denote str (toStringCall inner) = some (str inner) := by
  simp [toStringCall, denote]

/-- Concatenation is associative: the chain denotes its operands one after the other. -/
theorem denote_binopChain (n : Node) (ns : List Node) :
    denote str (binopChain n ns) = denoteAll str (n :: ns) := by
  induction ns generalizing n with
  | nil => cases h : denote str n <;> simp [binopChain, denoteAll, h]
  | cons next ns ih => simp only [binopChain, denote, ih, denoteAll]

/-- A literal, an interpolated expression behind it and the node it is parsed to. -/
structure Piece where
  literal : List Char
  text : List Char
  node : Node

/-- The pieces, with a tail behind them, as they stand in the string. -/
def interleave : List Piece → List Char → List Char
  | [], tail => tail
  | p :: ps, tail => p.literal ++ (interpBegin ++ (p.text ++ '}' :: interleave ps tail))

/-- The literals and the texts of the expressions one after the other. -/
def concatenation (str : Node → List Char) : List Piece → List Char → List Char
  | [], tail => tail
  | p :: ps, tail => p.literal ++ (str p.node ++ concatenation str ps tail)

/-- The content of a string: no literal opens an interpolation, each inner text is one of an
expression, and an interpolation the tail opens is not closed. -/
structure Content (fr : Front σ) where
  pieces : List Piece
  tail : List Char
  literal_plain : ∀ p ∈ pieces, ¬ interpBegin <:+: p.literal
  text_parsed : ∀ p ∈ pieces, parseText fr p.text = .ok p.node
  tail_open : ∀ before opened, find interpBegin tail = some (before, opened) → '}' ∉ opened

/-! ## Dividing the pieces -/

/-- What is left of an expression behind its first brace, with the brace that closes it. -/
def Leftover (u : List Char) : Prop := ∀ c, u.getLast? = some c → c = '}'

theorem clear_leftover {u s : List Char} (hu : Leftover u) (h : ¬ interpBegin <:+: u) :
    Clear interpBegin u s := by
  apply clear_pair h
  intro hlast
  cases hu _ hlast

/-- The text up to the first brace. -/
def cut (text : List Char) : List Char := text.takeWhile (· ≠ '}')

/-- An expression is read up to its first brace. -/
theorem find_brace (text rest : List Char) : ∃ u, Leftover u ∧ u.length ≤ text.length ∧
    find ['}'] (text ++ '}' :: rest) = some (cut text, u ++ rest) := by
  induction text with
  | nil =>
    refine ⟨[], ?_, Nat.le_refl _, ?_⟩
    · rintro c ⟨⟩
    · simp [find, cut]
  | cons c text ih =>
    by_cases hc : c = '}'
    · subst hc
      refine ⟨text ++ ['}'], ?_, by simp, ?_⟩
      · intro c hlast
        simpa using hlast.symm
      · simp [find, cut]
    · rcases ih with ⟨u, hu, hlen, hfind⟩
      refine ⟨u, hu, Nat.le_succ_of_le hlen, ?_⟩
      rw [List.cons_append, find, if_neg, hfind]
      · simp [cut, hc]
      · intro hpre
        exact hc (List.cons_prefix_cons.mp hpre).1.symm

theorem find_interpBegin (l rest : List Char) (hl : ¬ interpBegin <:+: l) :
    find interpBegin (l ++ (interpBegin ++ rest)) = some (l, rest) := by
  have hclear : Clear interpBegin l (interpBegin ++ rest) := by
    apply clear_pair hl
    rintro _ ⟨⟩
  have hpre : interpBegin <+: '$' :: ('{' :: rest) := List.prefix_append _ rest
  have hfind : find interpBegin (interpBegin ++ rest) = some ([], rest) := by
    change find interpBegin ('$' :: ('{' :: rest)) = _
    rw [find, if_pos hpre]
    rfl
  rw [find_of_clear hclear, hfind]
  simp

theorem split_of_find {fuel : ℕ} {beg before opened contents rest : List Char}
    (hbegin : find interpBegin beg = some (before, opened))
    (hclose : find ['}'] opened = some (contents, rest)) (behind : Option (List Char)) :
    split (fuel + 1) beg behind =
      ((before, contents) :: (split fuel rest (some rest)).1, (split fuel rest (some rest)).2) := by
  simp only [split, hbegin, hclose]

/-- Behind what is left of an expression every piece is divided in one part at least, and in one
part alone only up to its first brace. -/
theorem split_interleave {tail : List Char}
    (htail : ∀ before opened, find interpBegin tail = some (before, opened) → '}' ∉ opened)
    (fuel : ℕ) (u : List Char) (hu : Leftover u) (ps : List Piece)
    (hps : ∀ p ∈ ps, ¬ interpBegin <:+: p.literal) (behind : Option (List Char))
    (hfuel : (u ++ interleave ps tail).length < fuel) :
    ps.length ≤ (split fuel (u ++ interleave ps tail) behind).1.length ∧
      ((split fuel (u ++ interleave ps tail) behind).1.length = ps.length →
        (split fuel (u ++ interleave ps tail) behind).1.map (·.2) =
          ps.map fun p => cut p.text) ∧
      (interpBegin <:+: tail → (split fuel (u ++ interleave ps tail) behind).2 = none) := by
  induction fuel generalizing u ps behind with
  | zero => exact absurd hfuel (Nat.not_lt_zero _)
  | succ fuel ih =>
    cases hfind : find interpBegin u with
    | some r =>
      -- an interpolation begins in what is left, and ends there
      obtain ⟨before, opened⟩ := r
      have happend := find_eq_append hfind
      have hopened : Leftover opened ∧ opened ≠ [] := by
        constructor
        · intro c hc
          apply hu c
          rw [happend, List.getLast?_append, List.getLast?_append, hc]
          rfl
        · rintro rfl
          have := hu '{' (by rw [happend, List.append_nil, List.getLast?_append]; rfl)
          cases this
      obtain ⟨text, htext⟩ : ∃ text, opened = text ++ ['}'] := by
        refine ⟨opened.dropLast, ?_⟩
        have hlast := hopened.1 _ (List.getLast?_eq_some_getLast hopened.2)
        rw [← hlast, List.dropLast_append_getLast]
      have hbegin := find_append_right hfind (interleave ps tail)
      rcases find_brace text (interleave ps tail) with ⟨u', hu', hlen, hclose⟩
      have hshape : opened ++ interleave ps tail = text ++ '}' :: interleave ps tail := by
        rw [htext, List.append_assoc]
        rfl
      rw [hshape] at hbegin
      rw [split_of_find hbegin hclose]
      have hless : (u' ++ interleave ps tail).length < fuel := by
        have := congrArg List.length happend
        simp only [htext, List.length_append, interpBegin, List.length_cons,
          List.length_nil] at this hfuel ⊢
        omega
      rcases ih u' hu' ps hps _ hless with ⟨hle, _, hbroken⟩
      refine ⟨Nat.le_succ_of_le hle, ?_, hbroken⟩
      intro heq
      rw [List.length_cons] at heq
      omega
    | none =>
      have hplain := find_eq_none_iff.mp hfind
      cases ps with
      | nil =>
        rw [interleave]
        have hu := find_of_clear (clear_leftover (s := tail) hu hplain)
        cases htailfind : find interpBegin tail with
        | none =>
          have hnone : find interpBegin (u ++ tail) = none := by rw [hu, htailfind]; rfl
          refine ⟨Nat.zero_le _, ?_, ?_⟩
          · intro _
            simp [split, hnone]
          · intro hinfix
            exact absurd hinfix (find_eq_none_iff.mp htailfind)
        | some r =>
          obtain ⟨before, opened⟩ := r
          have hsome : find interpBegin (u ++ tail) = some (u ++ before, opened) := by
            rw [hu, htailfind]
            rfl
          have hopen := find_singleton_eq_none_iff.mpr (htail before opened htailfind)
          simp [split, hsome, hopen]
      | cons p ps =>
        rcases find_brace p.text (interleave ps tail) with ⟨u', hu', hlen, hclose⟩
        have hbegin : find interpBegin (u ++ interleave (p :: ps) tail) =
            some (u ++ p.literal, p.text ++ '}' :: interleave ps tail) := by
          rw [interleave, find_of_clear (clear_leftover hu hplain),
            find_interpBegin _ _ (hps p List.mem_cons_self)]
          rfl
        rw [split_of_find hbegin hclose]
        have hless : (u' ++ interleave ps tail).length < fuel := by
          simp only [interleave, List.length_append, List.length_cons] at hfuel ⊢
          omega
        rcases ih u' hu' ps (fun q hq => hps q (List.mem_cons_of_mem _ hq)) _ hless with
          ⟨hle, hcut, hbroken⟩
        refine ⟨Nat.succ_le_succ hle, ?_, hbroken⟩
        intro heq
        rw [List.map_cons, List.map_cons, hcut (Nat.succ_injective heq)]

/-- A tail that opens no interpolation it closes is not divided. -/
theorem split_tail {tail : List Char}
    (htail : ∀ before opened, find interpBegin tail = some (before, opened) → '}' ∉ opened)
    (fuel : ℕ) (behind : Option (List Char)) : (split fuel tail behind).1 = [] := by
  cases fuel with
  | zero => rfl
  | succ fuel =>
    cases hfind : find interpBegin tail with
    | none => simp [split, hfind]
    | some r =>
      have hopen := find_singleton_eq_none_iff.mpr (htail r.1 r.2 hfind)
      simp [split, hfind, hopen]

/-- Without braces in the expressions the pieces are the ones of the content. -/
theorem split_exact {tail : List Char} (htail : find interpBegin tail = none) (ps : List Piece)
    (hplain : ∀ p ∈ ps, ¬ interpBegin <:+: p.literal) (hbrace : ∀ p ∈ ps, '}' ∉ p.text) (fuel : ℕ)
    (behind : Option (List Char)) (hfuel : ps.length < fuel) :
    split fuel (interleave ps tail) behind =
      (ps.map fun p => (p.literal, p.text), if ps = [] then behind else some tail) := by
  induction ps generalizing fuel behind with
  | nil =>
    obtain ⟨fuel, rfl⟩ := Nat.exists_eq_succ_of_ne_zero (Nat.ne_of_gt hfuel)
    simp [interleave, split, htail]
  | cons p ps ih =>
    obtain ⟨fuel, rfl⟩ := Nat.exists_eq_succ_of_ne_zero (Nat.ne_of_gt (Nat.zero_lt_of_lt hfuel))
    have hbegin := find_interpBegin p.literal (p.text ++ '}' :: interleave ps tail)
      (hplain p List.mem_cons_self)
    have hclose := find_singleton (hbrace p List.mem_cons_self) (interleave ps tail)
    have hrest := ih (fun q hq => hplain q (List.mem_cons_of_mem _ hq))
      (fun q hq => hbrace q (List.mem_cons_of_mem _ hq)) fuel (some (interleave ps tail))
      (Nat.lt_of_succ_lt_succ hfuel)
    rw [interleave, split_of_find hbegin hclose, hrest]
    cases ps with
    | nil => simp [interleave]
    | cons q ps => simp

theorem interleave_length (ps : List Piece) (tail : List Char) : (interleave ps tail).length =
    (ps.map fun p => p.literal.length + (p.text.length + 3)).sum + tail.length := by
  induction ps with
  | nil => simp [interleave]
  | cons p ps ih =>
    simp only [interleave, List.length_append, List.length_cons, List.length_nil, ih,
      List.map_cons, List.sum_cons, interpBegin]
    omega

/-- No character is lost. -/
theorem split_length {fuel : ℕ} {beg rest : List Char} {behind : Option (List Char)}
    (h : (split fuel beg behind).2 = some rest)
    (hbehind : (split fuel beg behind).1 = [] → behind = some beg) : beg.length =
      ((split fuel beg behind).1.map fun c => c.1.length + (c.2.length + 3)).sum + rest.length := by
  induction fuel generalizing beg behind with
  | zero =>
    rw [split, hbehind rfl] at h
    cases h
    simp [split]
  | succ fuel ih =>
    cases hbegin : find interpBegin beg with
    | none =>
      have hstop : split (fuel + 1) beg behind = ([], behind) := by simp only [split, hbegin]
      rw [hstop] at h hbehind ⊢
      rw [hbehind rfl] at h
      cases h
      simp
    | some r =>
      obtain ⟨before, opened⟩ := r
      cases hclose : find ['}'] opened with
      | none =>
        simp only [split, hbegin, hclose] at h
        cases h
      | some r =>
        obtain ⟨contents, after⟩ := r
        rw [split_of_find hbegin hclose] at h ⊢
        have hlen := length_of_find hbegin
        have hlen' := length_of_find hclose
        have := ih h (fun _ => rfl)
        simp only [List.map_cons, List.sum_cons, interpBegin, List.length_cons,
          List.length_nil] at *
        omega

/-! ## What the pieces denote -/

/-- The nodes of the pieces of a content. -/
def pieceNodes (ps : List Piece) : List Node :=
  ps.flatMap fun p => [stringNode p.literal, toStringCall p.node]

theorem parsed_pieces {ps : List Piece} (h : ∀ p ∈ ps, parseText fr p.text = .ok p.node) :
    Parsed fr (ps.map fun p => (p.literal, p.text)) (pieceNodes ps) := by
  induction ps with
  | nil => exact .nil
  | cons p ps ih =>
    exact .cons (h p List.mem_cons_self) (ih fun q hq => h q (List.mem_cons_of_mem _ hq))

theorem Parsed.unique {cs : List (List Char × List Char)} {ns ns' : List Node}
    (h : Parsed fr cs ns) (h' : Parsed fr cs ns') : ns = ns' := by
  induction h generalizing ns' with
  | nil =>
    cases h'
    rfl
  | cons htext _ ih =>
    rcases h' with _ | ⟨htext', hcs'⟩
    rw [htext] at htext'
    cases htext'
    rw [ih hcs']

theorem denoteAll_pieces (ps : List Piece) (tail : List Char) :
    denoteAll str (pieceNodes ps ++ [stringNode tail]) = some (concatenation str ps tail) := by
  induction ps with
  | nil => simp [pieceNodes, denoteAll, concatenation]
  | cons p ps ih =>
    have hcons : pieceNodes (p :: ps) ++ [stringNode tail] =
        stringNode p.literal :: toStringCall p.node :: (pieceNodes ps ++ [stringNode tail]) := rfl
    simp [hcons, denoteAll, ih, concatenation]

/-- With every expression's text of one length, the lengths of the literals and the number of the
calls can be read off. -/
theorem Parsed.length_denoteAll {cs : List (List Char × List Char)} {ns : List Node}
    (h : Parsed fr cs ns) (k : ℕ) (rest v : List Char)
    (hv : denoteAll (fun _ => List.replicate k ' ') (ns ++ [stringNode rest]) = some v) :
    v.length = (cs.map (·.1.length)).sum + cs.length * k + rest.length := by
  induction h generalizing v with
  | nil =>
    simp [denoteAll] at hv
    simp [hv]
  | @cons before contents inner cs ns _ _ ih =>
    simp only [List.cons_append, denoteAll, denote_stringNode, denote_toStringCall] at hv
    cases hrest : denoteAll (fun _ => List.replicate k ' ') (ns ++ [stringNode rest]) with
    | none =>
      rw [hrest] at hv
      cases hv
    | some w =>
      rw [hrest] at hv
      cases hv
      have := ih w hrest
      simp only [List.length_append, List.length_replicate, List.map_cons, List.sum_cons,
        List.length_cons, Nat.add_mul, Nat.one_mul]
      omega

theorem concatenation_length (ps : List Piece) (tail : List Char) (k : ℕ) :
    (concatenation (fun _ => List.replicate k ' ') ps tail).length =
      (ps.map (·.literal.length)).sum + ps.length * k + tail.length := by
  induction ps with
  | nil => simp [concatenation]
  | cons p ps ih =>
    simp only [concatenation, List.length_append, List.length_replicate, ih, List.map_cons,
      List.sum_cons, List.length_cons, Nat.add_mul, Nat.one_mul]
    omega

/-! ## The string -/

/-- A memory again has its pointers, and what they and all others pointed to. -/
structure Restored (m m' : Memory σ) : Prop extends Kept m m' where
  scanner : m'.scanner = m.scanner

/-- The string token is current, and read past it the memory is `m₁`. -/
structure Reading (fr : Front σ) (text : List Char) (m m₁ : Memory σ) : Prop where
  type : m.state.parser.current.type = .stringDquote ∨ m.state.parser.current.type = .stringSquote
  lexeme : m.state.parser.current.lexeme = String.ofList text
  consumed : onCurrent (advance fr.scanToken) m = .ok ((), m₁)

namespace Content

def text (t : Content fr) : List Char := interleave t.pieces t.tail

def value (t : Content fr) (str : Node → List Char) : List Char :=
  concatenation str t.pieces t.tail

/-- `primary` gives a tree that denotes the literals and the expressions one after the other, and
leaves scanner and parser as they are behind the token. -/
def Concatenates (t : Content fr) (other : Parses σ Node) (m m₁ : Memory σ) : Prop :=
  ∃ node m', primary fr other m = .ok (node, m') ∧
    (∀ str, denote str node = some (t.value str)) ∧ Restored m₁ m'

end Content

theorem Memory.put_self (m : Memory σ) : m.put m.state = m := by
  simp [put, state]

theorem matchTok_of_type {type : TokenType} {st st' : State σ}
    (htype : st.parser.current.type = type) (h : advance fr.scanToken st = .ok ((), st')) :
    matchTok fr.scanToken type st = .ok (true, st') := by
  have hcheck : check type st = .ok (true, st) := by simp [check, htype]
  rw [matchTok, bind_ok hcheck, if_pos rfl, bind_ok h]
  rfl

theorem matchTok_of_ne {type : TokenType} {st : State σ} (htype : st.parser.current.type ≠ type) :
    matchTok fr.scanToken type st = .ok (false, st) := by
  have hcheck : check type st = .ok (false, st) := by simp [check, htype]
  rw [matchTok, bind_ok hcheck]
  rfl

/-- A string token is consumed, and its text is interpolated. -/
theorem Reading.primary_eq {text : List Char} {m m₁ : Memory σ} (h : Reading fr text m m₁)
    (other : Parses σ Node) : primary fr other m = stringExpr fr m₁ ∧
      (m₁.parsers m₁.current).previous.lexeme.toList = text := by
  obtain ⟨u, st, hadvance⟩ : ∃ u st, advance fr.scanToken m.state = .ok (u, st) := by
    cases hadvance : advance fr.scanToken m.state with
    | error e =>
      have := onCurrent_error hadvance
      rw [h.consumed] at this
      cases this
    | ok r => exact ⟨r.1, r.2, rfl⟩
  have hm₁ : m₁ = m.put st := by
    have := h.consumed
    rw [onCurrent_ok hadvance] at this
    cases this
    rfl
  have hprevious : (m₁.parsers m₁.current).previous = m.state.parser.current := by
    have := (advance_ahead hadvance).2.1
    rw [← this, hm₁]
    simp [Memory.put]
  refine ⟨?_, by rw [hprevious, h.lexeme, String.toList_ofList]⟩
  by_cases htype : m.state.parser.current.type = .stringDquote
  · rw [primary, bind_ok (onCurrent_ok (matchTok_of_type htype hadvance)), if_pos rfl, hm₁]
  · have hsquote := h.type.resolve_left htype
    rw [primary, bind_ok (onCurrent_ok (matchTok_of_ne htype)), Memory.put_self]
    rw [if_neg Bool.false_ne_true, bind_ok (onCurrent_ok (matchTok_of_type hsquote hadvance)),
      if_pos rfl, hm₁]

theorem parsed_nil {cs : List (List Char × List Char)} {ns : List Node} (h : Parsed fr cs ns) :
    ns = [] ↔ cs = [] := by
  cases h <;> simp

theorem stringTogetherNodesBinop_eq {cs : List (List Char × List Char)} {ns : List Node}
    (h : Parsed fr cs ns) (hne : cs ≠ []) (rest : List Char) :
    ∃ node, stringTogetherNodesBinop (ns ++ [stringNode rest]) = .ok node ∧
      ∀ str, denote str node = denoteAll str (ns ++ [stringNode rest]) := by
  cases h with
  | nil => exact absurd rfl hne
  | cons _ _ => exact ⟨_, rfl, fun str => denote_binopChain _ _⟩

/-- Scanner and parser are set back. -/
theorem Kept.restored {m m' : Memory σ} (h : Kept m m') :
    Restored m { m' with scanner := m.scanner, current := m.current } :=
  ⟨⟨rfl, h.scanner_le, h.parser_le, h.scanners, h.parsers⟩, rfl⟩

variable (fr) in
/-- What becomes of the string, by how its text is divided. -/
theorem stringExpr_eq {m : Memory σ} {text : List Char}
    (htext : (m.parsers m.current).previous.lexeme.toList = text)
    {cs : List (List Char × List Char)} {behind : Option (List Char)}
    (hsplit : split (text.length + 1) text none = (cs, behind)) :
    (∃ e, stringExpr fr m = .error e) ∧ ((∃ ns, Parsed fr cs ns) → cs ≠ [] ∧ behind = none) ∨
    ∃ ns node m', Parsed fr cs ns ∧ stringExpr fr m = .ok (node, m') ∧ Restored m m' ∧
      (cs = [] ∧ (∀ str, denote str node = some text) ∨ cs ≠ [] ∧ ∃ rest, behind = some rest ∧
        ∀ str, denote str node = denoteAll str (ns ++ [stringNode rest])) := by
  have hstart : stringExpr fr m = (do
      let (vnodes, behind) ← interpolations fr m.current (text.length + 1) text [] none
      if vnodes = [] then
        setScanner m.scanner
        setCurrent m.current
        return stringNode text
      else
        match behind with
        | none => throw (.abort .undefinedBehaviour)
        | some rest =>
          setScanner m.scanner
          setCurrent m.current
          stringTogetherNodesBinop (vnodes ++ [stringNode rest]) : Parses σ Node) m := by
    rw [← htext]
    rfl
  rw [hstart]
  rcases interpolations_eq fr m.current (text.length + 1) text [] none m with
    ⟨⟨e, herr⟩, hnot⟩ | ⟨ns, m', hparsed, hloop, hkept⟩
  · left
    rw [hsplit] at hnot
    exact ⟨⟨e, bind_error herr⟩, fun h => absurd h hnot⟩
  · rw [hsplit] at hparsed hloop
    rw [bind_ok hloop]
    dsimp only
    rw [List.nil_append]
    by_cases hcs : cs = []
    · right
      rw [if_pos ((parsed_nil hparsed).mpr hcs)]
      exact ⟨ns, _, _, hparsed, rfl, hkept.restored, .inl ⟨hcs, fun str => by simp⟩⟩
    · rw [if_neg (mt (parsed_nil hparsed).mp hcs)]
      cases behind with
      | none => exact .inl ⟨⟨_, rfl⟩, fun _ => ⟨hcs, rfl⟩⟩
      | some rest =>
        right
        rcases stringTogetherNodesBinop_eq hparsed hcs rest with ⟨node, hnode, hdenote⟩
        refine ⟨ns, node, _, hparsed, ?_, hkept.restored, .inr ⟨hcs, rest, rfl, hdenote⟩⟩
        change (stringTogetherNodesBinop _ >>= fun node => _) = _
        rw [hnode]
        rfl

namespace Content

variable (t : Content fr) {other : Parses σ Node} {m m₁ : Memory σ}

/-- The text is divided into one part at least for each piece. -/
theorem split_text {cs : List (List Char × List Char)} {behind : Option (List Char)}
    (h : split (t.text.length + 1) t.text none = (cs, behind)) : t.pieces.length ≤ cs.length ∧
      (cs.length = t.pieces.length → cs.map (·.2) = t.pieces.map fun p => cut p.text) ∧
      (interpBegin <:+: t.tail → behind = none) := by
  have hleft : Leftover [] := by
    rintro c ⟨⟩
  have := split_interleave t.tail_open (t.text.length + 1) [] hleft t.pieces t.literal_plain none
    (Nat.lt_succ_self _)
  rw [List.nil_append] at this
  change t.pieces.length ≤ (split (t.text.length + 1) t.text none).1.length ∧ _ at this
  rwa [← text, h] at this

/-- Where the tree denotes the concatenation, no expression has a brace. -/
theorem no_brace {cs : List (List Char × List Char)} {ns : List Node} {rest : List Char}
    (hsplit : split (t.text.length + 1) t.text none = (cs, some rest)) (hcs : cs ≠ [])
    (hparsed : Parsed fr cs ns)
    (hdenote : ∀ str, denoteAll str (ns ++ [stringNode rest]) = some (t.value str)) :
    ∀ p ∈ t.pieces, '}' ∉ p.text := by
  have hlength : ∀ k, (t.pieces.map (·.literal.length)).sum + t.pieces.length * k + t.tail.length =
      (cs.map (·.1.length)).sum + cs.length * k + rest.length := by
    intro k
    rw [← concatenation_length]
    exact hparsed.length_denoteAll k rest _ (hdenote _)
  have hzero := hlength 0
  have hone := hlength 1
  have hcount : cs.length = t.pieces.length := by omega
  have hcut := (t.split_text hsplit).2.1 hcount
  have htotal := split_length (congrArg Prod.snd hsplit) (by rw [hsplit]; exact fun h => absurd h hcs)
  rw [hsplit, Content.text, interleave_length] at htotal
  have hsums : (t.pieces.map fun p => p.text.length).sum =
      (t.pieces.map fun p => (cut p.text).length).sum := by
    have hmap := congrArg (fun l => (l.map List.length).sum) hcut
    simp only [List.map_map, Function.comp_def] at hmap
    simp only [List.sum_map_add] at htotal
    simp only [List.map_const', List.sum_replicate, smul_eq_mul, hcount] at htotal
    omega
  -- each part is no longer than its expression, hence each is all of it
  have hle : ∀ p ∈ t.pieces, (cut p.text).length ≤ p.text.length := by
    intro p _
    exact (List.takeWhile_prefix _).length_le
  intro p hp hbrace
  have hlt : (cut p.text).length < p.text.length := by
    rcases Nat.lt_or_ge (cut p.text).length p.text.length with hlt | hge
    · exact hlt
    · have heq := (List.takeWhile_prefix (· ≠ '}')).eq_of_length_le hge
      have := List.takeWhile_eq_self_iff.mp heq '}' hbrace
      simp at this
  exact absurd hsums (List.sum_lt_sum _ _ hle ⟨p, hp, hlt⟩).ne'

theorem plain_of_concatenates (h : Reading fr t.text m m₁) (hconcat : t.Concatenates other m m₁) :
    (∀ p ∈ t.pieces, '}' ∉ p.text) ∧ (interpBegin <:+: t.tail → t.pieces = []) := by
  rcases h.primary_eq other with ⟨hprimary, htext⟩
  rcases hconcat with ⟨node, m', hok, hdenote, _⟩
  cases hsplit : split (t.text.length + 1) t.text none with
  | mk cs behind =>
    rcases t.split_text hsplit with ⟨hcount, _, hbroken⟩
    rw [hprimary] at hok
    rcases stringExpr_eq fr htext hsplit with ⟨⟨e, herr⟩, _⟩ | ⟨ns, node', m'', hparsed, hrun, _, hends⟩
    · rw [herr] at hok
      cases hok
    rw [hrun] at hok
    cases hok
    rcases hends with ⟨hcs, _⟩ | ⟨hcs, rest, hbehind, hall⟩
    · have hnil : t.pieces = [] := by
        rw [hcs] at hcount
        exact List.length_eq_zero_iff.mp (Nat.le_zero.mp hcount)
      rw [hnil]
      exact ⟨fun p hp => absurd hp List.not_mem_nil, fun _ => rfl⟩
    · rw [hbehind] at hsplit hbroken
      constructor
      · exact t.no_brace hsplit hcs hparsed fun str => (hall str).symm.trans (hdenote str)
      · intro hinfix
        cases hbroken hinfix

theorem concatenates_of_plain (h : Reading fr t.text m m₁) (hbrace : ∀ p ∈ t.pieces, '}' ∉ p.text)
    (htail : interpBegin <:+: t.tail → t.pieces = []) : t.Concatenates other m m₁ := by
  rcases h.primary_eq other with ⟨hprimary, htext⟩
  cases hsplit : split (t.text.length + 1) t.text none with
  | mk cs behind =>
    rw [Concatenates, hprimary]
    by_cases hnil : t.pieces = []
    · -- a literal
      have htail : t.text = t.tail := by rw [Content.text, hnil, interleave]
      have hcs : cs = [] := by
        have := split_tail t.tail_open (t.text.length + 1) none
        rwa [← htail, hsplit] at this
      subst hcs
      rcases stringExpr_eq fr htext hsplit with ⟨_, hnot⟩ | ⟨ns, node, m', _, hrun, hrestored, hends⟩
      · exact absurd rfl (hnot ⟨[], .nil⟩).1
      · rcases hends with ⟨_, hdenote⟩ | ⟨hne, _⟩
        · refine ⟨node, m', hrun, ?_, hrestored⟩
          intro str
          rw [hdenote, htail, value, hnil, concatenation]
        · exact absurd rfl hne
    · have hnone : find interpBegin t.tail = none :=
        find_eq_none_iff.mpr fun hinfix => hnil (htail hinfix)
      have hfuel : t.pieces.length < t.text.length + 1 := by
        have hle : t.pieces.length ≤
            (t.pieces.map fun p => p.literal.length + (p.text.length + 3)).sum := by
          rw [← List.length_map (fun p => p.literal.length + (p.text.length + 3))]
          apply List.length_le_sum_of_one_le
          intro k hk
          rcases List.mem_map.mp hk with ⟨p, _, rfl⟩
          omega
        rw [Content.text, interleave_length]
        omega
      have hexact := split_exact hnone t.pieces t.literal_plain hbrace _ none hfuel
      rw [← Content.text, hsplit, if_neg hnil] at hexact
      cases hexact
      have hparsed := parsed_pieces t.text_parsed
      rcases stringExpr_eq fr htext hsplit with ⟨_, hnot⟩ | ⟨ns, node, m', hns, hrun, hrestored, hends⟩
      · cases (hnot ⟨_, hparsed⟩).2
      · rcases hends with ⟨hmap, _⟩ | ⟨_, rest, hrest, hdenote⟩
        · exact absurd (List.map_eq_nil_iff.mp hmap) hnil
        · cases hrest
          refine ⟨node, m', hrun, ?_, hrestored⟩
          intro str
          rw [hdenote, hns.unique hparsed, denoteAll_pieces, value]

/-- **An interpolated string is a concatenation exactly when** no expression in it has a closing
brace, and its tail opens an interpolation only where there is none before. -/
theorem concatenates_iff (h : Reading fr t.text m m₁) : t.Concatenates other m m₁ ↔
    (∀ p ∈ t.pieces, '}' ∉ p.text) ∧ (interpBegin <:+: t.tail → t.pieces = []) :=
  ⟨t.plain_of_concatenates h, fun hplain => t.concatenates_of_plain h hplain.1 hplain.2⟩

end Content

/-! ## Strings with names and strings in them -/

def quote : Char := Char.ofNat 39

/-- A scanner for names and single-quoted strings. -/
def scanWord : List Char → Token × List Char
  | [] => ({ type := .eof }, [])
  | c :: cs =>
    if c = quote then
      match find [quote] cs with
      | some (str, rest) => ({ type := .stringSquote, lexeme := String.ofList str }, rest)
      | none => ({ type := .error, lexeme := "Unterminated string." }, [])
    else if c.isAlpha then
      ({ type := .identifier, lexeme := String.ofList ((c :: cs).takeWhile Char.isAlpha) },
        (c :: cs).dropWhile Char.isAlpha)
    else ({ type := .error, lexeme := "Unexpected character." }, cs)

def wordExpression : Parse (List Char) Node := do
  let tok := (← get).parser.current
  if tok.type = .stringSquote then
    advance scanWord
    return .literal (.string tok.lexeme false)
  else if tok.type = .identifier then
    advance scanWord
    return .variable tok.lexeme
  else errorAtCurrent "Unexpected token"

def words : Front (List Char) where
  scanToken := scanWord
  initScanner := id
  expression := wordExpression

def stringTok (text : List Char) : Token where
  type := .stringDquote
  lexeme := String.ofList text

/-- The string is the current token, and nothing follows it. -/
def atString (text : List Char) : Memory (List Char) where
  scanners := fun _ => []
  parsers := fun _ => { initParser with current := stringTok text }
  scanner := 0
  current := 0
  nextScanner := 1
  nextParser := 1

def behindString (text : List Char) : Memory (List Char) :=
  (atString text).put
    ⟨{ initParser with previous := stringTok text, current := { type := .eof } }, []⟩

theorem reading_atString (text : List Char) :
    Reading words text (atString text) (behindString text) := by
  refine ⟨.inl rfl, rfl, ?_⟩
  apply onCurrent_ok
  rfl

/-- `x ${a}` -/
def named : Content words where
  pieces := [⟨['x', ' '], ['a'], .variable "a"⟩]
  tail := []
  literal_plain := by decide
  text_parsed := by
    intro p hp
    rw [List.mem_singleton.mp hp]
    rfl
  tail_open := by
    rintro before opened ⟨⟩

def unexpected : Parses (List Char) Node := onCurrent (errorAtCurrent "Unexpected token")

theorem named_concatenates :
    named.Concatenates unexpected (atString named.text) (behindString named.text) :=
  (named.concatenates_iff (reading_atString _)).mpr ⟨by decide, by decide⟩

/-- A quoted brace inside the braces. -/
def braced : Content words where
  pieces := [⟨[], [quote, '}', quote], .literal (.string "\x7d" false)⟩]
  tail := []
  literal_plain := by decide
  text_parsed := by
    intro p hp
    rw [List.mem_singleton.mp hp]
    rfl
  tail_open := by
    rintro before opened ⟨⟩

/-- A name, and behind it an interpolation that is not closed. -/
def unclosed : Content words where
  pieces := [⟨[], ['a'], .variable "a"⟩]
  tail := [' ', '$', '{', 'b']
  literal_plain := by decide
  text_parsed := by
    intro p hp
    rw [List.mem_singleton.mp hp]
    rfl
  tail_open := by
    rintro before opened ⟨⟩
    decide

/-- A quoted brace ends its expression, and an open interpolation behind a complete one is not kept
as text. -/
theorem brace_ends_expression :
    (Reading words braced.text (atString braced.text) (behindString braced.text) ∧
      ¬ braced.Concatenates unexpected (atString braced.text) (behindString braced.text)) ∧
    Reading words unclosed.text (atString unclosed.text) (behindString unclosed.text) ∧
      ¬ unclosed.Concatenates unexpected (atString unclosed.text) (behindString unclosed.text) := by
  constructor
  · constructor
    · exact reading_atString _
    · intro h
      exact (braced.plain_of_concatenates (reading_atString _) h).1 _ List.mem_cons_self (by decide)
  · constructor
    · exact reading_atString _
    · intro h
      cases (unclosed.plain_of_concatenates (reading_atString _) h).2 (by decide)

end Clox.Parsing
