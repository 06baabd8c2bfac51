import Clox.Lib.Commands
import Clox.Parser.Scanner
import Clox.Regex.Nodes
import Clox.Runtime.Trimming

/-! # The regex parser

`regex_parse_node`, `regex_parse` and `regex_compile`. The parser builds the tree while it reads:
an operator finds the nodes before it already linked and puts its own node above them. `begOrNode`
is where the alternative before a `|` begins.
-/

namespace Clox.Regex

open Clox.Printing (Bytes)
open Clox.Scanning (chr isDigit)
open Clox.Trimming (isspace)
open Commands Commands.Command

/-- The variables of a parse. `srcP` is what `*src_p` still points at. -/
structure Parser where
  nodes : Nodes
  groups : List ℕ
  begOrNode : Option ℕ
  srcP : Bytes
  err : ℤ

abbrev Prog (α : Type) := Command Parser Stop α

/-- `**src_p`; behind the pattern stands its NUL. -/
def Parser.cur (s : Parser) : UInt8 := s.srcP.headD 0

/-- `(*src_p)++` -/
def advance : Prog Unit := fun s =>
  match s.srcP with
  | [] => (.error .readsPast, s)
  | _ :: rest => (.ok (), { s with srcP := rest })

/-- `*src_p = endptr` -/
def setSrc (rest : Bytes) : Prog Unit := modify fun s => { s with srcP := rest }

def setBegOrNode (a : Option ℕ) : Prog Unit := modify fun s => { s with begOrNode := a }

/-- `*err = -1; return NULL;` -/
def parseError : Prog (Option ℕ) := do
  modify fun s => { s with err := -1 }
  return none

/-- A function that links nodes. -/
def link {α : Type} (f : Nodes → Except Stop (α × Nodes)) : Prog α := fun s =>
  match f s.nodes with
  | .ok (a, n) => (.ok a, { s with nodes := n })
  | .error e => (.error e, s)

/-- Fields of a node that link nothing. -/
def setInfo (a : ℕ) (f : RNode → RNode) : Prog Unit :=
  modify fun s => { s with nodes := s.nodes.update a f }

/-- `regex_add_group` -/
def regexAddGroup (group : ℕ) : Prog Unit :=
  modify fun s => { s with groups := s.groups ++ [group] }

/-! ## Repeats -/

/-- `strtol` in base 10: the number, unless it is out of range, and what stands behind it. -/
def strtol (s : Bytes) : Option ℤ × Bytes :=
  let body := s.dropWhile isspace
  let negative := body.head? = some (chr '-')
  let digits := if negative ∨ body.head? = some (chr '+') then body.tail else body
  let number : ℕ := (digits.takeWhile isDigit).foldl (fun n c => 10 * n + (c - chr '0').toNat) 0
  let value : ℤ := if negative then -number else number
  if digits.takeWhile isDigit = [] then (some 0, s)
  else if -2 ^ 63 ≤ value ∧ value < 2 ^ 63 then (some value, digits.dropWhile isDigit)
  else (none, digits.dropWhile isDigit)

/-- What `{` reads: the two numbers, unless they are no repeat, and where `*src_p` is left. -/
def repeatNumbers (s : Bytes) : Option (ℤ × ℤ) × Bytes :=
  match strtol s with
  | (none, _) => (none, s)
  | (some lval1, endptr) =>
    if endptr = [] then (none, s)
    else if endptr.head? = some (chr '\x7d') then (some (lval1, lval1), endptr.tail)
    else if endptr.head? ≠ some (chr ',') then (none, endptr)
    else match strtol endptr.tail with
      | (none, _) => (none, endptr.tail)
      | (some lval2, endptr') =>
        if lval2 < lval1 ∨ endptr' = [] then (none, endptr.tail)
        else (some (lval1, lval2), endptr'.tail)

section

variable (parent : ℕ) (prev : Option ℕ)

/-- `+` and `*`, with `?` behind them or not. -/
def parseRepeat (greedy nongreedy : RNodeType) : Prog (Option ℕ) :=
  match prev with
  | none => parseError
  | some prev => do
    advance
    let s ← get
    if s.cur = chr '?' then do
      advance
      let s ← get
      let a ← link fun n => n.wrap nongreedy s.srcP 2 parent prev
      return some a
    else do
      let a ← link fun n => n.wrap greedy s.srcP 1 parent prev
      return some a

def parseMaybe : Prog (Option ℕ) :=
  match prev with
  | none => parseError
  | some prev => do
    advance
    let s ← get
    let a ← link fun n => n.wrap .maybe s.srcP 1 parent prev
    return some a

def parseRepeatN : Prog (Option ℕ) :=
  match prev with
  | none => parseError
  | some prev => do
    advance
    let s ← get
    setSrc (repeatNumbers s.srcP).2
    match (repeatNumbers s.srcP).1 with
    | none => parseError
    | some (lval1, lval2) => do
      let a ← link fun n => n.wrap .repeatN (repeatNumbers s.srcP).2 1 parent prev
      setInfo a fun r => { r with repeatMin := lval1, repeatMax := lval2 }
      return some a

/-! ## Single nodes -/

/-- `new_node` for the element at `*src_p`. -/
def newElement (type : RNodeType) : Prog ℕ := do
  let s ← get
  link fun n => n.newNode type (some s.srcP) 1 (some parent) prev

def parseAnchor (c : UInt8) : Prog (Option ℕ) := do
  let anch ← newElement parent prev .anchor
  setInfo anch fun r => { r with anchorType := if c = chr '^' then .bol else .eol }
  advance
  return some anch

/-- The loop of `[`, with the byte read last: the number of bytes and what stands behind the
class. -/
def classEnd : UInt8 → Bytes → ℕ × Bytes
  | _, [] => (0, [])
  | lastc, c :: cs =>
    if lastc ≠ chr '\\' ∧ c = chr ']' then (0, c :: cs)
    else ((classEnd c cs).1 + 1, (classEnd c cs).2)

def parseClass : Prog (Option ℕ) := do
  let cclass ← newElement parent prev .cclass
  advance
  let s ← get
  let loop := classEnd s.cur s.srcP
  setInfo cclass fun r => { r with toklen := r.toklen + loop.1 }
  setSrc loop.2
  if loop.2 = [] then parseError
  else do
    advance
    return some cclass

def parseSimple (type : RNodeType) : Prog (Option ℕ) := do
  let a ← newElement parent prev type
  advance
  return some a

/-- The class of a letter and of its capital. -/
def eclassOf (c : UInt8) : Option REClassType :=
  if c = chr 'w' then some .word
  else if c = chr 'W' then some .nonWord
  else if c = chr 'd' then some .digit
  else if c = chr 'D' then some .nonDigit
  else if c = chr 's' then some .space
  else if c = chr 'S' then some .nonSpace
  else if c = chr 'b' then some .wordBoundary
  else if c = chr 'B' then some .nonWordBoundary
  else none

/-- The characters that stand for themselves behind a backslash. -/
def escaped : List UInt8 := ['.', '*', '+', '[', '|', '?', '\x7b', '\x7d', '^', '$'].map chr

def parseEscape : Prog (Option ℕ) := do
  advance
  let s ← get
  let c := s.cur
  if c = 0 then parseError
  else match eclassOf c with
    | some etype => do
      let node ← newElement parent prev .eclass
      setInfo node fun r => { r with eclassType := etype }
      advance
      return some node
    | none =>
      if c ∈ escaped then parseSimple parent prev .atom
      else if c = chr 'A' ∨ c = chr 'Z' then do
        let node ← newElement parent prev .anchor
        setInfo node fun r => { r with anchorType := if c = chr 'A' then .bos else .eos }
        advance
        return some node
      else do
        advance
        let node ← newElement parent prev .atom
        return some node

/-! ## Groups and alternatives -/

/-- The loop of `(` over the children of the group. -/
def groupLoop (parse : ℕ → Option ℕ → Prog (Option ℕ)) (grp : ℕ) : ℕ → Option ℕ → Prog Unit
  | 0, _ => stop .diverges
  | fuel + 1, grpChild => do
    let s ← get
    if s.cur = 0 ∨ s.cur = chr ')' then return ()
    else do
      let child ← parse grp grpChild
      if grpChild = none then do
        setBegOrNode child
        groupLoop parse grp fuel child
      else groupLoop parse grp fuel child

def parseGroup (parse : ℕ → Option ℕ → Prog (Option ℕ)) (fuel : ℕ) : Prog (Option ℕ) := do
  let grp ← newElement parent prev .group
  advance
  groupLoop parse grp fuel none
  let s ← get
  if s.err ≠ 0 then return none
  else if s.cur = 0 then parseError
  else if s.cur = chr ')' then do
    advance
    regexAddGroup grp
    return some grp
  else stop .assertFailed

/-- The loop of `|` over what follows; it ends early when a group or another `|` has moved
`begOrNode`. -/
def altLoop (parse : ℕ → Option ℕ → Prog (Option ℕ)) (altGroup : ℕ) (lastBegOrNode : Option ℕ) :
    ℕ → ℕ → Option ℕ → Prog (Option ℕ)
  | 0, _, _ => stop .diverges
  | fuel + 1, lastIdx, alt => do
    let s ← get
    if s.cur = 0 ∨ s.cur = chr ')' then return alt
    else do
      let alt ← parse altGroup alt
      let s ← get
      if s.err ≠ 0 then return none
      else if s.begOrNode ≠ lastBegOrNode ∧ 0 < lastIdx then return alt
      else altLoop parse altGroup lastBegOrNode fuel (lastIdx + 1) alt

def parseOr (parse : ℕ → Option ℕ → Prog (Option ℕ)) (fuel : ℕ) : Prog (Option ℕ) := do
  let s ← get
  match s.begOrNode with
  | none => parseError
  | some begOrNode => do
    let (orNode, groupNode) ← link fun n =>
      (n.splitOr s.srcP parent begOrNode).map fun r => ((r.1, r.2.1), r.2.2)
    advance
    let altGroup ← link fun n => n.newNode .group none 0 (some orNode) (some groupNode)
    let alt ← altLoop parse altGroup (some begOrNode) fuel 0 none
    let s ← get
    if s.err ≠ 0 then return none
    else if alt = none then stop .assertFailed
    else do
      setBegOrNode (some orNode)
      return some orNode

end

/-- `regex_parse_node` -/
def regexParseNode : ℕ → ℕ → Option ℕ → Prog (Option ℕ)
  | 0, _, _ => stop .diverges
  | fuel + 1, parent, prev => do
    let s ← get
    let c := s.cur
    if s.err ≠ 0 then return none
    else if c = 0 then stop .assertFailed
    else if c = chr '^' ∨ c = chr '$' then parseAnchor parent prev c
    else if c = chr '(' then parseGroup parent prev (regexParseNode fuel) fuel
    else if c = chr ')' then stop .assertFailed
    else if c = chr '|' then parseOr parent (regexParseNode fuel) fuel
    else if c = chr '+' then parseRepeat parent prev .repeat_ .repeatNongreedy
    else if c = chr '*' then parseRepeat parent prev .repeatZ .repeatZNongreedy
    else if c = chr '?' then parseMaybe parent prev
    else if c = chr '\x7b' then parseRepeatN parent prev
    else if c = chr '[' then parseClass parent prev
    else if c = chr '.' then parseSimple parent prev .dot
    else if c = chr '\\' then parseEscape parent prev
    else parseSimple parent prev .atom

/-- The loop of `regex_parse`; `err` starts at 0 in every round. -/
def parseLoop (program : ℕ) : ℕ → Option ℕ → Prog Unit
  | 0, _ => stop .diverges
  | fuel + 1, prev => do
    let s ← get
    if s.cur = 0 then return ()
    else do
      modify fun s => { s with err := 0 }
      let prev ← regexParseNode fuel program prev
      let s ← get
      if s.err ≠ 0 then return ()
      else if s.begOrNode = none then do
        setBegOrNode prev
        parseLoop program fuel prev
      else parseLoop program fuel prev

/-- `regex_parse`: `regex->node`; the error is left in `err`. -/
def regexParse (fuel : ℕ) : Prog ℕ := do
  let program ← link fun n => n.newNode .program none 0 none none
  setBegOrNode none
  parseLoop program fuel none
  return program

/-- `REGEX_UNITIALIZED_ERR` is for a regex without a pattern. -/
inductive RegexCompileResult
  | parseErr
  | success
deriving DecidableEq, Repr

/-- Before `regex_compile` no node is allocated; the bytes of later nodes are arbitrary. -/
def initParser (memory : ℕ → RNode) (src : Bytes) : Parser where
  nodes := ⟨memory, 0⟩
  groups := []
  begOrNode := none
  srcP := src
  err := 0

/-- `regex_compile` for a pattern, without its NUL: the result and `regex->node`. -/
def regexCompile (fuel : ℕ) : Prog (RegexCompileResult × ℕ) := do
  let program ← regexParse fuel
  let s ← get
  if s.err ≠ 0 then return (.parseErr, program)
  else if (s.nodes.node program).type = .program then return (.success, program)
  else stop .assertFailed

end Clox.Regex
