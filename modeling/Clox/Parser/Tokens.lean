import Clox.Bytecode.Iseq
import Clox.Lib.Except

/-! # Tokens and lookahead

The parser's window on the scanner's tokens (`parser.c`): the previous and the
current token, and the buffer that `peekTokN` fills ahead of them. However
lookahead and reading are mixed, the scanner's tokens come once each and in
their order.
-/

namespace Clox.Parsing

inductive TokenType where
  /-- The type of a cleared token, no constant of the enumeration. -/
  | cleared
  | empty
  | leftParen | rightParen | leftBrace | rightBrace | leftBracket | rightBracket
  | bang | bangEqual | comma | dot | equal | equalEqual
  | greater | greaterEqual | less | lessEqual
  | minus | plus | semicolon | colon | slash | percent | star
  | pipe | amp | caret | shovelL | shovelR | arrow | dice
  | identifier | stringSquote | stringDquote | stringStatic | number
  | and | class_ | module | else_ | false_ | fun_ | for_ | try_ | catch_ | throw | ensure
  | if_ | nil | or | print | return_ | super | this | true_ | var | while_ | continue_ | break_
  | in_ | foreach
  | endScript | error | eof
deriving DecidableEq, Repr

/-- `struct Token`; `lexeme` is the text `tokStr` gives. -/
structure Token where
  type : TokenType
  startIdx : ℕ := 0
  length : ℕ := 0
  lexeme : String := ""
  line : ℕ := 0
  alloced : Bool := false
deriving DecidableEq, Repr

/-- A token that `memset` cleared. -/
def Token.zero : Token where
  type := .cleared

/-- How a parse is left: `longjmp` out of `errorAt`, or the process ends. -/
inductive Stop where
  | syntaxError (token : Token) (message : String)
  | abort (why : Abort)
deriving DecidableEq, Repr

/-- `struct sParser`, without the lists of messages and the flags that are set only when a parser
is given up. -/
structure Parser where
  current : Token
  previous : Token
  peekBuf : List Token
  inCallExpr : Bool
deriving DecidableEq, Repr

def initParser : Parser where
  current := .zero
  previous := .zero
  peekBuf := []
  inCallExpr := false

/-- The parser and the scanner that are current. -/
structure State (σ : Type) where
  parser : Parser
  scanner : σ

/-- A function of the parser. -/
abbrev Parse (σ : Type) := StateT (State σ) (Except Stop)

section

variable {σ : Type} (scanToken : σ → Token × σ)

def error {α : Type} (message : String) : Parse σ α := fun st =>
  .error (.syntaxError st.parser.previous message)

def errorAtCurrent {α : Type} (message : String) : Parse σ α := fun st =>
  .error (.syntaxError st.parser.current message)

def nextToken (st : State σ) : Token × State σ :=
  match st.parser.peekBuf with
  | val :: peekBuf => (val, { st with parser := { st.parser with peekBuf := peekBuf } })
  | [] => ((scanToken st.scanner).1, { st with scanner := (scanToken st.scanner).2 })

/-- `advance`; an error token ends the parse. -/
def advance : Parse σ Unit := fun st =>
  let (tok, next) := nextToken scanToken st
  let next : State σ := { next with
    parser := { next.parser with previous := st.parser.current, current := tok } }
  if tok.type = .error then .error (.syntaxError tok tok.lexeme) else .ok ((), next)

def check (type : TokenType) : Parse σ Bool := fun st =>
  .ok (decide (st.parser.current.type = type), st)

def consume (type : TokenType) (message : String) : Parse σ Unit := do
  if ← check type then advance scanToken else errorAtCurrent message

/-- `match`, outside the interactive prompt. -/
def matchTok (type : TokenType) : Parse σ Bool := do
  if ← check type then
    advance scanToken
    return true
  else return false

/-- The loop of `peekTokN`: `n` more tokens, fewer where the source ends. -/
def fillPeekBuf : ℕ → List Token → σ → List Token × σ
  | 0, peekBuf, s => (peekBuf, s)
  | n + 1, peekBuf, s =>
    let (tok, s) := scanToken s
    if tok.type = .eof then (peekBuf ++ [tok], s) else fillPeekBuf n (peekBuf ++ [tok]) s

def peekTokN (n : ℕ) : Parse σ Token := fun st =>
  if n = 0 then .error (.abort .assertFailed)
  else if st.parser.peekBuf.length < n then
    let (peekBuf, s) := fillPeekBuf scanToken (n - st.parser.peekBuf.length) st.parser.peekBuf
      st.scanner
    .ok (peekBuf.getLastD .zero, ⟨{ st.parser with peekBuf := peekBuf }, s⟩)
  else .ok (st.parser.peekBuf.getD (n - 1) .zero, st)

/-! ## What lies ahead -/

/-- The tokens a scanner gives one after the other. -/
def scanned (s : σ) : ℕ → Token
  | 0 => (scanToken s).1
  | k + 1 => scanned (scanToken s).2 k

/-- The tokens behind the current one: the buffer's, then the scanner's. -/
def ahead (peekBuf : List Token) (s : σ) : ℕ → Token := fun k =>
  if k < peekBuf.length then peekBuf.getD k .zero else scanned scanToken s (k - peekBuf.length)

def State.ahead (st : State σ) : ℕ → Token :=
  Parsing.ahead scanToken st.parser.peekBuf st.scanner

/-- Behind the end of the source there is only its end. -/
def StaysAtEnd : Prop :=
  ∀ s, (scanToken s).1.type = .eof → (scanToken (scanToken s).2).1.type = .eof

variable {scanToken}

theorem ahead_nil (s : σ) : ahead scanToken [] s = scanned scanToken s := by
  funext k
  simp [ahead]

theorem ahead_cons_zero (t : Token) (ts : List Token) (s : σ) : ahead scanToken (t :: ts) s 0 = t := by
  simp [ahead]

theorem ahead_cons_succ (t : Token) (ts : List Token) (s : σ) (k : ℕ) :
    ahead scanToken (t :: ts) s (k + 1) = ahead scanToken ts s k := by
  simp [ahead]

/-- Where a token is kept makes no difference. -/
theorem ahead_append_scanToken (ts : List Token) (s : σ) :
    ahead scanToken (ts ++ [(scanToken s).1]) (scanToken s).2 = ahead scanToken ts s := by
  induction ts with
  | nil =>
    funext k
    cases k with
    | zero => rw [List.nil_append, ahead_cons_zero, ahead_nil, scanned]
    | succ k => rw [List.nil_append, ahead_cons_succ, ahead_nil, ahead_nil, scanned]
  | cons t ts ih =>
    funext k
    cases k with
    | zero => rw [List.cons_append, ahead_cons_zero, ahead_cons_zero]
    | succ k => rw [List.cons_append, ahead_cons_succ, ahead_cons_succ, ih]

theorem ahead_fillPeekBuf (n : ℕ) (ts : List Token) (s : σ) :
    ahead scanToken (fillPeekBuf scanToken n ts s).1 (fillPeekBuf scanToken n ts s).2 =
      ahead scanToken ts s := by
  induction n generalizing ts s with
  | zero => rfl
  | succ n ih =>
    simp only [fillPeekBuf]
    split
    · exact ahead_append_scanToken ts s
    · rw [ih, ahead_append_scanToken]

/-- The last token in the filled buffer is the one asked for, or one at the end of the source. -/
theorem fillPeekBuf_last (hend : StaysAtEnd scanToken) (n : ℕ) (ts : List Token) (s : σ) :
    let last := (fillPeekBuf scanToken (n + 1) ts s).1.getLastD .zero
    last = scanned scanToken s n ∨ last.type = .eof ∧ (scanned scanToken s n).type = .eof := by
  induction n generalizing ts s with
  | zero =>
    left
    simp only [fillPeekBuf]
    split <;> simp [scanned]
  | succ n ih =>
    rw [fillPeekBuf]
    by_cases heof : (scanToken s).1.type = .eof
    · right
      simp only [if_pos heof]
      constructor
      · simpa using heof
      · -- from here on every token is the end
        have hstays : ∀ k s, (scanToken s).1.type = .eof → (scanned scanToken s k).type = .eof := by
          intro k
          induction k with
          | zero => exact fun _ h => h
          | succ k ih => exact fun s h => ih _ (hend s h)
        exact hstays _ s heof
    · simp only [if_neg heof]
      exact ih _ _

theorem peekTokN_ahead {n : ℕ} {st st' : State σ} {tok : Token}
    (h : peekTokN scanToken n st = .ok (tok, st')) :
    st'.ahead scanToken = st.ahead scanToken ∧ st'.parser.current = st.parser.current ∧
      st'.parser.previous = st.parser.previous := by
  simp only [peekTokN] at h
  split at h
  · cases h
  split at h
  · cases h
    exact ⟨ahead_fillPeekBuf _ _ _, rfl, rfl⟩
  · cases h
    exact ⟨rfl, rfl, rfl⟩

/-- What `peekTokN` gives is the token so far ahead; past the end it is an end. -/
theorem peekTokN_tok (hend : StaysAtEnd scanToken) {n : ℕ} {st st' : State σ} {tok : Token}
    (h : peekTokN scanToken (n + 1) st = .ok (tok, st')) :
    tok = st.ahead scanToken n ∨
      tok.type = .eof ∧ (st.ahead scanToken n).type = .eof := by
  simp only [peekTokN, Nat.add_one_ne_zero, if_false] at h
  split at h
  · rename_i hlt
    cases h
    have hsub : n + 1 - st.parser.peekBuf.length = n - st.parser.peekBuf.length + 1 := by omega
    have hahead : st.ahead scanToken n =
        scanned scanToken st.scanner (n - st.parser.peekBuf.length) := by
      rw [State.ahead, ahead, if_neg (by omega)]
    rw [hahead, hsub]
    exact fillPeekBuf_last hend _ _ _
  · rename_i hge
    cases h
    left
    rw [State.ahead, ahead, if_pos (by omega), Nat.add_sub_cancel]

variable (scanToken) in
theorem nextToken_ahead (st : State σ) : (nextToken scanToken st).1 = st.ahead scanToken 0 ∧
    (nextToken scanToken st).2.ahead scanToken = fun k => st.ahead scanToken (k + 1) := by
  simp only [nextToken]
  split
  · rename_i val rest hbuf
    constructor
    · simp only [State.ahead, hbuf, ahead_cons_zero]
    · funext k
      simp only [State.ahead, hbuf, ahead_cons_succ]
  · rename_i hbuf
    constructor
    · simp only [State.ahead, hbuf, ahead_nil, scanned]
    · funext k
      simp only [State.ahead, hbuf, ahead_nil, scanned]

theorem advance_ahead {st st' : State σ} {u : Unit} (h : advance scanToken st = .ok (u, st')) :
    st'.parser.current = st.ahead scanToken 0 ∧ st'.parser.previous = st.parser.current ∧
      st'.ahead scanToken = (fun k => st.ahead scanToken (k + 1)) ∧
      st'.parser.inCallExpr = st.parser.inCallExpr := by
  have hnext := nextToken_ahead scanToken st
  have hcall : (nextToken scanToken st).2.parser.inCallExpr = st.parser.inCallExpr := by
    simp only [nextToken]
    split <;> rfl
  simp only [advance] at h
  split at h
  · cases h
  · cases h
    exact ⟨hnext.1, rfl, hnext.2, hcall⟩

/-! ## Any order of looking and reading -/

/-- A call of `peekTokN` or of `advance`. -/
inductive Look where
  | peek (n : ℕ)
  | read
deriving DecidableEq, Repr

variable (scanToken) in
/-- The tokens that became current. -/
def look : List Look → State σ → Except Stop (List Token × State σ)
  | [], st => .ok ([], st)
  | .peek n :: ls, st => do
    let (_, st) ← peekTokN scanToken n st
    look ls st
  | .read :: ls, st => do
    let (_, st) ← advance scanToken st
    let (toks, st') ← look ls st
    return (st.parser.current :: toks, st')

/-- The scanner's tokens come once each and in order, whatever is looked at in between. -/
theorem look_in_order {ls : List Look} {st st' : State σ} {toks : List Token}
    (h : look scanToken ls st = .ok (toks, st')) :
    toks = (List.range toks.length).map (st.ahead scanToken) ∧
      st'.ahead scanToken = fun k => st.ahead scanToken (k + toks.length) := by
  induction ls generalizing st toks with
  | nil =>
    cases h
    exact ⟨rfl, rfl⟩
  | cons l ls ih =>
    cases l with
    | peek n =>
      rcases Except.bind_eq_ok.mp h with ⟨⟨_, st₁⟩, hpeek, hrest⟩
      have := ih hrest
      rwa [(peekTokN_ahead hpeek).1] at this
    | read =>
      rcases Except.bind_eq_ok.mp h with ⟨⟨_, st₁⟩, hread, hrest⟩
      rcases Except.bind_eq_ok.mp hrest with ⟨⟨toks₁, st₂⟩, hlook, heq⟩
      cases heq
      rcases advance_ahead hread with ⟨hcurrent, _, hahead, _⟩
      rcases ih hlook with ⟨htoks, hrest⟩
      rw [hahead] at htoks hrest
      constructor
      · rw [List.length_cons, List.range_succ_eq_map, List.map_cons, List.map_map, hcurrent]
        exact congrArg _ htoks
      · rw [hrest]
        funext k
        rw [List.length_cons, ← Nat.add_assoc]

end

end Clox.Parsing
