import Clox.Parser.Heredoc
import Clox.Parser.Tokens

/-! # The scanner

`scanToken` and what it calls (`scanner.c`), over a source that ends with a NUL
and no function that fetches more of it. Strings cut off by the end of the
source, comments and heredocs each have loops of their own here. A read behind
the NUL and a write behind a local buffer are undefined behaviour.
-/

namespace Clox.Scanning

open Clox Printing Parsing

/-- `struct Scanner`, without `getMoreSourceFn`. -/
structure Scanner where
  source : Bytes
  tokenStartIdx : ℕ := 0
  currentIndex : ℕ := 0
  line : ℕ := 1
  indent : ℤ := 0
  scriptEnded : Bool := false
  afterDot : Bool := false
deriving DecidableEq, Repr

/-- `struct Token`; `lexeme` is the text `tokStr` gives. -/
structure Token where
  type : TokenType
  startIdx : ℕ
  length : ℕ
  lexeme : Bytes
  line : ℕ
  alloced : Bool := false
deriving DecidableEq, Repr

/-- `initScanner` -/
def initScanner (src : Bytes) : Scanner where
  source := src

/-! ## Characters -/

/-- The byte of a character literal. -/
def chr (c : Char) : UInt8 := UInt8.ofNat c.toNat

def isAlpha (c : UInt8) : Bool :=
  (chr 'a' ≤ c && c ≤ chr 'z') || (chr 'A' ≤ c && c ≤ chr 'Z') || c == chr '_'

def isDigit (c : UInt8) : Bool := chr '0' ≤ c && c ≤ chr '9'

def isHex (c : UInt8) : Bool :=
  (chr '0' ≤ c && c ≤ chr '9') || (chr 'a' ≤ c && c ≤ chr 'f') || (chr 'A' ≤ c && c ≤ chr 'F')

def isBinary (c : UInt8) : Bool := c == chr '0' || c == chr '1'

def isOct (c : UInt8) : Bool := chr '0' ≤ c && c ≤ chr '7'

def isAlphaNumeric (c : UInt8) : Bool := isAlpha c || isDigit c

namespace Scanner

variable (s : Scanner)

/-! ## Reading -/

/-- What is still to be read. -/
def rest : Bytes := s.source.drop s.currentIndex

/-- At the end of the source this is its NUL. -/
def peek : UInt8 := s.source.getD s.currentIndex 0

def isAtEnd : Bool := s.scriptEnded || s.peek == 0

def peekNext : UInt8 := if s.isAtEnd then 0 else s.source.getD (s.currentIndex + 1) 0

/-- `n` calls of `advance` -/
def advance (n : ℕ) : Scanner := { s with currentIndex := s.currentIndex + n }

/-- `while (p(peek())) advance();` -/
def advanceWhile (p : UInt8 → Bool) : Scanner := s.advance (s.rest.takeWhile p).length

/-- The test of `match`; the caller advances. -/
def matches_ (expected : Char) : Bool := !s.isAtEnd && s.peek == chr expected

/-- The test of `matchStr`; the caller advances. -/
def matchesStr (str : Bytes) : Bool := !s.isAtEnd && str.isPrefixOf s.rest

/-- The source from the start of the token to the current position. -/
def text : Bytes := (s.source.drop s.tokenStartIdx).take (s.currentIndex - s.tokenStartIdx)

end Scanner

/-- The loop of a comment up to its end or the source's: the number of bytes and of newlines. -/
def skipComment : Bytes → ℕ × ℕ
  | [] => (0, 0)
  | c :: cs =>
    if c = chr '*' ∧ cs.head? = some (chr '/') then (2, 0)
    else ((skipComment cs).1 + 1, (skipComment cs).2 + if c = chr '\n' then 1 else 0)

/-- The loop of `skipWhitespace`; every round but the last one reads a byte. -/
def skipWhitespaceLoop : ℕ → Scanner → Scanner
  | 0, s => s
  | fuel + 1, s =>
    if s.peek = chr ' ' ∨ s.peek = chr '\r' ∨ s.peek = chr '\t' then
      skipWhitespaceLoop fuel (s.advance 1)
    else if s.peek = chr '\n' then
      skipWhitespaceLoop fuel { s.advance 1 with line := s.line + 1 }
    else if s.peek = chr '/' ∧ s.peekNext = chr '/' then
      skipWhitespaceLoop fuel (s.advanceWhile (· != chr '\n'))
    else if s.peek = chr '/' ∧ s.peekNext = chr '*' then
      let s := s.advance 2
      let comment := skipComment s.rest
      skipWhitespaceLoop fuel { s.advance comment.1 with line := s.line + comment.2 }
    else s

def skipWhitespace (s : Scanner) : Scanner := skipWhitespaceLoop (s.rest.length + 1) s

/-! ## Tokens -/

def tokenOf (type : TokenType) (s : Scanner) : Token where
  type := type
  startIdx := s.tokenStartIdx
  length := s.currentIndex - s.tokenStartIdx
  lexeme := s.text
  line := s.line

/-- `__END__` ends the script. -/
def makeToken (type : TokenType) (s : Scanner) : Token × Scanner :=
  if type = .endScript then (tokenOf .eof s, { s with scriptEnded := true, afterDot := false })
  else (tokenOf type s, { s with afterDot := type = .dot })

def errorToken (message : String) (s : Scanner) : Token × Scanner :=
  ({ type := .error, startIdx := 0, length := (bytes message).length, lexeme := bytes message,
     line := s.line }, s)

/-- A token with a text of its own. -/
def Token.withLexeme (tok : Token) (lexeme : Bytes) : Token :=
  { tok with length := lexeme.length, lexeme := lexeme, alloced := true }

/-- The table of reserved words. -/
def keywords : List (Bytes × TokenType) :=
  [(bytes "and", .and), (bytes "class", .class_), (bytes "module", .module),
    (bytes "else", .else_), (bytes "false", .false_), (bytes "for", .for_), (bytes "fun", .fun_),
    (bytes "if", .if_), (bytes "nil", .nil), (bytes "try", .try_), (bytes "catch", .catch_),
    (bytes "throw", .throw), (bytes "ensure", .ensure), (bytes "or", .or),
    (bytes "print", .print), (bytes "return", .return_), (bytes "super", .super),
    (bytes "this", .this), (bytes "true", .true_), (bytes "var", .var), (bytes "while", .while_),
    (bytes "continue", .continue_), (bytes "break", .break_), (bytes "in", .in_),
    (bytes "foreach", .foreach), (bytes "__END__", .endScript)]

/-- The loop over the table: equal length, then `memcmp`. -/
def identifierType (lexeme : Bytes) : TokenType :=
  match keywords.find? fun keyword =>
    lexeme.length == keyword.1.length && lexeme.isPrefixOf keyword.1 with
  | some keyword => keyword.2
  | none => .identifier

def lineName : Bytes := bytes "__LINE__"

/-- The size of `numBuf`. -/
def numBufSize : ℕ := 8

/-- `identifier`. For `__LINE__` only the bytes of the lexeme are compared, and nothing bounds what
`sprintf` writes. -/
def identifier (s : Scanner) : Except Abort (Token × Scanner) :=
  let s := s.advanceWhile isAlphaNumeric
  let type := if s.afterDot then .identifier else identifierType s.text
  if type = .identifier ∧ s.text.isPrefixOf lineName then
    let (token, s) := makeToken .number s
    let numBuf := bytes (toString s.line)
    if numBuf.length < numBufSize then .ok (token.withLexeme numBuf, s)
    else .error .undefinedBehaviour
  else .ok (makeToken type s)

def number (cur : UInt8) (s : Scanner) : Token × Scanner :=
  if cur = chr '0' ∧ (s.peek = chr 'c' ∨ s.peek = chr 'C') then
    makeToken .number ((s.advance 1).advanceWhile isOct)
  else if cur = chr '0' ∧ (s.peek = chr 'x' ∨ s.peek = chr 'X') then
    makeToken .number ((s.advance 1).advanceWhile isHex)
  else if cur = chr '0' ∧ (s.peek = chr 'b' ∨ s.peek = chr 'B') then
    makeToken .number ((s.advance 1).advanceWhile isBinary)
  else
    let s := s.advanceWhile isDigit
    if s.peek = chr '.' ∧ isDigit s.peekNext then
      makeToken .number ((s.advance 1).advanceWhile isDigit)
    else makeToken .number s

/-- The loop of a string up to its closing quote, with the byte read last: the number of bytes and
of newlines. -/
def quoted (quote : UInt8) : UInt8 → Bytes → ℕ × ℕ
  | _, [] => (0, 0)
  | last, c :: cs =>
    if c = quote ∧ last ≠ chr '\\' then (0, 0)
    else ((quoted quote c cs).1 + 1, (quoted quote c cs).2 + if c = chr '\n' then 1 else 0)

/-- What the two functions for strings begin with: the scanner before the closing quote. -/
def scanQuoted (quote : Char) (s : Scanner) : Scanner :=
  { s.advance (quoted (chr quote) 0 s.rest).1 with
    line := s.line + (quoted (chr quote) 0 s.rest).2 }

def doubleQuotedString (s : Scanner) : Token × Scanner :=
  let s := scanQuoted '"' s
  if s.isAtEnd then errorToken "Unterminated string." s
  else
    let (tok, s) := makeToken .stringDquote (s.advance 1)
    let newBuf := (s.source.drop (tok.startIdx + 1)).take (tok.length - 2)
    ({ tok with startIdx := tok.startIdx + 1 }.withLexeme (Heredoc.replaceEscapes newBuf), s)

def singleQuotedString (isStatic : Bool) (s : Scanner) : Token × Scanner :=
  let s := scanQuoted '\'' s
  if s.isAtEnd then errorToken "Unterminated string." s
  else
    let (tok, s) := makeToken (if isStatic then .stringStatic else .stringSquote) (s.advance 1)
    let start := tok.startIdx + 1 + if isStatic then 1 else 0
    let len := tok.length - 2 - if isStatic then 1 else 0
    let newBuf := (s.source.drop start).take len
    (tok.withLexeme (Heredoc.strReplace [92, 39] 39 newBuf.length newBuf), s)  -- \\'

/-- What the functions for heredocs see of the scanner. -/
def Scanner.heredoc (s : Scanner) : Heredoc.Scanner where
  source := s.source
  tokenStartIdx := s.tokenStartIdx
  currentIndex := s.currentIndex
  line := s.line
  scriptEnded := s.scriptEnded

/-- `heredocString`; `garbage` is what the stack held where the line buffer is. -/
def heredocString (garbage : Heredoc.LineBuf) (s : Scanner) : Except Abort (Token × Scanner) := do
  let (tok, h) ← Heredoc.heredocString garbage s.heredoc
  let s := { s with
    tokenStartIdx := h.tokenStartIdx
    currentIndex := h.currentIndex
    line := h.line }
  match tok.type with
  | .stringDquote =>
    let tok : Token := ⟨.stringDquote, tok.startIdx, tok.length.toNat, tok.lexeme, tok.line, true⟩
    return (tok, { s with afterDot := false })
  | .error => return (⟨.error, tok.startIdx, tok.length.toNat, tok.lexeme, tok.line, false⟩, s)

/-! ## One token -/

/-- `scanToken` from `again:` on. Behind the NUL the first read of `skipWhitespace` is out of
bounds. -/
def scanFrom (garbage : Heredoc.LineBuf) : ℕ → Scanner → Except Abort (Token × Scanner)
  | 0, _ => .error .undefinedBehaviour
  | fuel + 1, s =>
    if s.source.length < s.currentIndex then .error .undefinedBehaviour
    else
      let s := skipWhitespace s
      let s := { s with tokenStartIdx := s.currentIndex }
      if s.isAtEnd then .ok (makeToken .eof s)
      else
        let c := s.peek
        let s := s.advance 1
        if isDigit c then .ok (number c s)
        else match Char.ofUInt8 c with
          | '(' => .ok (makeToken .leftParen s)
          | ')' => .ok (makeToken .rightParen s)
          | '\x7b' => .ok (makeToken .leftBrace { s with indent := s.indent + 1 })
          | '\x7d' => .ok (makeToken .rightBrace { s with indent := s.indent - 1 })
          | '[' => .ok (makeToken .leftBracket s)
          | ']' => .ok (makeToken .rightBracket s)
          | ';' => .ok (makeToken .semicolon s)
          | ':' =>
            if s.matches_ ':' then .ok (makeToken .dice (s.advance 1))
            else .ok (makeToken .colon s)
          | ',' => .ok (makeToken .comma s)
          | '.' =>
            if s.afterDot then scanFrom garbage fuel (s.advance 1) else .ok (makeToken .dot s)
          | '-' =>
            if s.matches_ '>' then .ok (makeToken .arrow (s.advance 1))
            else .ok (makeToken .minus s)
          | '+' => .ok (makeToken .plus s)
          | '/' => .ok (makeToken .slash s)
          | '%' => .ok (makeToken .percent s)
          | '*' => .ok (makeToken .star s)
          | '|' => .ok (makeToken .pipe s)
          | '^' => .ok (makeToken .caret s)
          | '&' => .ok (makeToken .amp s)
          | '!' =>
            if s.matches_ '=' then .ok (makeToken .bangEqual (s.advance 1))
            else .ok (makeToken .bang s)
          | '=' =>
            if s.matches_ '=' then .ok (makeToken .equalEqual (s.advance 1))
            else .ok (makeToken .equal s)
          | '<' =>
            if s.matches_ '=' then .ok (makeToken .lessEqual (s.advance 1))
            else if s.matchesStr (bytes "<<") then heredocString garbage (s.advance 2)
            else if s.matches_ '<' then .ok (makeToken .shovelL (s.advance 1))
            else .ok (makeToken .less s)
          | '>' =>
            if s.matches_ '=' then .ok (makeToken .greaterEqual (s.advance 1))
            else if s.matches_ '>' then .ok (makeToken .shovelR (s.advance 1))
            else .ok (makeToken .greater s)
          | '"' => .ok (doubleQuotedString s)
          | '\'' => .ok (singleQuotedString false s)
          | 's' =>
            if s.peek = chr '\'' then .ok (singleQuotedString true (s.advance 1))
            else identifier s
          | _ => if isAlpha c then identifier s else .ok (errorToken "Unexpected character." s)

/-- Every jump back to `again:` is two bytes further on. -/
def scanToken (garbage : Heredoc.LineBuf) (s : Scanner) : Except Abort (Token × Scanner) :=
  scanFrom garbage (s.rest.length + 1) s

section

variable {s s' s'' : Scanner} {c : UInt8} {w tail : Bytes}

/-! ## Lines -/

def newlines (bs : Bytes) : ℕ := bs.count (chr '\n')

/-- The newlines before a position of the source. -/
def newlinesBefore (source : Bytes) (i : ℕ) : ℕ := newlines (source.take i)

theorem newlines_append (bs bs' : Bytes) : newlines (bs ++ bs') = newlines bs + newlines bs' :=
  List.count_append

theorem newlines_eq_zero {bs : Bytes} (h : chr '\n' ∉ bs) : newlines bs = 0 :=
  List.count_eq_zero.mpr h

theorem newlines_cons (c : UInt8) (cs : Bytes) :
    newlines (c :: cs) = newlines cs + if c = chr '\n' then 1 else 0 := by
  unfold newlines
  rw [List.count_cons]
  simp only [beq_iff_eq]

theorem newlinesBefore_add (source : Bytes) (i n : ℕ) :
    newlinesBefore source (i + n) =
      newlinesBefore source i + newlines ((source.drop i).take n) := by
  unfold newlinesBefore
  rw [List.take_add, newlines_append]

/-! ## White space -/

/-- The scanner moved forward in its source, the line counts the newlines it passed, and nothing
else changed. -/
structure Skips (s s' : Scanner) : Prop where
  source : s'.source = s.source
  scriptEnded : s'.scriptEnded = s.scriptEnded
  afterDot : s'.afterDot = s.afterDot
  forward : s.currentIndex ≤ s'.currentIndex
  inBounds : s.currentIndex ≤ s.source.length → s'.currentIndex ≤ s.source.length
  counted : s'.line + newlinesBefore s.source s.currentIndex =
    s.line + newlinesBefore s.source s'.currentIndex

theorem Skips.refl (s : Scanner) : Skips s s :=
  ⟨rfl, rfl, rfl, le_rfl, id, rfl⟩

theorem Skips.trans (h : Skips s s') (h' : Skips s' s'') : Skips s s'' where
  source := h'.source.trans h.source
  scriptEnded := h'.scriptEnded.trans h.scriptEnded
  afterDot := h'.afterDot.trans h.afterDot
  forward := h.forward.trans h'.forward
  inBounds hs := by
    have hs' := h'.inBounds (by
      rw [h.source]
      exact h.inBounds hs)
    rwa [h.source] at hs'
  counted := by
    have hcounted := h'.counted
    rw [h.source] at hcounted
    have := h.counted
    omega

theorem length_rest (s : Scanner) : s.rest.length = s.source.length - s.currentIndex :=
  List.length_drop

theorem advance_skips {n line : ℕ} (hn : n ≤ s.rest.length)
    (hline : line = s.line + newlines (s.rest.take n)) :
    Skips s { s.advance n with line := line } := by
  rw [length_rest] at hn
  refine ⟨rfl, rfl, rfl, Nat.le_add_right _ _, fun hs => ?_, ?_⟩
  · show s.currentIndex + n ≤ s.source.length
    omega
  · show line + _ = s.line + newlinesBefore s.source (s.currentIndex + n)
    rw [newlinesBefore_add, hline]
    unfold Scanner.rest
    omega

/-- Only the NUL is zero. -/
theorem lt_of_peek (h : s.peek ≠ 0) : s.currentIndex < s.source.length := by
  by_contra hge
  apply h
  unfold Scanner.peek
  rw [List.getD_eq_default _ _ (Nat.le_of_not_lt hge)]

theorem one_le_rest (h : s.peek ≠ 0) : 1 ≤ s.rest.length := by
  have := lt_of_peek h
  rw [length_rest]
  omega

theorem take_one_rest (h : s.peek ≠ 0) : s.rest.take 1 = [s.peek] := by
  have hlt := lt_of_peek h
  unfold Scanner.peek Scanner.rest
  rw [List.drop_eq_getElem_cons hlt, List.getD_eq_getElem _ _ hlt]
  rfl

/-- A byte that is no newline is passed. -/
theorem skips_one (h : s.peek ≠ 0) (hc : s.peek ≠ chr '\n') : Skips s (s.advance 1) := by
  refine advance_skips (one_le_rest h) ?_
  rw [take_one_rest h, newlines_cons, if_neg hc]
  rfl

theorem takeWhile_le_rest (p : UInt8 → Bool) (s : Scanner) :
    (s.rest.takeWhile p).length ≤ s.rest.length :=
  (List.takeWhile_sublist p).length_le

theorem advanceWhile_skips {p : UInt8 → Bool} (hp : p (chr '\n') = false) (s : Scanner) :
    Skips s (s.advanceWhile p) := by
  refine advance_skips (takeWhile_le_rest p s) ?_
  have htake : s.rest.take (s.rest.takeWhile p).length = s.rest.takeWhile p :=
    (List.prefix_iff_eq_take.mp (List.takeWhile_prefix p)).symm
  rw [htake, newlines_eq_zero]
  · rfl
  · intro hmem
    rw [List.mem_takeWhile_imp hmem] at hp
    cases hp

theorem skipComment_le (cs : Bytes) : (skipComment cs).1 ≤ cs.length := by
  induction cs with
  | nil => exact le_rfl
  | cons c cs ih =>
    unfold skipComment
    split
    · rename_i h
      cases cs with
      | nil => cases h.2
      | cons d cs =>
        rw [List.length_cons, List.length_cons]
        omega
    · rw [List.length_cons]
      exact Nat.succ_le_succ ih

theorem newlines_skipComment (cs : Bytes) :
    newlines (cs.take (skipComment cs).1) = (skipComment cs).2 := by
  induction cs with
  | nil => rfl
  | cons c cs ih =>
    unfold skipComment
    split
    · rename_i h
      rcases List.head?_eq_some_iff.mp h.2 with ⟨tail, rfl⟩
      rw [h.1]
      rfl
    · rw [List.take_succ_cons, newlines_cons, ih]

/-- The two bytes that begin a comment. -/
theorem skips_two (h : s.peek = chr '/') (hnext : s.peekNext = chr '*') :
    Skips s (s.advance 2) := by
  have hnext' : (s.advance 1).peek = chr '*' := by
    unfold Scanner.peekNext at hnext
    split at hnext
    · exact absurd hnext (by decide)
    · exact hnext
  have hfirst : Skips s (s.advance 1) := by
    apply skips_one
    · rw [h]
      decide
    · rw [h]
      decide
  refine hfirst.trans (skips_one (s := s.advance 1) ?_ ?_)
  · rw [hnext']
    decide
  · rw [hnext']
    decide

theorem skipWhitespaceLoop_skips (fuel : ℕ) (s : Scanner) :
    Skips s (skipWhitespaceLoop fuel s) := by
  induction fuel generalizing s with
  | zero => exact .refl s
  | succ fuel ih =>
    unfold skipWhitespaceLoop
    split
    · rename_i h
      have hone : Skips s (s.advance 1) := by
        rcases h with h | h | h
        all_goals
          apply skips_one
          · rw [h]
            decide
          · rw [h]
            decide
      exact hone.trans (ih _)
    split
    · rename_i h
      have hne : s.peek ≠ 0 := by
        rw [h]
        decide
      refine (advance_skips (one_le_rest hne) ?_).trans (ih _)
      rw [take_one_rest hne, newlines_cons, if_pos h]
      rfl
    split
    · exact (advanceWhile_skips (by decide) s).trans (ih _)
    split
    · rename_i h
      have hbegin := skips_two h.1 h.2
      refine (hbegin.trans (advance_skips (skipComment_le _) ?_)).trans (ih _)
      rw [newlines_skipComment]
    · exact .refl s

theorem length_rest_advance (s : Scanner) (n : ℕ) :
    (s.advance n).rest.length = s.rest.length - n := by
  rw [length_rest, length_rest]
  exact (Nat.sub_sub _ _ _).symm

/-- A newline is passed as long as there are rounds left. -/
theorem skipWhitespaceLoop_peek {fuel : ℕ} (hfuel : s.rest.length < fuel) :
    (skipWhitespaceLoop fuel s).peek ≠ chr '\n' := by
  induction fuel generalizing s with
  | zero => omega
  | succ fuel ih =>
    -- a round that reads something leaves enough rounds
    have hread : ∀ n line, 0 < n → n ≤ s.rest.length →
        (skipWhitespaceLoop fuel { s.advance n with line := line }).peek ≠ chr '\n' := by
      intro n line hn hle
      apply ih
      have hlen := length_rest_advance s n
      change (s.advance n).rest.length < fuel
      omega
    have hone : s.peek ≠ 0 → 0 < s.rest.length := one_le_rest
    unfold skipWhitespaceLoop
    split
    · rename_i h
      refine hread 1 s.line Nat.one_pos (hone ?_)
      rcases h with h | h | h <;> rw [h] <;> decide
    split
    · rename_i h
      refine hread 1 _ Nat.one_pos (hone ?_)
      rw [h]
      decide
    split
    · rename_i hspace hnewline h
      refine hread _ s.line ?_ (takeWhile_le_rest _ s)
      have htake := take_one_rest (s := s) (by
        rw [h.1]
        decide)
      cases hrest : s.rest with
      | nil =>
        rw [hrest] at htake
        cases htake
      | cons c cs =>
        rw [hrest, List.take_succ_cons, List.take_zero, List.cons.injEq] at htake
        rw [List.takeWhile_cons_of_pos]
        · exact Nat.succ_pos _
        · rw [htake.1]
          simpa using hnewline
    split
    · rename_i h
      have hbegin := skips_two h.1 h.2
      have hne : s.peek ≠ 0 := by
        rw [h.1]
        decide
      have hlt := lt_of_peek hne
      have htwo := hbegin.inBounds hlt.le
      change s.currentIndex + 2 ≤ s.source.length at htwo
      have hcomment := skipComment_le (s.advance 2).rest
      rw [length_rest_advance, length_rest] at hcomment
      have hlong := hread (2 + (skipComment (s.advance 2).rest).1)
        (s.line + (skipComment (s.advance 2).rest).2) (by omega) (by
          rw [length_rest]
          omega)
      unfold Scanner.advance at hlong ⊢
      rwa [← Nat.add_assoc] at hlong
    · rename_i hnewline _ _
      exact hnewline

theorem skipWhitespace_peek (s : Scanner) : (skipWhitespace s).peek ≠ chr '\n' :=
  skipWhitespaceLoop_peek (Nat.lt_succ_self _)

theorem skipWhitespace_skips (s : Scanner) : Skips s (skipWhitespace s) :=
  skipWhitespaceLoop_skips _ s

/-! ## Identifiers -/

/-- A lexeme with the shape of an identifier. -/
structure Identifier (w : Bytes) : Prop where
  head : ∃ c ∈ w.head?, isAlpha c = true
  all : ∀ c ∈ w, isAlphaNumeric c = true

/-- Behind white space the scanner comes to the whole of the lexeme `w`; `s` before a quote is no
lexeme of its own. -/
structure ComesTo (s : Scanner) (w : Bytes) : Prop where
  inBounds : s.currentIndex ≤ s.source.length
  going : s.scriptEnded = false
  shaped : Identifier w
  whole : ∃ tail, (skipWhitespace s).rest = w ++ tail ∧
    ∀ c ∈ tail.head?, isAlphaNumeric c = false ∧ ¬ (w = [chr 's'] ∧ c = chr '\'')

/-- The type of the token `makeToken` gives for a type. -/
def given (type : TokenType) : TokenType := if type = .endScript then .eof else type

theorem chr_of_ofUInt8 {d : Char} (h : Char.ofUInt8 c = d) : c = chr d := by
  unfold chr
  rw [← h]
  exact (UInt8.ofNat_toNat).symm

theorem not_digit (h : isAlpha c = true) : isDigit c = false := by
  unfold isAlpha at h
  unfold isDigit
  simp only [chr, Bool.or_eq_true, Bool.and_eq_true, decide_eq_true_eq, beq_iff_eq,
    Bool.and_eq_false_iff, decide_eq_false_iff_not, UInt8.le_iff_toNat_le, ← UInt8.toNat_inj]
    at h ⊢
  have ha : (UInt8.ofNat 'a'.toNat).toNat = 97 := rfl
  have hA : (UInt8.ofNat 'A'.toNat).toNat = 65 := rfl
  have hunderscore : (UInt8.ofNat '_'.toNat).toNat = 95 := rfl
  have h0 : (UInt8.ofNat '0'.toNat).toNat = 48 := rfl
  have h9 : (UInt8.ofNat '9'.toNat).toNat = 57 := rfl
  omega

theorem ne_zero_of_isAlpha (h : isAlpha c = true) : c ≠ 0 := by
  rintro rfl
  revert h
  decide

/-- Equal length and equal bytes: the lexeme is the whole word. -/
theorem identifierType_cases (w : Bytes) :
    (∃ k ∈ keywords, w = k.1 ∧ identifierType w = k.2) ∨
      (∀ k ∈ keywords, w ≠ k.1) ∧ identifierType w = .identifier := by
  have htest : ∀ k : Bytes × TokenType,
      (w.length == k.1.length && w.isPrefixOf k.1) = true ↔ w = k.1 := by
    intro k
    rw [Bool.and_eq_true, beq_iff_eq, List.isPrefixOf_iff_prefix]
    constructor
    · rintro ⟨hlen, hpre⟩
      exact hpre.eq_of_length hlen
    · intro hw
      rw [hw]
      exact ⟨rfl, List.prefix_rfl⟩
  unfold identifierType
  split
  · rename_i k hfind
    have hsame := List.find?_some hfind
    exact .inl ⟨k, List.mem_of_find?_eq_some hfind, (htest k).mp hsame, rfl⟩
  · rename_i hfind
    refine .inr ⟨fun k hk hw => ?_, rfl⟩
    exact List.find?_eq_none.mp hfind k hk ((htest k).mpr hw)

theorem rest_cons (h : s.rest = c :: tail) :
    s.peek = c ∧ (s.advance 1).rest = tail ∧ s.currentIndex < s.source.length := by
  have hlt : s.currentIndex < s.source.length := by
    have hlen := congrArg List.length h
    rw [length_rest, List.length_cons] at hlen
    omega
  unfold Scanner.rest at h
  rw [List.drop_eq_getElem_cons hlt, List.cons.injEq] at h
  refine ⟨?_, h.2, hlt⟩
  unfold Scanner.peek
  rw [List.getD_eq_getElem _ _ hlt]
  exact h.1

/-- Reading on from the first letter takes the whole lexeme. -/
theorem advanceWhile_identifier {cs : Bytes} (hcs : ∀ c ∈ cs, isAlphaNumeric c = true)
    (htail : ∀ c ∈ tail.head?, isAlphaNumeric c = false) (h : s.rest = cs ++ tail) :
    s.advanceWhile isAlphaNumeric = s.advance cs.length := by
  unfold Scanner.advanceWhile
  have hstop : tail.takeWhile isAlphaNumeric = [] := by
    cases tail with
    | nil => rfl
    | cons c tail => exact List.takeWhile_cons_of_neg (Bool.eq_false_iff.mp (htail c rfl))
  rw [h, List.takeWhile_append_of_pos hcs, hstop, List.append_nil]

/-- The scanner behind a lexeme of `n` bytes, which it comes to behind white space. -/
def behind (s : Scanner) (n : ℕ) : Scanner :=
  { skipWhitespace s with
    tokenStartIdx := (skipWhitespace s).currentIndex
    currentIndex := (skipWhitespace s).currentIndex + n }

theorem text_behind (h : (skipWhitespace s).rest = w ++ tail) :
    (behind s w.length).text = w := by
  unfold Scanner.text behind
  simp only [Nat.add_sub_cancel_left]
  unfold Scanner.rest at h
  rw [h, List.take_left]

/-- What `identifier` gives once the lexeme is read. -/
def classified (afterDot : Bool) (w : Bytes) (s : Scanner) : Except Abort (Token × Scanner) :=
  if (if afterDot then .identifier else identifierType w) = .identifier ∧ w.isPrefixOf lineName then
    if (bytes (toString s.line)).length < numBufSize then
      .ok ((tokenOf .number s).withLexeme (bytes (toString s.line)), { s with afterDot := false })
    else .error .undefinedBehaviour
  else .ok (makeToken (if afterDot then .identifier else identifierType w) s)

theorem identifier_eq (h : ComesTo s w) :
    identifier (behind s 1) = classified s.afterDot w (behind s w.length) := by
  rcases h.whole with ⟨tail, hrest, htail⟩
  rcases h.shaped.head with ⟨c, hc, -⟩
  rcases List.head?_eq_some_iff.mp hc with ⟨cs, hw⟩
  have htext := text_behind hrest
  have hloop : (behind s 1).advanceWhile isAlphaNumeric = behind s w.length := by
    have hcs : ∀ c ∈ cs, isAlphaNumeric c = true := by
      intro c hc
      apply h.shaped.all
      rw [hw]
      exact List.mem_cons_of_mem _ hc
    rw [hw] at hrest
    have hbehind : (behind s 1).rest = cs ++ tail := (rest_cons hrest).2.1
    rw [advanceWhile_identifier hcs (fun c hc => (htail c hc).1) hbehind, hw]
    unfold behind Scanner.advance
    rw [List.length_cons, Nat.add_assoc, Nat.add_comm cs.length]
  have hdot : (behind s w.length).afterDot = s.afterDot := (skipWhitespace_skips s).afterDot
  unfold identifier classified
  simp only [hloop, htext, hdot]
  rfl

/-- A lexeme with the shape of an identifier is read as a whole and then classified. -/
theorem scanToken_identifier (garbage : Heredoc.LineBuf) (h : ComesTo s w) :
    scanToken garbage s = classified s.afterDot w (behind s w.length) := by
  rw [← identifier_eq h]
  rcases h.whole with ⟨tail, hrest, htail⟩
  rcases h.shaped.head with ⟨c, hc, halpha⟩
  rcases List.head?_eq_some_iff.mp hc with ⟨cs, hw⟩
  have hskips := skipWhitespace_skips s
  rw [hw] at hrest
  rcases rest_cons hrest with ⟨hpeek, hbehind, -⟩
  have hend : (skipWhitespace s).isAtEnd = false := by
    unfold Scanner.isAtEnd
    rw [hskips.scriptEnded, h.going, hpeek, Bool.false_or, beq_eq_false_iff_ne]
    exact ne_zero_of_isAlpha halpha
  have hpeek' : ({ skipWhitespace s with
      tokenStartIdx := (skipWhitespace s).currentIndex } : Scanner).peek = c := hpeek
  have hend' : ({ skipWhitespace s with
      tokenStartIdx := (skipWhitespace s).currentIndex } : Scanner).isAtEnd = false := hend
  have hadvance : ({ skipWhitespace s with
      tokenStartIdx := (skipWhitespace s).currentIndex } : Scanner).advance 1 = behind s 1 := rfl
  -- no letter is a case of the switch but `s`, and that one only before a quote
  have hcase : ∀ d : Char, isAlpha (chr d) = false → Char.ofUInt8 c ≠ d := by
    intro d hd heq
    rw [chr_of_ofUInt8 heq, hd] at halpha
    cases halpha
  unfold scanToken scanFrom
  rw [if_neg (Nat.not_lt.mpr h.inBounds)]
  simp only [hend', Bool.false_eq_true, if_false, hpeek', hadvance, not_digit halpha]
  split
  case h_25 heq =>
    have hs : c = chr 's' := chr_of_ofUInt8 heq
    rw [if_neg]
    intro hquote
    have hnext : (behind s 1).rest = cs ++ tail := hbehind
    cases cs with
    | cons d cs =>
      have hd : isAlphaNumeric d = true := h.shaped.all d (by
        rw [hw]
        exact List.mem_cons_of_mem _ List.mem_cons_self)
      rw [(rest_cons hnext).1] at hquote
      rw [hquote] at hd
      exact absurd hd (by decide)
    | nil =>
      cases tail with
      | nil =>
        have hlt := lt_of_peek (s := behind s 1) (by
          rw [hquote]
          decide)
        have hlen := congrArg List.length hnext
        rw [length_rest, List.append_nil, List.length_nil] at hlen
        omega
      | cons d tail =>
        rw [List.nil_append] at hnext
        rw [(rest_cons hnext).1] at hquote
        exact (htail d rfl).2 ⟨by rw [hw, hs], hquote⟩
  case h_26 => rw [if_pos halpha]
  all_goals
    rename_i heq
    exact absurd heq (hcase _ (by decide))

theorem keywords_distinct : ∀ k ∈ keywords, ∀ k' ∈ keywords, given k.2 = given k'.2 → k = k' := by
  decide +kernel

theorem keywords_named : ∀ k ∈ keywords, ∀ k' ∈ keywords, k.1 = k'.1 → k = k' := by
  decide +kernel

theorem keywords_apart : ∀ k ∈ keywords,
    given k.2 ≠ .identifier ∧ given k.2 ≠ .number ∧ ¬ k.1 <+: lineName := by
  decide +kernel

/-- The type of a lexeme, by whether a dot stands before it. -/
theorem type_cases (afterDot : Bool) (w : Bytes) :
    (∃ k ∈ keywords, afterDot = false ∧ w = k.1 ∧
      (if afterDot then TokenType.identifier else identifierType w) = k.2) ∨
    (afterDot = true ∨ ∀ k ∈ keywords, w ≠ k.1) ∧
      (if afterDot then TokenType.identifier else identifierType w) = .identifier := by
  cases afterDot with
  | true => exact .inr ⟨.inl rfl, rfl⟩
  | false =>
    rcases identifierType_cases w with ⟨k, hk, hw, htype⟩ | ⟨hnone, htype⟩
    · exact .inl ⟨k, hk, rfl, hw, htype⟩
    · exact .inr ⟨.inr hnone, htype⟩

theorem makeToken_fst (type : TokenType) (s : Scanner) :
    (makeToken type s).1 = tokenOf (given type) s := by
  unfold makeToken given
  split <;> rfl

theorem makeToken_currentIndex (type : TokenType) (s : Scanner) :
    (makeToken type s).2.currentIndex = s.currentIndex := by
  unfold makeToken
  split <;> rfl

/-- The token of the lexeme `w` has a keyword's type exactly if the lexeme is the keyword, the type
of a number exactly if it is `__LINE__`, and else it is an identifier. -/
def ClassifiesExactly (garbage : Heredoc.LineBuf) (s : Scanner) (w : Bytes) : Prop :=
  ∃ tok s', scanToken garbage s = .ok (tok, s') ∧
    (∀ k ∈ keywords, tok.type = given k.2 ↔ w = k.1) ∧
    (tok.type = .number ↔ w = lineName) ∧
    (tok.type = .identifier ↔ w ≠ lineName ∧ ∀ k ∈ keywords, w ≠ k.1)

/-- Behind a dot no word is reserved. Elsewhere a lexeme is a keyword exactly if it is the whole
word; only beginnings of `__LINE__` are left out. -/
theorem identifier_classified (garbage : Heredoc.LineBuf) (h : ComesTo s w)
    (hfront : w <+: lineName → w = lineName)
    (hline : w = lineName → (bytes (toString (skipWhitespace s).line)).length < numBufSize) :
    ∃ tok s', scanToken garbage s = .ok (tok, s') ∧
      tok.startIdx = (skipWhitespace s).currentIndex ∧
      s'.currentIndex = tok.startIdx + w.length ∧ (w ≠ lineName → tok.lexeme = w) ∧
      (∀ k ∈ keywords, tok.type = given k.2 ↔ s.afterDot = false ∧ w = k.1) ∧
      (tok.type = .number ↔ w = lineName) ∧
      (tok.type = .identifier ↔
        w ≠ lineName ∧ (s.afterDot = true ∨ ∀ k ∈ keywords, w ≠ k.1)) := by
  rw [scanToken_identifier garbage h]
  rcases h.whole with ⟨tail, hrest, -⟩
  have htext : (tokenOf .identifier (behind s w.length)).lexeme = w := text_behind hrest
  unfold classified
  by_cases hname : w = lineName
  · -- `__LINE__` is in no table, so it is an identifier at first
    have hnot : ∀ k ∈ keywords, w ≠ k.1 := by
      intro k hk hw
      apply (keywords_apart k hk).2.2
      rw [← hw, hname]
    have htype : (if s.afterDot then .identifier else identifierType w) = .identifier := by
      rcases identifierType_cases w with ⟨k, hk, hw, -⟩ | ⟨-, htype⟩
      · exact absurd hw (hnot k hk)
      · rw [htype, ite_self]
    have hpre : w.isPrefixOf lineName = true := by
      rw [hname]
      exact List.isPrefixOf_iff_prefix.mpr List.prefix_rfl
    have hfits : (bytes (toString (behind s w.length).line)).length < numBufSize := hline hname
    rw [if_pos ⟨htype, hpre⟩, if_pos hfits]
    refine ⟨_, _, rfl, rfl, rfl, fun hne => absurd hname hne, ?_, ?_, ?_⟩
    · intro k hk
      constructor
      · intro htok
        exact absurd htok.symm (keywords_apart k hk).2.1
      · rintro ⟨-, hw⟩
        exact absurd hw (hnot k hk)
    · exact ⟨fun _ => hname, fun _ => rfl⟩
    · constructor
      · intro htok
        cases htok
      · rintro ⟨hne, -⟩
        exact absurd hname hne
  · have hpre : ¬ ((if s.afterDot then TokenType.identifier else identifierType w) = .identifier ∧
        w.isPrefixOf lineName = true) := by
      rintro ⟨-, hpre⟩
      exact hname (hfront (List.isPrefixOf_iff_prefix.mp hpre))
    rw [if_neg hpre]
    refine ⟨(makeToken _ _).1, (makeToken _ _).2, rfl, ?_, ?_, fun _ => ?_, ?_⟩
    · rw [makeToken_fst]
      rfl
    · rw [makeToken_fst, makeToken_currentIndex]
      rfl
    · rw [makeToken_fst]
      exact htext
    · rw [makeToken_fst]
      show (∀ k ∈ keywords, given _ = given k.2 ↔ _) ∧ (given _ = .number ↔ _) ∧
        (given _ = .identifier ↔ _)
      rcases type_cases s.afterDot w with ⟨k, hk, hdot, hw, htype⟩ | ⟨hnone, htype⟩
      · rw [htype]
        refine ⟨fun k' hk' => ?_, ?_, ?_⟩
        · constructor
          · intro hgiven
            rw [← keywords_distinct k hk k' hk' hgiven]
            exact ⟨hdot, hw⟩
          · rintro ⟨-, hw'⟩
            rw [keywords_named k hk k' hk' (hw.symm.trans hw')]
        · exact ⟨fun htok => absurd htok (keywords_apart k hk).2.1, fun hw => absurd hw hname⟩
        · constructor
          · intro htok
            exact absurd htok (keywords_apart k hk).1
          · rintro ⟨-, hdot' | hnone⟩
            · rw [hdot] at hdot'
              cases hdot'
            · exact absurd hw (hnone k hk)
      · rw [htype]
        refine ⟨fun k hk => ?_, ?_, ?_⟩
        · constructor
          · intro htok
            exact absurd htok.symm (keywords_apart k hk).1
          · rintro ⟨hdot, hw⟩
            rcases hnone with hdot' | hnone
            · rw [hdot] at hdot'
              cases hdot'
            · exact absurd hw (hnone k hk)
        · constructor
          · intro htok
            cases htok
          · intro hw
            exact absurd hw hname
        · exact ⟨fun _ => ⟨hname, hnone⟩, fun _ => rfl⟩

/-- `class` behind white space. -/
theorem class_classified : ∃ tok s',
    scanToken (fun _ => 0) (initScanner (bytes " class x")) = .ok (tok, s') ∧
      tok.startIdx = (skipWhitespace (initScanner (bytes " class x"))).currentIndex ∧
      s'.currentIndex = tok.startIdx + (bytes "class").length ∧
      (bytes "class" ≠ lineName → tok.lexeme = bytes "class") ∧
      (∀ k ∈ keywords, tok.type = given k.2 ↔
        (initScanner (bytes " class x")).afterDot = false ∧ bytes "class" = k.1) ∧
      (tok.type = .number ↔ bytes "class" = lineName) ∧
      (tok.type = .identifier ↔ bytes "class" ≠ lineName ∧
        ((initScanner (bytes " class x")).afterDot = true ∨
          ∀ k ∈ keywords, bytes "class" ≠ k.1)) :=
  identifier_classified (fun _ => 0)
    ⟨by decide, rfl, ⟨⟨chr 'c', by decide, by decide⟩, by decide +kernel⟩, bytes " x", by decide,
      by decide +kernel⟩ (by decide) (by decide)

/-- Behind a dot `class` is an identifier, and `_` is taken for `__LINE__`. -/
theorem misclassified :
    let dotted := { initScanner (bytes ".class") with currentIndex := 1, afterDot := true }
    (scanToken (fun _ => 0) (initScanner (bytes ".class"))).map Prod.snd = .ok dotted ∧
      ComesTo dotted (bytes "class") ∧ ¬ ClassifiesExactly (fun _ => 0) dotted (bytes "class") ∧
      ComesTo (initScanner (bytes "_;")) (bytes "_") ∧
      ¬ ClassifiesExactly (fun _ => 0) (initScanner (bytes "_;")) (bytes "_") := by
  refine ⟨by decide +kernel, ⟨by decide, rfl, ⟨⟨chr 'c', by decide, by decide⟩, by decide +kernel⟩,
    [], by decide, by decide +kernel⟩, ?_, ⟨by decide, rfl, ⟨⟨chr '_', by decide, by decide⟩,
    by decide +kernel⟩, bytes ";", by decide, by decide +kernel⟩, ?_⟩
  · rintro ⟨tok, s', hscan, -, -, hidentifier⟩
    have htok : tok.type = .identifier := by
      have hscan' : (scanToken (fun _ => 0) { initScanner (bytes ".class") with
          currentIndex := 1, afterDot := true }).map (·.1.type) = .ok .identifier := by
        decide +kernel
      rw [hscan] at hscan'
      exact Except.ok.inj hscan'
    exact (hidentifier.mp htok).2 (bytes "class", .class_) (by decide) rfl
  · rintro ⟨tok, s', hscan, -, hnumber, -⟩
    have htok : tok.type = .number := by
      have hscan' : (scanToken (fun _ => 0) (initScanner (bytes "_;"))).map (·.1.type) =
          .ok .number := by
        decide +kernel
      rw [hscan] at hscan'
      exact Except.ok.inj hscan'
    exact absurd (hnumber.mp htok) (by decide)

end

end Clox.Scanning
