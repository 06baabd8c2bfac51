import Clox.Lib.Separators
import Clox.Bytecode.Iseq
import Clox.Runtime.Printing

/-! # Heredoc strings

`<<<pattern`, lines, and a line that begins with the pattern. The scanner
copies every line into one buffer that it never terminates and compares the
front of the buffer with the pattern. Which line ends the string so depends on
the bytes earlier lines left behind.
-/

namespace Clox.Heredoc

open Clox Separators Printing

/-- `struct Scanner`, without what only the interactive prompt and other tokens use. -/
structure Scanner where
  source : Bytes
  tokenStartIdx : ℕ
  currentIndex : ℕ
  line : ℕ
  scriptEnded : Bool := false
deriving DecidableEq, Repr

inductive TokenType where
  | stringDquote
  | error
deriving DecidableEq, Repr

/-- `struct Token` -/
structure Token where
  type : TokenType
  startIdx : ℕ
  length : ℤ
  lexeme : Bytes
  line : ℕ
deriving DecidableEq, Repr

/-- The bytes of `char line[LINE_MAX]`; at first whatever the stack holds. -/
abbrev LineBuf := ℕ → UInt8

def lineMax : ℕ := 4096

def lf : UInt8 := 10
def cr : UInt8 := 13

/-! ## The scanner -/

def peek (s : Scanner) : UInt8 := s.source.getD s.currentIndex 0

def isAtEndGetMore (s : Scanner) : Bool := s.scriptEnded || peek s == 0

def skipChar (c : UInt8) (s : Scanner) : Scanner :=
  if peek s = c then
    { s with
      line := if c = lf then s.line + 1 else s.line
      currentIndex := s.currentIndex + 1 }
  else s

def scanNewline (s : Scanner) : Scanner := skipChar lf (skipChar cr s)

/-- Where a line ends: at `'\\n'`, at `'\\r'` and at the end of the source. -/
def EndsLine (c : UInt8) : Prop := c = 0 ∨ c = lf ∨ c = cr

instance (c : UInt8) : Decidable (EndsLine c) := inferInstanceAs (Decidable (_ ∨ _))

/-- The loop of `scanLine` over what is still to be read: the buffer and the length of the line.
Nothing keeps `i` below `lineMax`. -/
def scanLine : Bytes → LineBuf → ℕ → Except Abort (LineBuf × ℕ)
  | [], buf, i => .ok (buf, i)
  | c :: cs, buf, i =>
    if EndsLine c then .ok (buf, i)
    else if i < lineMax then scanLine cs (Function.update buf i c) (i + 1)
    else .error .undefinedBehaviour

/-- `strncmp(buf + i, pat, strlen(pat)) == 0` -/
def startsWith (buf : LineBuf) : Bytes → ℕ → Bool
  | [], _ => true
  | c :: cs, i => buf i == c && startsWith buf cs (i + 1)

/-- `strReplace` -/
def strReplace (substr : Bytes) (replace : UInt8) : ℕ → Bytes → Bytes
  | 0, str => str
  | fuel + 1, str =>
    match find substr str with
    | none => str
    | some (before, rest) => strReplace substr replace fuel (before ++ replace :: rest)

/-- The four calls of `strReplace`, each until nothing is found: every round shortens the text. -/
def replaceEscapes (str : Bytes) : Bytes :=
  let str := strReplace [92, 34] 34 str.length str  -- \\"
  let str := strReplace [92, 110] 10 str.length str  -- \\n
  let str := strReplace [92, 116] 9 str.length str  -- \\t
  strReplace [92, 114] 13 str.length str  -- \\r

def errorToken (s : Scanner) (message : String) : Token where
  type := .error
  startIdx := 0
  length := (bytes message).length
  lexeme := bytes message
  line := s.line

/-- What follows when the front of the buffer is the pattern. -/
def endHeredoc (patLen lineLen : ℕ) (s : Scanner) : Except Abort (Token × Scanner) :=
  let extraLen : ℤ := lineLen - patLen
  let length : ℤ := s.currentIndex - s.tokenStartIdx - (extraLen + patLen)
  if 0 < length then
    let newBuf := replaceEscapes ((s.source.drop s.tokenStartIdx).take length.toNat)
    .ok (⟨.stringDquote, s.tokenStartIdx, newBuf.length, newBuf, s.line⟩,
      { s with currentIndex := (s.currentIndex - extraLen).toNat })
  else .error .assertFailed

/-- The loop over the lines. -/
def heredocLines (pattern : Bytes) : ℕ → LineBuf → Scanner → Except Abort (Token × Scanner)
  | 0, _, s => .ok (errorToken s "Heredoc missing an end pattern", s)
  | fuel + 1, buf, s =>
    if isAtEndGetMore s then .ok (errorToken s "Heredoc missing an end pattern", s)
    else do
      let (buf, lineLen) ← scanLine (s.source.drop s.currentIndex) buf 0
      let s := { s with currentIndex := s.currentIndex + lineLen }
      if startsWith buf pattern 0 then endHeredoc pattern.length lineLen s
      else heredocLines pattern fuel buf (scanNewline s)

/-- `heredocString`; `garbage` is what the stack held where the line buffer is. -/
def heredocString (garbage : LineBuf) (s : Scanner) : Except Abort (Token × Scanner) :=
  let pattern := (s.source.drop s.currentIndex).takeWhile (¬ EndsLine ·)
  -- `patBuf[100]` takes the pattern and the NUL `strlen` looks for
  if 100 ≤ pattern.length then .error .undefinedBehaviour
  else
    let s := scanNewline { s with currentIndex := s.currentIndex + pattern.length }
    if pattern.length = 0 then .ok (errorToken s "Heredoc needs a pattern after <<<", s)
    else
      let s := { s with tokenStartIdx := s.currentIndex }
      heredocLines pattern (s.source.length + 1) garbage s

/-! ## Heredocs -/

inductive Newline where
  | lf
  | crlf
deriving DecidableEq, Repr

def Newline.bytes : Newline → Bytes
  | lf => [10]
  | crlf => [13, 10]

/-- The text of a line. -/
def Plain (l : Bytes) : Prop := ∀ c ∈ l, ¬ EndsLine c

instance (l : Bytes) : Decidable (Plain l) := List.decidableBAll (fun c => ¬ EndsLine c) l

/-- Body lines with their newlines. -/
def bodyText (body : List (Bytes × Newline)) : Bytes := body.flatMap fun l => l.1 ++ l.2.bytes

/-- A source with a heredoc: behind `<<<` the pattern, body lines none of which begins with the
pattern, and a line that does. -/
structure Text where
  before : Bytes
  pattern : Bytes
  newline : Newline
  body : List (Bytes × Newline)
  extra : Bytes
  rest : Bytes
  pattern_plain : Plain pattern
  body_plain : ∀ l ∈ body, Plain l.1
  extra_plain : Plain extra
  not_prefix : ∀ l ∈ body, ¬ pattern <+: l.1
  fits : ∀ l ∈ body, l.1.length < lineMax
  rest_ends : ∀ c, rest.head? = some c → EndsLine c

namespace Text

variable (t : Text)

/-- The source up to the first body line. -/
def front : Bytes := t.before ++ t.pattern ++ t.newline.bytes

/-- The terminating line. -/
def last : Bytes := t.pattern ++ t.extra

def source : Bytes := t.front ++ (bodyText t.body ++ (t.last ++ t.rest))

/-- The scanner behind `<<<`, when it stands in line `line`. -/
def scanner (tokenStartIdx line : ℕ) : Scanner where
  source := t.source
  tokenStartIdx := tokenStartIdx
  currentIndex := t.before.length
  line := line

/-- The string is the body, and the scanner goes on right behind the pattern on the terminating
line. -/
def EndsAtPattern (garbage : LineBuf) (tokenStartIdx line : ℕ) : Prop :=
  ∃ tok s, heredocString garbage (t.scanner tokenStartIdx line) = .ok (tok, s) ∧
    tok.type = .stringDquote ∧ tok.lexeme = replaceEscapes (bodyText t.body) ∧
    tok.length = tok.lexeme.length ∧ tok.startIdx = t.front.length ∧
    s.currentIndex = (t.front ++ bodyText t.body ++ t.pattern).length

end Text

/-- The buffer after a line was copied over its front. -/
def overlay (buf : LineBuf) (l : Bytes) : LineBuf := fun i => l.getD i (buf i)

/-- The line is a beginning of the pattern, and the bytes behind it in the buffer complete it. -/
def Completed (buf : LineBuf) (l pattern : Bytes) : Prop :=
  ∀ i, i < pattern.length → overlay buf l i = pattern.getD i 0

instance (buf : LineBuf) (l pattern : Bytes) : Decidable (Completed buf l pattern) :=
  inferInstanceAs (Decidable (∀ i, i < pattern.length → overlay buf l i = pattern.getD i 0))

/-- No line of the body is completed to the pattern by what the lines before left behind. -/
def Unspoilt (pattern : Bytes) : LineBuf → List Bytes → Prop
  | _, [] => True
  | buf, l :: ls => ¬ Completed buf l pattern ∧ Unspoilt pattern (overlay buf l) ls

section

variable {buf : LineBuf} {l rem pattern : Bytes} {i : ℕ} {s : Scanner}

/-! ## One line -/

/-- A line is copied over the front of the buffer, as far as the buffer goes. -/
theorem scanLine_append (hl : Plain l) (hrem : ∀ c, rem.head? = some c → EndsLine c) :
    scanLine (l ++ rem) buf i =
      if i + l.length ≤ lineMax then
        .ok (fun j => if i ≤ j then l.getD (j - i) (buf j) else buf j, i + l.length)
      else if l = [] then .ok (buf, i) else .error .undefinedBehaviour := by
  induction l generalizing buf i with
  | nil =>
    have hstop : scanLine rem buf i = .ok (buf, i) := by
      cases rem with
      | nil => rfl
      | cons c rem => simp [scanLine, hrem c rfl]
    simp [hstop]
  | cons c l ih =>
    have hc : ¬ EndsLine c := hl c List.mem_cons_self
    have hl' : Plain l := fun d hd => hl d (List.mem_cons_of_mem _ hd)
    rw [List.cons_append, scanLine, if_neg hc, List.length_cons]
    by_cases hi : i < lineMax
    · rw [if_pos hi, ih hl']
      by_cases hfits : i + (l.length + 1) ≤ lineMax
      · rw [if_pos (by omega), if_pos hfits]
        have hbuf : (fun j => if i + 1 ≤ j then l.getD (j - (i + 1)) (Function.update buf i c j)
            else Function.update buf i c j) =
            fun j => if i ≤ j then (c :: l).getD (j - i) (buf j) else buf j := by
          funext j
          rcases Nat.lt_trichotomy j i with hj | rfl | hj
          · rw [if_neg (by omega), if_neg (by omega), Function.update_of_ne (by omega)]
          · rw [if_neg (by omega), if_pos (Nat.le_refl _), Function.update_self, Nat.sub_self]
            rfl
          · obtain ⟨d, rfl⟩ := Nat.exists_eq_add_of_lt hj
            have hd : i + d + 1 - i = d + 1 := by omega
            have hd' : i + d + 1 - (i + 1) = d := by omega
            rw [if_pos (by omega), if_pos (by omega), Function.update_of_ne (by omega), hd, hd']
            rfl
        rw [hbuf, Nat.add_right_comm, Nat.add_assoc]
      · have hne : l ≠ [] := by
          rintro rfl
          simp only [List.length_nil] at hfits
          omega
        rw [if_neg (by omega), if_neg hne, if_neg hfits, if_neg (List.cons_ne_nil _ _)]
    · rw [if_neg hi, if_neg (by omega), if_neg (List.cons_ne_nil _ _)]

theorem scanLine_line (hl : Plain l) (hrem : ∀ c, rem.head? = some c → EndsLine c)
    (hfits : l.length ≤ lineMax) :
    scanLine (l ++ rem) buf 0 = .ok (overlay buf l, l.length) := by
  have hbuf : (fun j => if 0 ≤ j then l.getD (j - 0) (buf j) else buf j) = overlay buf l := by
    funext j
    rw [if_pos (Nat.zero_le j), Nat.sub_zero]
    rfl
  rw [scanLine_append hl hrem, if_pos (by omega), hbuf, Nat.zero_add]

theorem scanLine_overflows (hl : Plain l) (hrem : ∀ c, rem.head? = some c → EndsLine c)
    (hlong : lineMax < l.length) : scanLine (l ++ rem) buf 0 = .error .undefinedBehaviour := by
  rw [scanLine_append hl hrem, if_neg (by omega), if_neg]
  rintro rfl
  simp at hlong

theorem startsWith_iff : startsWith buf pattern i = true ↔
    ∀ j, j < pattern.length → buf (i + j) = pattern.getD j 0 := by
  induction pattern generalizing i with
  | nil => simp [startsWith]
  | cons c cs ih =>
    rw [startsWith, Bool.and_eq_true, beq_iff_eq, ih]
    constructor
    · rintro ⟨hc, hcs⟩ j hj
      cases j with
      | zero => exact hc
      | succ j =>
        have := hcs j (by simpa using hj)
        rw [Nat.add_right_comm, Nat.add_assoc] at this
        exact this
    · intro h
      refine ⟨h 0 (by simp), fun j hj => ?_⟩
      have := h (j + 1) (by simpa using hj)
      rw [Nat.add_right_comm, Nat.add_assoc]
      exact this

theorem startsWith_overlay :
    startsWith (overlay buf l) pattern 0 = true ↔ Completed buf l pattern := by
  rw [startsWith_iff]
  simp only [Nat.zero_add]
  rfl

/-- The terminating line is the pattern and more. -/
theorem completed_append (buf : LineBuf) (pattern extra : Bytes) :
    Completed buf (pattern ++ extra) pattern := by
  intro j hj
  have hj' : j < (pattern ++ extra).length := by
    rw [List.length_append]
    omega
  rw [overlay, List.getD_eq_getElem _ _ hj', List.getD_eq_getElem _ _ hj,
    List.getElem_append_left hj]

/-! ## Where the scanner stands -/

/-- What is still to be read. -/
def At (s : Scanner) (before rem : Bytes) : Prop :=
  s.source = before ++ rem ∧ s.currentIndex = before.length ∧ s.scriptEnded = false

theorem At.drop {before : Bytes} (h : At s before rem) : s.source.drop s.currentIndex = rem := by
  rw [h.1, h.2.1, List.drop_left]

theorem At.peek_eq {before : Bytes} {c : UInt8} (h : At s before (c :: rem)) : peek s = c := by
  rw [peek, h.1, h.2.1, List.getD_eq_getElem _ _ (by simp)]
  simp

theorem At.skip {before : Bytes} {c : UInt8} (h : At s before (c :: rem)) :
    At (skipChar c s) (before ++ [c]) rem ∧ (skipChar c s).tokenStartIdx = s.tokenStartIdx := by
  rw [skipChar, if_pos h.peek_eq]
  refine ⟨⟨?_, ?_, h.2.2⟩, rfl⟩
  · rw [h.1, List.append_assoc, List.singleton_append]
  · simp [h.2.1]

theorem At.skip_ne {before : Bytes} {c d : UInt8} (h : At s before (c :: rem)) (hne : c ≠ d) :
    skipChar d s = s := by
  rw [skipChar, if_neg]
  rw [h.peek_eq]
  exact hne

theorem At.newline {before : Bytes} (n : Newline) (h : At s before (n.bytes ++ rem)) :
    At (scanNewline s) (before ++ n.bytes) rem ∧
      (scanNewline s).tokenStartIdx = s.tokenStartIdx := by
  cases n with
  | lf =>
    have hlf : At s before (lf :: rem) := h
    rw [scanNewline, hlf.skip_ne (by decide)]
    exact hlf.skip
  | crlf =>
    have hcr : At s before (cr :: lf :: rem) := h
    have hlf := hcr.skip.1.skip
    constructor
    · have := hlf.1
      rwa [List.append_assoc] at this
    · exact hlf.2.trans hcr.skip.2

theorem At.advance {before : Bytes} (h : At s before (l ++ rem)) :
    At { s with currentIndex := s.currentIndex + l.length } (before ++ l) rem := by
  refine ⟨?_, ?_, h.2.2⟩
  · rw [h.1, List.append_assoc]
  · simp [h.2.1]

theorem At.not_end {before : Bytes} (h : At s before (l ++ rem)) (hl : Plain l)
    (hrem : ∀ c, rem.head? = some c → c ≠ 0) (hne : l ++ rem ≠ []) : isAtEndGetMore s = false := by
  obtain ⟨c, cs, hcs⟩ := List.exists_cons_of_ne_nil hne
  rw [hcs] at h
  rw [isAtEndGetMore, h.2.2, h.peek_eq, Bool.false_or, beq_eq_false_iff_ne]
  cases l with
  | nil =>
    apply hrem
    rw [List.nil_append] at hcs
    rw [hcs]
    rfl
  | cons d l =>
    rw [List.cons_append] at hcs
    cases hcs
    intro hzero
    exact hl _ List.mem_cons_self (.inl hzero)

/-! ## The lines -/

/-- One round of the loop: the line ends the string, or the next one is read. -/
theorem heredocLines_line {before : Bytes} (pattern : Bytes) (buf : LineBuf) (fuel : ℕ)
    (h : At s before (l ++ rem)) (hl : Plain l)
    (hrem : ∀ c, rem.head? = some c → EndsLine c) (hend : isAtEndGetMore s = false)
    (hfits : l.length ≤ lineMax) : heredocLines pattern (fuel + 1) buf s =
      if Completed buf l pattern then
        endHeredoc pattern.length l.length { s with currentIndex := s.currentIndex + l.length }
      else heredocLines pattern fuel (overlay buf l)
        (scanNewline { s with currentIndex := s.currentIndex + l.length }) := by
  have hscan : scanLine (l ++ rem) buf 0 = .ok (overlay buf l, l.length) :=
    scanLine_line hl hrem hfits
  rw [← h.drop] at hscan
  simp only [heredocLines, hend, hscan, Bool.false_eq_true, if_false, bind, Except.bind]
  by_cases hc : Completed buf l pattern
  · rw [if_pos hc, if_pos (startsWith_overlay.mpr hc)]
  · rw [if_neg hc, if_neg (mt startsWith_overlay.mp hc)]

theorem newline_endsLine (n : Newline) (rem : Bytes) :
    ∀ c, (n.bytes ++ rem).head? = some c → EndsLine c ∧ c ≠ 0 := by
  cases n with
  | lf =>
    rintro c ⟨⟩
    exact ⟨.inr (.inl rfl), by decide⟩
  | crlf =>
    rintro c ⟨⟩
    exact ⟨.inr (.inr rfl), by decide⟩

/-- A body line: either it is completed to the pattern, and the scanner ends up short of the
terminating line, or the scanner stands before the next line. -/
theorem heredocLines_cons {before : Bytes} (pattern : Bytes) (buf : LineBuf) (fuel : ℕ)
    (n : Newline) (h : At s before (l ++ n.bytes ++ rem)) (hl : Plain l) (hfits : l.length < lineMax) :
    (Completed buf l pattern → ∀ tok s', heredocLines pattern (fuel + 1) buf s = .ok (tok, s') →
        s'.currentIndex = before.length + pattern.length) ∧
      (¬ Completed buf l pattern → ∃ s', At s' (before ++ (l ++ n.bytes)) rem ∧
        s'.tokenStartIdx = s.tokenStartIdx ∧ heredocLines pattern (fuel + 1) buf s =
          heredocLines pattern fuel (overlay buf l) s') := by
  rw [List.append_assoc] at h
  have hends := newline_endsLine n rem
  have hne : l ++ (n.bytes ++ rem) ≠ [] := by cases n <;> simp [Newline.bytes]
  have hline := heredocLines_line pattern buf fuel h hl
    (fun c hc => (hends c hc).1) (h.not_end hl (fun c hc => (hends c hc).2) hne) hfits.le
  constructor
  · intro hc tok s' heq
    rw [hline, if_pos hc, endHeredoc] at heq
    dsimp only at heq
    split at heq
    · cases heq
      have hindex := h.2.1
      simp only
      omega
    · cases heq
  · intro hc
    have hnext := h.advance.newline n
    rw [hline, if_neg hc]
    exact ⟨_, by simpa using hnext.1, hnext.2, rfl⟩

/-- Lines that are not completed to the pattern are passed. -/
theorem heredocLines_unspoilt {before : Bytes} (fuel : ℕ) (ls : List (Bytes × Newline))
    (h : At s before (bodyText ls ++ rem)) (hplain : ∀ l ∈ ls, Plain l.1)
    (hfits : ∀ l ∈ ls, l.1.length < lineMax) (hunspoilt : Unspoilt pattern buf (ls.map (·.1))) :
    ∃ buf' s', At s' (before ++ bodyText ls) rem ∧ s'.tokenStartIdx = s.tokenStartIdx ∧
      heredocLines pattern (ls.length + fuel) buf s = heredocLines pattern fuel buf' s' := by
  induction ls generalizing before buf s with
  | nil =>
    refine ⟨buf, s, ?_, rfl, ?_⟩
    · simpa [bodyText] using h
    · rw [List.length_nil, Nat.zero_add]
  | cons l ls ih =>
    have htext : bodyText (l :: ls) = l.1 ++ l.2.bytes ++ bodyText ls := rfl
    rw [htext, List.append_assoc] at h
    rcases (heredocLines_cons pattern buf (ls.length + fuel) l.2 h (hplain l List.mem_cons_self)
      (hfits l List.mem_cons_self)).2 hunspoilt.1 with ⟨s₁, hat, hstart, heq⟩
    rcases ih hat (fun k hk => hplain k (List.mem_cons_of_mem _ hk))
      (fun k hk => hfits k (List.mem_cons_of_mem _ hk)) hunspoilt.2 with
      ⟨buf', s', hat', hstart', heq'⟩
    refine ⟨buf', s', ?_, hstart'.trans hstart, ?_⟩
    · rwa [htext, ← List.append_assoc]
    · rw [List.length_cons, Nat.add_right_comm, heq, heq']

/-- A line that is completed to the pattern ends the string before its terminating line. -/
theorem heredocLines_spoilt {before : Bytes} (fuel : ℕ) (ls : List (Bytes × Newline))
    (h : At s before (bodyText ls ++ rem)) (hplain : ∀ l ∈ ls, Plain l.1)
    (hfits : ∀ l ∈ ls, l.1.length < lineMax)
    (hspoilt : ¬ Unspoilt pattern buf (ls.map (·.1))) {tok : Token} {s' : Scanner}
    (heq : heredocLines pattern (ls.length + fuel) buf s = .ok (tok, s')) :
    s'.currentIndex < (before ++ bodyText ls ++ pattern).length := by
  induction ls generalizing before buf s with
  | nil => exact absurd trivial hspoilt
  | cons l ls ih =>
    have htext : bodyText (l :: ls) = l.1 ++ l.2.bytes ++ bodyText ls := rfl
    have hnl : 0 < l.2.bytes.length := by cases l.2 <;> decide
    rw [htext, List.append_assoc] at h
    have hstep := heredocLines_cons pattern buf (ls.length + fuel) l.2 h
      (hplain l List.mem_cons_self) (hfits l List.mem_cons_self)
    rw [List.length_cons, Nat.add_right_comm] at heq
    rw [htext]
    by_cases hc : Completed buf l.1 pattern
    · have hindex := hstep.1 hc tok s' heq
      simp only [List.length_append]
      omega
    · rcases hstep.2 hc with ⟨s₁, hat, _, heq₁⟩
      rw [heq₁] at heq
      have := ih hat (fun k hk => hplain k (List.mem_cons_of_mem _ hk))
        (fun k hk => hfits k (List.mem_cons_of_mem _ hk)) (fun hu => hspoilt ⟨hc, hu⟩) heq
      simpa only [List.append_assoc] using this

/-! ## The whole string -/

/-- The scanner behind `<<<`. -/
theorem scanner_at (t : Text) (start line : ℕ) : At (t.scanner start line) t.before
    (t.pattern ++ (t.newline.bytes ++ (bodyText t.body ++ (t.last ++ t.rest)))) := by
  refine ⟨?_, rfl, rfl⟩
  simp [Text.scanner, Text.source, Text.front]

theorem pattern_scanned (t : Text) (start line : ℕ) : ((t.scanner start line).source.drop
    (t.scanner start line).currentIndex).takeWhile (¬ EndsLine ·) = t.pattern := by
  have hends := newline_endsLine t.newline (bodyText t.body ++ (t.last ++ t.rest))
  rw [(scanner_at t start line).drop,
    List.takeWhile_append_of_pos (by simpa [Plain] using t.pattern_plain)]
  cases hcs : t.newline.bytes ++ (bodyText t.body ++ (t.last ++ t.rest)) with
  | nil => simp
  | cons c cs =>
    rw [hcs] at hends
    simp [(hends c rfl).1]

/-- What is scanned before the first line. -/
theorem heredocString_eq (t : Text) (garbage : LineBuf) (start line : ℕ)
    (hshort : t.pattern.length < 100) (hne : t.pattern ≠ []) :
    ∃ s, At s t.front (bodyText t.body ++ (t.last ++ t.rest)) ∧
      s.tokenStartIdx = t.front.length ∧
      heredocString garbage (t.scanner start line) =
        heredocLines t.pattern (t.source.length + 1) garbage s := by
  have hnext := (scanner_at t start line).advance.newline t.newline
  have hlen : t.pattern.length ≠ 0 := by simpa using hne
  generalize hs : scanNewline _ = s at hnext
  refine ⟨{ s with tokenStartIdx := s.currentIndex }, ⟨hnext.1.1, hnext.1.2⟩, hnext.1.2.1, ?_⟩
  unfold heredocString
  simp only [pattern_scanned, hs, if_neg hlen, if_neg (Nat.not_le.mpr hshort)]
  rw [hnext.1.1, Text.source, Text.front]

/-- The line buffer takes every line up to the pattern on the last one, the string is not empty and
no body line is completed to the pattern. -/
structure Meets (t : Text) (garbage : LineBuf) : Prop where
  pattern_fits : t.pattern.length < 100
  last_fits : t.last.length ≤ lineMax
  body_ne : t.body ≠ []
  unspoilt : Unspoilt t.pattern garbage (t.body.map (·.1))

theorem bodyText_length (ls : List (Bytes × Newline)) : ls.length ≤ (bodyText ls).length := by
  induction ls with
  | nil => simp
  | cons l ls ih =>
    have htext : bodyText (l :: ls) = l.1 ++ l.2.bytes ++ bodyText ls := rfl
    have hnl : 0 < l.2.bytes.length := by cases l.2 <;> decide
    rw [htext]
    simp only [List.length_append, List.length_cons]
    omega

namespace Text

variable (t : Text)

theorem pattern_ne (h : t.body ≠ []) : t.pattern ≠ [] := by
  intro hnil
  obtain ⟨l, ls, hls⟩ := List.exists_cons_of_ne_nil h
  apply t.not_prefix l (by rw [hls]; exact List.mem_cons_self)
  rw [hnil]
  exact List.nil_prefix

theorem last_plain : Plain t.last := by
  intro c hc
  rcases List.mem_append.mp hc with hc | hc
  · exact t.pattern_plain c hc
  · exact t.extra_plain c hc

/-- Enough rounds for the body and the terminating line. -/
theorem fuel_eq : ∃ fuel, t.source.length + 1 = t.body.length + (fuel + 1) := by
  have hle := bodyText_length t.body
  have hsource : t.source.length =
      t.front.length + ((bodyText t.body).length + (t.last ++ t.rest).length) := by
    simp [source]
  exact ⟨t.source.length - t.body.length, by omega⟩

/-- With the body passed, the terminating line is read. -/
theorem heredocLines_last {buf : LineBuf} {s : Scanner} (fuel : ℕ) (hne : t.pattern ≠ [])
    (h : At s (t.front ++ bodyText t.body) (t.last ++ t.rest)) :
    heredocLines t.pattern (fuel + 1) buf s =
      if t.last.length ≤ lineMax then
        endHeredoc t.pattern.length t.last.length
          { s with currentIndex := s.currentIndex + t.last.length }
      else .error .undefinedBehaviour := by
  have hlast : t.last ≠ [] := by simp [last, hne]
  obtain ⟨c, cs, hcs⟩ := List.exists_cons_of_ne_nil hlast
  have hend : isAtEndGetMore s = false := by
    have hc : ¬ EndsLine c := t.last_plain c (by rw [hcs]; exact List.mem_cons_self)
    have hat : At s (t.front ++ bodyText t.body) (c :: (cs ++ t.rest)) := by
      rwa [hcs, List.cons_append] at h
    rw [isAtEndGetMore, hat.2.2, hat.peek_eq, Bool.false_or, beq_eq_false_iff_ne]
    intro hzero
    exact hc (.inl hzero)
  by_cases hfits : t.last.length ≤ lineMax
  · have hc : Completed buf t.last t.pattern := completed_append buf t.pattern t.extra
    rw [if_pos hfits, heredocLines_line _ _ fuel h t.last_plain t.rest_ends hend hfits, if_pos hc]
  · rw [if_neg hfits]
    have hscan : scanLine (t.last ++ t.rest) buf 0 = .error .undefinedBehaviour :=
      scanLine_overflows t.last_plain t.rest_ends (by omega)
    rw [← h.drop] at hscan
    simp only [heredocLines, hend, hscan, Bool.false_eq_true, if_false, bind, Except.bind]

theorem endsAtPattern_of_meets {garbage : LineBuf} (start line : ℕ) (h : Meets t garbage) :
    t.EndsAtPattern garbage start line := by
  have hne := t.pattern_ne h.body_ne
  rcases heredocString_eq t garbage start line h.pattern_fits hne with ⟨s, hat, hstart, heq⟩
  rcases t.fuel_eq with ⟨fuel, hfuel⟩
  rcases heredocLines_unspoilt (fuel + 1) t.body hat t.body_plain t.fits h.unspoilt with
    ⟨buf', s', hat', hstart', hlines⟩
  rw [hfuel, hlines, t.heredocLines_last fuel hne hat', if_pos h.last_fits] at heq
  have hindex := hat'.2.1
  have hbody := bodyText_length t.body
  have hpos := List.length_pos_iff.mpr h.body_ne
  have hsource : (s'.source.drop s'.tokenStartIdx).take (bodyText t.body).length =
      bodyText t.body := by
    rw [hat'.1, hstart', hstart, List.append_assoc, List.drop_left, List.take_left]
  have hlength : ((s'.currentIndex + t.last.length : ℕ) : ℤ) - s'.tokenStartIdx -
      ((t.last.length : ℤ) - t.pattern.length + t.pattern.length) = (bodyText t.body).length := by
    rw [hindex, hstart', hstart, List.length_append]
    omega
  rw [endHeredoc] at heq
  simp only [hlength, Int.toNat_natCast, hsource] at heq
  rw [if_pos (by omega)] at heq
  refine ⟨_, _, heq, rfl, rfl, rfl, hstart'.trans hstart, ?_⟩
  have hlast : t.last.length = t.pattern.length + t.extra.length := List.length_append
  rw [hindex, hlast, List.length_append, List.length_append]
  simp only [List.length_append]
  omega

theorem meets_of_endsAtPattern {garbage : LineBuf} {start line : ℕ}
    (h : t.EndsAtPattern garbage start line) : Meets t garbage := by
  rcases h with ⟨tok, s', hok, htype, _, _, _, hindex⟩
  by_cases hshort : t.pattern.length < 100
  swap
  · -- the pattern does not fit
    unfold heredocString at hok
    simp only [pattern_scanned, if_pos (Nat.not_lt.mp hshort)] at hok
    cases hok
  by_cases hne : t.pattern = []
  · -- no pattern, hence an error token
    unfold heredocString at hok
    simp only [pattern_scanned, hne, List.length_nil, if_true] at hok
    cases hok
    cases htype
  rcases heredocString_eq t garbage start line hshort hne with ⟨s, hat, hstart, heq⟩
  rcases t.fuel_eq with ⟨fuel, hfuel⟩
  rw [heq, hfuel] at hok
  have hunspoilt : Unspoilt t.pattern garbage (t.body.map (·.1)) := by
    by_contra hspoilt
    have := heredocLines_spoilt (fuel + 1) t.body hat t.body_plain t.fits hspoilt hok
    omega
  rcases heredocLines_unspoilt (fuel + 1) t.body hat t.body_plain t.fits hunspoilt with
    ⟨buf', s₁, hat₁, hstart₁, hlines⟩
  rw [hlines, t.heredocLines_last fuel hne hat₁] at hok
  by_cases hlast : t.last.length ≤ lineMax
  swap
  · rw [if_neg hlast] at hok
    cases hok
  refine ⟨hshort, hlast, ?_, hunspoilt⟩
  -- an empty body leaves a token of no length
  intro hnil
  rw [if_pos hlast, endHeredoc] at hok
  have hlength : ¬ 0 < ((s₁.currentIndex + t.last.length : ℕ) : ℤ) - s₁.tokenStartIdx -
      ((t.last.length : ℤ) - t.pattern.length + t.pattern.length) := by
    rw [hat₁.2.1, hstart₁, hstart, hnil]
    simp only [bodyText, List.flatMap_nil, List.append_nil]
    omega
  dsimp only at hok
  rw [if_neg hlength] at hok
  cases hok

end Text

/-! ## The escapes -/

/-- `strReplace` goes on until nothing is found. -/
theorem find_strReplace {substr : Bytes} {c : UInt8} (hlen : 1 < substr.length) {fuel : ℕ}
    {str : Bytes} (hfuel : str.length ≤ fuel) :
    find substr (strReplace substr c fuel str) = none := by
  have hne : substr ≠ [] := List.length_pos_iff.mp (by omega)
  induction fuel generalizing str with
  | zero =>
    obtain rfl := List.length_eq_zero_iff.mp (Nat.le_zero.mp hfuel)
    simp [strReplace, find, hne]
  | succ fuel ih =>
    rw [strReplace]
    cases h : find substr str with
    | none => exact h
    | some r =>
      obtain ⟨before, rest⟩ := r
      have hstr := length_of_find h
      apply ih
      simp only [List.length_append, List.length_cons]
      omega

end

/-- **A heredoc ends where its pattern line is exactly when** the pattern is shorter than its buffer
and the terminating line no longer than the line buffer, the body has a line, and no body line is
completed to the pattern by the bytes the lines before it left in the buffer. -/
theorem endsAtPattern_iff (t : Text) (garbage : LineBuf) (start line : ℕ) :
    t.EndsAtPattern garbage start line ↔ Meets t garbage :=
  ⟨t.meets_of_endsAtPattern, t.endsAtPattern_of_meets start line⟩

/-- `<<<END` with the lines `xND` and `E` in front of `END`. -/
def spoiltText : Text where
  before := [60, 60, 60]
  pattern := [69, 78, 68]
  newline := .lf
  body := [([120, 78, 68], .lf), ([69], .lf)]
  extra := [59]
  rest := [10]
  pattern_plain := by decide
  body_plain := by decide
  extra_plain := by decide
  not_prefix := by decide
  fits := by decide
  rest_ends := by
    rintro c ⟨⟩
    decide

/-- The same pattern and no line in front of the last one. -/
def emptyText : Text := { spoiltText with
  body := []
  body_plain := by decide
  not_prefix := by decide
  fits := by decide }

/-- The line `E` ends the string: behind it the buffer still holds `ND`. And an empty body fails an
assertion. -/
theorem short_line_ends : ¬ spoiltText.EndsAtPattern (fun _ => 0) 0 1 ∧
    ¬ emptyText.EndsAtPattern (fun _ => 0) 0 1 := by
  constructor
  · intro h
    rcases (spoiltText.meets_of_endsAtPattern h).unspoilt with ⟨_, hE, _⟩
    exact hE (by decide)
  · intro h
    exact (emptyText.meets_of_endsAtPattern h).body_ne rfl

end Clox.Heredoc
