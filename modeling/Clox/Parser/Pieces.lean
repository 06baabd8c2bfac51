import Clox.Lib.Separators
import Clox.Parser.Lines

/-! # The pieces of a source

Whatever the scanner passes stands in the text of a token, or is white space, a comment or a second
dot with the byte behind it: the source is its tokens and what stands between them. Behind the end
there is nothing but the end.
-/

namespace Clox.Scanning

open Printing Parsing

section

variable {garbage : Heredoc.LineBuf} {s s' t t' : Scanner} {tok : Token} {fuel : ℕ}
  {type : TokenType} {r : Token × Scanner}

/-! ## The text of a token -/

/-- What is known of a token that begins at `t`. -/
structure Made (t : Scanner) (r : Token × Scanner) : Prop where
  /-- It has the text that stands there, unless one of its own was made. -/
  text : r.1.alloced = false → r.1.type ≠ .error → r.1.startIdx = t.currentIndex ∧
    r.1.length = r.2.currentIndex - t.currentIndex ∧ r.1.lexeme = t.rest.take r.1.length
  /-- Behind the end nothing is read any more. -/
  ends : r.1.type = .eof → r.2.scriptEnded = true ∨ r.2.peek = 0

theorem made_tokenOf (hsource : t'.source = t.source) (hstart : t'.tokenStartIdx = t.currentIndex)
    (type : TokenType) : (tokenOf type t').startIdx = t.currentIndex ∧
      (tokenOf type t').length = t'.currentIndex - t.currentIndex ∧
      (tokenOf type t').lexeme = t.rest.take (tokenOf type t').length := by
  simp only [tokenOf, Scanner.text, Scanner.rest, hsource, hstart, and_self]

theorem Made.makeToken (hsource : t'.source = t.source)
    (hstart : t'.tokenStartIdx = t.currentIndex) (hne : type ≠ .eof) :
    Made t (makeToken type t') := by
  unfold Scanning.makeToken
  split
  · exact ⟨fun _ _ => made_tokenOf hsource hstart .eof, fun _ => .inl rfl⟩
  · exact ⟨fun _ _ => made_tokenOf hsource hstart type, fun htype => absurd htype hne⟩

theorem type_makeToken (h : type ≠ .endScript) (s : Scanner) : (makeToken type s).1.type = type := by
  rw [makeToken, if_neg h]
  rfl

/-- A token with a text of its own. -/
theorem Made.own (htext : r.1.alloced = true ∨ r.1.type = .error) (hne : r.1.type ≠ .eof) :
    Made t r := by
  refine ⟨fun halloced herror => ?_, fun htype => absurd htype hne⟩
  rcases htext with htext | htext
  · exact absurd (htext.symm.trans halloced) (by decide)
  · exact absurd htext herror

/-- What is made of the bytes from `t` on, if anything is. -/
def Makes (t : Scanner) (x : Except Abort (Token × Scanner)) : Prop := ∀ r, x = .ok r → Made t r

theorem Makes.ok (h : Made t r) : Makes t (.ok r) := by
  intro r' heq
  cases heq
  exact h

theorem makes_number (cur : UInt8) : Makes t (.ok (number cur { t with
    tokenStartIdx := t.currentIndex, currentIndex := t.currentIndex + 1 })) := by
  refine .ok ?_
  unfold number
  dsimp only
  split
  · exact .makeToken rfl rfl (by decide)
  split
  · exact .makeToken rfl rfl (by decide)
  split
  · exact .makeToken rfl rfl (by decide)
  split
  · exact .makeToken rfl rfl (by decide)
  · exact .makeToken rfl rfl (by decide)

theorem makes_error (message : String) (s : Scanner) : Makes t (.ok (errorToken message s)) :=
  .ok (.own (.inr rfl) (by simp [errorToken]))

theorem makes_doubleQuotedString (s : Scanner) : Makes t (.ok (doubleQuotedString s)) := by
  unfold doubleQuotedString
  dsimp only
  split
  · exact makes_error _ _
  · refine .ok (.own (.inl rfl) ?_)
    simp [Token.withLexeme, type_makeToken]

theorem makes_singleQuotedString (isStatic : Bool) (s : Scanner) :
    Makes t (.ok (singleQuotedString isStatic s)) := by
  unfold singleQuotedString
  dsimp only
  split
  · exact makes_error _ _
  · refine .ok (.own (.inl rfl) ?_)
    cases isStatic <;> simp [Token.withLexeme, type_makeToken]

theorem identifierType_ne_eof (w : Bytes) : identifierType w ≠ .eof := by
  rcases identifierType_cases w with ⟨k, hk, -, htype⟩ | ⟨-, htype⟩
  · rw [htype]
    exact (by decide : ∀ k ∈ keywords, k.2 ≠ .eof) k hk
  · rw [htype]
    decide

theorem makes_identifier (hsource : t'.source = t.source)
    (hstart : t'.tokenStartIdx = t.currentIndex) : Makes t (identifier t') := by
  have htype : (if (t'.advanceWhile isAlphaNumeric).afterDot = true then TokenType.identifier
      else identifierType (t'.advanceWhile isAlphaNumeric).text) ≠ .eof := by
    split
    · decide
    · exact identifierType_ne_eof _
  unfold identifier
  dsimp only
  generalize (if (t'.advanceWhile isAlphaNumeric).afterDot = true then TokenType.identifier
      else identifierType (t'.advanceWhile isAlphaNumeric).text) = type at htype ⊢
  split
  · split
    · refine .ok (.own (.inl rfl) ?_)
      change (makeToken .number (t'.advanceWhile isAlphaNumeric)).1.type ≠ .eof
      rw [type_makeToken (by decide)]
      decide
    · exact nofun
  · exact .ok (.makeToken hsource hstart htype)

theorem heredocString_own (hok : heredocString garbage s = .ok r) :
    (r.1.alloced = true ∨ r.1.type = .error) ∧ r.1.type ≠ .eof := by
  unfold heredocString at hok
  rcases Except.bind_eq_ok.mp hok with ⟨⟨tok', t'⟩, -, hr⟩
  dsimp only at hr
  split at hr <;> cases hr
  · exact ⟨.inl rfl, nofun⟩
  · exact ⟨.inr rfl, nofun⟩

/-- Unless the scanner goes on behind a second dot it makes a token of what stands there. -/
theorem makes_scanFrom (garbage : Heredoc.LineBuf) (fuel : ℕ)
    (hdots : (next s).isAtEnd = false → ¬ ((next s).peek = chr '.' ∧ s.afterDot = true)) :
    Makes (next s) (scanFrom garbage (fuel + 1) s) := by
  unfold scanFrom
  split
  · intro r hok
    cases hok
  dsimp only
  split
  · rename_i hend
    refine .ok ⟨fun _ _ => made_tokenOf rfl rfl .eof, fun _ => ?_⟩
    unfold Scanner.isAtEnd at hend
    rw [Bool.or_eq_true, beq_iff_eq] at hend
    exact hend
  rename_i hend
  have hdots := hdots (Bool.eq_false_iff.mpr hend)
  split
  · exact makes_number _
  split
  case h_10 heq =>
    split
    · rename_i hdot
      exact absurd ⟨chr_of_ofUInt8 heq, (next_skips s).afterDot.symm.trans hdot⟩ hdots
    · exact .ok (.makeToken rfl rfl (by decide))
  case h_8 | h_11 | h_19 | h_20 =>
    split <;> exact .ok (.makeToken rfl rfl (by decide))
  case h_21 =>
    split
    · exact .ok (.makeToken rfl rfl (by decide))
    split
    · intro r hok
      exact .own (heredocString_own hok).1 (heredocString_own hok).2
    split <;> exact .ok (.makeToken rfl rfl (by decide))
  case h_22 =>
    split
    · exact .ok (.makeToken rfl rfl (by decide))
    split <;> exact .ok (.makeToken rfl rfl (by decide))
  case h_23 => exact makes_doubleQuotedString _
  case h_24 => exact makes_singleQuotedString false _
  case h_25 =>
    split
    · exact makes_singleQuotedString true _
    · exact makes_identifier rfl rfl
  case h_26 =>
    split
    · exact makes_identifier rfl rfl
    · exact makes_error _ _
  all_goals exact .ok (.makeToken rfl rfl (by decide))

/-! ## What is passed over -/

/-- What the scanner passes over in front of `tail`, after a dot or not. -/
inductive Passed (afterDot : Bool) (tail : Bytes) : Bytes → Prop
  | nothing : Passed afterDot tail []
  | space {c : UInt8} {w : Bytes} (hc : c ∈ [chr ' ', chr '\r', chr '\t', chr '\n'])
      (h : Passed afterDot tail w) : Passed afterDot tail (c :: w)
  | line {cs w : Bytes} (hcs : chr '\n' ∉ cs) (hend : ∀ c ∈ (w ++ tail).head?, c = chr '\n')
      (h : Passed afterDot tail w) : Passed afterDot tail (bytes "//" ++ (cs ++ w))
  /-- Up to the first place where it is closed. -/
  | comment {cs w : Bytes}
      (hcs : Separators.find (bytes "*/") (cs ++ (bytes "*/" ++ (w ++ tail))) = some (cs, w ++ tail))
      (h : Passed afterDot tail w) : Passed afterDot tail (bytes "/*" ++ (cs ++ (bytes "*/" ++ w)))
  | openComment {cs : Bytes} (hcs : Separators.find (bytes "*/") cs = none) (htail : tail = []) :
      Passed afterDot tail (bytes "/*" ++ cs)
  /-- A second dot takes the byte behind it along. -/
  | dots {c : UInt8} {w : Bytes} (hdot : afterDot = true) (h : Passed afterDot tail w) :
      Passed afterDot tail (chr '.' :: c :: w)

variable {afterDot : Bool} {tail w w' : Bytes}

theorem Passed.append (h : Passed afterDot (w' ++ tail) w) (h' : Passed afterDot tail w') :
    Passed afterDot tail (w ++ w') := by
  induction h with
  | nothing => exact h'
  | space hc _ ih => exact .space hc ih
  | line hcs hend _ ih =>
    rw [List.append_assoc, List.append_assoc]
    refine .line hcs ?_ ih
    rwa [List.append_assoc]
  | comment hcs _ ih =>
    rw [List.append_assoc, List.append_assoc, List.append_assoc]
    refine .comment ?_ ih
    rwa [List.append_assoc]
  | openComment hcs htail =>
    rw [List.append_eq_nil_iff] at htail
    rw [htail.1, List.append_nil]
    exact .openComment hcs htail.2
  | dots hdot _ ih => exact .dots hdot ih

theorem rest_of_peek (h : s.peek ≠ 0) : s.rest = s.peek :: (s.advance 1).rest := by
  have hlt := lt_of_peek h
  unfold Scanner.peek Scanner.rest
  rw [List.getD_eq_getElem _ _ hlt]
  exact List.drop_eq_getElem_cons hlt

theorem rest_eq_nil (hnul : 0 ∉ s.source) (h : s.peek = 0) : s.rest = [] := by
  cases hrest : s.rest with
  | nil => rfl
  | cons c cs =>
    have hmem : c ∈ s.source := List.mem_of_mem_drop (hrest ▸ List.mem_cons_self : c ∈ s.rest)
    rw [← (rest_cons hrest).1, h] at hmem
    exact absurd hmem hnul

theorem skipComment_find (cs : Bytes) : (skipComment cs).1 =
    match Separators.find (bytes "*/") cs with
    | some (before, _) => before.length + 2
    | none => cs.length := by
  induction cs with
  | nil => rfl
  | cons c cs ih =>
    have hclosed : (c = chr '*' ∧ cs.head? = some (chr '/')) ↔ bytes "*/" <+: c :: cs := by
      have hbytes : bytes "*/" = [chr '*', chr '/'] := by decide
      rw [hbytes, List.cons_prefix_cons, eq_comm]
      cases cs with
      | nil => simp
      | cons d cs => simp [List.cons_prefix_cons, eq_comm]
    rw [skipComment, Separators.find]
    by_cases h : c = chr '*' ∧ cs.head? = some (chr '/')
    · rw [if_pos h, if_pos (hclosed.mp h)]
      rfl
    · rw [if_neg h, if_neg (mt hclosed.mpr h)]
      dsimp only
      rw [ih]
      cases Separators.find (bytes "*/") cs with
      | none => rfl
      | some r =>
        simp only [Option.map_some, List.length_cons]

theorem rest_advance (s : Scanner) (n : ℕ) : (s.advance n).rest = s.rest.drop n := by
  simp only [Scanner.rest, Scanner.advance, List.drop_drop]

/-- Two bytes of which the second one is seen by `peekNext`. -/
theorem rest_of_peekNext {c d : UInt8} (hc : s.peek = c) (hd : s.peekNext = d) (hc0 : c ≠ 0)
    (hd0 : d ≠ 0) : s.rest = [c, d] ++ (s.advance 2).rest := by
  have hnext : (s.advance 1).peek = d := by
    unfold Scanner.peekNext at hd
    split at hd
    · exact absurd hd.symm hd0
    · exact hd
  rw [rest_of_peek (by rwa [hc]), @rest_of_peek (s.advance 1) (by rwa [hnext]), hc, hnext]
  rfl

/-- A comment up to the end of its line. -/
theorem line_passed (h : s.rest = bytes "//" ++ tail)
    (hw : (s.advanceWhile (· != chr '\n')).rest = w ++ w') (hpassed : Passed afterDot w' w) :
    ∃ v, s.rest = v ++ w' ∧ Passed afterDot w' v := by
  let p : UInt8 → Bool := (· != chr '\n')
  have htake : s.rest.takeWhile p = bytes "//" ++ tail.takeWhile p := by
    rw [h]
    rfl
  have hdrop : s.rest.dropWhile p = w ++ w' := by
    have hleft := @List.drop_left _ (s.rest.takeWhile p) (s.rest.dropWhile p)
    rw [List.takeWhile_append_dropWhile] at hleft
    rw [← hw, Scanner.advanceWhile, rest_advance, hleft]
  refine ⟨bytes "//" ++ (tail.takeWhile p ++ w), ?_, .line ?_ ?_ hpassed⟩
  · rw [← List.append_assoc, ← htake, List.append_assoc, ← hdrop, List.takeWhile_append_dropWhile]
  · intro hmem
    have hp := List.mem_takeWhile_imp hmem
    simp [p] at hp
  · intro c hc
    rw [← hdrop] at hc
    have hp := List.head?_dropWhile_not p s.rest
    rw [Option.mem_def.mp hc] at hp
    simpa [p] using hp

/-- A comment up to where it is closed, or to the end. -/
theorem comment_passed (h : s.rest = bytes "/*" ++ tail)
    (hw : tail.drop (skipComment tail).1 = w ++ w') (hpassed : Passed afterDot w' w) :
    ∃ v, s.rest = v ++ w' ∧ Passed afterDot w' v := by
  rw [skipComment_find] at hw
  cases hfind : Separators.find (bytes "*/") tail with
  | none =>
    rw [hfind, List.drop_length, eq_comm, List.append_eq_nil_iff] at hw
    refine ⟨bytes "/*" ++ tail, ?_, .openComment hfind hw.2⟩
    rw [h, hw.2, List.append_nil]
  | some r =>
    rcases r with ⟨cs, rest⟩
    have heq := Separators.find_eq_append hfind
    have hrest : rest = w ++ w' := by
      rw [← hw, hfind, heq, ← List.append_assoc]
      exact (List.drop_left' (by rw [List.length_append]; rfl)).symm
    rw [hrest] at heq hfind
    rw [heq] at hfind
    refine ⟨bytes "/*" ++ (cs ++ (bytes "*/" ++ w)), ?_, .comment hfind hpassed⟩
    rw [h, heq]
    simp only [List.append_assoc]

theorem skipWhitespaceLoop_passed (afterDot : Bool) (fuel : ℕ) (s : Scanner) :
    ∃ w, s.rest = w ++ (skipWhitespaceLoop fuel s).rest ∧
      Passed afterDot (skipWhitespaceLoop fuel s).rest w := by
  induction fuel generalizing s with
  | zero => exact ⟨[], rfl, .nothing⟩
  | succ fuel ih =>
    have hone : s.peek ∈ [chr ' ', chr '\r', chr '\t', chr '\n'] → ∀ line, ∃ w, s.rest = w ++
        (skipWhitespaceLoop fuel { s.advance 1 with line := line }).rest ∧
          Passed afterDot (skipWhitespaceLoop fuel { s.advance 1 with line := line }).rest w := by
      intro hmem line
      rcases ih { s.advance 1 with line := line } with ⟨w, hrest, hw⟩
      refine ⟨s.peek :: w, ?_, .space hmem hw⟩
      rw [rest_of_peek (ne_of_mem_of_not_mem hmem (by decide)), List.cons_append, ← hrest]
      rfl
    unfold skipWhitespaceLoop
    split
    · rename_i h
      exact hone (by rcases h with h | h | h <;> simp [h]) s.line
    split
    · rename_i h
      exact hone (by simp [h]) _
    split
    · rename_i h
      rcases ih (s.advanceWhile (· != chr '\n')) with ⟨w, hrest, hw⟩
      exact line_passed (rest_of_peekNext h.1 h.2 (by decide) (by decide)) hrest hw
    split
    · rename_i h
      have hbegin := rest_of_peekNext h.1 h.2 (by decide) (by decide)
      rcases ih { (s.advance 2).advance (skipComment (s.advance 2).rest).1 with
        line := s.line + (skipComment (s.advance 2).rest).2 } with ⟨w, hrest, hw⟩
      exact comment_passed hbegin ((rest_advance _ _).symm.trans hrest) hw
    · exact ⟨[], rfl, .nothing⟩

/-! ## One piece -/

/-- In front of a token with the text `x` the scanner passes over `w`. -/
structure Piece (s : Scanner) (w x : Bytes) (tok : Token) (s' : Scanner) : Prop where
  rest : s.rest = w ++ (x ++ s'.rest)
  passed : Passed s.afterDot (x ++ s'.rest) w
  text : tok.alloced = false → tok.type ≠ .error →
    tok.lexeme = x ∧ tok.startIdx = s.currentIndex + w.length
  nonempty : tok.type ≠ .eof → x ≠ []
  /-- The end is that of the source, if the script does not end before it. -/
  ends : tok.type = .eof → s'.scriptEnded = true ∨ s'.rest = []

theorem next_passed (hin : s.currentIndex ≤ s.source.length) : ∃ w, s.rest = w ++ (next s).rest ∧
    Passed s.afterDot (next s).rest w ∧ (next s).currentIndex = s.currentIndex + w.length := by
  rcases skipWhitespaceLoop_passed s.afterDot (s.rest.length + 1) s with ⟨w, hrest, hw⟩
  have hrest : s.rest = w ++ (next s).rest := hrest
  have hnext := (next_skips s).inBounds hin
  have hlen := congrArg List.length hrest
  rw [List.length_append, length_rest, length_rest, (next_skips s).source] at hlen
  exact ⟨w, hrest, hw, by have := (next_skips s).forward; omega⟩

theorem Made.piece (h : Made (next s) (tok, s')) (hnul : 0 ∉ s.source)
    (hin : s.currentIndex ≤ s.source.length) (hsource : s'.source = s.source)
    (hforward : (next s).currentIndex ≤ s'.currentIndex)
    (hmore : tok.type ≠ .eof → (next s).currentIndex < s'.currentIndex ∧ (next s).peek ≠ 0) :
    ∃ w x, Piece s w x tok s' := by
  rcases next_passed hin with ⟨w, hrest, hw, hindex⟩
  have hsplit : (next s).rest = (next s).rest.take (s'.currentIndex - (next s).currentIndex) ++
      s'.rest := by
    have hdrop : s'.rest = (next s).rest.drop (s'.currentIndex - (next s).currentIndex) := by
      rw [Scanner.rest, Scanner.rest, List.drop_drop, hsource, (next_skips s).source,
        Nat.add_sub_cancel' hforward]
    rw [hdrop, List.take_append_drop]
  refine ⟨w, (next s).rest.take (s'.currentIndex - (next s).currentIndex), ?_, ?_, ?_, ?_, ?_⟩
  · rwa [← hsplit]
  · rwa [← hsplit]
  · intro halloced herror
    rcases h.text halloced herror with ⟨hstart, hlength, hlexeme⟩
    exact ⟨by rw [hlexeme, hlength], hstart.trans hindex⟩
  · intro htype
    rcases hmore htype with ⟨hlt, hpeek⟩
    rw [rest_of_peek hpeek, List.take_cons (by omega)]
    exact List.cons_ne_nil _ _
  · intro htype
    exact (h.ends htype).imp_right (rest_eq_nil (hsource ▸ hnul))

theorem peek_ne_zero (hend : s.isAtEnd = false) : s.peek ≠ 0 := by
  unfold Scanner.isAtEnd at hend
  rw [Bool.or_eq_false_iff, beq_eq_false_iff_ne] at hend
  exact hend.2

/-- Two bytes are passed over before the piece. -/
theorem Piece.behindDots {c : UInt8} {x : Bytes} (h : Piece ((next s).advance 2) w x tok s')
    (hin : s.currentIndex ≤ s.source.length) (hdot : s.afterDot = true)
    (hrest : (next s).rest = chr '.' :: c :: tail) : ∃ w, Piece s w x tok s' := by
  rcases next_passed hin with ⟨v, hv, hpassed, hindex⟩
  have hbehind : (next s).rest = (chr '.' :: c :: w) ++ (x ++ s'.rest) := by
    have htail : tail = w ++ (x ++ s'.rest) := by
      rw [← h.rest, rest_advance, hrest]
      rfl
    rw [hrest, htail]
    rfl
  have hpiece := h.passed
  rw [show ((next s).advance 2).afterDot = s.afterDot from (next_skips s).afterDot] at hpiece
  rw [hbehind] at hv hpassed
  refine ⟨v ++ chr '.' :: c :: w, ?_, hpassed.append (.dots hdot hpiece), ?_, h.nonempty, h.ends⟩
  · rw [hv, List.append_assoc]
  · intro halloced herror
    rcases h.text halloced herror with ⟨hlexeme, hstart⟩
    refine ⟨hlexeme, hstart.trans ?_⟩
    rw [List.length_append, List.length_cons, List.length_cons]
    change (next s).currentIndex + 2 + w.length = _
    omega

/-- Every call of `scanToken` takes a piece, however often it goes on behind dots. -/
theorem scanFrom_piece (hnul : 0 ∉ s.source) (hok : scanFrom garbage fuel s = .ok (tok, s')) :
    ∃ w x, Piece s w x tok s' := by
  induction fuel generalizing s with
  | zero => cases hok
  | succ fuel ih =>
    have hin := inBounds_of_scanFrom hok
    have hsource := (next_skips s).source
    have hmade := fun hdots => makes_scanFrom (s := s) garbage fuel hdots _ hok
    have hscan := scanFrom_scan garbage fuel hin
    rw [hok] at hscan
    generalize hr : Except.ok (tok, s') = r at hscan
    cases hscan with
    | eof hend =>
      have hmade := hmade fun hgoing => absurd (hgoing.symm.trans hend) (by decide)
      cases hr
      exact hmade.piece hnul hin hsource le_rfl fun htype => absurd rfl htype
    | again hend hpeek hdot =>
      rcases rest_of_dot hpeek (inBounds_of_scanFrom hr.symm) with ⟨c, tail, hrest⟩
      have hnul' : 0 ∉ ((next s).advance 2).source := by
        rw [← hsource] at hnul
        exact hnul
      rcases ih hnul' hr.symm with ⟨w, x, hpiece⟩
      rcases hpiece.behindDots hin hdot hrest with ⟨w', hpiece⟩
      exact ⟨w', x, hpiece⟩
    | heredoc hend hrest =>
      have hdots : ¬ ((next s).peek = chr '.' ∧ s.afterDot = true) := by
        intro hdots
        rw [(rest_cons hrest).1] at hdots
        exact absurd hdots.1 (by decide)
      rcases heredocString_ok hr.symm with ⟨tok', t', hheredoc, hlast, hindex, -, -⟩
      have hforward := heredocString_forward (before_heredoc hend hnul hrest) hheredoc
      have hbehind : (next s).currentIndex + 3 ≤ s'.currentIndex := hforward.trans hindex.ge
      exact (hmade fun _ => hdots).piece hnul hin (hlast.trans hsource) (by omega)
        fun _ => ⟨by omega, peek_ne_zero hend⟩
    | identifier hend halpha =>
      have hdots : ¬ ((next s).peek = chr '.' ∧ s.afterDot = true) := by
        intro hdots
        rw [hdots.1] at halpha
        exact absurd halpha (by decide)
      have htakes := identifier_takes halpha hr.symm
      exact (hmade fun _ => hdots).piece hnul hin (htakes.source.trans hsource) htakes.forward.le
        fun _ => ⟨htakes.forward, peek_ne_zero hend⟩
    | token hend hdots hheredoc _ htakes =>
      cases hr
      exact (hmade fun _ => hdots).piece hnul hin (htakes.source.trans hsource) htakes.forward.le
        fun _ => ⟨htakes.forward, peek_ne_zero hend⟩

/-! ## A whole source -/

/-- Put together, the texts of the tokens and what stands between them are what was read of the
source. -/
theorem scanned_pieces {garbage : ℕ → Heredoc.LineBuf} {src : Bytes} {n : ℕ} (hnul : 0 ∉ src)
    (hs : scanned garbage src n = .ok s) : ∃ ps : List (Bytes × Bytes), ps.length = n ∧
      src = ps.flatMap (fun p => p.1 ++ p.2) ++ s.rest ∧
      ∀ k w x, ps[k]? = some (w, x) → ∃ s₀ tok s₁, scanned garbage src k = .ok s₀ ∧
        scanToken (garbage k) s₀ = .ok (tok, s₁) ∧ Piece s₀ w x tok s₁ := by
  induction n generalizing s with
  | zero =>
    cases hs
    exact ⟨[], rfl, rfl, nofun⟩
  | succ n ih =>
    rcases scanned_pred hs with ⟨s₀, tok, hs₀, hok⟩
    rcases ih hs₀ with ⟨ps, hlength, hsrc, hps⟩
    have hnul₀ : 0 ∉ s₀.source := by rwa [scanned_source hnul hs₀]
    rcases scanFrom_piece hnul₀ hok with ⟨w, x, hpiece⟩
    refine ⟨ps ++ [(w, x)], ?_, ?_, ?_⟩
    · rw [List.length_append, hlength]
      rfl
    · rw [List.flatMap_append, List.append_assoc, hsrc, hpiece.rest]
      simp
    · intro k w' x' hk
      rcases Nat.lt_or_ge k ps.length with hlt | hge
      · rw [List.getElem?_append_left hlt] at hk
        exact hps k w' x' hk
      · rw [List.getElem?_append_right hge, List.getElem?_singleton] at hk
        split at hk
        · cases hk
          have hlast : k = n := by omega
          rw [hlast]
          exact ⟨s₀, tok, s, hs₀, hok, hpiece⟩
        · cases hk

/-- A name and a comment behind it. -/
theorem scanned_pieces_comment : ∃ ps : List (Bytes × Bytes), ps.length = 2 ∧
    bytes "x// y" = ps.flatMap fun p => p.1 ++ p.2 := by
  have hs : scanned (fun _ _ => 0) (bytes "x// y") 2 = .ok { initScanner (bytes "x// y") with
      tokenStartIdx := 5, currentIndex := 5 } := by
    decide +kernel
  rcases scanned_pieces (by decide) hs with ⟨ps, hlength, hsrc, _⟩
  exact ⟨ps, hlength, hsrc.trans (List.append_nil _)⟩

end

end Clox.Scanning
