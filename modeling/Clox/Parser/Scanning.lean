import Clox.Parser.Scanner

/-! # Scanning a whole source

Repeated `scanToken`, from the start of a source. The scanner stays in the
source and comes to its end, unless a token goes wrong in one of three places: a
second dot skips the byte behind it and with it the NUL, a heredoc's lines and
pattern are copied and skipped without a bound, and the number for `__LINE__`
has room for seven digits.
-/

namespace Clox.Scanning

open Printing Parsing

/-! ## Heredocs -/

section

open Heredoc (LineBuf EndsLine Completed overlay lineMax)

/-- A function for heredocs gives a token and stays in the source. -/
def Settles (s : Heredoc.Scanner) (r : Except Abort (Heredoc.Token × Heredoc.Scanner)) : Prop :=
  ∃ tok s', r = .ok (tok, s') ∧ s'.currentIndex ≤ s.source.length

def lineOf (rem : Bytes) : Bytes := rem.takeWhile (¬ EndsLine ·)

/-- `skipChar` -/
def behindChar (c : UInt8) (rem : Bytes) : Bytes := if rem.head? = some c then rem.tail else rem

/-- What stands behind the line and its newline. -/
def behindLine (rem : Bytes) : Bytes :=
  behindChar Heredoc.lf (behindChar Heredoc.cr (rem.dropWhile (¬ EndsLine ·)))

/-- The lines from `rem` on fit the line buffer, and if one of them completes the pattern, it is not
the first one and the source goes on at least as far as the pattern is long. -/
inductive LinesFit (pattern : Bytes) : Bool → LineBuf → Bytes → Prop
  | missing (first : Bool) (buf : LineBuf) : LinesFit pattern first buf []
  | ends {buf : LineBuf} {rem : Bytes} (hne : rem ≠ []) (hfits : (lineOf rem).length ≤ lineMax)
      (hends : Completed buf (lineOf rem) pattern) (hlen : pattern.length ≤ rem.length) :
      LinesFit pattern false buf rem
  | goesOn {first : Bool} {buf : LineBuf} {rem : Bytes} (hne : rem ≠ [])
      (hfits : (lineOf rem).length ≤ lineMax) (hends : ¬ Completed buf (lineOf rem) pattern)
      (hrest : LinesFit pattern false (overlay buf (lineOf rem)) (behindLine rem)) :
      LinesFit pattern first buf rem

/-- The pattern and the lines behind `<<<` fit their buffers. -/
def HeredocFits (garbage : LineBuf) (rem : Bytes) : Prop :=
  (lineOf rem).length < 100 ∧
    (lineOf rem = [] ∨ LinesFit (lineOf rem) true garbage (behindLine rem))

variable {s : Heredoc.Scanner} {rem pattern : Bytes} {buf garbage : LineBuf} {fuel : ℕ} {c : UInt8}

theorem lineOf_append (rem : Bytes) : lineOf rem ++ rem.dropWhile (¬ EndsLine ·) = rem :=
  List.takeWhile_append_dropWhile

theorem lineOf_plain (rem : Bytes) : Heredoc.Plain (lineOf rem) := by
  intro c hc
  simpa using List.mem_takeWhile_imp hc

theorem endsLine_of_head (hc : c ∈ (rem.dropWhile (¬ EndsLine ·)).head?) : EndsLine c := by
  have h := List.head?_dropWhile_not (fun c => decide (¬ EndsLine c)) rem
  rw [Option.mem_def.mp hc] at h
  simpa using h

/-- The scanner in the source, before `rem`. -/
structure Before (s : Heredoc.Scanner) (rem : Bytes) : Prop where
  rest : s.source.drop s.currentIndex = rem
  inBounds : s.currentIndex ≤ s.source.length
  going : s.scriptEnded = false
  noNul : 0 ∉ s.source

theorem Before.at (h : Before s rem) : Heredoc.At s (s.source.take s.currentIndex) rem := by
  refine ⟨?_, ?_, h.going⟩
  · rw [← h.rest, List.take_append_drop]
  · rw [List.length_take, Nat.min_eq_left h.inBounds]

theorem Before.length (h : Before s rem) :
    s.currentIndex + rem.length = s.source.length := by
  have := h.inBounds
  rw [← h.rest, List.length_drop]
  omega

theorem Before.ne_zero (h : Before s rem) (hc : c ∈ rem) : c ≠ 0 := by
  rintro rfl
  apply h.noNul
  rw [← h.rest] at hc
  exact List.mem_of_mem_drop hc

/-- The scanner behind a beginning of `rem`. -/
theorem Before.advance {l : Bytes} (h : Before s (l ++ rem)) :
    Before { s with currentIndex := s.currentIndex + l.length } rem := by
  have hlen := h.length
  rw [List.length_append] at hlen
  refine ⟨?_, ?_, h.going, h.noNul⟩
  · show s.source.drop (s.currentIndex + l.length) = rem
    rw [← List.drop_drop, h.rest, List.drop_left]
  · show s.currentIndex + l.length ≤ s.source.length
    omega

theorem Before.skipChar (h : Before s rem) (hc : c ≠ 0) :
    Before (Heredoc.skipChar c s) (behindChar c rem) ∧
      (Heredoc.skipChar c s).source = s.source ∧
      (Heredoc.skipChar c s).tokenStartIdx = s.tokenStartIdx ∧
      s.currentIndex ≤ (Heredoc.skipChar c s).currentIndex := by
  cases rem with
  | nil =>
    have hpeek : Heredoc.peek s ≠ c := by
      have hlen := h.length
      rw [List.length_nil] at hlen
      unfold Heredoc.peek
      rw [List.getD_eq_default _ _ (by omega)]
      exact hc.symm
    unfold Heredoc.skipChar
    rw [if_neg hpeek]
    exact ⟨h, rfl, rfl, le_rfl⟩
  | cons d rem =>
    by_cases hd : d = c
    · subst hd
      have hskip : (Heredoc.skipChar d s).currentIndex = s.currentIndex + 1 := by
        unfold Heredoc.skipChar
        rw [if_pos h.at.peek_eq]
      have hsource : (Heredoc.skipChar d s).source = s.source := by
        unfold Heredoc.skipChar
        rw [if_pos h.at.peek_eq]
      have hadvance : Before { s with currentIndex := s.currentIndex + [d].length } rem :=
        h.advance (l := [d])
      have hended : (Heredoc.skipChar d s).scriptEnded = s.scriptEnded := by
        unfold Heredoc.skipChar
        rw [if_pos h.at.peek_eq]
      refine ⟨⟨?_, ?_, hended.trans h.going, ?_⟩, hsource, h.at.skip.2, by omega⟩
      · rw [hsource, hskip]
        unfold behindChar
        rw [List.head?_cons, if_pos rfl]
        exact hadvance.rest
      · rw [hsource, hskip]
        exact hadvance.inBounds
      · rw [hsource]
        exact h.noNul
    · rw [h.at.skip_ne hd]
      unfold behindChar
      rw [if_neg (by simpa using hd)]
      exact ⟨h, rfl, rfl, le_rfl⟩

/-- A line and its newline are passed. -/
theorem Before.line (h : Before s rem) :
    let next := Heredoc.scanNewline { s with
      currentIndex := s.currentIndex + (lineOf rem).length }
    Before next (behindLine rem) ∧ next.source = s.source ∧
      next.tokenStartIdx = s.tokenStartIdx ∧ s.currentIndex ≤ next.currentIndex := by
  have hline : Before s (lineOf rem ++ rem.dropWhile (¬ EndsLine ·)) := by
    rw [lineOf_append]
    exact h
  rcases hline.advance.skipChar (c := Heredoc.cr) (by decide) with ⟨hcr, hsource, hstart, hle⟩
  rcases hcr.skipChar (c := Heredoc.lf) (by decide) with ⟨hlf, hsource', hstart', hle'⟩
  refine ⟨hlf, hsource'.trans hsource, hstart'.trans hstart, ?_⟩
  exact (Nat.le_add_right _ _).trans (hle.trans hle')

/-- The token starts where the scanner stands. -/
theorem Before.started (h : Before s rem) :
    Before { s with tokenStartIdx := s.currentIndex } rem :=
  ⟨h.rest, h.inBounds, h.going, h.noNul⟩

theorem length_behindChar (c : UInt8) (rem : Bytes) : (behindChar c rem).length ≤ rem.length := by
  unfold behindChar
  split
  · rw [List.length_tail]
    omega
  · exact le_rfl

/-- Every line takes something from what is left. -/
theorem length_behindLine (hne : rem ≠ []) (hnul : 0 ∉ rem) :
    (behindLine rem).length < rem.length := by
  have hsplit := congrArg List.length (lineOf_append rem)
  rw [List.length_append] at hsplit
  have hpos : 0 < rem.length := List.length_pos_of_ne_nil hne
  have hhead : ∀ c ∈ (rem.dropWhile (¬ EndsLine ·)).head?, c = Heredoc.lf ∨ c = Heredoc.cr := by
    intro c hc
    rcases endsLine_of_head hc with rfl | h
    · have hmem := List.mem_of_mem_head? hc
      exact absurd ((List.dropWhile_suffix _).subset hmem) hnul
    · exact h
  unfold behindLine
  cases hdrop : rem.dropWhile (¬ EndsLine ·) with
  | nil => exact hpos
  | cons d ds =>
    rw [hdrop] at hhead hsplit
    rw [List.length_cons] at hsplit
    have hlf := length_behindChar Heredoc.lf ds
    rcases hhead d rfl with rfl | rfl
    · have hskip : behindChar Heredoc.lf (behindChar Heredoc.cr (Heredoc.lf :: ds)) = ds := rfl
      rw [hskip]
      omega
    · have hskip : behindChar Heredoc.cr (Heredoc.cr :: ds) = ds := rfl
      rw [hskip]
      omega

/-- One round of the loop. -/
theorem heredocLines_round (h : Before s rem) (hne : rem ≠ []) (pattern : Bytes) (buf : LineBuf)
    (fuel : ℕ) :
    Heredoc.heredocLines pattern (fuel + 1) buf s =
      if (lineOf rem).length ≤ lineMax then
        if Completed buf (lineOf rem) pattern then
          Heredoc.endHeredoc pattern.length (lineOf rem).length
            { s with currentIndex := s.currentIndex + (lineOf rem).length }
        else Heredoc.heredocLines pattern fuel (overlay buf (lineOf rem))
          (Heredoc.scanNewline { s with currentIndex := s.currentIndex + (lineOf rem).length })
      else .error .undefinedBehaviour := by
  have hat := h.at
  rw [← lineOf_append rem] at hat
  have hends : ∀ c, (rem.dropWhile (¬ EndsLine ·)).head? = some c → EndsLine c :=
    fun c hc => endsLine_of_head hc
  have hend : Heredoc.isAtEndGetMore s = false := by
    refine hat.not_end (lineOf_plain rem) (fun c hc => h.ne_zero ?_) ?_
    · exact (List.dropWhile_suffix _).subset (List.mem_of_mem_head? hc)
    · rw [lineOf_append]
      exact hne
  split
  · rename_i hfits
    exact Heredoc.heredocLines_line pattern buf fuel hat (lineOf_plain rem) hends hend hfits
  · rename_i hlong
    have hscan : Heredoc.scanLine _ buf 0 = _ := Heredoc.scanLine_overflows (lineOf_plain rem)
      hends (Nat.lt_of_not_le hlong)
    rw [lineOf_append, ← h.rest] at hscan
    unfold Heredoc.heredocLines
    rw [hend, hscan]
    rfl

theorem linesFit_iff {first : Bool} (hne : rem ≠ []) :
    LinesFit pattern first buf rem ↔ (lineOf rem).length ≤ lineMax ∧
      if Completed buf (lineOf rem) pattern then
        first = false ∧ pattern.length ≤ rem.length
      else LinesFit pattern false (overlay buf (lineOf rem)) (behindLine rem) := by
  constructor
  · intro h
    cases h with
    | missing => exact absurd rfl hne
    | ends _ hfits hends hlen =>
      rw [if_pos hends]
      exact ⟨hfits, rfl, hlen⟩
    | goesOn _ hfits hends hrest =>
      rw [if_neg hends]
      exact ⟨hfits, hrest⟩
  · rintro ⟨hfits, h⟩
    split at h
    · rename_i hends
      rcases h with ⟨rfl, hlen⟩
      exact .ends hne hfits hends hlen
    · rename_i hends
      exact .goesOn hne hfits hends h

/-- The loop over the lines gives a token and stays in the source exactly if the lines fit. -/
theorem heredocLines_iff (h : Before s rem) (hstart : s.tokenStartIdx ≤ s.currentIndex)
    (hfuel : rem.length < fuel) :
    Settles s (Heredoc.heredocLines pattern fuel buf s) ↔
      LinesFit pattern (decide (s.tokenStartIdx = s.currentIndex)) buf rem := by
  induction fuel generalizing s rem buf with
  | zero => omega
  | succ fuel ih =>
    have hlen := h.length
    by_cases hne : rem = []
    · subst hne
      have hend : Heredoc.isAtEndGetMore s = true := by
        unfold Heredoc.isAtEndGetMore Heredoc.peek
        rw [List.length_nil] at hlen
        rw [List.getD_eq_default _ _ (by omega), h.going]
        rfl
      unfold Heredoc.heredocLines
      rw [if_pos hend]
      exact ⟨fun _ => .missing _ _, fun _ => ⟨_, _, rfl, h.inBounds⟩⟩
    rw [heredocLines_round h hne, linesFit_iff hne]
    by_cases hfits : (lineOf rem).length ≤ lineMax
    · rw [if_pos hfits]
      by_cases hends : Completed buf (lineOf rem) pattern
      · -- the token must not be empty, and the scanner goes on behind the pattern
        rw [if_pos hends, if_pos hends, decide_eq_false_iff_not]
        unfold Heredoc.endHeredoc
        dsimp only
        constructor
        · rintro ⟨tok, s', hok, hle⟩
          split at hok
          · cases hok
            dsimp only at hle
            exact ⟨hfits, by omega, by omega⟩
          · cases hok
        · rintro ⟨-, hfirst, hpat⟩
          rw [if_pos (by omega)]
          refine ⟨_, _, rfl, ?_⟩
          dsimp only
          omega
      · rw [if_neg hends, if_neg hends]
        rcases h.line with ⟨hnext, hsource, hsame, hle⟩
        have hshort := length_behindLine hne fun hmem => h.ne_zero hmem rfl
        have hnextlen := hnext.length
        rw [hsource] at hnextlen
        have hlater : Settles _ (Heredoc.heredocLines pattern fuel (overlay buf (lineOf rem)) _) ↔
            _ := ih hnext (by omega) (by omega)
        rw [decide_eq_false (by omega)] at hlater
        unfold Settles at hlater ⊢
        rw [hsource] at hlater
        rw [hlater]
        exact ⟨fun hlines => ⟨hfits, hlines⟩, And.right⟩
    · rw [if_neg hfits]
      constructor
      · rintro ⟨tok, s', hok, -⟩
        cases hok
      · rintro ⟨hfits', -⟩
        exact absurd hfits' hfits

theorem heredocString_eq (h : Before s rem) : Heredoc.heredocString garbage s =
    if 100 ≤ (lineOf rem).length then .error .undefinedBehaviour
    else
      let next := Heredoc.scanNewline { s with
        currentIndex := s.currentIndex + (lineOf rem).length }
      if (lineOf rem).length = 0 then
        .ok (Heredoc.errorToken next "Heredoc needs a pattern after <<<", next)
      else Heredoc.heredocLines (lineOf rem) (next.source.length + 1) garbage
        { next with tokenStartIdx := next.currentIndex } := by
  unfold Heredoc.heredocString
  rw [h.rest]
  rfl

/-- A heredoc gives a token and stays in the source exactly if pattern and lines fit. -/
theorem heredocString_iff (h : Before s rem) :
    Settles s (Heredoc.heredocString garbage s) ↔ HeredocFits garbage rem := by
  rcases h.line with ⟨hnext, hsource, -, -⟩
  rw [heredocString_eq h]
  unfold HeredocFits
  by_cases hlong : 100 ≤ (lineOf rem).length
  · rw [if_pos hlong]
    constructor
    · rintro ⟨tok, s', hok, -⟩
      cases hok
    · rintro ⟨hshort, -⟩
      omega
  rw [if_neg hlong]
  have hshort := Nat.lt_of_not_le hlong
  dsimp only
  by_cases hempty : lineOf rem = []
  · rw [if_pos (List.length_eq_zero_iff.mpr hempty)]
    refine ⟨fun _ => ⟨hshort, .inl hempty⟩, fun _ => ⟨_, _, rfl, ?_⟩⟩
    have := hnext.inBounds
    rwa [hsource] at this
  · rw [if_neg fun h => hempty (List.length_eq_zero_iff.mp h)]
    have hfuel : (behindLine rem).length < s.source.length + 1 := by
      have := hnext.length
      rw [hsource] at this
      omega
    rw [hsource]
    have hloop : Settles _ (Heredoc.heredocLines (lineOf rem) _ garbage _) ↔ _ :=
      heredocLines_iff hnext.started le_rfl hfuel
    rw [decide_eq_true rfl] at hloop
    unfold Settles at hloop ⊢
    simp only [hsource] at hloop
    rw [hloop]
    exact ⟨fun hlines => ⟨hshort, .inr hlines⟩, fun h => h.2.resolve_left hempty⟩

/-- The scanner never goes back. -/
theorem heredocLines_forward (h : Before s rem) {tok : Heredoc.Token} {s' : Heredoc.Scanner}
    (hok : Heredoc.heredocLines pattern fuel buf s = .ok (tok, s')) :
    s.currentIndex ≤ s'.currentIndex := by
  induction fuel generalizing s rem buf with
  | zero =>
    cases hok
    exact le_rfl
  | succ fuel ih =>
    by_cases hne : rem = []
    · unfold Heredoc.heredocLines at hok
      have hend : Heredoc.isAtEndGetMore s = true := by
        have hlen := h.length
        unfold Heredoc.isAtEndGetMore Heredoc.peek
        rw [hne, List.length_nil] at hlen
        rw [List.getD_eq_default _ _ (by omega), h.going]
        rfl
      rw [if_pos hend] at hok
      cases hok
      exact le_rfl
    rw [heredocLines_round h hne] at hok
    split at hok
    · split at hok
      · unfold Heredoc.endHeredoc at hok
        dsimp only at hok
        split at hok
        · cases hok
          dsimp only
          omega
        · cases hok
      · rcases h.line with ⟨hnext, -, -, hle⟩
        exact hle.trans (ih hnext hok)
    · cases hok

theorem heredocString_forward (h : Before s rem) {tok : Heredoc.Token} {s' : Heredoc.Scanner}
    (hok : Heredoc.heredocString garbage s = .ok (tok, s')) :
    s.currentIndex ≤ s'.currentIndex := by
  rcases h.line with ⟨hnext, -, -, hle⟩
  rw [heredocString_eq h] at hok
  split at hok
  · cases hok
  · dsimp only at hok
    split at hok
    · cases hok
      exact hle
    · exact hle.trans (heredocLines_forward hnext.started hok)

end

/-! ## One token -/

section

variable {garbage : Heredoc.LineBuf} {s s' : Scanner} {fuel : ℕ}

/-- A token is given, and the scanner stays in its source; every token but the last takes something
from it. -/
def Reads (s : Scanner) (r : Except Abort (Token × Scanner)) : Prop :=
  ∃ tok s', r = .ok (tok, s') ∧ s'.source = s.source ∧ s.currentIndex ≤ s'.currentIndex ∧
    s'.currentIndex ≤ s.source.length ∧ (tok.type ≠ .eof → s.currentIndex < s'.currentIndex)

/-- The scanner at the start of its next token. -/
def next (s : Scanner) : Scanner :=
  { skipWhitespace s with tokenStartIdx := (skipWhitespace s).currentIndex }

/-- The identifier or keyword at the current position, if any. -/
def lexeme (s : Scanner) : Bytes := s.rest.takeWhile isAlphaNumeric

/-- Nothing goes wrong at the next token: a second dot in a row has a byte behind it to be skipped,
the pattern and the lines of a heredoc fit, and a line number fits its buffer. -/
inductive Harmless (garbage : Heredoc.LineBuf) : Scanner → Prop
  | atEnd {s : Scanner} (hend : (next s).isAtEnd = true) : Harmless garbage s
  | dots {s : Scanner} {c : UInt8} {tail : Bytes} (hend : (next s).isAtEnd = false)
      (hrest : (next s).rest = chr '.' :: c :: tail) (hdot : s.afterDot = true)
      (hagain : Harmless garbage ((next s).advance 2)) : Harmless garbage s
  | token {s : Scanner} (hdots : ¬ ((next s).peek = chr '.' ∧ s.afterDot = true))
      (hheredoc : ∀ tail, (next s).rest = bytes "<<<" ++ tail → HeredocFits garbage tail)
      (hline : lexeme (next s) ≠ [] → lexeme (next s) <+: lineName →
        (bytes (toString (next s).line)).length < numBufSize) : Harmless garbage s

/-- A token was taken from the source at `t`, and its line is the one the scanner is left in. -/
structure Takes (t : Scanner) (r : Token × Scanner) : Prop where
  source : r.2.source = t.source
  forward : t.currentIndex < r.2.currentIndex
  inBounds : r.2.currentIndex ≤ t.source.length
  line : r.1.line = r.2.line
  counted : r.2.line + newlinesBefore t.source t.currentIndex =
    t.line + newlinesBefore t.source r.2.currentIndex

theorem makeToken_source (type : TokenType) (s : Scanner) :
    (makeToken type s).2.source = s.source := by
  unfold makeToken
  split <;> rfl

theorem makeToken_line (type : TokenType) (s : Scanner) :
    (makeToken type s).1.line = s.line ∧ (makeToken type s).2.line = s.line := by
  unfold makeToken
  split <;> exact ⟨rfl, rfl⟩

variable {t t' : Scanner}

/-- The scanner stands before a token's first byte. -/
def Begins (t : Scanner) : Prop := t.peek ≠ 0 ∧ t.peek ≠ chr '\n'

theorem Takes.makeToken {type : TokenType} (hpeek : Begins t) (h : Skips (t.advance 1) t') :
    Takes t (makeToken type t') := by
  have hskips := (skips_one hpeek.1 hpeek.2).trans h
  have hline := makeToken_line type t'
  constructor
  · rw [makeToken_source]
    exact h.source
  · rw [makeToken_currentIndex]
    exact Nat.lt_of_succ_le h.forward
  · rw [makeToken_currentIndex]
    exact hskips.inBounds (lt_of_peek hpeek.1).le
  · rw [hline.1, hline.2]
  · rw [hline.2, makeToken_currentIndex]
    exact hskips.counted

theorem Takes.errorToken {message : String} (hpeek : Begins t) (h : Skips (t.advance 1) t') :
    Takes t (errorToken message t') := by
  have hskips := (skips_one hpeek.1 hpeek.2).trans h
  exact ⟨h.source, Nat.lt_of_succ_le h.forward, hskips.inBounds (lt_of_peek hpeek.1).le, rfl,
    hskips.counted⟩

/-- Only the scanner and the line matter. -/
theorem Takes.withToken {r : Token × Scanner} (h : Takes t r) {tok : Token}
    (hline : tok.line = r.1.line) : Takes t (tok, r.2) :=
  ⟨h.source, h.forward, h.inBounds, hline.trans h.line, h.counted⟩

theorem skips_of_peek {c : UInt8} (h : t.peek = c) (hc : c ≠ 0) (hline : c ≠ chr '\n') :
    Skips t (t.advance 1) := by
  rw [← h] at hc hline
  exact skips_one hc hline

theorem peek_of_matches {c : Char} (h : t.matches_ c = true) : t.peek = chr c := by
  unfold Scanner.matches_ at h
  rw [Bool.and_eq_true, beq_iff_eq] at h
  exact h.2

theorem skips_of_matches {c : Char} (h : t.matches_ c = true) (hline : chr c ≠ chr '\n') :
    Skips t (t.advance 1) := by
  have hpeek := peek_of_matches h
  unfold Scanner.matches_ Scanner.isAtEnd at h
  rw [Bool.and_eq_true, Bool.not_eq_true', Bool.or_eq_false_iff, beq_eq_false_iff_ne] at h
  rw [← hpeek] at hline
  exact skips_one h.1.2 hline

theorem number_takes (c : UInt8) (hpeek : Begins t) : Takes t (number c (t.advance 1)) := by
  -- a prefix letter or a fraction's dot is read only where it stands
  have hpre : ∀ (p : UInt8 → Bool) (a b : Char), p (chr '\n') = false →
      (chr a ≠ 0 ∧ chr a ≠ chr '\n') → (chr b ≠ 0 ∧ chr b ≠ chr '\n') →
      (t.advance 1).peek = chr a ∨ (t.advance 1).peek = chr b →
      Takes t (makeToken .number (((t.advance 1).advance 1).advanceWhile p)) := by
    intro p a b hp ha hb h
    have hskips : Skips (t.advance 1) ((t.advance 1).advance 1) := by
      rcases h with h | h
      · exact skips_of_peek h ha.1 ha.2
      · exact skips_of_peek h hb.1 hb.2
    exact .makeToken hpeek (hskips.trans (advanceWhile_skips hp _))
  unfold number
  split
  · rename_i h
    exact hpre isOct 'c' 'C' (by decide) (by decide) (by decide) h.2
  split
  · rename_i h
    exact hpre isHex 'x' 'X' (by decide) (by decide) (by decide) h.2
  split
  · rename_i h
    exact hpre isBinary 'b' 'B' (by decide) (by decide) (by decide) h.2
  · have hdigits := advanceWhile_skips (p := isDigit) (by decide) (t.advance 1)
    dsimp only
    split
    · rename_i h
      have hdot := skips_of_peek h.1 (by decide) (by decide)
      exact .makeToken hpeek ((hdigits.trans hdot).trans (advanceWhile_skips (by decide) _))
    · exact .makeToken hpeek hdigits

theorem quoted_le (quote last : UInt8) (cs : Bytes) : (quoted quote last cs).1 ≤ cs.length := by
  induction cs generalizing last with
  | nil => exact le_rfl
  | cons c cs ih =>
    unfold quoted
    split
    · exact Nat.zero_le _
    · exact Nat.succ_le_succ (ih c)

theorem newlines_quoted (quote last : UInt8) (cs : Bytes) :
    newlines (cs.take (quoted quote last cs).1) = (quoted quote last cs).2 := by
  induction cs generalizing last with
  | nil => rfl
  | cons c cs ih =>
    unfold quoted
    split
    · rfl
    · rw [List.take_succ_cons, newlines_cons, ih]

/-- The loop stops before the quote or at the end. -/
theorem quoted_stops (quote last : UInt8) (cs : Bytes) :
    ∀ c ∈ (cs.drop (quoted quote last cs).1).head?, c = quote := by
  induction cs generalizing last with
  | nil =>
    intro c hc
    cases hc
  | cons c cs ih =>
    unfold quoted
    split
    · rename_i h
      intro d hd
      rw [← Option.some.inj hd]
      exact h.1
    · exact ih c

theorem scanQuoted_skips (quote : Char) (s : Scanner) : Skips s (scanQuoted quote s) := by
  apply advance_skips (quoted_le _ _ _)
  rw [newlines_quoted]

/-- The closing quote. -/
theorem skips_closing {quote : Char} (hquote : chr quote ≠ chr '\n')
    (h : (scanQuoted quote t).isAtEnd = false) :
    Skips (scanQuoted quote t) ((scanQuoted quote t).advance 1) := by
  unfold Scanner.isAtEnd at h
  rw [Bool.or_eq_false_iff, beq_eq_false_iff_ne] at h
  have htake := take_one_rest h.2
  have hstop := quoted_stops (chr quote) 0 t.rest
  rw [Scanner.rest, List.drop_drop] at hstop
  have hpeek : (scanQuoted quote t).peek = chr quote := by
    apply hstop
    change (scanQuoted quote t).rest.head? = _
    cases hrest : (scanQuoted quote t).rest with
    | nil =>
      rw [hrest] at htake
      cases htake
    | cons c cs =>
      rw [hrest, List.take_succ_cons, List.take_zero, List.cons.injEq] at htake
      rw [List.head?_cons, htake.1]
  apply skips_one h.2
  rw [hpeek]
  exact hquote

theorem doubleQuotedString_takes (hpeek : Begins t) (h : Skips (t.advance 1) t') :
    Takes t (doubleQuotedString t') := by
  have hquoted := h.trans (scanQuoted_skips '"' t')
  unfold doubleQuotedString
  dsimp only
  split
  · exact .errorToken hpeek hquoted
  · rename_i hend
    have hclosing := skips_closing (by decide) (Bool.eq_false_iff.mpr hend)
    exact (Takes.makeToken hpeek (hquoted.trans hclosing)).withToken rfl

theorem singleQuotedString_takes (isStatic : Bool) (hpeek : Begins t)
    (h : Skips (t.advance 1) t') : Takes t (singleQuotedString isStatic t') := by
  have hquoted := h.trans (scanQuoted_skips '\'' t')
  unfold singleQuotedString
  dsimp only
  split
  · exact .errorToken hpeek hquoted
  · rename_i hend
    have hclosing := skips_closing (by decide) (Bool.eq_false_iff.mpr hend)
    exact (Takes.makeToken hpeek (hquoted.trans hclosing)).withToken rfl

/-- What `scanToken` does, by what stands behind the white space. -/
inductive Scan (garbage : Heredoc.LineBuf) (fuel : ℕ) (s : Scanner) :
    Except Abort (Token × Scanner) → Prop
  | eof (hend : (next s).isAtEnd = true) : Scan garbage fuel s (.ok (makeToken .eof (next s)))
  | again (hend : (next s).isAtEnd = false) (hpeek : (next s).peek = chr '.')
      (hdot : s.afterDot = true) :
      Scan garbage fuel s (scanFrom garbage fuel ((next s).advance 2))
  | heredoc (hend : (next s).isAtEnd = false) {tail : Bytes}
      (hrest : (next s).rest = bytes "<<<" ++ tail) :
      Scan garbage fuel s (heredocString garbage ((next s).advance 3))
  | identifier (hend : (next s).isAtEnd = false) (halpha : isAlpha (next s).peek = true) :
      Scan garbage fuel s (identifier ((next s).advance 1))
  | token (hend : (next s).isAtEnd = false) (hdots : ¬ ((next s).peek = chr '.' ∧ s.afterDot = true))
      (hheredoc : ∀ tail, (next s).rest ≠ bytes "<<<" ++ tail)
      (hline : (next s).peek ≠ chr '_') {r : Token × Scanner} (htakes : Takes (next s) r) :
      Scan garbage fuel s (.ok r)

/-- A token that begins with none of the characters that need care. -/
theorem Scan.plain {r : Token × Scanner} (hend : (next s).isAtEnd = false)
    (hdot : (next s).peek ≠ chr '.') (hless : (next s).peek ≠ chr '<')
    (hline : (next s).peek ≠ chr '_') (htakes : Takes (next s) r) : Scan garbage fuel s (.ok r) :=
  .token hend (fun h => hdot h.1) (fun _ hrest => hless (rest_cons hrest).1) hline htakes

/-- The test for a heredoc, behind the first `<`. -/
theorem matchesStr_iff (hgoing : t.scriptEnded = false) (hpeek : t.peek = chr '<') :
    (t.advance 1).matchesStr (bytes "<<") = true ↔ ∃ tail, t.rest = bytes "<<<" ++ tail := by
  have hlt := lt_of_peek (s := t) (by
    rw [hpeek]
    decide)
  have hrest : t.rest = chr '<' :: (t.advance 1).rest := by
    rw [← hpeek]
    unfold Scanner.peek Scanner.rest
    rw [List.getD_eq_getElem _ _ hlt]
    exact List.drop_eq_getElem_cons hlt
  unfold Scanner.matchesStr
  rw [Bool.and_eq_true, List.isPrefixOf_iff_prefix, Bool.not_eq_true']
  constructor
  · rintro ⟨-, tail, htail⟩
    refine ⟨tail, ?_⟩
    rw [hrest, ← htail]
    rfl
  · rintro ⟨tail, htail⟩
    have hbehind : (t.advance 1).rest = bytes "<<" ++ tail := by
      rw [hrest] at htail
      exact (List.cons.inj htail).2
    refine ⟨?_, tail, hbehind.symm⟩
    unfold Scanner.isAtEnd
    have hnext : (t.advance 1).peek = chr '<' := (rest_cons hbehind).1
    have hscript : (t.advance 1).scriptEnded = false := hgoing
    rw [hnext, hscript]
    rfl

theorem scanFrom_scan (garbage : Heredoc.LineBuf) (fuel : ℕ)
    (hin : s.currentIndex ≤ s.source.length) :
    Scan garbage fuel s (scanFrom garbage (fuel + 1) s) := by
  have hnext : next s = { skipWhitespace s with
    tokenStartIdx := (skipWhitespace s).currentIndex } := rfl
  have hdotted : ((next s).advance 1).afterDot = s.afterDot := (skipWhitespace_skips s).afterDot
  unfold scanFrom
  rw [if_neg (Nat.not_lt.mpr hin)]
  simp only [← hnext]
  by_cases hend : (next s).isAtEnd = true
  · rw [if_pos hend]
    exact .eof hend
  rw [if_neg hend]
  have hend' : (next s).isAtEnd = false := Bool.eq_false_iff.mpr hend
  have hgoing : (next s).scriptEnded = false ∧ Begins (next s) := by
    unfold Scanner.isAtEnd at hend'
    rw [Bool.or_eq_false_iff, beq_eq_false_iff_ne] at hend'
    exact ⟨hend'.1, hend'.2, skipWhitespace_peek s⟩
  have hone : Skips ((next s).advance 1) ((next s).advance 1) := .refl _
  by_cases hdigit : isDigit (next s).peek = true
  · have hne : ∀ d : Char, isDigit (chr d) = false → (next s).peek ≠ chr d := by
      intro d hd heq
      rw [heq, hd] at hdigit
      cases hdigit
    rw [if_pos hdigit]
    exact .plain hend' (hne '.' (by decide)) (hne '<' (by decide)) (hne '_' (by decide))
      (number_takes _ hgoing.2)
  rw [if_neg hdigit]
  -- a symbol of one character, or of two if the second one stands behind it
  have hsymbol : ∀ d : Char, (next s).peek = chr d → chr d ≠ chr '.' → chr d ≠ chr '<' →
      chr d ≠ chr '_' → ∀ r, Takes (next s) r → Scan garbage fuel s (.ok r) := by
    intro d hd hdot hless hline r
    rw [← hd] at hdot hless hline
    exact .plain hend' hdot hless hline
  have htwo : ∀ (d : Char) (short long : TokenType), (next s).peek = chr d → chr d ≠ chr '.' →
      chr d ≠ chr '<' → chr d ≠ chr '_' → ∀ e : Char, chr e ≠ chr '\n' → Scan garbage fuel s
        (if ((next s).advance 1).matches_ e then .ok (makeToken long (((next s).advance 1).advance 1))
        else .ok (makeToken short ((next s).advance 1))) := by
    intro d short long hd hdot hless hline e he
    split
    · rename_i hmatch
      exact hsymbol d hd hdot hless hline _ (.makeToken hgoing.2 (skips_of_matches hmatch he))
    · exact hsymbol d hd hdot hless hline _ (.makeToken hgoing.2 hone)
  split
  case h_3 heq =>
    exact hsymbol _ (chr_of_ofUInt8 heq) (by decide) (by decide) (by decide) _
      (.makeToken hgoing.2 ⟨rfl, rfl, rfl, le_rfl, id, rfl⟩)
  case h_4 heq =>
    exact hsymbol _ (chr_of_ofUInt8 heq) (by decide) (by decide) (by decide) _
      (.makeToken hgoing.2 ⟨rfl, rfl, rfl, le_rfl, id, rfl⟩)
  case h_8 heq => exact htwo _ _ _ (chr_of_ofUInt8 heq) (by decide) (by decide) (by decide) _ (by decide)
  case h_10 heq =>
    rw [hdotted]
    split
    · rename_i hdot
      exact .again hend' (chr_of_ofUInt8 heq) hdot
    · rename_i hdot
      have hpeek := chr_of_ofUInt8 heq
      refine .token hend' (fun h => hdot h.2) (fun tail hrest => ?_) ?_
        (.makeToken hgoing.2 hone)
      · rw [(rest_cons hrest).1] at hpeek
        exact absurd hpeek (by decide)
      · rw [hpeek]
        decide
  case h_11 heq => exact htwo _ _ _ (chr_of_ofUInt8 heq) (by decide) (by decide) (by decide) _ (by decide)
  case h_19 heq => exact htwo _ _ _ (chr_of_ofUInt8 heq) (by decide) (by decide) (by decide) _ (by decide)
  case h_20 heq => exact htwo _ _ _ (chr_of_ofUInt8 heq) (by decide) (by decide) (by decide) _ (by decide)
  case h_21 heq =>
    have hpeek := chr_of_ofUInt8 heq
    have hless : (∀ tail, (next s).rest ≠ bytes "<<<" ++ tail) → ∀ r, Takes (next s) r →
        Scan garbage fuel s (.ok r) := by
      intro hheredoc r htakes
      refine .token hend' (fun h => ?_) hheredoc ?_ htakes
      · rw [hpeek] at h
        exact absurd h.1 (by decide)
      · rw [hpeek]
        decide
    have hthree := matchesStr_iff hgoing.1 hpeek
    split
    · rename_i hmatch
      refine hless (fun tail hrest => ?_) _ (.makeToken hgoing.2 (skips_of_matches hmatch (by decide)))
      have hsecond := peek_of_matches hmatch
      rw [(rest_cons (rest_cons hrest).2.1).1] at hsecond
      exact absurd hsecond (by decide)
    split
    · rename_i hmatch
      rcases hthree.mp hmatch with ⟨tail, hrest⟩
      exact .heredoc hend' hrest
    have hno : ∀ tail, (next s).rest ≠ bytes "<<<" ++ tail := by
      intro tail hrest
      rename_i hmatch
      exact hmatch (hthree.mpr ⟨tail, hrest⟩)
    split
    · rename_i hmatch
      exact hless hno _ (.makeToken hgoing.2 (skips_of_matches hmatch (by decide)))
    · exact hless hno _ (.makeToken hgoing.2 hone)
  case h_22 heq =>
    split
    · rename_i hmatch
      exact hsymbol _ (chr_of_ofUInt8 heq) (by decide) (by decide) (by decide) _
        (.makeToken hgoing.2 (skips_of_matches hmatch (by decide)))
    · exact htwo _ _ _ (chr_of_ofUInt8 heq) (by decide) (by decide) (by decide) _ (by decide)
  case h_23 heq =>
    exact hsymbol _ (chr_of_ofUInt8 heq) (by decide) (by decide) (by decide) _
      (doubleQuotedString_takes hgoing.2 hone)
  case h_24 heq =>
    exact hsymbol _ (chr_of_ofUInt8 heq) (by decide) (by decide) (by decide) _
      (singleQuotedString_takes false hgoing.2 hone)
  case h_25 heq =>
    have hpeek := chr_of_ofUInt8 heq
    split
    · rename_i hquote
      exact hsymbol _ hpeek (by decide) (by decide) (by decide) _
        (singleQuotedString_takes true hgoing.2 (skips_of_peek hquote (by decide) (by decide)))
    · refine .identifier hend' ?_
      rw [hpeek]
      decide
  case h_26 =>
    split
    · rename_i halpha
      exact .identifier hend' halpha
    · rename_i halpha
      have hne : ∀ d, Char.ofUInt8 (chr d) = d → ¬ Char.ofUInt8 (next s).peek = d →
          (next s).peek ≠ chr d := by
        intro d hd hnot hpeek
        rw [hpeek] at hnot
        exact hnot hd
      refine .plain hend' (hne '.' (by decide) ‹_›) (hne '<' (by decide) ‹_›) (fun hpeek => ?_)
        (.errorToken hgoing.2 hone)
      rw [hpeek] at halpha
      exact halpha (by decide)
  all_goals
    rename_i heq
    exact hsymbol _ (chr_of_ofUInt8 heq) (by decide) (by decide) (by decide) _
      (.makeToken hgoing.2 hone)

theorem next_skips (s : Scanner) : Skips s (next s) :=
  let h := skipWhitespace_skips s
  ⟨h.source, h.scriptEnded, h.afterDot, h.forward, h.inBounds, h.counted⟩

theorem reads_of_moved {r : Token × Scanner} (hsource : r.2.source = (next s).source)
    (hforward : (next s).currentIndex < r.2.currentIndex)
    (hin : r.2.currentIndex ≤ (next s).source.length) : Reads s (.ok r) := by
  have hnext := next_skips s
  rw [hnext.source] at hin
  have hlt := Nat.lt_of_le_of_lt hnext.forward hforward
  exact ⟨r.1, r.2, rfl, hsource.trans hnext.source, hlt.le, hin, fun _ => hlt⟩

theorem reads_of_takes {r : Token × Scanner} (h : Takes (next s) r) : Reads s (.ok r) :=
  reads_of_moved h.source h.forward h.inBounds

/-- A token is given, and the scanner does not leave the source. -/
def InSource (src : Bytes) (r : Except Abort (Token × Scanner)) : Prop :=
  ∃ tok s', r = .ok (tok, s') ∧ s'.currentIndex ≤ src.length

theorem Reads.inSource {r : Except Abort (Token × Scanner)} (h : Reads s r) :
    InSource s.source r := by
  rcases h with ⟨tok, s', hok, -, -, hle, -⟩
  exact ⟨tok, s', hok, hle⟩

/-! ### Identifiers -/

theorem lexeme_eq (halpha : isAlpha (next s).peek = true) :
    ((next s).advance 1).advanceWhile isAlphaNumeric =
        (next s).advance (lexeme (next s)).length ∧
      ((next s).advance (lexeme (next s)).length).text = lexeme (next s) ∧
      lexeme (next s) ≠ [] := by
  have hlt := lt_of_peek (ne_zero_of_isAlpha halpha)
  have hrest : (next s).rest = (next s).peek :: ((next s).advance 1).rest := by
    unfold Scanner.peek Scanner.rest
    rw [List.getD_eq_getElem _ _ hlt]
    exact List.drop_eq_getElem_cons hlt
  have hlexeme : lexeme (next s) =
      (next s).peek :: ((next s).advance 1).rest.takeWhile isAlphaNumeric := by
    unfold lexeme
    rw [hrest, List.takeWhile_cons_of_pos]
    unfold isAlphaNumeric
    rw [halpha, Bool.true_or]
  refine ⟨?_, ?_, ?_⟩
  · rw [hlexeme, List.length_cons]
    unfold Scanner.advanceWhile Scanner.advance
    dsimp only
    rw [Nat.add_assoc, Nat.add_comm 1]
  · unfold Scanner.text Scanner.advance
    dsimp only
    have hstart : (next s).tokenStartIdx = (next s).currentIndex := rfl
    rw [hstart, Nat.add_sub_cancel_left]
    exact (List.prefix_iff_eq_take.mp (List.takeWhile_prefix _)).symm
  · rw [hlexeme]
    exact List.cons_ne_nil _ _

theorem identifier_takes (halpha : isAlpha (next s).peek = true) {r : Token × Scanner}
    (h : identifier ((next s).advance 1) = .ok r) : Takes (next s) r := by
  rcases lexeme_eq halpha with ⟨hloop, -, -⟩
  have hbegins : Begins (next s) := ⟨ne_zero_of_isAlpha halpha, skipWhitespace_peek s⟩
  have hskips : Skips ((next s).advance 1) ((next s).advance (lexeme (next s)).length) := by
    rw [← hloop]
    exact advanceWhile_skips (by decide) _
  unfold identifier at h
  rw [hloop] at h
  dsimp only at h
  generalize (if ((next s).advance (lexeme (next s)).length).afterDot = true
    then TokenType.identifier else identifierType _) = type at h
  split at h
  · split at h
    · cases h
      exact (Takes.makeToken hbegins hskips).withToken rfl
    · cases h
  · cases h
    exact .makeToken hbegins hskips

theorem identifier_isOk (halpha : isAlpha (next s).peek = true)
    (hline : lexeme (next s) <+: lineName →
      (bytes (toString (next s).line)).length < numBufSize) :
    ∃ r, identifier ((next s).advance 1) = .ok r := by
  rcases lexeme_eq halpha with ⟨hloop, htext, -⟩
  unfold identifier
  rw [hloop]
  dsimp only
  rw [htext]
  generalize (if ((next s).advance (lexeme (next s)).length).afterDot = true
    then TokenType.identifier else identifierType (lexeme (next s))) = type
  split
  · rename_i hpre
    have hfits : (bytes (toString (makeToken .number
        ((next s).advance (lexeme (next s)).length)).2.line)).length < numBufSize :=
      hline (List.isPrefixOf_iff_prefix.mp hpre.2)
    rw [if_pos hfits]
    exact ⟨_, rfl⟩
  · exact ⟨_, rfl⟩

/-- A beginning of `__LINE__` is no reserved word, so its number is written. -/
theorem identifier_fits {src : Bytes} (halpha : isAlpha (next s).peek = true)
    (h : InSource src (identifier ((next s).advance 1))) (hpre : lexeme (next s) <+: lineName) :
    (bytes (toString (next s).line)).length < numBufSize := by
  rcases lexeme_eq halpha with ⟨hloop, htext, hne⟩
  have htype : ∀ dot : Bool,
      (if dot then TokenType.identifier else identifierType (lexeme (next s))) = .identifier := by
    intro dot
    rcases type_cases dot (lexeme (next s)) with ⟨k, hk, -, hword, -⟩ | ⟨-, htype⟩
    · rw [hword] at hpre
      exact absurd hpre (keywords_apart k hk).2.2
    · exact htype
  rcases h with ⟨tok, s', hok, -⟩
  unfold identifier at hok
  rw [hloop] at hok
  dsimp only at hok
  rw [htext, if_pos ⟨htype _, List.isPrefixOf_iff_prefix.mpr hpre⟩] at hok
  by_contra hlong
  have hlong' : ¬ (bytes (toString (makeToken .number
      ((next s).advance (lexeme (next s)).length)).2.line)).length < numBufSize := hlong
  rw [if_neg hlong'] at hok
  cases hok

/-! ### Heredocs -/

theorem before_heredoc {tail : Bytes} (hend : (next s).isAtEnd = false) (hnul : 0 ∉ s.source)
    (hrest : (next s).rest = bytes "<<<" ++ tail) :
    Before ((next s).advance 3).heredoc tail := by
  have hlen := congrArg List.length hrest
  rw [length_rest, List.length_append] at hlen
  have hthree : (bytes "<<<").length = 3 := by decide
  refine ⟨?_, ?_, ?_, ?_⟩
  · show (next s).source.drop ((next s).currentIndex + 3) = tail
    have hrest' : (next s).source.drop (next s).currentIndex = bytes "<<<" ++ tail := hrest
    rw [← List.drop_drop, hrest']
    exact List.drop_left' hthree
  · show (next s).currentIndex + 3 ≤ (next s).source.length
    omega
  · unfold Scanner.isAtEnd at hend
    exact (Bool.or_eq_false_iff.mp hend).1
  · show 0 ∉ (next s).source
    rw [(next_skips s).source]
    exact hnul

/-- The token of a heredoc, when the function for heredocs of the scanner gives one. -/
theorem heredocString_ok {r : Token × Scanner} (h : heredocString garbage t = .ok r) :
    ∃ tok t', Heredoc.heredocString garbage t.heredoc = .ok (tok, t') ∧
      r.2.source = t.source ∧ r.2.currentIndex = t'.currentIndex ∧
      r.1.line = tok.line ∧ r.2.line = t'.line := by
  unfold heredocString at h
  rcases Except.bind_eq_ok.mp h with ⟨⟨tok, t'⟩, hheredoc, hr⟩
  refine ⟨tok, t', hheredoc, ?_⟩
  dsimp only at hr
  split at hr
  · cases hr
    exact ⟨rfl, rfl, rfl, rfl⟩
  · cases hr
    exact ⟨rfl, rfl, rfl, rfl⟩

theorem heredocString_of_ok {tok : Heredoc.Token} {t' : Heredoc.Scanner}
    (h : Heredoc.heredocString garbage t.heredoc = .ok (tok, t')) :
    ∃ r, heredocString garbage t = .ok r := by
  unfold heredocString
  rw [h]
  cases htype : tok.type with
  | stringDquote =>
    simp only [bind, Except.bind, htype]
    exact ⟨_, rfl⟩
  | error =>
    simp only [bind, Except.bind, htype]
    exact ⟨_, rfl⟩

/-! ### Every token -/

/-- The byte that a second dot skips. -/
theorem rest_of_dot (hpeek : t.peek = chr '.') (hin : t.currentIndex + 2 ≤ t.source.length) :
    ∃ c tail, t.rest = chr '.' :: c :: tail := by
  have hlen := length_rest t
  rcases hrest : t.rest with _ | ⟨a, _ | ⟨c, tail⟩⟩
  · rw [hrest, List.length_nil] at hlen
    omega
  · rw [hrest, List.length_singleton] at hlen
    omega
  · rw [← (rest_cons hrest).1, hpeek]
    exact ⟨c, tail, rfl⟩

/-- A beginning of `__LINE__` is one from the underscore on. -/
theorem peek_underscore (hne : lexeme t ≠ []) (hpre : lexeme t <+: lineName) :
    t.peek = chr '_' := by
  rcases hlexeme : lexeme t with _ | ⟨c, cs⟩
  · exact absurd hlexeme hne
  · rw [hlexeme] at hpre
    have hc : c = chr '_' := (List.cons_prefix_cons.mp hpre).1
    have hrest : lexeme t <+: t.rest := List.takeWhile_prefix _
    rw [hlexeme] at hrest
    rcases hrest with ⟨tail, htail⟩
    rw [← hc]
    exact (rest_cons htail.symm).1

/-- A token that is given with the scanner left in the source came to no harm. -/
theorem harmless_of_inSource (hin : s.currentIndex ≤ s.source.length) (hnul : 0 ∉ s.source)
    (hfuel : s.rest.length < fuel) (h : InSource s.source (scanFrom garbage fuel s)) :
    Harmless garbage s := by
  induction fuel generalizing s with
  | zero => omega
  | succ fuel ih =>
    have hsource := (next_skips s).source
    have hforward := (next_skips s).forward
    have hscan := scanFrom_scan garbage fuel hin
    generalize scanFrom garbage (fuel + 1) s = r at h hscan
    cases hscan with
    | eof hend => exact .atEnd hend
    | again hend hpeek hdot =>
      by_cases hroom : (next s).currentIndex + 2 ≤ (next s).source.length
      · rcases rest_of_dot hpeek hroom with ⟨c, tail, hrest⟩
        have hsource' : ((next s).advance 2).source = s.source := hsource
        refine .dots hend hrest hdot (ih hroom ?_ ?_ ?_)
        · rwa [hsource']
        · have hindex : ((next s).advance 2).currentIndex = (next s).currentIndex + 2 := rfl
          rw [hsource] at hroom
          rw [length_rest] at hfuel
          rw [length_rest, hsource', hindex]
          omega
        · rwa [hsource']
      · -- the NUL is skipped, and the next read is out of bounds
        rcases h with ⟨tok, s', hok, -⟩
        cases fuel with
        | zero => cases hok
        | succ fuel =>
          have hbehind : ((next s).advance 2).source.length < ((next s).advance 2).currentIndex :=
            Nat.lt_of_not_le hroom
          unfold scanFrom at hok
          rw [if_pos hbehind] at hok
          cases hok
    | heredoc hend hrest =>
      rename_i tail
      have hbefore := before_heredoc hend hnul hrest
      have hpeek := (rest_cons hrest).1
      refine .token (fun hdots => ?_) (fun tail' hrest' => ?_) fun hne hpre => ?_
      · rw [hpeek] at hdots
        exact absurd hdots.1 (by decide)
      · have htail : tail = tail' := List.append_cancel_left (hrest.symm.trans hrest')
        rcases h with ⟨tok, s', hok, hle⟩
        rcases heredocString_ok hok with ⟨tok', t', hheredoc, -, hindex, -⟩
        rw [← htail]
        refine (heredocString_iff hbefore).mp ⟨tok', t', hheredoc, ?_⟩
        show t'.currentIndex ≤ (next s).source.length
        rw [hsource, ← hindex]
        exact hle
      · have hline := peek_underscore hne hpre
        rw [hpeek] at hline
        exact absurd hline (by decide)
    | identifier hend halpha =>
      refine .token (fun hdots => ?_) (fun tail hrest => ?_) fun _ hpre =>
        identifier_fits halpha h hpre
      · rw [hdots.1] at halpha
        exact absurd halpha (by decide)
      · rw [(rest_cons hrest).1] at halpha
        exact absurd halpha (by decide)
    | token hend hdots hheredoc hline =>
      refine .token hdots (fun tail hrest => absurd hrest (hheredoc tail)) ?_
      intro hne hpre
      exact absurd (peek_underscore hne hpre) hline

theorem reads_eof (hin : s.currentIndex ≤ s.source.length) :
    Reads s (.ok (makeToken .eof (next s))) := by
  have hnext := next_skips s
  exact ⟨_, _, rfl, hnext.source, hnext.forward, hnext.inBounds hin, fun hne => absurd rfl hne⟩

/-- Where nothing goes wrong, a token is read. -/
theorem reads_of_harmless (hin : s.currentIndex ≤ s.source.length) (hnul : 0 ∉ s.source)
    (hfuel : s.rest.length < fuel) (h : Harmless garbage s) :
    Reads s (scanFrom garbage fuel s) := by
  induction h generalizing fuel with
  | atEnd hend =>
    rename_i s
    rcases Nat.exists_eq_succ_of_ne_zero (Nat.ne_zero_of_lt hfuel) with ⟨fuel, rfl⟩
    have hscan := scanFrom_scan garbage fuel hin
    generalize scanFrom garbage (fuel + 1) s = r at hscan
    cases hscan with
    | eof => exact reads_eof hin
    | again hend' => exact absurd hend (Bool.eq_false_iff.mp hend')
    | heredoc hend' => exact absurd hend (Bool.eq_false_iff.mp hend')
    | identifier hend' => exact absurd hend (Bool.eq_false_iff.mp hend')
    | token hend' => exact absurd hend (Bool.eq_false_iff.mp hend')
  | dots hend hrest hdot hagain ih =>
    rename_i s c tail
    rcases Nat.exists_eq_succ_of_ne_zero (Nat.ne_zero_of_lt hfuel) with ⟨fuel, rfl⟩
    have hpeek := (rest_cons hrest).1
    have hscan := scanFrom_scan garbage fuel hin
    generalize scanFrom garbage (fuel + 1) s = r at hscan
    cases hscan with
    | eof hend' => exact absurd hend' (Bool.eq_false_iff.mp hend)
    | again =>
      have hsource : ((next s).advance 2).source = s.source := (next_skips s).source
      have hforward := (next_skips s).forward
      have hindex : ((next s).advance 2).currentIndex = (next s).currentIndex + 2 := rfl
      have hroom : (next s).currentIndex + 2 ≤ s.source.length := by
        have hlen := congrArg List.length hrest
        rw [length_rest, List.length_cons, List.length_cons, (next_skips s).source] at hlen
        omega
      have hagain := @ih fuel (by rwa [hsource]) (by rwa [hsource]) (by
        rw [length_rest] at hfuel
        rw [length_rest, hsource, hindex]
        omega)
      rcases hagain with ⟨tok, s', hok, hsource', hle, hin', hlt⟩
      rw [hsource] at hsource' hin'
      rw [hindex] at hle
      exact ⟨tok, s', hok, hsource', by omega, hin', fun _ => by omega⟩
    | heredoc _ hrest' =>
      rw [(rest_cons hrest').1] at hpeek
      exact absurd hpeek (by decide)
    | identifier _ halpha =>
      rw [hpeek] at halpha
      exact absurd halpha (by decide)
    | token _ hdots => exact absurd ⟨hpeek, hdot⟩ hdots
  | token hdots hheredoc hline =>
    rename_i s
    rcases Nat.exists_eq_succ_of_ne_zero (Nat.ne_zero_of_lt hfuel) with ⟨fuel, rfl⟩
    have hscan := scanFrom_scan garbage fuel hin
    generalize scanFrom garbage (fuel + 1) s = r at hscan
    cases hscan with
    | eof => exact reads_eof hin
    | again _ hpeek hdot => exact absurd ⟨hpeek, hdot⟩ hdots
    | heredoc hend hrest =>
      rename_i tail
      have hbefore := before_heredoc hend hnul hrest
      rcases (heredocString_iff hbefore).mpr (hheredoc tail hrest) with ⟨tok, t', hok, hle⟩
      rcases heredocString_of_ok hok with ⟨r, hr⟩
      rcases heredocString_ok hr with ⟨tok₁, t₁, hok₁, hsource, hindex, -⟩
      rw [hok] at hok₁
      cases hok₁
      have hforward : (next s).currentIndex + 3 ≤ t'.currentIndex :=
        heredocString_forward hbefore hok
      rw [hr]
      refine reads_of_moved hsource ?_ ?_
      · rw [hindex]
        omega
      · rw [hindex]
        exact hle
    | identifier hend halpha =>
      rcases identifier_isOk halpha (hline (lexeme_eq halpha).2.2) with ⟨r, hr⟩
      rw [hr]
      exact reads_of_takes (identifier_takes halpha hr)
    | token _ _ _ _ htakes => exact reads_of_takes htakes

/-- One call of `scanToken` gives a token and leaves the scanner in the source exactly if nothing
goes wrong at that token. -/
theorem reads_iff (hin : s.currentIndex ≤ s.source.length) (hnul : 0 ∉ s.source) :
    Reads s (scanToken garbage s) ↔ Harmless garbage s :=
  ⟨fun h => harmless_of_inSource hin hnul (Nat.lt_succ_self _) h.inSource,
    reads_of_harmless hin hnul (Nat.lt_succ_self _)⟩

end

/-! ## A whole source -/

section

/-- The scanner after `n` calls of `scanToken`; each call finds garbage of its own on the stack. -/
def scanned (garbage : ℕ → Heredoc.LineBuf) (src : Bytes) : ℕ → Except Abort Scanner
  | 0 => .ok (initScanner src)
  | n + 1 => do
    let s ← scanned garbage src n
    let (_, s) ← scanToken (garbage n) s
    return s

/-- Every call gives a token, stays in the source and takes something from it before its end, and
one of the calls gives the end. -/
def ScansToEnd (garbage : ℕ → Heredoc.LineBuf) (src : Bytes) : Prop :=
  (∀ n, ∃ s, scanned garbage src n = .ok s ∧ s.source = src ∧ s.currentIndex ≤ src.length ∧
    Reads s (scanToken (garbage n) s)) ∧
  ∃ n ≤ src.length, ∃ s tok s', scanned garbage src n = .ok s ∧
    scanToken (garbage n) s = .ok (tok, s') ∧ tok.type = .eof

variable {garbage : ℕ → Heredoc.LineBuf} {src : Bytes}

theorem scanned_succ {n : ℕ} {s s' : Scanner} {tok : Token} (hs : scanned garbage src n = .ok s)
    (hok : scanToken (garbage n) s = .ok (tok, s')) : scanned garbage src (n + 1) = .ok s' := by
  show (scanned garbage src n).bind _ = _
  rw [hs]
  show (scanToken (garbage n) s).bind _ = _
  rw [hok]
  rfl

/-- By induction on the calls: the scanner is in its source, and the next token is read. -/
theorem scanned_reads (hnul : 0 ∉ src)
    (h : ∀ n s, scanned garbage src n = .ok s → Harmless (garbage n) s) (n : ℕ) :
    ∃ s, scanned garbage src n = .ok s ∧ s.source = src ∧ s.currentIndex ≤ src.length ∧
      Reads s (scanToken (garbage n) s) := by
  have hreads : ∀ {n s}, scanned garbage src n = .ok s → s.source = src →
      s.currentIndex ≤ src.length → Reads s (scanToken (garbage n) s) := by
    intro n s hs hsource hin
    rw [← hsource] at hin hnul
    exact (reads_iff hin hnul).mpr (h n s hs)
  induction n with
  | zero =>
    have hs : scanned garbage src 0 = .ok (initScanner src) := rfl
    exact ⟨_, hs, rfl, Nat.zero_le _, hreads hs rfl (Nat.zero_le _)⟩
  | succ n ih =>
    rcases ih with ⟨s, hs, hsource, -, tok, s', hok, hsource', -, hin', -⟩
    rw [hsource] at hsource' hin'
    have hs' := scanned_succ hs hok
    exact ⟨s', hs', hsource', hin', hreads hs' hsource' hin'⟩

/-- The source is scanned to its end, without a step out of it, exactly if in no state that is
reached something goes wrong at the next token. -/
theorem scansToEnd_iff (garbage : ℕ → Heredoc.LineBuf) (hnul : 0 ∉ src) :
    ScansToEnd garbage src ↔
      ∀ n s, scanned garbage src n = .ok s → Harmless (garbage n) s := by
  constructor
  · rintro ⟨hall, -⟩ n s hs
    rcases hall n with ⟨s', hs', hsource, hin, hreads⟩
    rw [hs] at hs'
    cases hs'
    rw [← hsource] at hin hnul
    exact (reads_iff hin hnul).mp hreads
  · intro hharmless
    have hreads := scanned_reads hnul hharmless
    refine ⟨hreads, ?_⟩
    by_contra hnone
    -- without an end every call takes a byte, so the source is left in the end
    have hfar : ∀ n ≤ src.length + 1, ∀ s, scanned garbage src n = .ok s →
        n ≤ s.currentIndex := by
      intro n
      induction n with
      | zero => exact fun _ s _ => Nat.zero_le _
      | succ n ih =>
        intro hn s' hs'
        rcases hreads n with ⟨s, hs, -, -, tok, s₁, hok, -, -, -, hlt⟩
        rw [scanned_succ hs hok] at hs'
        cases hs'
        have hne : tok.type ≠ .eof := by
          intro heof
          exact hnone ⟨n, by omega, s, tok, s', hs, hok, heof⟩
        have := ih (by omega) s hs
        have := hlt hne
        omega
    rcases hreads (src.length + 1) with ⟨s, hs, -, hin, -⟩
    have := hfar _ le_rfl s hs
    omega

/-- One token and the end. -/
theorem identifier_scansToEnd : ScansToEnd (fun _ _ => 0) (bytes "x") := by
  refine (scansToEnd_iff _ (by decide)).mpr ?_
  intro n s hs
  let behind (start : ℕ) : Scanner :=
    { initScanner (bytes "x") with tokenStartIdx := start, currentIndex := 1 }
  have hfirst : scanned (fun _ _ => 0) (bytes "x") 1 = .ok (behind 0) := by decide +kernel
  have hlater : ∀ n, scanned (fun _ _ => 0) (bytes "x") (n + 2) = .ok (behind 1) := by
    intro n
    induction n with
    | zero => decide +kernel
    | succ n ih =>
      have hend : scanToken (fun _ => 0) (behind 1) =
          .ok (tokenOf .eof (behind 1), behind 1) := by decide +kernel
      exact scanned_succ ih hend
  rcases n with _ | _ | n
  · cases hs
    refine .token (fun hdots => absurd hdots.2 (by decide)) (fun tail hrest => ?_)
      fun _ hpre => absurd hpre (by decide)
    exact absurd (rest_cons hrest).1 (by decide)
  · rw [hfirst] at hs
    cases hs
    exact .atEnd (by decide)
  · rw [hlater n] at hs
    cases hs
    exact .atEnd (by decide)

/-- Behind the second of two dots at the end the NUL is skipped. -/
theorem dots_leave_source : ¬ ∀ garbage src, 0 ∉ src → ScansToEnd garbage src := by
  intro h
  rcases h (fun _ _ => 0) (bytes "..") (by decide) with ⟨hall, -⟩
  rcases hall 1 with ⟨s, hs, -, -, tok, s', hok, -⟩
  have herror : scanToken (fun _ => 0) { initScanner (bytes "..") with
      currentIndex := 1, afterDot := true } = .error .undefinedBehaviour := by
    decide +kernel
  have hfirst : scanned (fun _ _ => 0) (bytes "..") 1 = .ok { initScanner (bytes "..") with
      currentIndex := 1, afterDot := true } := by
    decide +kernel
  rw [hfirst] at hs
  cases hs
  rw [herror] at hok
  cases hok

end

end Clox.Scanning
