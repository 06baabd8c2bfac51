import Clox.Parser.Scanning

/-! # The lines of tokens

White space, comments, strings and the lines of heredocs count the newlines they pass. Two steps
pass bytes without a look at them: a second dot skips the byte behind it, and a heredoc whose last
line is shorter than the pattern goes on to the pattern's length.
-/

namespace Clox.Scanning

open Printing Parsing

/-- From one position of the source to another no newline is counted twice, and every newline is
counted exactly if `all`. -/
structure CountsIf (source : Bytes) (line i line' i' : ℕ) (all : Prop) : Prop where
  le : line' + newlinesBefore source i ≤ line + newlinesBefore source i'
  iff : line' + newlinesBefore source i = line + newlinesBefore source i' ↔ all

section

variable {source : Bytes} {line i line₁ i₁ line' i' : ℕ} {all all' : Prop}

theorem CountsIf.of_eq (h : line' + newlinesBefore source i = line + newlinesBefore source i')
    (hall : all) : CountsIf source line i line' i' all :=
  ⟨h.le, iff_of_true h hall⟩

theorem CountsIf.congr (h : CountsIf source line i line' i' all) (hall : all' ↔ all) :
    CountsIf source line i line' i' all' :=
  ⟨h.le, h.iff.trans hall.symm⟩

/-- What one part misses the next one does not make good. -/
theorem CountsIf.trans (h : CountsIf source line i line₁ i₁ all)
    (h' : CountsIf source line₁ i₁ line' i' all') :
    CountsIf source line i line' i' (all ∧ all') := by
  rcases h with ⟨hle, hiff⟩
  rcases h' with ⟨hle', hiff'⟩
  constructor
  · omega
  · rw [← hiff, ← hiff']
    constructor
    · intro heq
      constructor <;> omega
    · rintro ⟨heq, heq'⟩
      omega

/-- A part that is counted goes before. -/
theorem CountsIf.after (h : line₁ + newlinesBefore source i = line + newlinesBefore source i₁)
    (h' : CountsIf source line₁ i₁ line' i' all) : CountsIf source line i line' i' all :=
  ((CountsIf.of_eq h trivial).trans h').congr (true_and all).symm.to_iff

/-- Bytes that are passed without counting. -/
theorem countsIf_passed (source : Bytes) (line i n : ℕ) :
    CountsIf source line i line (i + n) (chr '\n' ∉ (source.drop i).take n) := by
  constructor
  · rw [newlinesBefore_add]
    omega
  · rw [newlinesBefore_add, ← List.count_eq_zero]
    unfold newlines
    constructor
    · intro heq
      omega
    · intro heq
      omega

end

/-! ## Heredocs -/

section

open Heredoc (LineBuf EndsLine Completed overlay lineMax)

/-- The heredoc ends at a line that is completed to the pattern by bytes of earlier lines, and a
newline is among the bytes the pattern is long. -/
inductive Overruns (pattern : Bytes) : LineBuf → Bytes → Prop
  | ends {buf : LineBuf} {rem : Bytes} (hends : Completed buf (lineOf rem) pattern)
      (hpassed : chr '\n' ∈ rem.take pattern.length) : Overruns pattern buf rem
  | goesOn {buf : LineBuf} {rem : Bytes} (hne : rem ≠ [])
      (hends : ¬ Completed buf (lineOf rem) pattern)
      (hrest : Overruns pattern (overlay buf (lineOf rem)) (behindLine rem)) :
      Overruns pattern buf rem

/-- Behind `<<<`. -/
def HeredocOverruns (garbage : LineBuf) (rem : Bytes) : Prop :=
  lineOf rem ≠ [] ∧ Overruns (lineOf rem) garbage (behindLine rem)

variable {s s' : Heredoc.Scanner} {tok : Heredoc.Token} {rem pattern : Bytes}
  {buf garbage : LineBuf} {fuel : ℕ} {c : UInt8}

theorem overruns_nil : ¬ Overruns pattern buf [] := by
  intro h
  cases h with
  | ends _ hpassed =>
    rw [List.take_nil] at hpassed
    cases hpassed
  | goesOn hne => exact hne rfl

theorem overruns_iff (hne : rem ≠ []) : Overruns pattern buf rem ↔
    if Completed buf (lineOf rem) pattern then chr '\n' ∈ rem.take pattern.length
    else Overruns pattern (overlay buf (lineOf rem)) (behindLine rem) := by
  constructor
  · intro h
    cases h with
    | ends hends hpassed =>
      rw [if_pos hends]
      exact hpassed
    | goesOn _ hends hrest =>
      rw [if_neg hends]
      exact hrest
  · intro h
    split at h
    · rename_i hends
      exact .ends hends h
    · rename_i hends
      exact .goesOn hne hends h

theorem skipChar_counted (hc : c ≠ 0) (s : Heredoc.Scanner) :
    (Heredoc.skipChar c s).line + newlinesBefore s.source s.currentIndex =
      s.line + newlinesBefore s.source (Heredoc.skipChar c s).currentIndex := by
  unfold Heredoc.skipChar
  split
  · rename_i hpeek
    have hlt : s.currentIndex < s.source.length := by
      by_contra hge
      apply hc
      rw [← hpeek]
      exact List.getD_eq_default _ _ (Nat.le_of_not_lt hge)
    have htake : (s.source.drop s.currentIndex).take 1 = [c] := by
      unfold Heredoc.peek at hpeek
      rw [List.getD_eq_getElem _ _ hlt] at hpeek
      rw [List.drop_eq_getElem_cons hlt, hpeek]
      rfl
    dsimp only
    rw [newlinesBefore_add, htake, newlines_cons]
    have hnil : newlines [] = 0 := rfl
    have hlf : (if c = Heredoc.lf then s.line + 1 else s.line) =
        s.line + if c = chr '\n' then 1 else 0 := by
      change (if c = chr '\n' then s.line + 1 else s.line) = _
      split <;> rfl
    omega
  · rfl

theorem newline_notMem_lineOf (rem : Bytes) : chr '\n' ∉ lineOf rem := by
  intro hmem
  apply lineOf_plain rem _ hmem
  decide

/-- A line and its newline are counted. -/
theorem Before.line_counted (h : Before s rem) :
    let next := Heredoc.scanNewline { s with
      currentIndex := s.currentIndex + (lineOf rem).length }
    next.line + newlinesBefore s.source s.currentIndex =
      s.line + newlinesBefore s.source next.currentIndex := by
  have hline : Before s (lineOf rem ++ rem.dropWhile (¬ EndsLine ·)) := by
    rw [lineOf_append]
    exact h
  have hcr := skipChar_counted (c := Heredoc.cr) (by decide)
    { s with currentIndex := s.currentIndex + (lineOf rem).length }
  rcases hline.advance.skipChar (c := Heredoc.cr) (by decide) with ⟨-, hsource, -⟩
  have hlf := skipChar_counted (c := Heredoc.lf) (by decide)
    (Heredoc.skipChar Heredoc.cr { s with
      currentIndex := s.currentIndex + (lineOf rem).length })
  rw [hsource] at hlf
  have hplain := newlinesBefore_add s.source s.currentIndex (lineOf rem).length
  rw [hline.rest, List.take_left, newlines_eq_zero (newline_notMem_lineOf rem)] at hplain
  unfold Heredoc.scanNewline
  dsimp only at hcr hlf ⊢
  omega

/-- At the end the scanner goes to the pattern's length behind the start of the line. -/
theorem endHeredoc_counted (h : Before s rem)
    (hok : Heredoc.endHeredoc pattern.length (lineOf rem).length
      { s with currentIndex := s.currentIndex + (lineOf rem).length } = .ok (tok, s')) :
    tok.line = s'.line ∧ CountsIf s.source s.line s.currentIndex s'.line s'.currentIndex
      (chr '\n' ∉ rem.take pattern.length) := by
  unfold Heredoc.endHeredoc at hok
  dsimp only at hok
  split at hok
  · have hpassed := countsIf_passed s.source s.line s.currentIndex pattern.length
    rw [h.rest] at hpassed
    cases hok
    refine ⟨rfl, ?_⟩
    dsimp only
    have hindex : ((s.currentIndex + (lineOf rem).length : ℕ) -
        ((lineOf rem).length - pattern.length : ℤ)).toNat = s.currentIndex + pattern.length := by
      omega
    rw [hindex]
    exact hpassed
  · cases hok

/-- The loop over the lines. -/
theorem heredocLines_counted (h : Before s rem) (hfuel : rem.length < fuel)
    (hok : Heredoc.heredocLines pattern fuel buf s = .ok (tok, s')) :
    tok.line = s'.line ∧ CountsIf s.source s.line s.currentIndex s'.line s'.currentIndex
      (¬ Overruns pattern buf rem) := by
  induction fuel generalizing s rem buf with
  | zero => omega
  | succ fuel ih =>
    by_cases hne : rem = []
    · subst hne
      have hend : Heredoc.isAtEndGetMore s = true := by
        have hlen := h.length
        unfold Heredoc.isAtEndGetMore Heredoc.peek
        rw [List.length_nil] at hlen
        rw [List.getD_eq_default _ _ (by omega), h.going]
        rfl
      unfold Heredoc.heredocLines at hok
      rw [if_pos hend] at hok
      cases hok
      exact ⟨rfl, .of_eq rfl overruns_nil⟩
    rw [heredocLines_round h hne] at hok
    rw [overruns_iff hne]
    split at hok
    · split at hok
      · rename_i hends
        rw [if_pos hends]
        exact endHeredoc_counted h hok
      · rename_i hends
        rw [if_neg hends]
        rcases h.line with ⟨hnext, hsource, -, -⟩
        have hshort := length_behindLine hne fun hmem => h.ne_zero hmem rfl
        rcases ih hnext (by omega) hok with ⟨hline, hcounts⟩
        rw [hsource] at hcounts
        exact ⟨hline, hcounts.after h.line_counted⟩
    · cases hok

/-- A heredoc counts all newlines it passes exactly if it does not go on behind its last line. -/
theorem heredocString_counted (h : Before s rem)
    (hok : Heredoc.heredocString garbage s = .ok (tok, s')) :
    tok.line = s'.line ∧ CountsIf s.source s.line s.currentIndex s'.line s'.currentIndex
      (¬ HeredocOverruns garbage rem) := by
  rcases h.line with ⟨hnext, hsource, -, -⟩
  have hcounted := h.line_counted
  rw [heredocString_eq h] at hok
  unfold HeredocOverruns
  split at hok
  · cases hok
  dsimp only at hok
  split at hok
  · rename_i hempty
    cases hok
    refine ⟨rfl, .of_eq hcounted ?_⟩
    rintro ⟨hpattern, -⟩
    exact hpattern (List.length_eq_zero_iff.mp hempty)
  · rename_i hpattern
    have hlen := hnext.length
    have hlines := heredocLines_counted hnext.started (by omega) hok
    have hne : lineOf rem ≠ [] := fun h => hpattern (List.length_eq_zero_iff.mpr h)
    generalize Heredoc.scanNewline { s with
      currentIndex := s.currentIndex + (lineOf rem).length } = next at hlines hsource hcounted
    rcases hlines with ⟨hline, hcounts⟩
    dsimp only at hcounts
    rw [hsource] at hcounts
    rw [and_iff_right hne]
    exact ⟨hline, hcounts.after hcounted⟩

end

/-! ## One token -/

section

variable {garbage : Heredoc.LineBuf} {s s' : Scanner} {tok : Token} {fuel : ℕ}

/-- The next token passes a newline without counting it: behind a second dot in a row, or at the
end of a heredoc. -/
inductive MissesNewline (garbage : Heredoc.LineBuf) : Scanner → Prop
  | skipped {s : Scanner} {tail : Bytes} (hend : (next s).isAtEnd = false)
      (hrest : (next s).rest = chr '.' :: chr '\n' :: tail) (hdot : s.afterDot = true) :
      MissesNewline garbage s
  | again {s : Scanner} {c : UInt8} {tail : Bytes} (hend : (next s).isAtEnd = false)
      (hrest : (next s).rest = chr '.' :: c :: tail) (hdot : s.afterDot = true)
      (hagain : MissesNewline garbage ((next s).advance 2)) : MissesNewline garbage s
  | heredoc {s : Scanner} {tail : Bytes} (hend : (next s).isAtEnd = false)
      (hrest : (next s).rest = bytes "<<<" ++ tail) (hover : HeredocOverruns garbage tail) :
      MissesNewline garbage s

theorem not_missesNewline (hdots : ¬ ((next s).peek = chr '.' ∧ s.afterDot = true))
    (hheredoc : ∀ tail, (next s).rest ≠ bytes "<<<" ++ tail) : ¬ MissesNewline garbage s := by
  intro h
  cases h with
  | skipped _ hrest hdot => exact hdots ⟨(rest_cons hrest).1, hdot⟩
  | again _ hrest hdot => exact hdots ⟨(rest_cons hrest).1, hdot⟩
  | heredoc _ hrest => exact hheredoc _ hrest

/-- A source without a dot and without `<`. -/
theorem not_missesNewline_of_notMem (hdot : chr '.' ∉ s.source) (hless : chr '<' ∉ s.source) :
    ¬ MissesNewline garbage s := by
  have hmem : ∀ c tail, (next s).rest = c :: tail → c ∈ s.source := by
    intro c tail hrest
    rw [← (next_skips s).source]
    apply List.mem_of_mem_drop (i := (next s).currentIndex)
    change c ∈ (next s).rest
    rw [hrest]
    exact List.mem_cons_self
  intro h
  cases h with
  | skipped _ hrest => exact hdot (hmem _ _ hrest)
  | again _ hrest => exact hdot (hmem _ _ hrest)
  | heredoc _ hrest => exact hless (hmem _ _ hrest)

theorem not_missesNewline_of_atEnd (hend : (next s).isAtEnd = true) :
    ¬ MissesNewline garbage s := by
  intro h
  cases h with
  | skipped hend' => exact absurd hend (Bool.eq_false_iff.mp hend')
  | again hend' => exact absurd hend (Bool.eq_false_iff.mp hend')
  | heredoc hend' => exact absurd hend (Bool.eq_false_iff.mp hend')

/-- The second dot. -/
theorem missesNewline_dots {c : UInt8} {tail : Bytes} (hend : (next s).isAtEnd = false)
    (hrest : (next s).rest = chr '.' :: c :: tail) (hdot : s.afterDot = true) :
    MissesNewline garbage s ↔ c = chr '\n' ∨ MissesNewline garbage ((next s).advance 2) := by
  constructor
  · intro h
    cases h with
    | skipped _ hrest' =>
      rw [hrest, List.cons.injEq, List.cons.injEq] at hrest'
      exact .inl hrest'.2.1
    | again _ _ _ hagain => exact .inr hagain
    | heredoc _ hrest' =>
      rw [hrest] at hrest'
      exact absurd (List.cons.inj hrest').1 (by decide)
  · rintro (rfl | hagain)
    · exact .skipped hend hrest hdot
    · exact .again hend hrest hdot hagain

/-- The bytes of a beginning that is read without the loops. -/
theorem countsIf_next {w tail : Bytes} (hrest : (next s).rest = w ++ tail) :
    CountsIf s.source s.line s.currentIndex (next s).line ((next s).currentIndex + w.length)
      (chr '\n' ∉ w) := by
  have hpassed := countsIf_passed s.source (next s).line (next s).currentIndex w.length
  unfold Scanner.rest at hrest
  rw [(next_skips s).source] at hrest
  rw [hrest, List.take_left] at hpassed
  exact hpassed.after (next_skips s).counted

theorem Takes.countsIf {r : Token × Scanner} {all : Prop} (h : Takes (next s) r) (hall : all) :
    CountsIf s.source s.line s.currentIndex r.2.line r.2.currentIndex all := by
  have hcounted := h.counted
  rw [(next_skips s).source] at hcounted
  exact .after (next_skips s).counted (.of_eq hcounted hall)

theorem inBounds_of_scanFrom {r : Token × Scanner} (hok : scanFrom garbage fuel s = .ok r) :
    s.currentIndex ≤ s.source.length := by
  by_contra hout
  cases fuel with
  | zero => cases hok
  | succ fuel =>
    unfold scanFrom at hok
    rw [if_pos (Nat.lt_of_not_le hout)] at hok
    cases hok

/-- The line of a token is the one the scanner is in behind it, and all newlines up to there are
counted exactly if none is missed. -/
theorem scanFrom_counted (hnul : 0 ∉ s.source)
    (hok : scanFrom garbage fuel s = .ok (tok, s')) :
    s'.source = s.source ∧ tok.line = s'.line ∧
      CountsIf s.source s.line s.currentIndex s'.line s'.currentIndex
        (¬ MissesNewline garbage s) := by
  induction fuel generalizing s with
  | zero => cases hok
  | succ fuel ih =>
    have hsource := (next_skips s).source
    have hscan := scanFrom_scan garbage fuel (inBounds_of_scanFrom hok)
    rw [hok] at hscan
    generalize hr : Except.ok (tok, s') = r at hscan
    cases hscan with
    | eof hend =>
      cases hr
      exact ⟨hsource, rfl, .of_eq (next_skips s).counted (not_missesNewline_of_atEnd hend)⟩
    | again hend hpeek hdot =>
      by_cases hroom : (next s).currentIndex + 2 ≤ (next s).source.length
      · rcases rest_of_dot hpeek hroom with ⟨c, tail, hrest⟩
        have hsource' : ((next s).advance 2).source = s.source := hsource
        have hnul' : 0 ∉ ((next s).advance 2).source := by
          rw [hsource']
          exact hnul
        rcases ih hnul' hr.symm with ⟨hlast, hline, hcounts⟩
        rw [hsource'] at hlast hcounts
        refine ⟨hlast, hline, ((countsIf_next (w := [chr '.', c]) hrest).trans hcounts).congr ?_⟩
        rw [missesNewline_dots hend hrest hdot, not_or, List.mem_cons, List.mem_singleton,
          or_iff_right (by decide), eq_comm]
      · -- the NUL is skipped, and the next read is out of bounds
        exact absurd (inBounds_of_scanFrom hr.symm) hroom
    | heredoc hend hrest =>
      rename_i tail
      rcases heredocString_ok hr.symm with ⟨tok', t', hheredoc, hlast, hindex, hline, hline'⟩
      rcases heredocString_counted (before_heredoc hend hnul hrest) hheredoc with ⟨heq, hcounts⟩
      change CountsIf (next s).source (next s).line ((next s).currentIndex + 3) t'.line
        t'.currentIndex _ at hcounts
      dsimp only at hlast hindex hline hline'
      rw [hsource, ← hline', ← hindex] at hcounts
      refine ⟨hlast.trans hsource, ?_, ((countsIf_next hrest).trans hcounts).congr ?_⟩
      · rw [hline, heq, hline']
      · rw [and_iff_right (by decide), not_iff_not]
        constructor
        · intro h
          cases h with
          | skipped _ hrest' =>
            rw [hrest] at hrest'
            exact absurd (List.cons.inj hrest').1 (by decide)
          | again _ hrest' =>
            rw [hrest] at hrest'
            exact absurd (List.cons.inj hrest').1 (by decide)
          | heredoc _ hrest' hover =>
            rw [List.append_cancel_left (hrest.symm.trans hrest')]
            exact hover
        · exact .heredoc hend hrest
    | identifier hend halpha =>
      have htakes := identifier_takes halpha hr.symm
      refine ⟨htakes.source.trans hsource, htakes.line, htakes.countsIf ?_⟩
      apply not_missesNewline
      · rintro ⟨hpeek, -⟩
        rw [hpeek] at halpha
        exact absurd halpha (by decide)
      · intro tail hrest
        rw [(rest_cons hrest).1] at halpha
        exact absurd halpha (by decide)
    | token hend hdots hheredoc _ htakes =>
      cases hr
      exact ⟨htakes.source.trans hsource, htakes.line,
        htakes.countsIf (not_missesNewline hdots hheredoc)⟩

end

/-! ## A whole source -/

section

/-- The line of every token is 1 and the newlines before the end of its text, which is where the
scanner goes on. -/
def LinesRight (garbage : ℕ → Heredoc.LineBuf) (src : Bytes) : Prop :=
  ∀ n s tok s', scanned garbage src n = .ok s → scanToken (garbage n) s = .ok (tok, s') →
    tok.line = 1 + newlinesBefore src s'.currentIndex

variable {garbage : ℕ → Heredoc.LineBuf} {src : Bytes} {s s' : Scanner} {tok : Token} {n : ℕ}

/-- The scanner counts the line it is in. -/
structure InLine (src : Bytes) (s : Scanner) : Prop where
  source : s.source = src
  line : s.line = 1 + newlinesBefore src s.currentIndex

theorem initScanner_inLine (src : Bytes) : InLine src (initScanner src) := ⟨rfl, rfl⟩

/-- One token. -/
theorem scanToken_inLine (hnul : 0 ∉ src) (hs : InLine src s) {buf : Heredoc.LineBuf}
    (hok : scanToken buf s = .ok (tok, s')) :
    s'.source = src ∧ tok.line = s'.line ∧
      (s'.line = 1 + newlinesBefore src s'.currentIndex ↔ ¬ MissesNewline buf s) := by
  rcases hs with ⟨rfl, hline⟩
  rcases scanFrom_counted hnul hok with ⟨hsource, htoken, hcounts⟩
  refine ⟨hsource, htoken, ?_⟩
  rw [← hcounts.iff]
  constructor
  · intro hline'
    omega
  · intro hcounted
    omega

theorem scanned_pred (hs' : scanned garbage src (n + 1) = .ok s') :
    ∃ s tok, scanned garbage src n = .ok s ∧ scanToken (garbage n) s = .ok (tok, s') := by
  rcases Except.bind_eq_ok.mp hs' with ⟨s, hs, hrest⟩
  rcases Except.bind_eq_ok.mp hrest with ⟨⟨tok, s''⟩, hok, hpure⟩
  cases hpure
  exact ⟨s, tok, hs, hok⟩

theorem scanned_source (hnul : 0 ∉ src) (hs : scanned garbage src n = .ok s) : s.source = src := by
  induction n generalizing s with
  | zero =>
    cases hs
    rfl
  | succ n ih =>
    rcases scanned_pred hs with ⟨s₀, tok, hs₀, hok⟩
    have hsource := ih hs₀
    rw [← hsource] at hnul
    exact (scanFrom_counted hnul hok).1.trans hsource

/-- By induction on the calls: as long as the lines of tokens are right, or no newline is missed,
the scanner counts its line. -/
theorem scanned_inLine
    (h : ∀ n s tok s', InLine src s → scanned garbage src n = .ok s →
      scanToken (garbage n) s = .ok (tok, s') → InLine src s') :
    ∀ n s, scanned garbage src n = .ok s → InLine src s := by
  intro n
  induction n with
  | zero =>
    intro s hs
    cases hs
    exact initScanner_inLine src
  | succ n ih =>
    intro s' hs'
    rcases scanned_pred hs' with ⟨s, tok, hs, hok⟩
    exact h n s tok s' (ih s hs) hs hok

/-- The lines of all tokens of a source are right exactly if no call that gives a token misses a
newline. -/
theorem linesRight_iff (garbage : ℕ → Heredoc.LineBuf) (hnul : 0 ∉ src) :
    LinesRight garbage src ↔ ∀ n s r, scanned garbage src n = .ok s →
      scanToken (garbage n) s = .ok r → ¬ MissesNewline (garbage n) s := by
  constructor
  · intro hright
    have hlines := scanned_inLine fun n s tok s' hs hscanned hok => by
      rcases scanToken_inLine hnul hs hok with ⟨hsource, htoken, -⟩
      exact ⟨hsource, htoken.symm.trans (hright n s tok s' hscanned hok)⟩
    rintro n s ⟨tok, s'⟩ hscanned hok
    rcases scanToken_inLine hnul (hlines n s hscanned) hok with ⟨-, htoken, hiff⟩
    exact hiff.mp (htoken.symm.trans (hright n s tok s' hscanned hok))
  · intro hcounts
    have hlines := scanned_inLine fun n s tok s' hs hscanned hok => by
      rcases scanToken_inLine hnul hs hok with ⟨hsource, -, hiff⟩
      exact ⟨hsource, hiff.mpr (hcounts n s (tok, s') hscanned hok)⟩
    intro n s tok s' hscanned hok
    rcases scanToken_inLine hnul (hlines n s hscanned) hok with ⟨-, htoken, hiff⟩
    exact htoken.trans (hiff.mpr (hcounts n s (tok, s') hscanned hok))

/-- Comments and strings over more than one line. -/
theorem comments_linesRight : LinesRight (fun _ _ => 0) (bytes "/*\n*/ x // y\n'a\nb' z") := by
  have hnul : 0 ∉ bytes "/*\n*/ x // y\n'a\nb' z" := by decide +kernel
  refine (linesRight_iff _ hnul).mpr fun n s r hscanned _ => ?_
  have hsource := scanned_source hnul hscanned
  apply not_missesNewline_of_notMem
  · rw [hsource]
    decide +kernel
  · rw [hsource]
    decide +kernel

/-- The newline behind the second dot is skipped, and `b` gets the line before. -/
theorem dots_miss_newline : ¬ ∀ garbage src, 0 ∉ src → LinesRight garbage src := by
  intro h
  have hright := h (fun _ _ => 0) (bytes "a..\nb") (by decide +kernel)
  let behind (start i : ℕ) (dot : Bool) : Scanner :=
    { initScanner (bytes "a..\nb") with
      tokenStartIdx := start, currentIndex := i, afterDot := dot }
  have hdot : scanned (fun _ _ => 0) (bytes "a..\nb") 2 = .ok (behind 1 2 true) := by
    decide +kernel
  have htoken : scanToken (fun _ => 0) (behind 1 2 true) =
      .ok (tokenOf .identifier (behind 4 5 false), behind 4 5 false) := by
    decide +kernel
  have hline := hright 2 _ _ _ hdot htoken
  exact absurd hline (by decide +kernel)

end

end Clox.Scanning
