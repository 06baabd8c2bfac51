import Clox.Parser.Pieces

/-! # Lookahead on the scanner

Behind the end the scanner gives the end again and again, so that the parser's buffer can be left
out of account: whoever reads tokens through its window, and looks ahead as far as it likes, reads
the tokens of the scanner one after the other.
-/

namespace Clox.Scanning

open Parsing

section

variable {garbage : Heredoc.LineBuf} {s s' : Scanner} {tok : Token} {fuel : ℕ}

/-! ## Behind the end -/

/-- At the end the scanner is in its source, with nothing left to read. -/
theorem eof_leaves (hok : scanFrom garbage fuel s = .ok (tok, s')) (htype : tok.type = .eof) :
    s'.currentIndex ≤ s'.source.length ∧ (s'.scriptEnded = true ∨ s'.peek = 0) := by
  induction fuel generalizing s with
  | zero => cases hok
  | succ fuel ih =>
    have hin := inBounds_of_scanFrom hok
    have hends := fun hdots => (makes_scanFrom (s := s) garbage fuel hdots _ hok).ends htype
    have hscan := scanFrom_scan garbage fuel hin
    rw [hok] at hscan
    generalize hr : Except.ok (tok, s') = r at hscan
    cases hscan with
    | eof hend =>
      have hends := hends fun hgoing => absurd (hgoing.symm.trans hend) (by decide)
      cases hr
      refine ⟨?_, hends⟩
      change (next s).currentIndex ≤ (next s).source.length
      rw [(next_skips s).source]
      exact (next_skips s).inBounds hin
    | again => exact ih hr.symm
    | heredoc => exact absurd htype (heredocString_own hr.symm).2
    | identifier _ halpha =>
      have htakes := identifier_takes halpha hr.symm
      refine ⟨htakes.source.symm ▸ htakes.inBounds, hends fun _ hdots => ?_⟩
      rw [hdots.1] at halpha
      exact absurd halpha (by decide)
    | token _ hdots _ _ htakes =>
      cases hr
      exact ⟨htakes.source.symm ▸ htakes.inBounds, hends fun _ => hdots⟩

theorem skipWhitespace_nul (h : s.peek = 0) : skipWhitespace s = s := by
  have hne : ∀ c : Char, chr c ≠ 0 → s.peek ≠ chr c := by
    intro c hc heq
    exact hc (heq.symm.trans h)
  unfold skipWhitespace skipWhitespaceLoop
  rw [if_neg (by simp [hne ' ' (by decide), hne '\r' (by decide), hne '\t' (by decide)]),
    if_neg (hne '\n' (by decide)), if_neg fun hboth => hne '/' (by decide) hboth.1,
    if_neg fun hboth => hne '/' (by decide) hboth.1]

/-- Behind the end there is the end. -/
theorem scanToken_behind_eof (hok : scanToken garbage s = .ok (tok, s')) (htype : tok.type = .eof)
    (garbage' : Heredoc.LineBuf) :
    scanToken garbage' s' = .ok (tokenOf .eof (next s'), { next s' with afterDot := false }) := by
  rcases eof_leaves hok htype with ⟨hin, hleft⟩
  have hend : (next s').isAtEnd = true := by
    unfold Scanner.isAtEnd
    rw [Bool.or_eq_true, beq_iff_eq]
    rcases hleft with hended | hnul
    · exact .inl ((next_skips s').scriptEnded.trans hended)
    · refine .inr ?_
      rw [next, skipWhitespace_nul hnul]
      exact hnul
  unfold scanToken scanFrom
  rw [if_neg (Nat.not_lt.mpr hin)]
  dsimp only
  exact if_pos hend

/-! ## The scanner of a parser -/

/-- The token that the scanner fills in. -/
def Token.filledIn (tok : Token) : Parsing.Token where
  type := tok.type
  startIdx := tok.startIdx
  length := tok.length
  lexeme := String.ofList (tok.lexeme.map Char.ofUInt8)
  line := tok.line
  alloced := tok.alloced

/-- The scanner with the number of its calls, each of which finds garbage of its own on the stack.
Once it has left its source, nothing more is said of it than that it gives no end. -/
def scanTokens (garbage : ℕ → Heredoc.LineBuf) (st : ℕ × Scanner) : Parsing.Token × (ℕ × Scanner) :=
  match scanToken (garbage st.1) st.2 with
  | .ok (tok, s) => (tok.filledIn, (st.1 + 1, s))
  | .error _ => (.zero, st)

theorem scanTokens_staysAtEnd (garbage : ℕ → Heredoc.LineBuf) :
    StaysAtEnd (scanTokens garbage) := by
  intro st htype
  simp only [scanTokens] at htype ⊢
  cases hok : scanToken (garbage st.1) st.2 with
  | error e =>
    rw [hok] at htype
    cases htype
  | ok r =>
    rw [hok] at htype
    simp only [scanToken_behind_eof hok htype]
    rfl

end

end Clox.Scanning

namespace Clox.Parsing

/-! ## Reading through the window -/

/-- What reads tokens and looks ahead, as what it saw so far tells it. -/
inductive Reader (α : Type) where
  | done (a : α)
  | fail (stop : Stop)
  | current (k : Token → Reader α)
  | previous (k : Token → Reader α)
  | advance (k : Reader α)
  /-- Of the token that `peekTokN` gives only the type is used. -/
  | peekTokN (n : ℕ) (k : TokenType → Reader α)

section

variable {σ α : Type} (scanToken : σ → Token × σ)

/-- In the window, with the buffer that lookahead fills. -/
def Reader.run : Reader α → Parse σ α
  | done a => pure a
  | fail stop => fun _ => .error stop
  | current k => fun st => (k st.parser.current).run st
  | previous k => fun st => (k st.parser.previous).run st
  | advance k => do
    Parsing.advance scanToken
    k.run
  | peekTokN n k => do
    let tok ← Parsing.peekTokN scanToken n
    (k tok.type).run

/-- On the previous token and the tokens from the current one on. -/
def Reader.read : Reader α → Token → (ℕ → Token) → Except Stop (α × Token × (ℕ → Token))
  | done a, p, w => .ok (a, p, w)
  | fail stop, _, _ => .error stop
  | current k, p, w => (k (w 0)).read p w
  | previous k, p, w => (k p).read p w
  | advance k, _, w =>
    if (w 1).type = .error then .error (.syntaxError (w 1) (w 1).lexeme)
    else k.read (w 0) fun n => w (n + 1)
  | peekTokN 0 _, _, _ => .error (.abort .assertFailed)
  | peekTokN (n + 1) k, p, w => (k (w (n + 1)).type).read p w

/-- The tokens from the current one on. -/
def State.front (st : State σ) : ℕ → Token
  | 0 => st.parser.current
  | n + 1 => st.ahead scanToken n

variable {scanToken}

/-- However the buffer is filled, what is read are the tokens of the scanner. -/
theorem Reader.run_eq_read (hend : StaysAtEnd scanToken) (r : Reader α) (st : State σ) :
    (r.run scanToken st).map (fun x => (x.1, x.2.parser.previous, x.2.front scanToken)) =
      r.read st.parser.previous (st.front scanToken) := by
  induction r generalizing st with
  | done a => rfl
  | fail stop => rfl
  | current k ih => exact ih _ st
  | previous k ih => exact ih _ st
  | advance k ih =>
    have htok := (nextToken_ahead scanToken st).1
    change (((Parsing.advance scanToken st) >>= fun x => k.run scanToken x.2).map _) = _
    by_cases herror : (st.ahead scanToken 0).type = .error
    · have hstop : Parsing.advance scanToken st = .error
          (.syntaxError (st.ahead scanToken 0) (st.ahead scanToken 0).lexeme) := by
        simp only [Parsing.advance, htok, if_pos herror]
      rw [hstop]
      exact (if_pos herror).symm
    · cases hadvance : Parsing.advance scanToken st with
      | error e => simp only [Parsing.advance, htok, if_neg herror, reduceCtorEq] at hadvance
      | ok x =>
        rcases advance_ahead hadvance with ⟨hcurrent, hprevious, hahead, _⟩
        have hfront : x.2.front scanToken = fun n => st.front scanToken (n + 1) := by
          funext n
          cases n with
          | zero => exact hcurrent
          | succ n => exact congrFun hahead n
        have hread := ih x.2
        rw [hprevious, hfront] at hread
        exact hread.trans (if_neg herror).symm
  | peekTokN n k ih =>
    change (((Parsing.peekTokN scanToken n st) >>= fun x => (k x.1.type).run scanToken x.2).map _) = _
    cases n with
    | zero => rfl
    | succ n =>
      cases hpeek : Parsing.peekTokN scanToken (n + 1) st with
      | error e =>
        simp only [Parsing.peekTokN, Nat.add_one_ne_zero, if_false] at hpeek
        split at hpeek <;> cases hpeek
      | ok x =>
        rcases peekTokN_ahead hpeek with ⟨hahead, hcurrent, hprevious⟩
        have hfront : x.2.front scanToken = st.front scanToken := by
          funext n
          cases n with
          | zero => exact hcurrent
          | succ n => exact congrFun hahead n
        -- past the end of the source the token differs, its type does not
        have htype : x.1.type = (st.ahead scanToken n).type := by
          rcases peekTokN_tok hend hpeek with htok | ⟨heof, heof'⟩
          · rw [htok]
          · rw [heof, heof']
        have hread := ih x.1.type x.2
        rw [hprevious, hfront] at hread
        refine hread.trans ?_
        rw [htype]
        rfl

end

/-- Whatever the parser asks of its window, and however far it has looked ahead before, it sees the
scanner's tokens one after the other. -/
theorem Reader.run_scanTokens {α : Type} (garbage : ℕ → Heredoc.LineBuf) (r : Reader α)
    (st : State (ℕ × Scanning.Scanner)) :
    (r.run (Scanning.scanTokens garbage) st).map
        (fun x => (x.1, x.2.parser.previous, x.2.front (Scanning.scanTokens garbage))) =
      r.read st.parser.previous (st.front (Scanning.scanTokens garbage)) :=
  r.run_eq_read (Scanning.scanTokens_staysAtEnd garbage) st

end Clox.Parsing
