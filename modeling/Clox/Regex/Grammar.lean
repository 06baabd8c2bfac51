import Clox.Regex.Parser

/-! # Patterns without alternatives

Sequences of elements and groups, with a repeat only where two nodes stand before it on its level.
The parser's own tests say what one element or one repeat is.
-/

namespace Clox.Regex

open Clox.Printing (Bytes)
open Clox.Scanning (chr)

/-- The bytes that are no element by themselves. -/
def operators : List UInt8 := [0, chr '(', chr ')', chr '|', chr '+', chr '*', chr '?', chr '\x7b']

/-- What stands behind an element that is one node. -/
def behindElement : Bytes → Option Bytes
  | [] => none
  | c :: s =>
    if c ∈ operators then none
    else if c = chr '[' then
      if (classEnd (s.headD 0) s).2 = [] then none else some (classEnd (s.headD 0) s).2.tail
    else if c = chr '\\' then if s.headD 0 = 0 then none else some s.tail
    else some s

/-- What stands behind a repeat. -/
def behindRepeat : Bytes → Option Bytes
  | [] => none
  | c :: s =>
    if c = chr '+' ∨ c = chr '*' then some (if s.headD 0 = chr '?' then s.tail else s)
    else if c = chr '?' then some s
    else if c = chr '\x7b' then (repeatNumbers s).1.map fun _ => (repeatNumbers s).2
    else none

/-- From a place behind `n` nodes of a level to the end of the level. -/
inductive Elements : ℕ → Bytes → Bytes → Prop
  | done {n : ℕ} {s : Bytes} (hs : s.headD 0 = 0 ∨ s.headD 0 = chr ')') : Elements n s s
  | single {n : ℕ} {s s' u : Bytes} (h : behindElement s = some s')
      (hrest : Elements (n + 1) s' u) : Elements n s u
  | group {n : ℕ} {s s' u : Bytes} (hbody : Elements 0 s (chr ')' :: s'))
      (hrest : Elements (n + 1) s' u) : Elements n (chr '(' :: s) u
  | repeated {n : ℕ} {s s' u : Bytes} (hn : 2 ≤ n) (h : behindRepeat s = some s')
      (hrest : Elements n s' u) : Elements n s u

variable {n : ℕ} {s s' u : Bytes} {c : UInt8}

theorem head_of_behindElement (h : behindElement s = some s') : s.headD 0 ∉ operators := by
  cases s with
  | nil => cases h
  | cons c s =>
    rw [behindElement] at h
    split at h
    · cases h
    · assumption

theorem head_of_behindRepeat (h : behindRepeat s = some s') :
    s.headD 0 = chr '+' ∨ s.headD 0 = chr '*' ∨ s.headD 0 = chr '?' ∨ s.headD 0 = chr '\x7b' := by
  cases s with
  | nil => cases h
  | cons c s =>
    rw [behindRepeat] at h
    split at h
    · rename_i hc
      rcases hc with hc | hc
      · exact .inl hc
      · exact .inr (.inl hc)
    split at h
    · rename_i hc
      exact .inr (.inr (.inl hc))
    split at h
    · rename_i hc
      exact .inr (.inr (.inr hc))
    · cases h

/-- What an `Elements` begins with, by the next byte. -/
theorem elements_cases (h : Elements n s u) :
    ((s.headD 0 = 0 ∨ s.headD 0 = chr ')') ∧ u = s) ∨
    (∃ s', behindElement s = some s' ∧ Elements (n + 1) s' u) ∨
    (∃ b s', s = chr '(' :: b ∧ Elements 0 b (chr ')' :: s') ∧ Elements (n + 1) s' u) ∨
    (2 ≤ n ∧ ∃ s', behindRepeat s = some s' ∧ Elements n s' u) := by
  cases h with
  | done hs => exact .inl ⟨hs, rfl⟩
  | single h hrest => exact .inr (.inl ⟨_, h, hrest⟩)
  | group hbody hrest => exact .inr (.inr (.inl ⟨_, _, rfl, hbody, hrest⟩))
  | repeated hn h hrest => exact .inr (.inr (.inr ⟨hn, _, h, hrest⟩))

theorem not_behindElement (h : s.headD 0 ∈ operators) : behindElement s ≠ some s' :=
  fun heq => head_of_behindElement heq h

theorem not_behindRepeat (h : s.headD 0 ≠ chr '+' ∧ s.headD 0 ≠ chr '*' ∧ s.headD 0 ≠ chr '?' ∧
    s.headD 0 ≠ chr '\x7b') : behindRepeat s ≠ some s' := by
  intro heq
  rcases head_of_behindRepeat heq with hc | hc | hc | hc
  · exact h.1 hc
  · exact h.2.1 hc
  · exact h.2.2.1 hc
  · exact h.2.2.2 hc

theorem elements_done (hs : s.headD 0 = 0 ∨ s.headD 0 = chr ')') : Elements n s u ↔ u = s := by
  constructor
  · intro h
    rcases elements_cases h with ⟨-, heq⟩ | ⟨s', hs', -⟩ | ⟨b, s', rfl, -⟩ | ⟨-, s', hs', -⟩
    · exact heq
    · refine absurd hs' (not_behindElement ?_)
      rcases hs with hs | hs <;> rw [hs] <;> decide
    · rcases hs with hs | hs
      · exact absurd hs (by decide : ¬ chr '(' = 0)
      · exact absurd hs (by decide : ¬ chr '(' = chr ')')
    · refine absurd hs' (not_behindRepeat ?_)
      rcases hs with hs | hs <;> rw [hs] <;> decide
  · rintro rfl
    exact .done hs

theorem elements_single (h : behindElement s = some s') :
    Elements n s u ↔ Elements (n + 1) s' u := by
  have hhead := head_of_behindElement h
  constructor
  · intro helements
    rcases elements_cases helements with ⟨hs, -⟩ | ⟨s'', hs', hrest⟩ | ⟨b, s'', rfl, -⟩ |
      ⟨-, s'', hs', -⟩
    · refine absurd ?_ hhead
      rcases hs with hs | hs <;> rw [hs] <;> decide
    · rw [h] at hs'
      rw [Option.some.inj hs']
      exact hrest
    · exact absurd (by decide : chr '(' ∈ operators) hhead
    · refine absurd ?_ hhead
      rcases head_of_behindRepeat hs' with hc | hc | hc | hc <;> rw [hc] <;> decide
  · exact .single h

theorem elements_group : Elements n (chr '(' :: s) u ↔
    ∃ s', Elements 0 s (chr ')' :: s') ∧ Elements (n + 1) s' u := by
  constructor
  · intro helements
    rcases elements_cases helements with ⟨hs, -⟩ | ⟨s', hs', -⟩ | ⟨b, s', heq, hbody, hrest⟩ |
      ⟨-, s', hs', -⟩
    · rcases hs with hs | hs
      · exact absurd hs (by decide : ¬ chr '(' = 0)
      · exact absurd hs (by decide : ¬ chr '(' = chr ')')
    · exact absurd hs' (not_behindElement (by decide : chr '(' ∈ operators))
    · rw [(List.cons.inj heq).2]
      exact ⟨s', hbody, hrest⟩
    · refine absurd hs' (not_behindRepeat ?_)
      change chr '(' ≠ chr '+' ∧ chr '(' ≠ chr '*' ∧ chr '(' ≠ chr '?' ∧ chr '(' ≠ chr '\x7b'
      decide
  · rintro ⟨s', hbody, hrest⟩
    exact .group hbody hrest

theorem elements_repeated (h : behindRepeat s = some s') :
    Elements n s u ↔ 2 ≤ n ∧ Elements n s' u := by
  have hhead := head_of_behindRepeat h
  constructor
  · intro helements
    rcases elements_cases helements with ⟨hs, -⟩ | ⟨s'', hs', -⟩ | ⟨b, s'', rfl, -⟩ |
      ⟨hn, s'', hs', hrest⟩
    · exfalso
      rcases hs with hs | hs <;> rw [hs] at hhead <;> revert hhead <;> decide
    · refine absurd hs' (not_behindElement ?_)
      rcases hhead with hc | hc | hc | hc <;> rw [hc] <;> decide
    · exact absurd hhead (by
        change ¬ (chr '(' = chr '+' ∨ chr '(' = chr '*' ∨ chr '(' = chr '?' ∨ chr '(' = chr '\x7b')
        decide)
    · rw [h] at hs'
      rw [Option.some.inj hs']
      exact ⟨hn, hrest⟩
  · rintro ⟨hn, hrest⟩
    exact .repeated hn h hrest

theorem not_elements_or (hs : s.headD 0 = chr '|') : ¬ Elements n s u := by
  intro helements
  rcases elements_cases helements with ⟨hend, -⟩ | ⟨s', hs', -⟩ | ⟨b, s', rfl, -⟩ | ⟨-, s', hs', -⟩
  · rw [hs] at hend
    exact absurd hend (by decide)
  · refine absurd hs' (not_behindElement ?_)
    rw [hs]
    decide
  · exact absurd hs (by decide : ¬ chr '(' = chr '|')
  · refine absurd hs' (not_behindRepeat ?_)
    rw [hs]
    decide

end Clox.Regex
