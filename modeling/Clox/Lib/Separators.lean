import Mathlib.Data.List.Infix
import Mathlib.Data.List.Basic

/-! # Searching a text for a fixed piece of text

The first place a text occurs in another (`strstr`), and the pieces a text
falls into when one goes on behind every place a separator was found.
-/

namespace Separators

variable {α : Type} [DecidableEq α]

/-- What stands before and behind the first place where `sep` occurs. -/
def find (sep : List α) : List α → Option (List α × List α)
  | [] => if sep = [] then some ([], []) else none
  | a :: s =>
    if sep <+: a :: s then some ([], (a :: s).drop sep.length)
    else (find sep s).map fun r => (a :: r.1, r.2)

variable {sep s before rest : List α}

theorem find_eq_append (h : find sep s = some (before, rest)) : s = before ++ (sep ++ rest) := by
  induction s generalizing before with
  | nil =>
    simp only [find] at h
    split at h
    · rename_i hsep
      cases h
      simp [hsep]
    · cases h
  | cons a s ih =>
    simp only [find] at h
    split at h
    · rename_i hpre
      cases h
      exact (List.prefix_iff_eq_append.mp hpre).symm
    · rcases Option.map_eq_some_iff.mp h with ⟨r, hr, heq⟩
      cases heq
      rw [ih hr, List.cons_append]

/-- Nothing is found exactly when the text does not occur. -/
theorem find_eq_none_iff : find sep s = none ↔ ¬ sep <:+: s := by
  induction s with
  | nil => by_cases hsep : sep = [] <;> simp [find, hsep]
  | cons a s ih =>
    simp only [find]
    split
    · rename_i hpre
      simp [hpre.isInfix]
    · rename_i hpre
      simp [ih, List.infix_cons_iff, hpre]

/-- It is the first place: the text does not begin earlier. -/
theorem find_first (h : find sep s = some (before, rest)) {front back : List α}
    (heq : s = front ++ (sep ++ back)) : before.length ≤ front.length := by
  induction s generalizing before front with
  | nil =>
    have hlen := congrArg List.length heq
    have hlen' := congrArg List.length (find_eq_append h)
    simp at hlen hlen'
    omega
  | cons a s ih =>
    simp only [find] at h
    split at h
    · cases h
      simp
    · rename_i hpre
      rcases Option.map_eq_some_iff.mp h with ⟨r, hr, hr'⟩
      cases hr'
      cases front with
      | nil => exact absurd ⟨back, heq.symm⟩ hpre
      | cons b front =>
        rw [List.cons_append] at heq
        cases heq
        have := ih hr rfl
        simp only [List.length_cons]
        omega

/-- Where the text first begins at `before`, that is what is found. -/
theorem find_append (hfirst : ∀ front back, before ++ (sep ++ rest) = front ++ (sep ++ back) →
    before.length ≤ front.length) : find sep (before ++ (sep ++ rest)) = some (before, rest) := by
  cases h : find sep (before ++ (sep ++ rest)) with
  | none =>
    rw [find_eq_none_iff] at h
    exact absurd ⟨before, rest, by simp⟩ h
  | some r =>
    obtain ⟨front, back⟩ := r
    have heq := find_eq_append h
    have hle := hfirst front back heq
    have hge : front.length ≤ before.length := find_first h rfl
    have hlen : before.length = front.length := by omega
    rcases List.append_inj heq hlen with ⟨rfl, htail⟩
    rw [List.append_cancel_left htail]

theorem length_of_find (h : find sep s = some (before, rest)) :
    s.length = before.length + sep.length + rest.length := by
  rw [find_eq_append h]
  simp only [List.length_append]
  omega

/-- What is found is found as well when the text goes on. -/
theorem find_append_right (h : find sep s = some (before, rest)) (t : List α) :
    find sep (s ++ t) = some (before, rest ++ t) := by
  induction s generalizing before with
  | nil =>
    simp only [find] at h
    split at h
    · rename_i hsep
      cases h
      cases t <;> simp [find, hsep]
    · cases h
  | cons a s ih =>
    simp only [find] at h
    split at h
    · rename_i hpre
      cases h
      have hpre' : sep <+: a :: (s ++ t) := hpre.trans (List.prefix_append _ t)
      rw [List.cons_append, find, if_pos hpre', ← List.cons_append,
        List.drop_append_of_le_length hpre.length_le]
    · rename_i hpre
      rcases Option.map_eq_some_iff.mp h with ⟨r, hr, heq⟩
      cases heq
      have hpre' : ¬ sep <+: a :: (s ++ t) := by
        intro hlong
        -- it does not reach beyond `s`, behind which it was found
        have hlen := length_of_find hr
        apply hpre
        exact List.prefix_of_prefix_length_le hlong (List.prefix_append (a :: s) t)
          (by rw [List.length_cons]; omega)
      rw [List.cons_append, find, if_neg hpre', ih hr, Option.map_some]

/-- The text does not begin in `u` when `s` follows. -/
def Clear (sep u s : List α) : Prop := ∀ w, w <:+ u → w ≠ [] → ¬ sep <+: w ++ s

theorem find_of_clear {u : List α} (h : Clear sep u s) :
    find sep (u ++ s) = (find sep s).map fun r => (u ++ r.1, r.2) := by
  induction u with
  | nil => cases hs : find sep s <;> simp [hs]
  | cons a u ih =>
    have hpre : ¬ sep <+: a :: (u ++ s) := h (a :: u) List.suffix_rfl (List.cons_ne_nil a u)
    have hu : Clear sep u s := fun w hw => h w (hw.trans (List.suffix_cons a u))
    rw [List.cons_append, find, if_neg hpre, ih hu, Option.map_map]
    rfl

omit [DecidableEq α] in
/-- Two elements begin in `u` only where both stand in it, or at its end. -/
theorem clear_pair {a b : α} {u : List α} (hu : ¬ [a, b] <:+: u)
    (hend : u.getLast? = some a → s.head? ≠ some b) : Clear [a, b] u s := by
  rintro w ⟨v, rfl⟩ hw hpre
  cases w with
  | nil => exact hw rfl
  | cons c w =>
    rw [List.cons_append] at hpre
    rcases List.cons_prefix_cons.mp hpre with ⟨rfl, htail⟩
    cases w with
    | nil =>
      rw [List.nil_append] at htail
      cases s with
      | nil => simp at htail
      | cons d s =>
        rcases List.cons_prefix_cons.mp htail with ⟨rfl, _⟩
        exact hend (by simp) rfl
    | cons d w =>
      rw [List.cons_append] at htail
      rcases List.cons_prefix_cons.mp htail with ⟨rfl, _⟩
      exact hu ⟨v, w, by simp⟩

/-- The first place of one element. -/
theorem find_singleton {c : α} {u : List α} (hu : c ∉ u) (t : List α) :
    find [c] (u ++ c :: t) = some (u, t) := by
  have hclear : Clear [c] u (c :: t) := by
    rintro w hw hne hpre
    cases w with
    | nil => exact hne rfl
    | cons d w =>
      rcases List.cons_prefix_cons.mp hpre with ⟨rfl, _⟩
      exact hu (hw.subset List.mem_cons_self)
  have hpre : [c] <+: c :: t := List.prefix_append [c] t
  rw [find_of_clear hclear, find, if_pos hpre]
  simp

theorem find_singleton_eq_none_iff {c : α} : find [c] s = none ↔ c ∉ s := by
  rw [find_eq_none_iff, List.singleton_infix_iff]

/-- The pieces of a text between the separators, found from the left. -/
def pieces (sep : List α) (s : List α) : List (List α) :=
  match _h : find sep s with
  | none => [s]
  | some (before, rest) => if rest.length < s.length then before :: pieces sep rest else [s]
termination_by s.length

theorem pieces_of_none (h : find sep s = none) : pieces sep s = [s] := by
  rw [pieces]
  split
  · rfl
  · rename_i h'
    rw [h] at h'
    cases h'

theorem pieces_of_some (hsep : sep ≠ []) (h : find sep s = some (before, rest)) :
    pieces sep s = before :: pieces sep rest := by
  have hlen := length_of_find h
  have hpos := List.length_pos_iff.mpr hsep
  rw [pieces]
  split
  · rename_i h'
    rw [h] at h'
    cases h'
  · rename_i h'
    rw [h] at h'
    cases h'
    rw [if_pos (by omega)]

/-- Induction over the pieces of a text. -/
theorem pieces_induction {P : List α → Prop} (hsep : sep ≠ [])
    (last : ∀ s, find sep s = none → P s)
    (more : ∀ s before rest, find sep s = some (before, rest) → P rest → P s) (s : List α) :
    P s := by
  induction hn : s.length using Nat.strong_induction_on generalizing s with
  | _ n ih =>
    cases h : find sep s with
    | none => exact last s h
    | some r =>
      obtain ⟨before, rest⟩ := r
      have hlen := length_of_find h
      have hpos := List.length_pos_iff.mpr hsep
      exact more s before rest h (ih rest.length (by omega) rest rfl)

theorem pieces_ne_nil (hsep : sep ≠ []) : pieces sep s ≠ [] := by
  cases h : find sep s with
  | none => simp [pieces_of_none h]
  | some r => simp [pieces_of_some hsep h]

/-- The pieces joined by the separator are the text. -/
theorem intercalate_pieces (hsep : sep ≠ []) (s : List α) :
    sep.intercalate (pieces sep s) = s := by
  induction s using pieces_induction hsep with
  | last s h => simp [pieces_of_none h, List.intercalate]
  | more s before rest h ih =>
    rw [pieces_of_some hsep h, find_eq_append h]
    obtain ⟨p, ps, hps⟩ := List.exists_cons_of_ne_nil (pieces_ne_nil (s := rest) hsep)
    rw [hps] at ih ⊢
    rw [List.intercalate_cons_cons, ih, List.append_assoc]

/-- A piece has nothing that the text has not. -/
theorem mem_of_mem_pieces (hsep : sep ≠ []) {p : List α} {c : α} (hp : p ∈ pieces sep s)
    (hc : c ∈ p) : c ∈ s := by
  induction s using pieces_induction hsep with
  | last s hfind =>
    rw [pieces_of_none hfind, List.mem_singleton] at hp
    exact hp ▸ hc
  | more s before rest hfind ih =>
    rw [pieces_of_some hsep hfind] at hp
    rw [find_eq_append hfind, List.mem_append, List.mem_append]
    rcases List.mem_cons.mp hp with rfl | hp
    · exact Or.inl hc
    · exact Or.inr (Or.inr (ih hp))

omit [DecidableEq α] in
/-- A last piece that is empty leaves a separator at the end. -/
theorem intercalate_concat_nil {ps : List (List α)} (hne : ps ≠ []) :
    sep.intercalate (ps ++ [[]]) = sep.intercalate ps ++ sep := by
  induction ps with
  | nil => exact absurd rfl hne
  | cons p ps ih =>
    cases ps with
    | nil => simp [List.intercalate]
    | cons q ps =>
      have hrest := ih (List.cons_ne_nil q ps)
      rw [List.cons_append, List.cons_append, List.intercalate_cons_cons, ← List.cons_append, hrest,
        List.intercalate_cons_cons]
      simp only [List.append_assoc]

/-- What is not part of the separator stands in one of the pieces. -/
theorem exists_mem_pieces {c : α} (hc : c ∉ sep) (h : c ∈ s) : ∃ p ∈ pieces sep s, c ∈ p := by
  by_cases hsep : sep = []
  · subst hsep
    have hnil : ∀ t : List α, find [] t = some ([], t) := by
      intro t
      cases t <;> simp [find]
    refine ⟨s, ?_, h⟩
    rw [pieces]
    split
    · simp
    · rename_i hfind
      rw [hnil] at hfind
      cases hfind
      simp
  induction s using pieces_induction hsep with
  | last s hfind => exact ⟨s, by simp [pieces_of_none hfind], h⟩
  | more s before rest hfind ih =>
    rw [find_eq_append hfind, List.mem_append, List.mem_append] at h
    rw [pieces_of_some hsep hfind]
    rcases h with h | h | h
    · exact ⟨before, List.mem_cons_self, h⟩
    · exact absurd h hc
    · rcases ih h with ⟨p, hp, hcp⟩
      exact ⟨p, List.mem_cons_of_mem _ hp, hcp⟩

/-- None of the texts holds the separator, also not with a part of the one behind it. -/
def Intact (sep : List α) : List (List α) → Prop
  | [] => False
  | [p] => find sep p = none
  | p :: q :: ps => find sep (p ++ sep) = some (p, []) ∧ Intact sep (q :: ps)

/-- The pieces of joined texts. -/
theorem pieces_intercalate_iff (hsep : sep ≠ []) (ps : List (List α)) :
    pieces sep (sep.intercalate ps) = ps ↔ Intact sep ps := by
  induction ps with
  | nil => exact ⟨fun h => pieces_ne_nil hsep h, False.elim⟩
  | cons p ps ih =>
    cases ps with
    | nil =>
      rw [List.intercalate_singleton]
      constructor
      · intro h
        cases hfind : find sep p with
        | none => exact hfind
        | some r =>
          rw [pieces_of_some hsep hfind, List.cons.injEq] at h
          exact absurd h.2 (pieces_ne_nil hsep)
      · exact pieces_of_none
    | cons q ps =>
      rw [List.intercalate_cons_cons, List.append_assoc]
      constructor
      · intro h
        cases hfind : find sep (p ++ (sep ++ sep.intercalate (q :: ps))) with
        | none => exact absurd ⟨p, sep.intercalate (q :: ps), by simp⟩ (find_eq_none_iff.mp hfind)
        | some r =>
          obtain ⟨before, rest⟩ := r
          rw [pieces_of_some hsep hfind, List.cons.injEq] at h
          obtain ⟨rfl, hrest⟩ := h
          have heq := List.append_cancel_left (List.append_cancel_left (find_eq_append hfind))
          have hfirst : find sep (before ++ (sep ++ [])) = some (before, []) := by
            apply find_append
            intro front back hback
            apply find_first hfind
            change _ = front ++ (sep ++ (back ++ rest))
            rw [List.append_nil] at hback
            rw [heq, ← List.append_assoc, hback, List.append_assoc, List.append_assoc]
          rw [List.append_nil] at hfirst
          exact ⟨hfirst, ih.mp (heq ▸ hrest)⟩
      · rintro ⟨hfind, hrest⟩
        have hfind := find_append_right hfind (sep.intercalate (q :: ps))
        rw [List.append_assoc] at hfind
        rw [pieces_of_some hsep hfind, List.nil_append, ih.mpr hrest]

end Separators
