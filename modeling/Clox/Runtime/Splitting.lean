import Clox.Lib.Separators
import Clox.Runtime.Printing

/-! # `String#split` and `Array#join`

Both work on C strings: a text ends at its first NUL byte. The pieces between the separators are
those of `Separators.pieces`; `split` leaves out the last one if it is empty.
-/

namespace Clox.Splitting

open Separators
open Clox.Printing (Bytes cstr cstr_eq zero_notMem_cstr)

/-! ## The code -/

/-- The loop and the rest behind it, within `rounds` rounds; `none` when they do not suffice.
`hay` is the text from the pointer to its end. -/
def splitLoop (needle : Bytes) : ℕ → Bytes → Option (List Bytes)
  | 0, _ => none
  | rounds + 1, hay =>
    if hay = [] then some []
    else
      match find needle hay with
      | some (part, rest) => (splitLoop needle rounds rest).map (part :: ·)
      | none => some [hay]

def lxStringSplit (rounds : ℕ) (self pat : Bytes) : Option (List Bytes) :=
  splitLoop (cstr pat) rounds (cstr self)

/-- An element of an array, with its text. -/
inductive Element
  | string (chars : Bytes)
  /-- What `valueToString` makes of it. -/
  | other (text : Bytes)

def Element.text : Element → Bytes
  | .string chars => chars
  | .other text => text

def lxArrayJoin (joinStr : Bytes) : List Element → Bytes
  | [] => []
  | [el] => cstr el.text
  | el :: rest => cstr el.text ++ cstr joinStr ++ lxArrayJoin joinStr rest

/-! ## Splitting -/

/-- Without a last piece that is empty. -/
def dropEmpty (parts : List Bytes) : List Bytes :=
  if parts.getLast? = some [] then parts.dropLast else parts

variable {needle hay : Bytes} {rounds : ℕ} {parts : List Bytes}

theorem dropEmpty_cons (part : Bytes) (hne : parts ≠ []) :
    dropEmpty (part :: parts) = part :: dropEmpty parts := by
  rw [dropEmpty, dropEmpty, List.getLast?_cons, List.dropLast_cons_of_ne_nil hne]
  rcases List.eq_nil_or_concat parts with hnil | ⟨front, last, rfl⟩
  · exact absurd hnil hne
  · simp only [List.concat_eq_append, List.getLast?_concat, Option.getD_some]
    split <;> rfl

/-- More rounds change nothing. -/
theorem splitLoop_mono {rounds' : ℕ} (h : splitLoop needle rounds hay = some parts)
    (hle : rounds ≤ rounds') : splitLoop needle rounds' hay = some parts := by
  induction rounds generalizing hay parts rounds' with
  | zero => cases h
  | succ rounds ih =>
    obtain ⟨k, rfl⟩ := Nat.exists_eq_add_of_le' (Nat.le_of_add_left_le hle)
    rw [splitLoop] at h ⊢
    by_cases hnil : hay = []
    · rwa [if_pos hnil] at h ⊢
    · rw [if_neg hnil] at h ⊢
      cases hfind : find needle hay with
      | none => rwa [hfind] at h
      | some r =>
        rw [hfind] at h
        rcases Option.map_eq_some_iff.mp h with ⟨rest, hrest, rfl⟩
        have hmore := @ih r.2 rest k hrest (Nat.le_of_succ_le_succ hle)
        simp only [hmore, Option.map_some]

theorem splitLoop_unique {rounds' : ℕ} {parts' : List Bytes}
    (h : splitLoop needle rounds hay = some parts)
    (h' : splitLoop needle rounds' hay = some parts') : parts = parts' := by
  rcases Nat.le_total rounds rounds' with hle | hle
  · exact Option.some.inj ((splitLoop_mono h hle).symm.trans h')
  · exact Option.some.inj (h.symm.trans (splitLoop_mono h' hle))

/-- With a separator the loop ends, with the pieces. -/
theorem splitLoop_pieces (hneedle : needle ≠ []) (hay : Bytes) :
    ∃ rounds, splitLoop needle rounds hay = some (dropEmpty (pieces needle hay)) := by
  induction hay using pieces_induction hneedle with
  | last hay hfind =>
    refine ⟨1, ?_⟩
    rw [splitLoop, pieces_of_none hfind]
    by_cases hnil : hay = []
    · rw [if_pos hnil, hnil]
      rfl
    · rw [if_neg hnil, hfind]
      simp [dropEmpty, hnil]
  | more hay part rest hfind ih =>
    rcases ih with ⟨rounds, hrounds⟩
    refine ⟨rounds + 1, ?_⟩
    have hne : hay ≠ [] := by
      rintro rfl
      have hlen := length_of_find hfind
      have hpos := List.length_pos_iff.mpr hneedle
      simp only [List.length_nil] at hlen
      omega
    rw [splitLoop, if_neg hne, hfind, pieces_of_some hneedle hfind,
      dropEmpty_cons part (pieces_ne_nil hneedle)]
    simp only [hrounds, Option.map_some]

/-- An empty separator is found again and again at the same place. -/
theorem splitLoop_empty (hne : hay ≠ []) (rounds : ℕ) : splitLoop [] rounds hay = none := by
  induction rounds with
  | zero => rfl
  | succ rounds ih =>
    rcases List.exists_cons_of_ne_nil hne with ⟨c, rest, rfl⟩
    have hfind : find [] (c :: rest) = some ([], c :: rest) := by simp [find]
    rw [splitLoop, if_neg hne, hfind]
    simp only [ih, Option.map_none]

/-- Where the loop ends. -/
theorem splitLoop_ends_iff : (∃ rounds parts, splitLoop needle rounds hay = some parts) ↔
    needle ≠ [] ∨ hay = [] := by
  constructor
  · rintro ⟨rounds, parts, h⟩
    by_contra hnone
    rw [not_or, not_not] at hnone
    rw [hnone.1, splitLoop_empty hnone.2] at h
    cases h
  · rintro (hneedle | hnil)
    · rcases splitLoop_pieces hneedle hay with ⟨rounds, h⟩
      exact ⟨rounds, _, h⟩
    · exact ⟨1, [], by rw [splitLoop, if_pos hnil]⟩

/-! ## Joining -/

theorem zero_not_mem_join (joinStr : Bytes) (els : List Element) :
    0 ∉ lxArrayJoin joinStr els := by
  induction els with
  | nil => exact List.not_mem_nil
  | cons el rest ih =>
    cases rest with
    | nil => exact zero_notMem_cstr _
    | cons next rest =>
      rw [lxArrayJoin, List.mem_append, List.mem_append]
      · rintro ((hmem | hmem) | hmem)
        · exact zero_notMem_cstr _ hmem
        · exact zero_notMem_cstr _ hmem
        · exact ih hmem
      · simp

/-- Strings without NUL bytes are joined as they are. -/
theorem join_strings (joinStr : Bytes) (hparts : ∀ part ∈ parts, 0 ∉ part) :
    lxArrayJoin joinStr (parts.map .string) = (cstr joinStr).intercalate parts := by
  induction parts with
  | nil => rfl
  | cons part rest ih =>
    have hpart := cstr_eq (hparts part List.mem_cons_self)
    have hrest := ih fun p hp => hparts p (List.mem_cons_of_mem _ hp)
    cases rest with
    | nil => simp [lxArrayJoin, Element.text, hpart, List.intercalate]
    | cons next rest =>
      rw [List.intercalate_cons_cons, ← hrest]
      simp [lxArrayJoin, Element.text, hpart]

/-- The pieces of a text, without an empty last one, do not come to the text if there was one. -/
theorem join_dropEmpty (hneedle : needle ≠ []) (hay : Bytes) :
    needle.intercalate (dropEmpty (pieces needle hay)) = hay ↔
      hay = [] ∨ (pieces needle hay).getLast? ≠ some [] := by
  have hall := intercalate_pieces hneedle hay
  rw [dropEmpty]
  by_cases hlast : (pieces needle hay).getLast? = some []
  · rw [if_pos hlast]
    rcases List.getLast?_eq_some_iff.mp hlast with ⟨front, hfront⟩
    rw [hfront, List.dropLast_concat]
    rw [hfront] at hall
    by_cases hnil : front = []
    · subst hnil
      have hay_nil : hay = [] := by simpa [List.intercalate] using hall.symm
      simp [hay_nil, List.intercalate]
    · rw [intercalate_concat_nil hnil] at hall
      have hay_ne : hay ≠ [] := by
        rintro rfl
        exact hneedle (List.append_eq_nil_iff.mp hall).2
      constructor
      · intro heq
        rw [heq] at hall
        exact absurd (List.append_right_eq_self.mp hall) hneedle
      · rintro (hnil' | hne)
        · exact absurd hnil' hay_ne
        · rw [List.getLast?_concat] at hne
          exact absurd rfl hne
  · rw [if_neg hlast, hall]
    exact ⟨fun _ => Or.inr hlast, fun _ => rfl⟩

/-- `split` comes to an end, and `join` undoes it. -/
structure Inverse (s sep : Bytes) : Prop where
  ends : ∃ rounds parts, lxStringSplit rounds s sep = some parts
  join : sep ≠ [] → ∀ rounds parts, lxStringSplit rounds s sep = some parts →
    lxArrayJoin sep (parts.map .string) = s

/-- The empty separator splits the empty text only. With another one the text must have no NUL
byte and, unless it is empty, not end with a separator; and the separator must not begin with
NUL. -/
theorem inverse_iff (s sep : Bytes) : Inverse s sep ↔
    if sep = [] then cstr s = []
    else 0 ∉ s ∧ (s = [] ∨ cstr sep ≠ [] ∧ (pieces (cstr sep) s).getLast? ≠ some []) := by
  -- what `join` makes of the pieces that `split` finds
  have hjoined : cstr sep ≠ [] → ∀ rounds parts, lxStringSplit rounds s sep = some parts →
      (lxArrayJoin sep (parts.map .string) = cstr s ↔
        cstr s = [] ∨ (pieces (cstr sep) (cstr s)).getLast? ≠ some []) := by
    intro hneedle rounds parts hsplit
    rcases splitLoop_pieces hneedle (cstr s) with ⟨rounds', hpieces⟩
    obtain rfl := splitLoop_unique hsplit hpieces
    rw [← join_dropEmpty hneedle, join_strings sep]
    intro part hpart hzero
    have hmem : part ∈ pieces (cstr sep) (cstr s) := by
      rw [dropEmpty] at hpart
      split at hpart
      · exact List.mem_of_mem_dropLast hpart
      · exact hpart
    exact zero_notMem_cstr s (mem_of_mem_pieces hneedle hmem hzero)
  have hends : (∃ rounds parts, lxStringSplit rounds s sep = some parts) ↔
      cstr sep ≠ [] ∨ cstr s = [] := splitLoop_ends_iff
  by_cases hsep : sep = []
  · rw [if_pos hsep]
    have hneedle : cstr sep = [] := by rw [hsep]; rfl
    constructor
    · intro h
      rcases hends.mp h.ends with hne | hnil
      · exact absurd hneedle hne
      · exact hnil
    · intro hnil
      exact ⟨hends.mpr (Or.inr hnil), fun hne => absurd hsep hne⟩
  · rw [if_neg hsep]
    constructor
    · intro h
      rcases h.ends with ⟨rounds, parts, hsplit⟩
      have hjoin := h.join hsep rounds parts hsplit
      by_cases hneedle : cstr sep = []
      · -- the loop has not gone round at all
        have hnil : cstr s = [] := by
          rcases hends.mp h.ends with hne | hnil
          · exact absurd hneedle hne
          · exact hnil
        have hparts : parts = [] := by
          have hone : splitLoop (cstr sep) 1 (cstr s) = some [] := by rw [splitLoop, if_pos hnil]
          exact splitLoop_unique hsplit hone
        have hempty : s = [] := by
          rw [← hjoin, hparts]
          rfl
        exact ⟨by simp [hempty], Or.inl hempty⟩
      · have hzero : 0 ∉ s := hjoin ▸ zero_not_mem_join sep _
        have hcstr := cstr_eq hzero
        have hend := hjoined hneedle rounds parts hsplit
        rw [hcstr] at hend
        refine ⟨hzero, ?_⟩
        rcases hend.mp hjoin with hnil | hlast
        · exact Or.inl hnil
        · exact Or.inr ⟨hneedle, hlast⟩
    · rintro ⟨hzero, hcase⟩
      have hcstr := cstr_eq hzero
      constructor
      · rw [hends, hcstr]
        rcases hcase with hnil | ⟨hneedle, -⟩
        · exact Or.inr hnil
        · exact Or.inl hneedle
      · intro _ rounds parts hsplit
        by_cases hneedle : cstr sep = []
        · have hnil : s = [] := by
            rcases hcase with hnil | ⟨hne, -⟩
            · exact hnil
            · exact absurd hneedle hne
          have hone : splitLoop (cstr sep) 1 (cstr s) = some [] := by
            rw [splitLoop, if_pos (hcstr.trans hnil)]
          rw [splitLoop_unique hsplit hone, hnil]
          rfl
        · have hend := hjoined hneedle rounds parts hsplit
          rw [hcstr] at hend
          apply hend.mpr
          rcases hcase with hnil | ⟨-, hlast⟩
          · exact Or.inl hnil
          · exact Or.inr hlast

/-- The text `a,` falls into the one piece `a`. -/
theorem split_loses_empty : ¬ ∀ s sep, Inverse s sep := by
  intro h
  have hsplit : lxStringSplit 3 [97, 44] [44] = some [[97]] := by decide
  have hjoin := (h [97, 44] [44]).join (by decide) 3 [[97]] hsplit
  revert hjoin
  decide

/-- `split` undoes `join` on no other parts: `join` copies a string up to its NUL byte, an empty last
part is not found again, and nor is a part with the separator in it or reaching into it. -/
theorem split_join_iff {sep : Bytes} (hsep : cstr sep ≠ []) (parts : List Bytes) :
    (∃ rounds, lxStringSplit rounds (lxArrayJoin sep (parts.map .string)) sep = some parts) ↔
      parts = [] ∨ (∀ part ∈ parts, 0 ∉ part) ∧ Intact (cstr sep) parts ∧
        parts.getLast? ≠ some [] := by
  have hzero := zero_not_mem_join sep (parts.map .string)
  have hiff := join_dropEmpty hsep (lxArrayJoin sep (parts.map .string))
  rcases splitLoop_pieces hsep (lxArrayJoin sep (parts.map .string)) with ⟨rounds', hpieces⟩
  unfold lxStringSplit
  rw [cstr_eq hzero]
  constructor
  · rintro ⟨rounds, hsplit⟩
    have hparts := splitLoop_unique hpieces hsplit
    have hnul : ∀ part ∈ parts, 0 ∉ part := by
      intro part hpart hmem
      rw [← hparts, dropEmpty] at hpart
      refine hzero (mem_of_mem_pieces hsep ?_ hmem)
      split at hpart
      · exact List.mem_of_mem_dropLast hpart
      · exact hpart
    have hjoin := join_strings sep hnul
    rw [hparts, hjoin] at hiff
    rcases hiff.mp rfl with hnil | hlast
    · rw [hjoin, hnil, pieces_of_none (by simp [find, hsep])] at hparts
      exact .inl hparts.symm
    · rw [dropEmpty, hjoin, if_neg hlast] at hparts
      exact .inr ⟨hnul, (pieces_intercalate_iff hsep parts).mp hparts, hparts ▸ hlast⟩
  · rintro (rfl | ⟨hnul, hintact, hlast⟩)
    · exact ⟨1, rfl⟩
    · refine ⟨rounds', hpieces.trans ?_⟩
      rw [join_strings sep hnul, (pieces_intercalate_iff hsep parts).mpr hintact, dropEmpty,
        if_neg hlast]

/-- With `", "` the parts `a,` and `b` are found again. -/
theorem split_join_comma : ∃ rounds, lxStringSplit rounds
    (lxArrayJoin [44, 32] ([[97, 44], [98]].map .string)) [44, 32] = some [[97, 44], [98]] := by
  refine (split_join_iff (by decide) [[97, 44], [98]]).mpr (.inr ⟨by decide, ?_, by decide⟩)
  unfold Intact Intact
  decide

end Clox.Splitting
