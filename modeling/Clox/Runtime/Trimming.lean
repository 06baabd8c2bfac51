import Clox.Runtime.Printing
import Mathlib.Data.List.DropRight

/-! # Stripping whitespace

`String#compact` moves a pointer from either end of the string over the whitespace and copies what
is left between the two.
-/

namespace Clox.Trimming

open Clox.Printing (Bytes cstr cstr_eq zero_notMem_cstr)

/-! ## The code -/

/-- `isspace` in the C locale -/
def isspace (c : UInt8) : Bool := c = 32 || (9 ≤ c && c ≤ 13)

/-- The pointers into the string, as offsets from its first byte. -/
structure Pointers where
  start : ℤ
  stop : ℤ
  /-- Every pointer so far was in the buffer, the terminator included. -/
  inside : Bool

/-- The byte at an offset. -/
def byteAt (s : Bytes) (p : ℤ) : UInt8 := s.getD p.toNat 0

def inBuffer (s : Bytes) (p : ℤ) : Bool := 0 ≤ p ∧ p ≤ s.length

def Pointers.setStart (s : Bytes) (p : Pointers) (start : ℤ) : Pointers :=
  { p with start := start, inside := p.inside && inBuffer s start }

def Pointers.setStop (s : Bytes) (p : Pointers) (stop : ℤ) : Pointers :=
  { p with stop := stop, inside := p.inside && inBuffer s stop }

/-- `while (start < end && isspace(*start)) start++;` -/
def skipStart (s : Bytes) (p : Pointers) : Pointers :=
  if p.start < p.stop ∧ isspace (byteAt s p.start) then
    skipStart s (p.setStart s (p.start + 1))
  else p
termination_by (p.stop - p.start).toNat
decreasing_by
  simp only [Pointers.setStart]
  omega

/-- `while (end > start && isspace(*end)) end--;` -/
def skipStop (s : Bytes) (p : Pointers) : Pointers :=
  if p.stop > p.start ∧ isspace (byteAt s p.stop) then
    skipStop s (p.setStop s (p.stop - 1))
  else p
termination_by (p.stop - p.start).toNat
decreasing_by
  simp only [Pointers.setStop]
  omega

/-- The two pointers before the loops. -/
def Pointers.init (s : Bytes) : Pointers :=
  Pointers.setStop s { start := 0, stop := 0, inside := true } ((cstr s).length - 1)

/-- What `pushCString(new, start, end-start+1)` copies. -/
def between (s : Bytes) (p : Pointers) : Bytes :=
  (s.drop p.start.toNat).take (p.stop - p.start + 1).toNat

/-- The new string, and whether the pointers stayed in the buffer. -/
def lxStringCompact (s : Bytes) : Bytes × Bool :=
  let p := skipStop s (skipStart s (.init s))
  (if p.start < p.stop then between s p else [], p.inside)

/-! ## What it is for -/

/-- `s` without the whitespace at its beginning and its end. -/
def strip (s : Bytes) : Bytes := (s.dropWhile isspace).rdropWhile isspace

theorem strip_cons {c : UInt8} (hc : isspace c = true) (s : Bytes) : strip (c :: s) = strip s := by
  rw [strip, List.dropWhile_cons_of_pos hc, strip]

theorem strip_concat {c : UInt8} (hc : isspace c = true) (s : Bytes) :
    strip (s ++ [c]) = strip s := by
  by_cases hall : ∀ d ∈ s, isspace d = true
  · have hall' : ∀ d ∈ s ++ [c], isspace d = true := by
      intro d hd
      rcases List.mem_append.mp hd with hd | hd
      · exact hall d hd
      · rw [List.mem_singleton.mp hd]
        exact hc
    rw [strip, strip, List.dropWhile_eq_nil_iff.mpr hall', List.dropWhile_eq_nil_iff.mpr hall]
  · have hne : s.dropWhile isspace ≠ [] := by
      intro hnil
      exact hall (List.dropWhile_eq_nil_iff.mp hnil)
    rw [strip, List.dropWhile_append, if_neg (by simpa using hne),
      List.rdropWhile_concat_pos _ _ _ hc, strip]

/-- Nothing is taken from a text whose ends are no whitespace. -/
theorem strip_eq_self {c d : UInt8} (hc : isspace c = false) (hd : isspace d = false) (s : Bytes) :
    strip (c :: (s ++ [d])) = c :: (s ++ [d]) := by
  rw [strip, List.dropWhile_cons_of_neg (by simp [hc]), ← List.cons_append,
    List.rdropWhile_concat_neg _ _ _ (by simp [hd])]

theorem strip_strip (s : Bytes) : strip (strip s) = strip s := by
  have hfront : (strip s).dropWhile isspace = strip s := by
    rw [List.dropWhile_eq_self_iff]
    intro hlen
    have hne : strip s ≠ [] := List.ne_nil_of_length_pos hlen
    have hpre : strip s <+: s.dropWhile isspace := List.rdropWhile_prefix _ _
    have hdrop : s.dropWhile isspace ≠ [] := fun hnil => hne (by simpa [hnil] using hpre)
    have hhead : (strip s)[0] = (s.dropWhile isspace).head hdrop := by
      rw [List.head_eq_getElem]
      exact hpre.getElem hlen
    rw [hhead]
    rw [List.head_dropWhile_not isspace hdrop]
    exact Bool.false_ne_true
  rw [strip, hfront, strip, List.rdropWhile_idempotent]

/-! ## The two loops -/

variable {s : Bytes} {p : Pointers}

/-- The pointers are in the string, the left one not behind the right one. -/
structure Pointers.Ordered (s : Bytes) (p : Pointers) : Prop where
  start_nonneg : 0 ≤ p.start
  start_le : p.start ≤ p.stop
  stop_lt : p.stop < s.length

theorem between_start (h : p.Ordered s) (hlt : p.start < p.stop) :
    between s p = byteAt s p.start :: between s (p.setStart s (p.start + 1)) := by
  obtain ⟨start, stop, inside⟩ := p
  obtain ⟨hnonneg, hle, hstop⟩ := h
  obtain ⟨a, rfl⟩ := Int.eq_ofNat_of_zero_le hnonneg
  obtain ⟨b, rfl⟩ := Int.eq_ofNat_of_zero_le (Int.le_trans hnonneg hle)
  have ha : a < s.length := by simp at hlt hstop; omega
  have hcount : ((b : ℤ) - a + 1).toNat = (b - a) + 1 := by simp at hlt; omega
  have hcount' : ((b : ℤ) - (a + 1) + 1).toNat = b - a := by simp at hlt; omega
  have hnext : ((a : ℤ) + 1).toNat = a + 1 := by omega
  simp only [between, Pointers.setStart, byteAt, hcount, hcount', hnext, Int.toNat_natCast]
  rw [List.drop_eq_getElem_cons ha, List.take_succ_cons, List.getD_eq_getElem _ _ ha]

theorem between_stop (h : p.Ordered s) (hlt : p.start < p.stop) :
    between s p = between s (p.setStop s (p.stop - 1)) ++ [byteAt s p.stop] := by
  obtain ⟨start, stop, inside⟩ := p
  obtain ⟨hnonneg, hle, hstop⟩ := h
  obtain ⟨a, rfl⟩ := Int.eq_ofNat_of_zero_le hnonneg
  obtain ⟨b, rfl⟩ := Int.eq_ofNat_of_zero_le (Int.le_trans hnonneg hle)
  have hb : b < s.length := by simp at hstop; omega
  have hab : a < b := by simp at hlt; omega
  have hcount : ((b : ℤ) - a + 1).toNat = (b - a) + 1 := by omega
  have hcount' : ((b : ℤ) - 1 - a + 1).toNat = b - a := by omega
  simp only [between, Pointers.setStop, byteAt, hcount, hcount', Int.toNat_natCast]
  have hlen : b - a < (s.drop a).length := by rw [List.length_drop]; omega
  have hsum : a + (b - a) = b := by omega
  rw [List.take_succ_eq_append_getElem hlen, List.getElem_drop, List.getD_eq_getElem _ _ hb]
  simp only [hsum]

theorem between_self (h : p.Ordered s) (heq : p.start = p.stop) :
    between s p = [byteAt s p.stop] := by
  obtain ⟨start, stop, inside⟩ := p
  obtain ⟨hnonneg, hle, hstop⟩ := h
  obtain ⟨a, rfl⟩ := Int.eq_ofNat_of_zero_le hnonneg
  simp only at heq
  subst heq
  have ha : a < s.length := by simp at hstop; omega
  have hcount : ((a : ℤ) - a + 1).toNat = 1 := by omega
  simp only [between, byteAt, hcount, Int.toNat_natCast]
  rw [List.drop_eq_getElem_cons ha, List.getD_eq_getElem _ _ ha]
  rfl

/-- The text from the left pointer to the right one ends with the byte at the right one. -/
theorem between_last (h : p.Ordered s) : ∃ u, between s p = u ++ [byteAt s p.stop] := by
  rcases lt_or_eq_of_le h.start_le with hlt | heq
  · exact ⟨_, between_stop h hlt⟩
  · exact ⟨[], between_self h heq⟩

theorem inBuffer_of_ordered (h : p.Ordered s) :
    inBuffer s p.start = true ∧ inBuffer s p.stop = true := by
  obtain ⟨hnonneg, hle, hstop⟩ := h
  constructor <;> simp only [inBuffer, decide_eq_true_eq] <;> constructor <;> omega

/-- What the left pointer passes is whitespace; it stops at the right one or at another byte. -/
theorem skipStart_spec (h : p.Ordered s) :
    (skipStart s p).Ordered s ∧ (skipStart s p).stop = p.stop ∧
      (skipStart s p).inside = p.inside ∧
      strip (between s (skipStart s p)) = strip (between s p) ∧
      ((skipStart s p).start = p.stop ∨ isspace (byteAt s (skipStart s p).start) = false) := by
  fun_induction skipStart s p with
  | case1 p hmore ih =>
    have hnext : (p.setStart s (p.start + 1)).Ordered s := by
      obtain ⟨hnonneg, hle, hstop⟩ := h
      exact ⟨by simp only [Pointers.setStart]; omega, by simp only [Pointers.setStart]; omega,
        hstop⟩
    obtain ⟨hordered, hstop, hinside, hstrip, hend⟩ := ih hnext
    refine ⟨hordered, hstop, ?_, ?_, hend⟩
    · rw [hinside]
      have hin := (inBuffer_of_ordered hnext).1
      simp only [Pointers.setStart] at hin ⊢
      rw [hin, Bool.and_true]
    · rw [hstrip, between_start h hmore.1, strip_cons hmore.2]
  | case2 p hdone =>
    refine ⟨h, rfl, rfl, rfl, ?_⟩
    rcases Classical.em (p.start < p.stop) with hlt | hge
    · right
      simpa [hlt] using hdone
    · left
      have hle := h.start_le
      omega

theorem skipStop_spec (h : p.Ordered s) :
    (skipStop s p).Ordered s ∧ (skipStop s p).start = p.start ∧ (skipStop s p).stop ≤ p.stop ∧
      (skipStop s p).inside = p.inside ∧
      strip (between s (skipStop s p)) = strip (between s p) ∧
      ((skipStop s p).stop = p.start ∨ isspace (byteAt s (skipStop s p).stop) = false) := by
  fun_induction skipStop s p with
  | case1 p hmore ih =>
    have hnext : (p.setStop s (p.stop - 1)).Ordered s := by
      obtain ⟨hnonneg, hle, hstop⟩ := h
      exact ⟨hnonneg, by simp only [Pointers.setStop]; omega,
        by simp only [Pointers.setStop]; omega⟩
    obtain ⟨hordered, hstart, hbound, hinside, hstrip, hend⟩ := ih hnext
    refine ⟨hordered, hstart, ?_, ?_, ?_, hend⟩
    · simp only [Pointers.setStop] at hbound ⊢
      omega
    · rw [hinside]
      have hin := (inBuffer_of_ordered hnext).2
      simp only [Pointers.setStop] at hin ⊢
      rw [hin, Bool.and_true]
    · rw [hstrip, between_stop h hmore.1, strip_concat hmore.2]
  | case2 p hdone =>
    refine ⟨h, rfl, le_refl _, rfl, rfl, ?_⟩
    rcases Classical.em (p.start < p.stop) with hlt | hge
    · right
      simpa [hlt] using hdone
    · left
      have hle := h.start_le
      omega

/-! ## Compacting -/

/-- Only whitespace is taken away. -/
theorem mem_strip {c : UInt8} (hc : isspace c = false) (hmem : c ∈ s) : c ∈ strip s := by
  have hdrop : c ∈ s.dropWhile isspace := by
    rw [← List.takeWhile_append_dropWhile (p := isspace) (l := s), List.mem_append] at hmem
    rcases hmem with hmem | hmem
    · rw [List.mem_takeWhile_imp hmem] at hc
      cases hc
    · exact hmem
  rw [← List.rdropWhile_append_rtakeWhile (p := isspace) (l := s.dropWhile isspace),
    List.mem_append] at hdrop
  rcases hdrop with hdrop | hdrop
  · exact hdrop
  · rw [List.mem_rtakeWhile_imp hdrop] at hc
    cases hc

theorem between_init (hne : cstr s ≠ []) :
    (Pointers.init s).Ordered s ∧ (Pointers.init s).inside = true ∧
      between s (.init s) = cstr s := by
  have hpos : 0 < (cstr s).length := List.length_pos_iff.mpr hne
  have hle : (cstr s).length ≤ s.length := (List.takeWhile_prefix _).length_le
  refine ⟨⟨le_refl _, ?_, ?_⟩, ?_, ?_⟩
  · simp only [Pointers.init, Pointers.setStop]
    omega
  · simp only [Pointers.init, Pointers.setStop]
    omega
  · simp only [Pointers.init, Pointers.setStop, inBuffer, Bool.true_and, decide_eq_true_eq]
    omega
  · have hcount : (((cstr s).length : ℤ) - 1 - 0 + 1).toNat = (cstr s).length := by omega
    simp only [between, Pointers.init, Pointers.setStop, hcount]
    exact (List.prefix_iff_eq_take.mp (List.takeWhile_prefix _)).symm

/-- The text between the pointers when both loops have ended. -/
theorem between_end (hne : cstr s ≠ []) {q : Pointers}
    (hq : q = skipStop s (skipStart s (.init s))) :
    q.inside = true ∧
      (q.start < q.stop → between s q = strip (cstr s) ∧ (strip (cstr s)).length ≠ 1) ∧
      (¬ q.start < q.stop → strip (cstr s) = [] ∨ (strip (cstr s)).length = 1) := by
  obtain ⟨hinit, hinside, htext⟩ := between_init hne
  obtain ⟨hleft, hstop, hinside₁, hstrip₁, hend₁⟩ := skipStart_spec hinit
  obtain ⟨hright, hstart, hbound, hinside₂, hstrip₂, hend₂⟩ := skipStop_spec hleft
  have hstrip := hstrip₂.trans hstrip₁
  rw [htext] at hstrip
  rw [← hq] at hright hstart hbound hinside₂ hstrip hend₂
  refine ⟨hinside₂.trans (hinside₁.trans hinside), ?_, ?_⟩
  · intro hlt
    -- the loops have not met: both pointers are at a byte that is no whitespace
    have hc : isspace (byteAt s q.start) = false := by
      rcases hend₁ with heq | hc
      · omega
      · rwa [hstart]
    have hd : isspace (byteAt s q.stop) = false := by
      rcases hend₂ with heq | hd
      · omega
      · exact hd
    have hnext : (q.setStart s (q.start + 1)).Ordered s := by
      obtain ⟨hnonneg, hle, hlast⟩ := hright
      exact ⟨by simp only [Pointers.setStart]; omega, by simp only [Pointers.setStart]; omega,
        hlast⟩
    obtain ⟨u, hu⟩ := between_last hnext
    have hends : between s q = byteAt s q.start :: (u ++ [byteAt s q.stop]) := by
      rw [between_start hright hlt, hu]
      rfl
    have hself : strip (between s q) = between s q := by
      rw [hends, strip_eq_self hc hd]
    rw [hself] at hstrip
    refine ⟨hstrip, ?_⟩
    rw [← hstrip, hends]
    simp
  · intro hmet
    have heq : q.start = q.stop := by
      have hle := hright.start_le
      omega
    rw [between_self hright heq] at hstrip
    by_cases hspace : isspace (byteAt s q.stop) = true
    · left
      simpa [strip, hspace] using hstrip.symm
    · right
      rw [← hstrip]
      simp [strip, hspace, List.rdropWhile_singleton]

/-- With nothing before the NUL the pointers are crossed from the start. -/
theorem init_of_empty (hempty : cstr s = []) :
    (Pointers.init s).start = 0 ∧ (Pointers.init s).stop = -1 ∧
      (Pointers.init s).inside = false := by
  simp [Pointers.init, Pointers.setStop, inBuffer, hempty]

theorem loops_of_empty (hempty : cstr s = []) :
    skipStop s (skipStart s (.init s)) = .init s := by
  obtain ⟨hstart, hstop, -⟩ := init_of_empty hempty
  have hleft : skipStart s (.init s) = .init s := by
    rw [skipStart, if_neg (by omega)]
  rw [hleft, skipStop, if_neg (by omega)]

/-- A text of one byte is lost. -/
theorem compact_text (s : Bytes) : (lxStringCompact s).1 =
    if (strip (cstr s)).length = 1 then [] else strip (cstr s) := by
  by_cases hne : cstr s = []
  · obtain ⟨hstart, hstop, -⟩ := init_of_empty hne
    rw [lxStringCompact, loops_of_empty hne, if_neg (by omega), hne]
    rfl
  · obtain ⟨-, hmore, hmet⟩ := between_end hne rfl
    rw [lxStringCompact]
    by_cases hlt : (skipStop s (skipStart s (.init s))).start <
        (skipStop s (skipStart s (.init s))).stop
    · obtain ⟨htext, hlen⟩ := hmore hlt
      rw [if_neg hlen, ← htext]
      exact if_pos hlt
    · rcases hmet hlt with hnil | hone
      · rw [hnil]
        exact if_neg hlt
      · rw [if_pos hone]
        exact if_neg hlt

/-- The pointer before the first byte is formed for the empty text. -/
theorem compact_inside (s : Bytes) : (lxStringCompact s).2 = true ↔ cstr s ≠ [] := by
  by_cases hne : cstr s = []
  · obtain ⟨-, -, hinside⟩ := init_of_empty hne
    rw [lxStringCompact, loops_of_empty hne]
    simp [hinside, hne]
  · obtain ⟨hinside, -⟩ := between_end hne rfl
    simpa [lxStringCompact, hne] using hinside

/-- The whitespace around the text is taken away, once and for all, with pointers into the string
only. -/
structure Compacts (s : Bytes) : Prop where
  text : (lxStringCompact s).1 = strip s
  idempotent : (lxStringCompact (lxStringCompact s).1).1 = (lxStringCompact s).1
  inside : (lxStringCompact s).2 = true

theorem not_mem_strip {c : UInt8} (hmem : c ∉ s) : c ∉ strip s := by
  intro hstrip
  have hpre : strip s <+: s.dropWhile isspace := List.rdropWhile_prefix _ _
  exact hmem ((List.dropWhile_suffix _).subset (hpre.subset hstrip))

theorem compact_compact (s : Bytes) :
    (lxStringCompact (lxStringCompact s).1).1 = (lxStringCompact s).1 := by
  have hzero : 0 ∉ strip (cstr s) := not_mem_strip (zero_notMem_cstr s)
  rw [compact_text s]
  by_cases hone : (strip (cstr s)).length = 1
  · rw [if_pos hone, compact_text]
    rfl
  · rw [if_neg hone, compact_text, cstr_eq hzero, strip_strip, if_neg hone]

/-- A string is compacted as it should be if and only if it is not empty, holds no NUL byte, and
does not come down to a single byte. -/
theorem compacts_iff (s : Bytes) : Compacts s ↔ s ≠ [] ∧ 0 ∉ s ∧ (strip s).length ≠ 1 := by
  constructor
  · intro h
    have hzero : 0 ∉ s := by
      intro hmem
      have hstrip : 0 ∈ strip s := mem_strip (by decide) hmem
      rw [← h.text, compact_text] at hstrip
      split at hstrip
      · simp at hstrip
      · exact not_mem_strip (zero_notMem_cstr s) hstrip
    have hcstr := cstr_eq hzero
    refine ⟨?_, hzero, ?_⟩
    · rintro rfl
      exact (compact_inside []).mp h.inside rfl
    · intro hone
      have htext := h.text
      rw [compact_text, hcstr, if_pos hone] at htext
      rw [← htext] at hone
      simp at hone
  · rintro ⟨hne, hzero, hone⟩
    have hcstr := cstr_eq hzero
    refine ⟨?_, compact_compact s, ?_⟩
    · rw [compact_text, hcstr, if_neg hone]
    · rw [compact_inside, hcstr]
      exact hne

/-- The text `" a "` comes down to nothing. -/
theorem compact_loses_byte : ¬ ∀ s, Compacts s := by
  intro h
  have htext := (h [32, 97, 32]).text
  rw [compact_text] at htext
  revert htext
  decide

end Clox.Trimming
