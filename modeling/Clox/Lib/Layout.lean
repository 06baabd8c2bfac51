import Mathlib.Data.List.Nodup
import Mathlib.Data.List.Sublists
import Mathlib.Tactic.Linarith

/-! # Layout of keyed, sized cells

A list of cells, each with a key and a size, laid out one after the other from
offset `0`. Positions are named by keys (`some k`: the first word of the cell
with key `k`) or are the end of the layout (`none`). The file relates offsets
in a layout to offsets in a *thinned* layout, one from which cells have been
dropped: a position survives as the first remaining cell at or after it
(`firstSurvivor`), and its new offset is the width of what remains in front of
it (`offset_firstSurvivor`). One edit of a layout, dropping a cell or changing
its size, is described by what it does to the width of every set of keys
(`Resized`).
-/

namespace Layout

variable {α ι : Type} [DecidableEq ι] (key : α → ι) (size : α → ℕ)

/-! ## Widths and offsets -/

/-- Total number of words of a list of cells. -/
def width (l : List α) : ℕ := (l.map size).sum

@[simp] theorem width_nil : width size ([] : List α) = 0 := rfl

@[simp] theorem width_cons (a : α) (l : List α) : width size (a :: l) = size a + width size l := by
  simp [width]

@[simp] theorem width_append (l₁ l₂ : List α) :
    width size (l₁ ++ l₂) = width size l₁ + width size l₂ := by
  simp [width]

/-- Index of the cell with key `k` (the length of the list when there is none). -/
def index (l : List α) (k : ι) : ℕ := (l.map key).idxOf k

/-- First word of the cell with key `k`. -/
def start (l : List α) (k : ι) : ℕ := width size (l.take (index key l k))

/-- Offset of a position: the start of a cell, or the end of the layout. -/
def offset (l : List α) : Option ι → ℕ
  | some k => start key size l k
  | none => width size l

/-- A position of the layout: the end, or a cell that is there. -/
def IsPos (l : List α) : Option ι → Prop
  | some k => k ∈ l.map key
  | none => True

instance (l : List α) : (t : Option ι) → Decidable (IsPos key l t)
  | some _ => inferInstanceAs (Decidable (_ ∈ _))
  | none => inferInstanceAs (Decidable True)

/-- `k` comes before the position `t` in the order of `l`. -/
def before (l : List α) (t : Option ι) (k : ι) : Bool :=
  match t with
  | some t => decide (index key l k < index key l t)
  | none => decide (k ∈ l.map key)

/-- Words of the cells whose key satisfies `P`. -/
def wordsAt (P : ι → Bool) (l : List α) : ℕ := width size (l.filter fun c => P (key c))

/-- The first cell at or after the position `t` of `l₀` that is still in `l`. -/
def firstSurvivor (l₀ l : List α) (t : Option ι) : Option ι :=
  match t with
  | some t => ((l₀.drop (index key l₀ t)).find? fun c => decide (key c ∈ l.map key)).map key
  | none => none

variable {key size}

omit [DecidableEq ι] in
theorem wordsAt_congr {P Q : ι → Bool} {l : List α} (h : ∀ c ∈ l, P (key c) = Q (key c)) :
    wordsAt key size P l = wordsAt key size Q l := by
  unfold wordsAt
  rw [List.filter_congr h]

omit [DecidableEq ι] in
/-- A set of keys and a subset of it: the difference. -/
theorem wordsAt_add_sdiff {P Q : ι → Bool} {l : List α}
    (h : ∀ c ∈ l, P (key c) = true → Q (key c) = true) :
    wordsAt key size P l + wordsAt key size (fun k => Q k && !P k) l = wordsAt key size Q l := by
  induction l with
  | nil => rfl
  | cons c l ih =>
    have ih' := ih fun d hd => h d (List.mem_cons_of_mem _ hd)
    have hc := h c List.mem_cons_self
    unfold wordsAt at ih' ⊢
    by_cases hP : P (key c) = true
    · simp [hP, hc hP] at ih' ⊢
      omega
    · by_cases hQ : Q (key c) = true <;> simp [hP, hQ] at ih' ⊢ <;> omega

/-! ## The order of the cells -/

theorem index_lt_length {l : List α} {k : ι} (h : k ∈ l.map key) : index key l k < l.length := by
  have := List.idxOf_lt_length_of_mem h
  simpa [index] using this

theorem index_cons_self (a : α) (l : List α) : index key (a :: l) (key a) = 0 := by
  simp [index]

theorem index_cons_ne {a : α} {l : List α} {k : ι} (h : key a ≠ k) :
    index key (a :: l) k = index key l k + 1 := by
  simp [index, List.idxOf_cons_ne _ h]

theorem key_getElem_index {l : List α} {k : ι} (h : k ∈ l.map key) :
    key (l.get ⟨index key l k, index_lt_length h⟩) = k := by
  have := List.getElem_idxOf (List.idxOf_lt_length_of_mem h)
  rwa [List.getElem_map] at this

theorem index_key_getElem {l : List α} (hnd : (l.map key).Nodup) {i : ℕ} (hi : i < l.length) :
    index key l (key l[i]) = i := by
  have := hnd.idxOf_getElem i (by simpa using hi)
  rwa [List.getElem_map] at this

/-- The index of a cell is the number of cells in front of it. -/
theorem index_of_split {l pre post : List α} {c : α} (hnd : (l.map key).Nodup)
    (h : l = pre ++ c :: post) : index key l (key c) = pre.length := by
  subst h
  have hlt : pre.length < (pre ++ c :: post).length := by simp
  have := index_key_getElem hnd hlt
  simpa using this

theorem index_inj {l : List α} {a b : ι} (ha : a ∈ l.map key)
    (h : index key l a = index key l b) : a = b := by
  exact (List.idxOf_inj ha).mp h

/-- The cells in front of index `n` are the first `n` cells. -/
theorem filter_index_lt {l : List α} (hnd : (l.map key).Nodup) (n : ℕ) :
    l.filter (fun c => decide (index key l (key c) < n)) = l.take n := by
  induction l generalizing n with
  | nil => simp
  | cons a l ih =>
    rw [List.map_cons, List.nodup_cons] at hnd
    have hne : ∀ c ∈ l, key a ≠ key c := by
      intro c hc h
      exact hnd.1 (h ▸ List.mem_map_of_mem hc)
    cases n with
    | zero => simp
    | succ n =>
      rw [List.take_succ_cons, ← ih hnd.2 n, List.filter_cons_of_pos (by simp [index_cons_self])]
      congr 1
      refine List.filter_congr fun c hc => ?_
      simp [index_cons_ne (hne c hc)]

/-- Dropping cells does not change the order of the others. -/
theorem index_lt_iff_of_sublist {l₀ l : List α} (hnd : (l₀.map key).Nodup)
    (hsub : (l.map key).Sublist (l₀.map key)) {a b : ι}
    (ha : a ∈ l.map key) (hb : b ∈ l.map key) :
    index key l a < index key l b ↔ index key l₀ a < index key l₀ b := by
  have key_fact : ∀ {ks ks₀ : List ι}, ks.Sublist ks₀ → ks₀.Nodup → a ∈ ks → b ∈ ks →
      (ks.idxOf a < ks.idxOf b ↔ ks₀.idxOf a < ks₀.idxOf b) := by
    intro ks ks₀ h
    induction h with
    | slnil => intro _ ha; simp at ha
    | cons x h ih =>
      intro hnd ha hb
      rw [List.nodup_cons] at hnd
      have hxa : x ≠ a := fun e => hnd.1 (e ▸ h.subset ha)
      have hxb : x ≠ b := fun e => hnd.1 (e ▸ h.subset hb)
      rw [List.idxOf_cons_ne _ hxa, List.idxOf_cons_ne _ hxb]
      have := ih hnd.2 ha hb
      omega
    | cons_cons x h ih =>
      intro hnd ha hb
      rw [List.nodup_cons] at hnd
      by_cases hxa : x = a <;> by_cases hxb : x = b
      · simp [← hxa, ← hxb]
      · subst hxa
        simp [List.idxOf_cons_ne _ hxb]
      · subst hxb
        simp
      · have ha' : a ∈ _ := (List.mem_cons.mp ha).resolve_left (Ne.symm hxa)
        have hb' : b ∈ _ := (List.mem_cons.mp hb).resolve_left (Ne.symm hxb)
        rw [List.idxOf_cons_ne _ hxa, List.idxOf_cons_ne _ hxb, List.idxOf_cons_ne _ hxa,
          List.idxOf_cons_ne _ hxb]
        have := ih hnd.2 ha' hb'
        omega
  exact key_fact hsub hnd ha hb

/-! ## Offsets as widths of sets of keys -/

theorem start_eq_wordsAt {l : List α} (hnd : (l.map key).Nodup) (k : ι) :
    start key size l k = wordsAt key size (before key l (some k)) l := by
  unfold start wordsAt before
  rw [← filter_index_lt hnd]

theorem offset_eq_wordsAt {l : List α} (hnd : (l.map key).Nodup) (t : Option ι) :
    offset key size l t = wordsAt key size (before key l t) l := by
  cases t with
  | some k => exact start_eq_wordsAt hnd k
  | none =>
    unfold offset wordsAt before
    rw [List.filter_eq_self.mpr]
    intro c hc
    exact decide_eq_true (List.mem_map_of_mem hc)

/-- Cells of positive size: the starts are ordered as the cells are. -/
theorem start_lt_offset_iff {l : List α} (hpos : ∀ c ∈ l, 0 < size c) {t : Option ι}
    (ht : IsPos key l t) {k : ι} (hk : k ∈ l.map key) :
    start key size l k < offset key size l t ↔ before key l t k = true := by
  have hmono : ∀ {m n : ℕ}, m < n → m < l.length →
      width size (l.take m) < width size (l.take n) := by
    intro m n hmn hm
    have hsplit : l.take n = l.take m ++ (l.take n).drop m := by
      have := List.take_append_drop m (l.take n)
      rw [List.take_take, min_eq_left hmn.le] at this
      exact this.symm
    have hne : (l.take n).drop m ≠ [] := by
      rw [ne_eq, List.drop_eq_nil_iff, List.length_take]
      omega
    obtain ⟨c, cs, hc⟩ := List.exists_cons_of_ne_nil hne
    have hcl : c ∈ l := by
      have : c ∈ (l.take n).drop m := by simp [hc]
      exact List.mem_of_mem_take (List.mem_of_mem_drop this)
    have := hpos c hcl
    rw [hsplit, width_append, hc, width_cons]
    omega
  have hle : ∀ {m n : ℕ}, m ≤ n → width size (l.take m) ≤ width size (l.take n) := by
    intro m n hmn
    have hsplit : l.take n = l.take m ++ (l.take n).drop m := by
      have := List.take_append_drop m (l.take n)
      rw [List.take_take, min_eq_left hmn] at this
      exact this.symm
    rw [hsplit, width_append]
    omega
  have hki := index_lt_length hk
  cases t with
  | some t =>
    simp only [offset, start, before, decide_eq_true_eq]
    constructor
    · intro h
      by_contra hge
      exact absurd h (not_lt.mpr (hle (not_lt.mp hge)))
    · intro h
      exact hmono h hki
  | none =>
    simp only [offset, start, before, decide_eq_true_eq]
    refine ⟨fun _ => hk, fun _ => ?_⟩
    have := hmono (n := l.length) hki hki
    rwa [List.take_length] at this

/-! ## Positions in a thinned layout -/

/-- What the first survivor of a position is: it is there, and it splits the
remaining cells as the position split the cells of the old layout. -/
theorem firstSurvivor_spec {l₀ l : List α} (hnd : (l₀.map key).Nodup)
    (hsub : (l.map key).Sublist (l₀.map key)) {t : Option ι} (ht : IsPos key l₀ t) :
    IsPos key l (firstSurvivor key l₀ l t) ∧
      ∀ k ∈ l.map key, before key l (firstSurvivor key l₀ l t) k = before key l₀ t k := by
  cases t with
  | none =>
    refine ⟨trivial, fun k hk => ?_⟩
    simp only [firstSurvivor, before]
    rw [decide_eq_true hk, decide_eq_true (hsub.subset hk)]
  | some t =>
    -- the cell `k` is found from `t` on at its index less that of `t`
    have hget : ∀ {k} (hk : k ∈ l₀.map key), index key l₀ t ≤ index key l₀ k →
        ∃ hj : index key l₀ k - index key l₀ t < (l₀.drop (index key l₀ t)).length,
          key ((l₀.drop (index key l₀ t))[index key l₀ k - index key l₀ t]) = k := by
      intro k hk hle
      have hlt := index_lt_length hk
      refine ⟨by rw [List.length_drop]; omega, ?_⟩
      rw [List.getElem_drop]
      simp only [Nat.add_sub_cancel' hle]
      exact key_getElem_index hk
    rcases hf : (l₀.drop (index key l₀ t)).find? (fun c => decide (key c ∈ l.map key)) with _ | c
    · -- nothing from `t` on survives: the end
      have hfs : firstSurvivor key l₀ l (some t) = none := by
        simp only [firstSurvivor]
        rw [hf]
        rfl
      rw [hfs]
      refine ⟨trivial, fun k hk => ?_⟩
      have hlt : index key l₀ k < index key l₀ t := by
        by_contra hge
        obtain ⟨hj, hkey⟩ := hget (hsub.subset hk) (not_lt.mp hge)
        have := List.find?_eq_none.mp hf _ (List.getElem_mem hj)
        rw [hkey] at this
        exact this (decide_eq_true hk)
      simp only [before]
      rw [decide_eq_true hk, decide_eq_true hlt]
    · have hfs : firstSurvivor key l₀ l (some t) = some (key c) := by
        simp only [firstSurvivor]
        rw [hf]
        rfl
      rw [hfs]
      obtain ⟨hcl, i, hi, hic, hmin⟩ := List.find?_eq_some_iff_getElem.mp hf
      have hcl' : key c ∈ l.map key := of_decide_eq_true hcl
      refine ⟨hcl', fun k hk => ?_⟩
      have hci : index key l₀ (key c) = index key l₀ t + i := by
        rw [← hic, List.getElem_drop]
        exact index_key_getElem hnd _
      have hkc : index key l₀ k < index key l₀ (key c) ↔ index key l₀ k < index key l₀ t := by
        refine ⟨fun h => ?_, fun h => by omega⟩
        by_contra hge
        obtain ⟨hj, hkey⟩ := hget (hsub.subset hk) (not_lt.mp hge)
        have := hmin (index key l₀ k - index key l₀ t) (by omega)
        rw [hkey, decide_eq_true hk] at this
        simp at this
      simp only [before]
      rw [decide_eq_decide]
      exact (index_lt_iff_of_sublist hnd hsub hk hcl').trans hkc

/-- The offset of a surviving position is the width of what remains in front of it. -/
theorem offset_firstSurvivor {l₀ l : List α} (hnd : (l₀.map key).Nodup)
    (hsub : (l.map key).Sublist (l₀.map key)) {t : Option ι} (ht : IsPos key l₀ t) :
    offset key size l (firstSurvivor key l₀ l t) = wordsAt key size (before key l₀ t) l := by
  rw [offset_eq_wordsAt (hsub.nodup hnd)]
  refine wordsAt_congr fun c hc => ?_
  exact (firstSurvivor_spec hnd hsub ht).2 _ (List.mem_map_of_mem hc)

/-- A remaining cell starts in front of a surviving position when it came before it. -/
theorem start_lt_wordsAt_iff {l₀ l : List α} (hnd : (l₀.map key).Nodup)
    (hsub : (l.map key).Sublist (l₀.map key)) (hpos : ∀ c ∈ l, 0 < size c) {t : Option ι}
    (ht : IsPos key l₀ t) {k : ι} (hk : k ∈ l.map key) :
    start key size l k < wordsAt key size (before key l₀ t) l ↔ before key l₀ t k = true := by
  obtain ⟨hp, hb⟩ := firstSurvivor_spec hnd hsub ht
  rw [← offset_firstSurvivor hnd hsub ht, start_lt_offset_iff hpos hp hk, hb k hk]

/-- The keys from the position `a` up to the position `b`. -/
def between (key : α → ι) (l : List α) (a b : Option ι) (k : ι) : Bool :=
  before key l b k && !before key l a k

/-- The distance of two positions in a thinned layout is the width of what remains between
them. -/
theorem offset_add_between {l₀ l : List α} (hnd : (l₀.map key).Nodup)
    (hsub : (l.map key).Sublist (l₀.map key)) (hpos : ∀ c ∈ l₀, 0 < size c) {a b : Option ι}
    (ha : IsPos key l₀ a) (hb : IsPos key l₀ b)
    (hab : offset key size l₀ a ≤ offset key size l₀ b) :
    offset key size l (firstSurvivor key l₀ l a) + wordsAt key size (between key l₀ a b) l =
      offset key size l (firstSurvivor key l₀ l b) := by
  rw [offset_firstSurvivor hnd hsub ha, offset_firstSurvivor hnd hsub hb]
  refine wordsAt_add_sdiff fun c hc h => ?_
  have hk := hsub.subset (List.mem_map_of_mem hc)
  rw [← start_lt_offset_iff hpos ha hk] at h
  rw [← start_lt_offset_iff hpos hb hk]
  exact h.trans_le hab

/-! ## Editing one cell -/

/-- `l'` is `l` after the cell `x`, of size `m`, was given size `n` (or was dropped, `n` being
`0`): every set of keys is wider or narrower by exactly that when it has `x`. -/
structure Resized (key : α → ι) (size : α → ℕ) (l l' : List α) (x : ι) (m n : ℕ) : Prop where
  keys : (l'.map key).Sublist (l.map key)
  words : ∀ P : ι → Bool, wordsAt key size P l' + (if P x then m else 0) =
    wordsAt key size P l + (if P x then n else 0)

/-- Dropping the cell `x`. -/
theorem resized_remove {l : List α} (hnd : (l.map key).Nodup) {c : α} (hc : c ∈ l) :
    Resized key size l (l.filter fun d => key d ≠ key c) (key c) (size c) 0 := by
  refine ⟨List.Sublist.map _ List.filter_sublist, fun P => ?_⟩
  induction l with
  | nil => simp at hc
  | cons a l ih =>
    rw [List.map_cons, List.nodup_cons] at hnd
    rcases List.mem_cons.mp hc with rfl | hcl
    · have hrest : l.filter (fun d => decide (key d ≠ key c)) = l := by
        rw [List.filter_eq_self]
        intro d hd
        have hne : key d ≠ key c := fun h => hnd.1 (h ▸ List.mem_map_of_mem hd)
        exact decide_eq_true hne
      rw [List.filter_cons_of_neg (by simp), hrest]
      by_cases hP : P (key c) = true <;> simp [wordsAt, hP, Nat.add_comm]
    · have hne : key a ≠ key c := fun h => hnd.1 (h ▸ List.mem_map_of_mem hcl)
      have := ih hnd.2 hcl
      rw [List.filter_cons_of_pos (by simpa using hne)]
      unfold wordsAt at this ⊢
      by_cases hPa : P (key a) = true <;> by_cases hPc : P (key c) = true <;>
        simp [hPa, hPc, List.filter_filter] at this ⊢ <;> omega

omit [DecidableEq ι] in
/-- Updating cells in place without resizing them. -/
theorem wordsAt_map {f : α → α} {l : List α} (hkey : ∀ d, key (f d) = key d)
    (hsize : ∀ d ∈ l, size (f d) = size d) (P : ι → Bool) :
    wordsAt key size P (l.map f) = wordsAt key size P l := by
  induction l with
  | nil => rfl
  | cons d l ih =>
    have hd := hsize d List.mem_cons_self
    have ih' := ih fun e he => hsize e (List.mem_cons_of_mem _ he)
    unfold wordsAt at ih' ⊢
    by_cases hP : P (key d) = true <;> simp [hP, hkey, hd, ih']

omit [DecidableEq ι] in
/-- Updating cells in place, only `x` changing its size. -/
theorem resized_map {l : List α} (hnd : (l.map key).Nodup) {c : α} (hc : c ∈ l) {f : α → α}
    (hkey : ∀ d, key (f d) = key d) (hsize : ∀ d ∈ l, key d ≠ key c → size (f d) = size d) :
    Resized key size l (l.map f) (key c) (size c) (size (f c)) := by
  have hkeys : (l.map f).map key = l.map key := by simp [hkey]
  refine ⟨hkeys ▸ List.Sublist.refl _, fun P => ?_⟩
  clear hkeys
  induction l with
  | nil => simp at hc
  | cons a l ih =>
    rw [List.map_cons, List.nodup_cons] at hnd
    rcases List.mem_cons.mp hc with rfl | hcl
    · -- the cells behind `x` keep their sizes
      have hrest : wordsAt key size P (l.map f) = wordsAt key size P l := by
        refine wordsAt_map hkey (fun d hd => ?_) P
        exact hsize d (List.mem_cons_of_mem _ hd) fun h => hnd.1 (h ▸ List.mem_map_of_mem hd)
      unfold wordsAt at hrest ⊢
      by_cases hP : P (key c) = true <;> simp [hP, hkey] at hrest ⊢ <;> omega
    · have hne : key a ≠ key c := fun h => hnd.1 (h ▸ List.mem_map_of_mem hcl)
      have ih' := ih hnd.2 hcl fun d hd => hsize d (List.mem_cons_of_mem _ hd)
      have ha := hsize a List.mem_cons_self hne
      unfold wordsAt at ih' ⊢
      by_cases hPa : P (key a) = true <;> simp [hPa, hkey, ha] at ih' ⊢ <;> omega

namespace Resized

variable {l₀ l l' : List α} {x : ι} {m n : ℕ}

omit [DecidableEq ι] in
/-- Cells updated in place without resizing them, before the edit. -/
theorem of_map {f : α → α} (hkey : ∀ d, key (f d) = key d) (hsize : ∀ d ∈ l, size (f d) = size d)
    (h : Resized key size (l.map f) l' x m n) : Resized key size l l' x m n := by
  have hkeys : (l.map f).map key = l.map key := by simp [hkey]
  refine ⟨hkeys ▸ h.keys, fun P => ?_⟩
  rw [h.words, wordsAt_map hkey hsize]

omit [DecidableEq ι] in
/-- Cells updated in place without resizing them, after the edit. -/
theorem map {f : α → α} (hkey : ∀ d, key (f d) = key d) (hsize : ∀ d ∈ l', size (f d) = size d)
    (h : Resized key size l l' x m n) : Resized key size l (l'.map f) x m n := by
  have hkeys : (l'.map f).map key = l'.map key := by simp [hkey]
  refine ⟨hkeys ▸ h.keys, fun P => ?_⟩
  rw [wordsAt_map hkey hsize, h.words]

/-- The start of another cell moves by the change when `x` was in front of it. -/
theorem start_eq (h : Resized key size l l' x m n) (hnd : (l.map key).Nodup) {k : ι}
    (hk : k ∈ l'.map key) :
    start key size l' k + (if before key l (some k) x then m else 0) =
      start key size l k + (if before key l (some k) x then n else 0) := by
  have hcongr : wordsAt key size (before key l' (some k)) l' =
      wordsAt key size (before key l (some k)) l' := by
    refine wordsAt_congr fun c hc => ?_
    simp only [before]
    rw [decide_eq_decide]
    exact index_lt_iff_of_sublist hnd h.keys (List.mem_map_of_mem hc) hk
  rw [start_eq_wordsAt (h.keys.nodup hnd), start_eq_wordsAt hnd, hcongr]
  exact h.words _

end Resized

end Layout
