import Clox.Lib.Displacement

/-! # Closing a gap

When an item is deleted from a ring of cells, the items behind it may have to move up: the
first one whose search goes over the gap moves into it and leaves a gap behind, and so on to
the next empty cell. The file says where the items are afterwards.
-/

namespace Probing

variable {α : Type}

/-- The search for an item in the cell `j` goes over the cell `gap`. -/
def crosses (n home gap j : ℕ) : Bool := decide (distance n home gap < distance n home j)

/-- Items move into the gap from the cell `j` on; `none` when there is no empty cell within
`fuel` cells. -/
def closeGap (home : α → ℕ) : ℕ → List (Option α) → ℕ → ℕ → Option (List (Option α))
  | 0, _, _, _ => none
  | fuel + 1, cells, gap, j =>
    match cells[j]? with
    | none => none
    | some none => some cells
    | some (some a) =>
      if crosses cells.length (home a) gap j then
        closeGap home fuel ((cells.set gap (some a)).set j none) j (slot cells.length j 1)
      else closeGap home fuel cells gap (slot cells.length j 1)

/-- The item that moves into the gap. -/
def gapFiller (home : α → ℕ) (cells : List (Option α)) (gap : ℕ) : ℕ → ℕ → Option α
  | 0, _ => none
  | fuel + 1, j =>
    match cells[j]? with
    | none => none
    | some none => none
    | some (some a) =>
      if crosses cells.length (home a) gap j then some a
      else gapFiller home cells gap fuel (slot cells.length j 1)

variable {home : α → ℕ} {cells : List (Option α)} {i j gap x y last fuel : ℕ} {a : α}

/-- What closing a gap `x` cells behind `i` makes of the cells, counted from `i` on. -/
structure Closed (home : α → ℕ) (i : ℕ) (cells : List (Option α)) (x : ℕ) (filler : Option α)
    (cells' : List (Option α)) : Prop where
  length : cells'.length = cells.length
  filled : cells'[slot cells.length i x]? = some filler
  front : ∀ e < x, cells'[slot cells.length i e]? = cells[slot cells.length i e]?
  /-- Items move towards the gap. -/
  moved : ∀ e < cells.length, ∀ a, cells[slot cells.length i e]? = some (some a) →
    ∃ e' ≤ e, cells'[slot cells.length i e']? = some (some a)
  /-- No items are added. -/
  source : ∀ e < cells.length, ∀ a, cells'[slot cells.length i e]? = some (some a) →
    ∃ e', e ≤ e' ∧ e' < cells.length ∧ cells[slot cells.length i e']? = some (some a)

/-- There is a cell in every place of the ring. -/
theorem exists_cell (cells : List (Option α)) (hn : 0 < cells.length) (h d : ℕ) :
    ∃ c, cells[slot cells.length h d]? = some c :=
  ⟨_, List.getElem?_eq_getElem (slot_lt hn h d)⟩

theorem closeGap_eq_some (home : α → ℕ) (cells : List (Option α)) (i x y last fuel : ℕ) (hxy : x < y) (hyl : y ≤ last) (hlast : last < cells.length)
    (hgap : cells[slot cells.length i x]? = some none)
    (hend : cells[slot cells.length i last]? = some none) (hfuel : last < y + fuel) :
    ∃ cells', closeGap home fuel cells (slot cells.length i x) (slot cells.length i y) =
        some cells' ∧
      Closed home i cells x
        (gapFiller home cells (slot cells.length i x) fuel (slot cells.length i y)) cells' := by
  induction fuel generalizing cells x y with
  | zero => omega
  | succ fuel ih =>
    have hne : ∀ {e e' : ℕ}, e < cells.length → e' < cells.length → e ≠ e' →
        slot cells.length i e ≠ slot cells.length i e' :=
      fun he he' hne heq => hne (slot_inj he he' heq)
    have hnext : slot cells.length (slot cells.length i y) 1 = slot cells.length i (y + 1) :=
      slot_slot ..
    rcases exists_cell cells (by omega) i y with ⟨c, hc⟩
    cases c with
    | none =>
      refine ⟨cells, by rw [closeGap, hc], ?_⟩
      rw [gapFiller, hc]
      exact ⟨rfl, hgap, fun _ _ => rfl, fun e _ a ha => ⟨e, le_rfl, ha⟩,
        fun e he a ha => ⟨e, le_rfl, he, ha⟩⟩
    | some a =>
      have hyl' : y ≠ last := by
        rintro rfl
        rw [hend] at hc
        cases hc
      rw [closeGap, gapFiller, hc]
      simp only [hnext]
      by_cases hcross :
          crosses cells.length (home a) (slot cells.length i x) (slot cells.length i y) = true
      · -- `a` moves into the gap, and its cell becomes the gap
        simp only [if_pos hcross]
        have hlen : ((cells.set (slot cells.length i x) (some a)).set (slot cells.length i y)
            none).length = cells.length := by simp
        have hat : ∀ e < cells.length, e ≠ x → e ≠ y →
            ((cells.set (slot cells.length i x) (some a)).set (slot cells.length i y)
              none)[slot cells.length i e]? = cells[slot cells.length i e]? := by
          intro e he hex hey
          rw [getElem?_set_of_ne (hne he (by omega) hey), getElem?_set_of_ne (hne he (by omega) hex)]
        have hatx : ((cells.set (slot cells.length i x) (some a)).set (slot cells.length i y)
            none)[slot cells.length i x]? = some (some a) := by
          rw [getElem?_set_of_ne (hne (by omega) (by omega) (by omega)),
            List.getElem?_set_self (slot_lt (by omega) i x)]
        have haty : ((cells.set (slot cells.length i x) (some a)).set (slot cells.length i y)
            none)[slot cells.length i y]? = some none :=
          List.getElem?_set_self (by simpa using slot_lt (by omega) i y)
        generalize (cells.set (slot cells.length i x) (some a)).set (slot cells.length i y) none =
          cells₁ at hlen hat hatx haty ⊢
        have hrun := ih cells₁ y (y + 1)
        rw [hlen] at hrun
        rcases hrun (by omega) (by omega) hlast haty
          (by rw [hat last hlast (by omega) (by omega)]; exact hend) (by omega) with ⟨cells', hclose, hcl⟩
        refine ⟨cells', hclose, ?_⟩
        constructor
        · exact hcl.length.trans hlen
        · have := hcl.front x hxy
          rwa [hlen, hatx] at this
        · intro e he
          have := hcl.front e (by omega)
          rwa [hlen, hat e (by omega) (by omega) (by omega)] at this
        · intro e he b hb
          by_cases hey : e = y
          · subst hey
            rw [hc] at hb
            obtain rfl := Option.some.inj (Option.some.inj hb)
            have := hcl.front x hxy
            rw [hlen, hatx] at this
            exact ⟨x, hxy.le, this⟩
          · have hex : e ≠ x := by
              rintro rfl
              rw [hgap] at hb
              cases hb
            have := hcl.moved e (by omega) b (by rw [hlen, hat e he hex hey]; exact hb)
            rwa [hlen] at this
        · intro e he b hb
          rcases hcl.source e (by omega) b (by rw [hlen]; exact hb) with ⟨e', hee', he', hb'⟩
          rw [hlen] at he' hb'
          by_cases hex : e' = x
          · subst hex
            rw [hatx] at hb'
            obtain rfl := Option.some.inj (Option.some.inj hb')
            exact ⟨y, by omega, by omega, hc⟩
          · by_cases hey : e' = y
            · subst hey
              rw [haty] at hb'
              cases hb'
            · rw [hat e' he' hex hey] at hb'
              exact ⟨e', hee', he', hb'⟩
      · simp only [if_neg hcross]
        exact ih cells x (y + 1) (by omega) (by omega) hlast hgap hend (by omega)

/-! ## Searches over the gap -/

/-- On the way from an item's home to its cell there is no empty cell but the gap. -/
def OnlyGap (home : α → ℕ) (cells : List (Option α)) (gap : ℕ) : Prop :=
  ∀ c a, cells[c]? = some (some a) → ∀ e < distance cells.length (home a) c,
    slot cells.length (home a) e = gap ∨ ∃ b, cells[slot cells.length (home a) e]? = some (some b)

/-- After an item has been taken out, all others are still found if the gap is stepped over. -/
theorem onlyGap_of_found (stop : α → α → Bool) (hi : i < cells.length)
    (hfound : ∀ (c : ℕ) a, cells[c]? = some (some a) → Found (stop a) cells (home a) c) :
    OnlyGap home (cells.set i none) i := by
  intro c a hc e he
  rw [List.length_set] at he ⊢
  have hci : c ≠ i := by
    rintro rfl
    rw [List.getElem?_set_self hi] at hc
    cases hc
  rw [getElem?_set_of_ne hci] at hc
  have hclt : c < cells.length := (List.getElem?_eq_some_iff.mp hc).1
  rcases (hfound c a hc).exists_lt (by omega) with ⟨d, hd, rfl, hpass⟩
  rw [distance_slot hd] at he
  rcases hpass e he with ⟨b, hb, -⟩
  by_cases hei : slot cells.length (home a) e = i
  · exact .inl hei
  · exact .inr ⟨b, by rw [getElem?_set_of_ne hei]; exact hb⟩

/-- Where an item that is taken out is put in again: in the gap if its search goes over it, in its
own cell if not. -/
theorem OnlyGap.found {stop : α → Bool} (ho : OnlyGap home cells gap)
    (hj : cells[j]? = some (some a)) (hgap : cells[gap]? = some none)
    (hstop : ∀ (c : ℕ) b, (cells.set j none)[c]? = some (some b) → stop b = false) :
    Found stop (cells.set j none) (home a)
      (if crosses cells.length (home a) gap j then gap else j) := by
  have hjlt : j < cells.length := (List.getElem?_eq_some_iff.mp hj).1
  have hgaplt : gap < cells.length := (List.getElem?_eq_some_iff.mp hgap).1
  have hgj : gap ≠ j := by
    rintro rfl
    rw [hj] at hgap
    cases hgap
  have hlen : (cells.set j none).length = cells.length := List.length_set ..
  have hpass : ∀ e < distance cells.length (home a) j, slot cells.length (home a) e ≠ gap →
      Passes stop (cells.set j none) (slot cells.length (home a) e) := by
    intro e he hne
    rcases ho j a hj e he with heq | ⟨b, hb⟩
    · exact absurd heq hne
    · have hej : slot cells.length (home a) e ≠ j := by
        intro heq
        have hdist := distance_lt (h := home a) (i := j) (show 0 < cells.length by omega)
        have := distance_slot (h := home a) (show e < cells.length by omega)
        rw [heq] at this
        omega
      rw [← getElem?_set_of_ne (x := none) hej] at hb
      exact ⟨b, hb, hstop _ b hb⟩
  split
  · rename_i hcross
    have hlt : distance cells.length (home a) gap < distance cells.length (home a) j := by
      simpa [crosses] using hcross
    refine ⟨distance cells.length (home a) gap, by rw [hlen, slot_distance hgaplt], ?_, ?_⟩
    · rintro ⟨b, hb, -⟩
      rw [getElem?_set_of_ne hgj, hgap] at hb
      cases hb
    · intro e he
      rw [hlen]
      refine hpass e (by omega) ?_
      intro heq
      have hdist := distance_lt (h := home a) (i := gap) (show 0 < cells.length by omega)
      have := distance_slot (h := home a) (show e < cells.length by omega)
      rw [heq] at this
      omega
  · rename_i hcross
    have hle : distance cells.length (home a) j ≤ distance cells.length (home a) gap := by
      simpa [crosses] using hcross
    refine ⟨distance cells.length (home a) j, by rw [hlen, slot_distance hjlt], ?_, ?_⟩
    · rintro ⟨b, hb, -⟩
      rw [List.getElem?_set_self hjlt] at hb
      cases hb
    · intro e he
      rw [hlen]
      refine hpass e he ?_
      intro heq
      have hdist := distance_lt (h := home a) (i := j) (show 0 < cells.length by omega)
      have := distance_slot (h := home a) (show e < cells.length by omega)
      rw [heq] at this
      omega

/-- An item moves into the gap: its cell is the gap now. -/
theorem OnlyGap.move (ho : OnlyGap home cells gap) (hj : cells[j]? = some (some a))
    (hgap : cells[gap]? = some none)
    (hcross : crosses cells.length (home a) gap j = true) :
    OnlyGap home ((cells.set gap (some a)).set j none) j := by
  have hjlt : j < cells.length := (List.getElem?_eq_some_iff.mp hj).1
  have hgaplt : gap < cells.length := (List.getElem?_eq_some_iff.mp hgap).1
  have hlt : distance cells.length (home a) gap < distance cells.length (home a) j := by
    simpa [crosses] using hcross
  have hlen : ((cells.set gap (some a)).set j none).length = cells.length := by simp
  have hgj : gap ≠ j := by
    rintro rfl
    rw [hj] at hgap
    cases hgap
  -- what was full is full, but for the cell `j`
  have hfull : ∀ c b, cells[c]? = some (some b) → c ≠ j →
      ((cells.set gap (some a)).set j none)[c]? = some (some b) := by
    intro c b hb hcj
    have hcg : c ≠ gap := by
      rintro rfl
      rw [hgap] at hb
      cases hb
    rw [getElem?_set_of_ne hcj, getElem?_set_of_ne hcg]
    exact hb
  have hatgap : ((cells.set gap (some a)).set j none)[gap]? = some (some a) := by
    rw [getElem?_set_of_ne hgj, List.getElem?_set_self hgaplt]
  have hpath : ∀ c b, cells[c]? = some (some b) → ∀ e < distance cells.length (home b) c,
      slot cells.length (home b) e = j ∨
        ∃ b', ((cells.set gap (some a)).set j none)[slot cells.length (home b) e]? = some (some b') := by
    intro c b hc e he
    by_cases hej : slot cells.length (home b) e = j
    · exact .inl hej
    rcases ho c b hc e he with heq | ⟨b', hb'⟩
    · exact .inr ⟨a, by rw [heq]; exact hatgap⟩
    · exact .inr ⟨b', hfull _ b' hb' hej⟩
  intro c b hc e he
  rw [hlen] at he ⊢
  have hcj : c ≠ j := by
    rintro rfl
    rw [List.getElem?_set_self (by simpa using hjlt)] at hc
    cases hc
  rw [getElem?_set_of_ne hcj] at hc
  by_cases hcg : c = gap
  · subst hcg
    rw [List.getElem?_set_self hgaplt] at hc
    obtain rfl := Option.some.inj (Option.some.inj hc)
    exact hpath j a hj e (by omega)
  · rw [getElem?_set_of_ne hcg] at hc
    exact hpath c b hc e he

end Probing
