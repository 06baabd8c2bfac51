import Mathlib.Data.List.Nodup
import Mathlib.Logic.Function.Basic

/-! # Marking with a stack

A graph is marked from some of its nodes on: a node that is met for the first time is marked
and pushed, and a node that is popped has its references met. Nodes that bear a mark at the
beginning are not gone through. What is marked at the end is what can be reached without
them.
-/

variable {α : Type}

namespace Worklist

/-- Reached from the roots by references, without going through a node of `old`. -/
inductive Reaches (old : α → Prop) (refs : α → List α) (roots : α → Prop) : α → Prop where
  | root {a : α} : roots a → ¬ old a → Reaches old refs roots a
  | ref {a b : α} : Reaches old refs roots a → b ∈ refs a → ¬ old b → Reaches old refs roots b

namespace Reaches

variable {old old' : α → Prop} {refs refs' : α → List α} {roots roots' : α → Prop} {a : α}

theorem not_old (h : Reaches old refs roots a) : ¬ old a := by
  cases h with
  | root _ hold => exact hold
  | ref _ _ hold => exact hold

theorem mono (hold : ∀ a, old' a → old a) (hrefs : ∀ a b, b ∈ refs a → b ∈ refs' a)
    (hroots : ∀ a, roots a → roots' a) (h : Reaches old refs roots a) :
    Reaches old' refs' roots' a := by
  induction h with
  | root hroot hnot => exact .root (hroots _ hroot) fun hmem => hnot (hold _ hmem)
  | ref _ hmem hnot ih => exact .ref ih (hrefs _ _ hmem) fun hmem => hnot (hold _ hmem)

/-- Of a property that some node reached does not have, a first one does not have it: it is
reached through nodes that do. -/
theorem first {p : α → Prop} (h : Reaches old refs roots a) (ha : ¬ p a) :
    ∃ b, ¬ p b ∧ Reaches old refs roots b ∧
      ∀ refs', (∀ c, p c → ∀ d ∈ refs c, d ∈ refs' c) → Reaches old refs' roots b := by
  -- the path is either good up to its end, or has a first bad node
  have hpath : (∀ refs', (∀ c, p c → ∀ d ∈ refs c, d ∈ refs' c) → Reaches old refs' roots a) ∨
      ∃ b, ¬ p b ∧ Reaches old refs roots b ∧
        ∀ refs', (∀ c, p c → ∀ d ∈ refs c, d ∈ refs' c) → Reaches old refs' roots b := by
    clear ha
    induction h with
    | root hroot hnot => exact .inl fun _ _ => .root hroot hnot
    | @ref a b hreach hmem hnot ih =>
      rcases ih with hgood | hbad
      · by_cases hp : p a
        · exact .inl fun refs' hrefs => .ref (hgood refs' hrefs) (hrefs a hp b hmem) hnot
        · exact .inr ⟨a, hp, hreach, hgood⟩
      · exact .inr hbad
  rcases hpath with hgood | hbad
  · exact ⟨a, ha, h, hgood⟩
  · exact hbad

end Reaches

end Worklist

/-- The marks, and the stack of the nodes that are marked and wait to be gone through. -/
structure Worklist (α : Type) where
  dark : α → Bool
  stack : List α

namespace Worklist

variable [DecidableEq α]

/-- A node is met. -/
def gray (w : Worklist α) (a : α) : Worklist α :=
  if w.dark a then w else { dark := Function.update w.dark a true, stack := a :: w.stack }

/-- The node on top of the stack is popped, and its references are met; `fuel` times. -/
def blacken (refs : α → List α) : ℕ → Worklist α → Worklist α
  | 0, w => w
  | fuel + 1, w =>
    match w.stack with
    | [] => w
    | a :: stack => blacken refs fuel ((refs a).foldl gray { w with stack := stack })

/-- Marks from the roots until the stack is empty. -/
def close (refs : α → List α) (nodes roots : List α) (dark : α → Bool) : Worklist α :=
  blacken refs nodes.length (roots.foldl gray ⟨dark, []⟩)

variable {refs : α → List α} {nodes roots : List α} {w w' : Worklist α} {a b : α}

theorem gray_dark : (w.gray a).dark b = true ↔ w.dark b = true ∨ b = a := by
  unfold gray
  split
  next ha =>
    constructor
    · exact .inl
    · rintro (hb | rfl)
      · exact hb
      · exact ha
  next ha =>
    by_cases hba : b = a
    · simp [hba]
    · simp [hba]

theorem mem_gray_stack : b ∈ (w.gray a).stack ↔ b ∈ w.stack ∨ b = a ∧ w.dark a = false := by
  unfold gray
  split
  next ha => simp [ha]
  next ha =>
    simp only [Bool.not_eq_true] at ha
    simp [ha, or_comm]

theorem grays_dark (as : List α) : (as.foldl gray w).dark b = true ↔ w.dark b = true ∨ b ∈ as := by
  induction as generalizing w with
  | nil => simp
  | cons a as ih => rw [List.foldl_cons, ih, gray_dark, List.mem_cons, or_assoc]

theorem mem_grays_stack (as : List α) :
    b ∈ (as.foldl gray w).stack ↔ b ∈ w.stack ∨ b ∈ as ∧ w.dark b = false := by
  induction as generalizing w with
  | nil => simp
  | cons a as ih =>
    have hdark : (w.gray a).dark b = false ↔ w.dark b = false ∧ b ≠ a := by
      rw [← Bool.not_eq_true, gray_dark, not_or, Bool.not_eq_true]
    rw [List.foldl_cons, ih, mem_gray_stack, hdark, List.mem_cons]
    by_cases hba : b = a
    · subst hba
      simp
    · simp [hba]

/-! ## What is marked -/

/-- Everything marked is old or reached, and of what is marked only the stack waits. -/
structure Sound (dark : α → Bool) (refs : α → List α) (roots : List α) (w : Worklist α) :
    Prop where
  marked : ∀ a, w.dark a = true ↔ dark a = true ∨
    a ∈ w.stack ∨ w.dark a = true ∧ dark a = false ∧ ∀ b ∈ refs a, w.dark b = true
  reached : ∀ a, w.dark a = true → dark a = false →
    Reaches (fun a => dark a = true) refs (· ∈ roots) a
  stack : ∀ a ∈ w.stack, dark a = false
  roots : ∀ a ∈ roots, w.dark a = true

theorem sound_roots (dark : α → Bool) (refs : α → List α) (roots : List α) :
    Sound dark refs roots (roots.foldl gray ⟨dark, []⟩) where
  marked a := by
    rw [grays_dark, mem_grays_stack]
    constructor
    · rintro (hold | hroot)
      · exact .inl hold
      · cases hdark : dark a with
        | true => exact .inl rfl
        | false => exact .inr (.inl (.inr ⟨hroot, hdark⟩))
    · rintro (hold | hstack | ⟨hmark, -⟩)
      · exact .inl hold
      · exact .inr (hstack.resolve_left List.not_mem_nil).1
      · exact hmark
  reached a hmark hnew := by
    rw [grays_dark] at hmark
    rcases hmark with hold | hroot
    · change dark a = true at hold
      rw [hold] at hnew
      cases hnew
    · exact .root hroot (by simp [hnew])
  stack a ha := by
    rw [mem_grays_stack] at ha
    exact (ha.resolve_left List.not_mem_nil).2
  roots a ha := (grays_dark roots).mpr (.inr ha)

/-- One node is popped. -/
theorem Sound.pop {dark : α → Bool} {stack : List α} (hs : Sound dark refs roots w)
    (hstack : w.stack = a :: stack) :
    Sound dark refs roots ((refs a).foldl gray { w with stack := stack }) := by
  have hnew : dark a = false := hs.stack a (hstack ▸ List.mem_cons_self)
  have hmark : w.dark a = true := (hs.marked a).mpr (.inr (.inl (hstack ▸ List.mem_cons_self)))
  have hreach := hs.reached a hmark hnew
  have hmem : ∀ b, b ∈ w.stack ↔ b = a ∨ b ∈ stack := fun b => by rw [hstack, List.mem_cons]
  -- a mark stays
  have hmono : ∀ b, w.dark b = true →
      ((refs a).foldl gray { w with stack := stack }).dark b = true :=
    fun b hb => (grays_dark _).mpr (.inl hb)
  have hold : ∀ b, w.dark b = true → dark b = true ∨
      (b ∈ stack ∨ b ∈ refs a ∧ w.dark b = false) ∨
      ((refs a).foldl gray { w with stack := stack }).dark b = true ∧ dark b = false ∧
        ∀ c ∈ refs b, ((refs a).foldl gray { w with stack := stack }).dark c = true := by
    intro b hw
    rcases (hs.marked b).mp hw with hold | hwait | ⟨-, hb', hrefs⟩
    · exact .inl hold
    · rcases (hmem b).mp hwait with rfl | hrest
      · exact .inr (.inr ⟨hmono b hw, hnew, fun c hc => (grays_dark _).mpr (.inr hc)⟩)
      · exact .inr (.inl (.inl hrest))
    · exact .inr (.inr ⟨hmono b hw, hb', fun c hc => hmono c (hrefs c hc)⟩)
  refine ⟨fun b => ?_, fun b => ?_, fun b => ?_, fun b hb => hmono b (hs.roots b hb)⟩
  · rw [mem_grays_stack]
    constructor
    · intro hb
      rcases (grays_dark _).mp hb with hw | href
      · exact hold b hw
      · by_cases hw : w.dark b = true
        · exact hold b hw
        · exact .inr (.inl (.inr ⟨href, Bool.not_eq_true _ ▸ hw⟩))
    · rintro (hold | hwait | ⟨hb, -⟩)
      · exact hmono b ((hs.marked b).mpr (.inl hold))
      · rcases hwait with hrest | ⟨href, -⟩
        · exact hmono b ((hs.marked b).mpr (.inr (.inl ((hmem b).mpr (.inr hrest)))))
        · exact (grays_dark _).mpr (.inr href)
      · exact hb
  · intro hb hb'
    rcases (grays_dark _).mp hb with hw | href
    · exact hs.reached b hw hb'
    · exact .ref hreach href (by simp [hb'])
  · rw [mem_grays_stack]
    rintro (hrest | ⟨-, hwhite⟩)
    · exact hs.stack b ((hmem b).mpr (.inr hrest))
    · cases hold : dark b with
      | false => rfl
      | true =>
        have hmarked : w.dark b = true := (hs.marked b).mpr (.inl hold)
        change w.dark b = false at hwhite
        rw [hmarked] at hwhite
        cases hwhite

theorem Sound.blacken {dark : α → Bool} (fuel : ℕ) (hs : Sound dark refs roots w) :
    Sound dark refs roots (blacken refs fuel w) := by
  induction fuel generalizing w with
  | zero => exact hs
  | succ fuel ih =>
    unfold Worklist.blacken
    split
    next => exact hs
    next a stack hstack => exact ih (hs.pop hstack)

omit [DecidableEq α] in
/-- With an empty stack everything reached is marked. -/
theorem Sound.of_nil {dark : α → Bool} (hs : Sound dark refs roots w) (hnil : w.stack = []) :
    w.dark a = true ↔ dark a = true ∨ Reaches (fun a => dark a = true) refs (· ∈ roots) a := by
  constructor
  · intro ha
    cases hold : dark a with
    | true => exact .inl rfl
    | false => exact .inr (hs.reached a ha hold)
  · rintro (hold | hreach)
    · exact (hs.marked a).mpr (.inl hold)
    · induction hreach with
      | root hroot _ => exact hs.roots _ hroot
      | @ref a b hreach hmem _ ih =>
        rcases (hs.marked a).mp ih with hold | hwait | ⟨-, -, hrefs⟩
        · exact absurd hold hreach.not_old
        · rw [hnil] at hwait
          cases hwait
        · exact hrefs b hmem

/-! ## The stack gets empty -/

/-- Each node is pushed once: so many rounds are left. -/
def rounds (nodes : List α) (w : Worklist α) : ℕ :=
  (nodes.filter fun a => !w.dark a).length + w.stack.length

theorem gray_rounds (hnodup : nodes.Nodup) (ha : a ∈ nodes) :
    rounds nodes (w.gray a) = rounds nodes w := by
  unfold gray
  split
  next => rfl
  next hwhite =>
    have hwhite : w.dark a = false := by simpa using hwhite
    -- the node leaves the white ones for the stack
    have hcount : (nodes.filter fun b => !Function.update w.dark a true b).length + 1 =
        (nodes.filter fun b => !w.dark b).length := by
      have hpred : (fun b => !Function.update w.dark a true b) = fun b => b != a && !w.dark b := by
        funext b
        by_cases hba : b = a
        · simp [hba]
        · simp [hba]
      have hmem : a ∈ nodes.filter fun b => !w.dark b := by simp [ha, hwhite]
      rw [hpred, ← List.filter_filter, ← (hnodup.filter _).erase_eq_filter,
        List.length_erase_of_mem hmem]
      have hpos := List.length_pos_of_mem hmem
      omega
    unfold rounds
    change (nodes.filter fun b => !Function.update w.dark a true b).length +
      (a :: w.stack).length = _
    rw [List.length_cons]
    omega

theorem grays_rounds (hnodup : nodes.Nodup) {as : List α} (has : ∀ a ∈ as, a ∈ nodes) :
    rounds nodes (as.foldl gray w) = rounds nodes w := by
  induction as generalizing w with
  | nil => rfl
  | cons a as ih =>
    rw [List.foldl_cons, ih fun b hb => has b (List.mem_cons_of_mem a hb),
      gray_rounds hnodup (has a List.mem_cons_self)]

theorem blacken_stack (hnodup : nodes.Nodup) (hrefs : ∀ a, ∀ b ∈ refs a, b ∈ nodes) {fuel : ℕ}
    (hfuel : rounds nodes w ≤ fuel) : (blacken refs fuel w).stack = [] := by
  induction fuel generalizing w with
  | zero =>
    have hlen : w.stack.length = 0 := by
      unfold rounds at hfuel
      omega
    exact List.length_eq_zero_iff.mp hlen
  | succ fuel ih =>
    unfold blacken
    split
    next hnil => exact hnil
    next a stack hstack =>
      refine ih ?_
      rw [grays_rounds hnodup (hrefs a)]
      have hpop : rounds nodes { w with stack := stack } + 1 = rounds nodes w := by
        unfold rounds
        rw [hstack, List.length_cons]
        rfl
      omega

/-- What is marked at the end. -/
theorem close_dark {dark : α → Bool} (hnodup : nodes.Nodup)
    (hrefs : ∀ a, ∀ b ∈ refs a, b ∈ nodes) (hroots : ∀ a ∈ roots, a ∈ nodes) :
    (close refs nodes roots dark).dark a = true ↔
      dark a = true ∨ Reaches (fun a => dark a = true) refs (· ∈ roots) a := by
  refine ((sound_roots dark refs roots).blacken nodes.length).of_nil ?_
  refine blacken_stack hnodup hrefs ?_
  rw [grays_rounds hnodup hroots]
  unfold rounds
  have hle := List.length_filter_le (fun a => !dark a) nodes
  change (nodes.filter fun a => !dark a).length + 0 ≤ _
  omega

end Worklist
