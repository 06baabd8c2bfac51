import Clox.Regex.Calls

/-! # Which patterns get a well-formed tree

The parser keeps the nodes a tree as long as a pattern is a sequence of elements and groups and
repeats with a sibling before what they repeat. A `|`, or the repeat of a first child, spoils a
node, and it stays spoilt to the end.
-/

namespace Clox.Regex

open Clox.Printing (Bytes)
open Clox.Scanning (chr)
open Commands Commands.Command

variable {kids kids' : ℕ → List ℕ} {p grp fuel : ℕ} {prev r : Option ℕ} {s t u : Parser}
  {parse : ℕ → Option ℕ → Prog (Option ℕ)} {src : Bytes}

/-! ## Spoilt trees -/

/-- A node that is allocated, if it is one. -/
def Parser.Has (s : Parser) (a : Option ℕ) : Prop := ∀ b, a = some b → b < s.nodes.count

structure Broken (s : Parser) : Prop where
  bounded : Bounded s.nodes
  beg : s.Has s.begOrNode
  spoilt : ∃ q, Spoilt s.nodes q

/-- From `s` on a call comes to a spoilt tree and returns `r`. -/
structure Carries (s t : Parser) (r : Option ℕ) : Prop where
  broken : Broken t
  count : s.nodes.count ≤ t.nodes.count
  has : t.Has r

theorem Parser.has_none (s : Parser) : s.Has none := by
  intro b hb
  cases hb

theorem Parser.Has.mono {a : Option ℕ} (h : s.Has a) (hcount : s.nodes.count ≤ t.nodes.count) :
    t.Has a :=
  fun b hb => (h b hb).trans_le hcount

theorem Broken.setErr (h : Broken s) (err : ℤ) : Broken { s with err := err } :=
  ⟨h.bounded, h.beg, h.spoilt⟩

theorem Broken.setBeg (h : Broken s) (hr : s.Has r) : Broken { s with begOrNode := r } :=
  ⟨h.bounded, hr, h.spoilt⟩

/-- What the loops do with the node they have read. -/
theorem Carries.begins {c : Prop} [Decidable c] (h : Carries s t r) :
    Carries s (if c then { t with begOrNode := r } else t) r := by
  split
  · exact ⟨h.broken.setBeg h.has, h.count, h.has⟩
  · exact h

/-- A new node in a spoilt tree. -/
theorem Broken.newNode {type : RNodeType} {tok : Option Bytes} {toklen a : ℕ} {m : Nodes}
    (h : Broken s) (hp : p < s.nodes.count) (hprev : s.Has prev)
    (hnew : s.nodes.newNode type tok toklen (some p) prev = .ok (a, m)) :
    Bounded m ∧ (∃ q, Spoilt m q) ∧ m.count = s.nodes.count + 1 ∧ a < m.count := by
  have hspec : NewNode s.nodes (some p) prev a m :=
    newNode_spec h.bounded (fun q hq => Option.some.inj hq ▸ hp) hprev hnew
  rcases h.spoilt with ⟨q, hq⟩
  refine ⟨hspec.bounded, ⟨q, hq.newNode h.bounded hspec⟩, hspec.count, ?_⟩
  rw [hspec.fresh, hspec.count]
  exact Nat.lt_succ_self _

theorem SamePointers.carries {m : Nodes} (hsame : SamePointers m t.nodes) (hbounded : Bounded m)
    (hspoilt : ∃ q, Spoilt m q) (hbeg : s.Has t.begOrNode) (hcount : s.nodes.count ≤ m.count)
    (hr : ∀ a, r = some a → a < m.count) : Carries s t r := by
  rcases hspoilt with ⟨q, hq⟩
  have hle : s.nodes.count ≤ t.nodes.count := by
    rw [hsame.count]
    exact hcount
  refine ⟨⟨hsame.bounded hbounded, hbeg.mono hle, ⟨q, hsame.spoilt hq⟩⟩, hle, ?_⟩
  intro a ha
  rw [hsame.count]
  exact hr a ha

theorem Reads.carries (h : Reads p prev s r t) (hs : Broken s) (hp : p < s.nodes.count)
    (hprev : s.Has prev) : Carries s t r := by
  cases h with
  | failed herr hbeg hnodes =>
    have hbeg' : s.Has t.begOrNode := by
      rw [hbeg]
      exact hs.beg
    rcases hnodes with hnodes | ⟨type, tok, toklen, a, m, hnew, hsame⟩
    · have hsame : SamePointers s.nodes t.nodes := by
        rw [hnodes]
        exact .refl _
      exact hsame.carries hs.bounded hs.spoilt hbeg' le_rfl s.has_none
    · rcases hs.newNode hp hprev hnew with ⟨hbounded, hspoilt, hcount, -⟩
      apply hsame.carries hbounded hspoilt hbeg'
      · rw [hcount]
        exact Nat.le_succ _
      · intro b hb
        cases hb
  | element hnew hsame hbeg herr hsrc =>
    rcases hs.newNode hp hprev hnew with ⟨hbounded, hspoilt, hcount, hlt⟩
    apply hsame.carries hbounded hspoilt
    · rw [hbeg]
      exact hs.beg
    · rw [hcount]
      exact Nat.le_succ _
    · intro b hb
      rw [← Option.some.inj hb]
      exact hlt
  | repeated hx hwrap hsame hbeg herr hsrc =>
    rename_i x a m
    have hspec : Wrapped s.nodes p x a m := wrap_spec hs.bounded hp (hprev x hx) hwrap
    rcases hs.spoilt with ⟨q, hq⟩
    apply hsame.carries hspec.bounded ⟨q, hq.wrap hs.bounded hspec⟩
    · rw [hbeg]
      exact hs.beg
    · rw [hspec.count]
      exact Nat.le_succ _
    · intro b hb
      rw [← Option.some.inj hb, hspec.fresh, hspec.count]
      exact Nat.lt_succ_self _

/-! ## Levels -/

/-- The parser stands behind the children of `p`, and the nodes are a tree. -/
structure Level (s : Parser) (kids : ℕ → List ℕ) (p : ℕ) (prev : Option ℕ) : Prop where
  linked : Linked s.nodes kids
  lt : p < s.nodes.count
  prev : prev = (kids p).getLast?
  err : s.err = 0
  /-- An alternative begins with a first child. -/
  beg : ∀ b, s.begOrNode = some b → b < s.nodes.count ∧ (s.nodes.node b).prev = none

/-- A call at the level of `p` leaves the nodes a tree with a child or a repeat more, and what is
still to be read is a sequence if what was to be read before is one. -/
structure Continues (s : Parser) (kids : ℕ → List ℕ) (p : ℕ) (r : Option ℕ) (t : Parser)
    (kids' : ℕ → List ℕ) : Prop where
  level : Level t kids' p r
  count : s.nodes.count ≤ t.nodes.count
  others : ∀ q < s.nodes.count, q ≠ p → kids' q = kids q
  length : (kids' p).length ≤ (kids p).length + 1
  nonempty : kids' p ≠ []
  beg : s.begOrNode ≠ none → t.begOrNode ≠ none
  elements : ∀ u, Elements (kids p).length s.srcP u ↔ Elements (kids' p).length t.srcP u

/-- How a call at the level of `p` ends. -/
inductive Outcome (s : Parser) (kids : ℕ → List ℕ) (p : ℕ) (r : Option ℕ) (t : Parser) : Prop
  | failed (herr : t.err ≠ 0)
  | continues (kids' : ℕ → List ℕ) (h : Continues s kids p r t kids')
  | broken (h : Carries s t r) (hnot : ∀ u, ¬ Elements (kids p).length s.srcP u)

theorem Level.has (h : Level s kids p prev) : s.Has prev := by
  intro b hb
  rw [h.prev] at hb
  exact (h.linked.lt_of_mem (List.mem_of_getLast? hb)).2

theorem Level.hasBeg (h : Level s kids p prev) : s.Has s.begOrNode :=
  fun b hb => (h.beg b hb).1

/-- A call that leaves the list of `p` with a new last child. -/
theorem Level.continues {l : List ℕ} {a : ℕ} (h : Level s kids p prev)
    (hlinked : Linked t.nodes kids') (hcount : t.nodes.count = s.nodes.count + 1)
    (hkids : kids' p = l ++ [a]) (hlen : l.length ≤ (kids p).length)
    (hothers : ∀ q < s.nodes.count, q ≠ p → kids' q = kids q)
    (hprevs : ∀ b < s.nodes.count, (s.nodes.node b).prev = none → (t.nodes.node b).prev = none)
    (hbeg : t.begOrNode = s.begOrNode) (herr : t.err = s.err)
    (helements : ∀ u, Elements (kids p).length s.srcP u ↔ Elements (l.length + 1) t.srcP u) :
    Continues s kids p (some a) t kids' := by
  have hlength : (kids' p).length = l.length + 1 := by
    rw [hkids, List.length_append]
    rfl
  constructor
  · constructor
    · exact hlinked
    · rw [hcount]
      exact Nat.lt_succ_of_lt h.lt
    · rw [hkids, List.getLast?_append_cons, List.getLast?_singleton]
    · exact herr.trans h.err
    · intro b hb
      rw [hbeg] at hb
      rcases h.beg b hb with ⟨hlt, hnone⟩
      rw [hcount]
      exact ⟨Nat.lt_succ_of_lt hlt, hprevs b hlt hnone⟩
  · rw [hcount]
    exact Nat.le_succ _
  · exact hothers
  · rw [hlength]
    exact Nat.succ_le_succ hlen
  · rw [hkids]
    exact List.append_ne_nil_of_right_ne_nil _ (List.cons_ne_nil _ _)
  · rw [hbeg]
    exact id
  · intro u
    rw [hlength]
    exact helements u

theorem Level.element {type : RNodeType} {tok : Option Bytes} {toklen a : ℕ} {m : Nodes}
    (h : Level s kids p prev)
    (hnew : s.nodes.newNode type tok toklen (some p) prev = .ok (a, m))
    (hsame : SamePointers m t.nodes) (hbeg : t.begOrNode = s.begOrNode) (herr : t.err = s.err)
    (hsrc : behindElement s.srcP = some t.srcP) : Outcome s kids p (some a) t := by
  rw [h.prev] at hnew
  rcases h.linked.newNode h.lt hnew with ⟨rfl, hcount, hlinked, hprevs⟩
  apply Outcome.continues (Function.update kids p (kids p ++ [s.nodes.count]))
  refine h.continues (hsame.linked hlinked) (hsame.count.trans hcount) ?_ le_rfl ?_ ?_ hbeg herr ?_
  · exact Function.update_self ..
  · intro q _ hqp
    exact Function.update_of_ne hqp ..
  · intro b hlt hnone
    rw [hsame.prev, hprevs b hlt]
    exact hnone
  · intro u
    exact elements_single hsrc

theorem Level.repeated {type : RNodeType} {tok : Bytes} {toklen x a : ℕ} {m : Nodes}
    (h : Level s kids p prev) (hx : prev = some x)
    (hwrap : s.nodes.wrap type tok toklen p x = .ok (a, m)) (hsame : SamePointers m t.nodes)
    (hbeg : t.begOrNode = s.begOrNode) (herr : t.err = s.err)
    (hsrc : behindRepeat s.srcP = some t.srcP) : Outcome s kids p (some a) t := by
  have hlast : (kids p).getLast? = some x := h.prev.symm.trans hx
  rcases List.getLast?_eq_some_iff.mp hlast with ⟨l, hl⟩
  have hlinks := h.linked.links p h.lt
  have hxn : x < s.nodes.count := h.has x hx
  by_cases hempty : l = []
  · -- the first child is repeated
    rw [hempty, List.nil_append] at hl
    have hbounded := h.linked.bounded
    have hspec : Wrapped s.nodes p x a m := wrap_spec hbounded h.lt hxn hwrap
    have hprev : (s.nodes.node x).prev = none := hlinks.prev [] x [] hl
    have hchildren : (s.nodes.node p).children ≠ none := by
      rw [hlinks.head, hl]
      exact Option.some_ne_none x
    apply Outcome.broken
    · apply hsame.carries hspec.bounded ⟨p, hspec.spoils h.lt hprev hchildren⟩
      · rw [hbeg]
        exact h.hasBeg
      · rw [hspec.count]
        exact Nat.le_succ _
      · intro b hb
        rw [← Option.some.inj hb, hspec.fresh, hspec.count]
        exact Nat.lt_succ_self _
    · intro u helements
      have hlen := ((elements_repeated hsrc).mp helements).1
      rw [hl, List.length_singleton] at hlen
      omega
  · rcases h.linked.wrap hl hempty hwrap with ⟨rfl, hcount, hlinked, hprevs⟩
    have hlen : (kids p).length = l.length + 1 := by
      rw [hl, List.length_append]
      rfl
    apply Outcome.continues
      (Function.update (Function.update kids p (l ++ [s.nodes.count])) s.nodes.count [x])
    have hkids : Function.update (Function.update kids p (l ++ [s.nodes.count])) s.nodes.count [x]
        p = l ++ [s.nodes.count] := by
      rw [Function.update_of_ne h.lt.ne, Function.update_self]
    refine h.continues (hsame.linked hlinked) (hsame.count.trans hcount) hkids ?_ ?_ ?_ hbeg herr
      ?_
    · rw [hlen]
      exact Nat.le_succ _
    · intro q hq hqp
      rw [Function.update_of_ne hq.ne, Function.update_of_ne hqp]
    · intro b hlt hnone
      rw [hsame.prev]
      exact hprevs b hlt hnone
    · intro u
      have hpos := List.length_pos_iff.mpr hempty
      rw [elements_repeated hsrc, hlen, and_iff_right]
      omega

theorem Reads.outcome (h : Reads p prev s r t) (hs : Level s kids p prev) :
    Outcome s kids p r t := by
  cases h with
  | failed herr _ _ => exact .failed herr
  | element hnew hsame hbeg herr hsrc => exact hs.element hnew hsame hbeg herr hsrc
  | repeated hx hwrap hsame hbeg herr hsrc => exact hs.repeated hx hwrap hsame hbeg herr hsrc

/-! ## What the loops need of a call -/

/-- A call keeps an error and a spoilt tree, and has an outcome at every level. -/
structure Parses (parse : ℕ → Option ℕ → Prog (Option ℕ)) : Prop where
  failed : ∀ {p prev s r t}, s.err ≠ 0 → parse p prev s = (.ok r, t) → t.err ≠ 0
  broken : ∀ {p prev s r t}, Broken s → p < s.nodes.count → s.Has prev →
    parse p prev s = (.ok r, t) → Carries s t r
  outcome : ∀ {s kids p prev r t}, Level s kids p prev → parse p prev s = (.ok r, t) →
    Outcome s kids p r t

/-- How a loop over the children of `p` ends. -/
inductive Ends (s : Parser) (kids : ℕ → List ℕ) (p : ℕ) (t : Parser) : Prop
  | failed (herr : t.err ≠ 0)
  | ended (kids' : ℕ → List ℕ) (hlevel : Level t kids' p (kids' p).getLast?)
      (hcount : s.nodes.count ≤ t.nodes.count)
      (hothers : ∀ q < s.nodes.count, q ≠ p → kids' q = kids q)
      (hbeg : s.begOrNode ≠ none → t.begOrNode ≠ none)
      (helements : ∀ u, Elements (kids p).length s.srcP u ↔ u = t.srcP)
  | broken (hbroken : Broken t) (hcount : s.nodes.count ≤ t.nodes.count)
      (hnot : ∀ u, ¬ Elements (kids p).length s.srcP u)

theorem Level.ends (h : Level s kids p prev) (hend : s.cur = 0 ∨ s.cur = chr ')') :
    Ends s kids p s := by
  apply Ends.ended kids _ le_rfl (fun _ _ _ => rfl) id fun u => elements_done hend
  rw [← h.prev]
  exact h

/-- The rest of the loop, from a call that continues. -/
theorem Continues.ends (h : Continues s kids p r t kids') (hrest : Ends t kids' p u) :
    Ends s kids p u := by
  cases hrest with
  | failed herr => exact .failed herr
  | ended kids₂ hlevel hcount hothers hbeg helements =>
    apply Ends.ended kids₂ hlevel (h.count.trans hcount)
    · intro q hq hqp
      rw [hothers q (hq.trans_le h.count) hqp, h.others q hq hqp]
    · exact hbeg ∘ h.beg
    · intro u
      rw [h.elements, helements]
  | broken hbroken hcount hnot =>
    apply Ends.broken hbroken (h.count.trans hcount)
    intro u
    rw [h.elements]
    exact hnot u

/-- The node that is read as the first of its level is where an alternative begins. -/
theorem Continues.setBeg (h : Continues s kids p r t kids') (hfirst : kids p = []) :
    Continues s kids p r { t with begOrNode := r } kids' := by
  have hlen := h.length
  rw [hfirst, List.length_nil, zero_add] at hlen
  rcases List.exists_cons_of_ne_nil h.nonempty with ⟨a, l, hkids⟩
  have hl : l = [] := by
    rw [hkids, List.length_cons] at hlen
    exact List.length_eq_zero_iff.mp (by omega)
  rw [hl] at hkids
  have hr : r = some a := by
    rw [h.level.prev, hkids]
    rfl
  have hlevel := h.level
  refine ⟨⟨hlevel.linked, hlevel.lt, hlevel.prev, hlevel.err, ?_⟩, h.count, h.others, h.length,
    h.nonempty, ?_, h.elements⟩
  · intro b hb
    obtain rfl : a = b := Option.some.inj (hr.symm.trans hb)
    exact ⟨hlevel.has a hr, (hlevel.linked.links p hlevel.lt).prev [] a [] hkids⟩
  · intro _
    change r ≠ none
    rw [hr]
    exact Option.some_ne_none a

/-! ## Groups -/

/-- One round of the loop of `(`. -/
theorem groupLoop_succ (h : groupLoop parse grp (fuel + 1) prev s = (.ok (), t)) :
    ((s.cur = 0 ∨ s.cur = chr ')') ∧ t = s) ∨
      ∃ child u, parse grp prev s = (.ok child, u) ∧
        groupLoop parse grp fuel child
          (if prev = none then { u with begOrNode := child } else u) = (.ok (), t) := by
  unfold groupLoop at h
  rcases bind_eq_ok.mp h with ⟨s', u, hget, h⟩
  cases hget
  split at h
  · rename_i hend
    cases h
    exact .inl ⟨hend, rfl⟩
  · rcases bind_eq_ok.mp h with ⟨child, u, hparse, h⟩
    refine .inr ⟨child, u, hparse, ?_⟩
    split at h
    · rename_i hprev
      rcases bind_eq_ok.mp h with ⟨_, v, hset, h⟩
      cases hset
      rw [if_pos hprev]
      exact h
    · rename_i hprev
      rw [if_neg hprev]
      exact h

theorem groupLoop_failed (hparse : Parses parse) (hs : s.err ≠ 0)
    (h : groupLoop parse grp fuel prev s = (.ok (), t)) : t.err ≠ 0 := by
  induction fuel generalizing prev s with
  | zero => cases h
  | succ fuel ih =>
    rcases groupLoop_succ h with ⟨-, rfl⟩ | ⟨child, u, hchild, hrest⟩
    · exact hs
    · have hu := hparse.failed hs hchild
      refine ih ?_ hrest
      split
      · exact hu
      · exact hu

theorem groupLoop_broken (hparse : Parses parse) (hs : Broken s) (hgrp : grp < s.nodes.count)
    (hprev : s.Has prev) (h : groupLoop parse grp fuel prev s = (.ok (), t)) :
    Broken t ∧ s.nodes.count ≤ t.nodes.count := by
  induction fuel generalizing prev s with
  | zero => cases h
  | succ fuel ih =>
    rcases groupLoop_succ h with ⟨-, rfl⟩ | ⟨child, u, hchild, hrest⟩
    · exact ⟨hs, le_rfl⟩
    · have hu := (hparse.broken hs hgrp hprev hchild).begins (c := prev = none)
      rcases ih hu.broken (hgrp.trans_le hu.count) hu.has hrest with ⟨ht, hcount⟩
      exact ⟨ht, hu.count.trans hcount⟩

theorem groupLoop_ends (hparse : Parses parse) (hs : Level s kids grp prev)
    (h : groupLoop parse grp fuel prev s = (.ok (), t)) : Ends s kids grp t := by
  induction fuel generalizing prev s kids with
  | zero => cases h
  | succ fuel ih =>
    rcases groupLoop_succ h with ⟨hend, rfl⟩ | ⟨child, u, hchild, hrest⟩
    · exact hs.ends hend
    cases hparse.outcome hs hchild with
    | failed herr =>
      refine .failed (groupLoop_failed hparse ?_ hrest)
      split
      · exact herr
      · exact herr
    | continues kids' hu =>
      split at hrest
      · rename_i hprev
        have hfirst : kids grp = [] := List.getLast?_eq_none_iff.mp (hs.prev.symm.trans hprev)
        have hu' := hu.setBeg hfirst
        exact hu'.ends (ih hu'.level hrest)
      · exact hu.ends (ih hu.level hrest)
    | broken hu hnot =>
      have hu' := hu.begins (c := prev = none)
      have hgrp := hs.lt.trans_le hu'.count
      rcases groupLoop_broken hparse hu'.broken hgrp hu'.has hrest with ⟨ht, hle⟩
      exact .broken ht (hu'.count.trans hle) hnot

/-- The node of the group, the loop, and what is at its end. -/
theorem parseGroup_eq_ok (h : parseGroup p prev parse fuel s = (.ok r, t)) :
    ∃ grp m u, s.nodes.newNode .group (some s.srcP) 1 (some p) prev = .ok (grp, m) ∧
      groupLoop parse grp fuel none { s with nodes := m, srcP := s.srcP.tail } = (.ok (), u) ∧
      ((t.err ≠ 0 ∧ r = none ∧ t.nodes = u.nodes ∧ t.begOrNode = u.begOrNode) ∨
        (u.err = 0 ∧ u.cur = chr ')' ∧ r = some grp ∧
          t = { u with srcP := u.srcP.tail, groups := u.groups ++ [grp] })) := by
  unfold parseGroup at h
  rcases bind_eq_ok.mp h with ⟨grp, v, hnew, h⟩
  rcases newElement_eq_ok hnew with ⟨m, hm, rfl⟩
  rcases bind_eq_ok.mp h with ⟨_, v, hadvance, h⟩
  obtain rfl := advance_eq_ok hadvance
  rcases bind_eq_ok.mp h with ⟨_, u, hloop, h⟩
  refine ⟨grp, m, u, hm, hloop, ?_⟩
  rcases bind_eq_ok.mp h with ⟨u', v, hget, h⟩
  cases hget
  split at h
  · rename_i herr
    cases h
    exact .inl ⟨herr, rfl, rfl, rfl⟩
  rename_i herr
  split at h
  · cases h
    refine .inl ⟨?_, rfl, rfl, rfl⟩
    change (-1 : ℤ) ≠ 0
    decide
  split at h
  · rename_i hcur
    rcases bind_eq_ok.mp h with ⟨_, v, hadvance, h⟩
    obtain rfl := advance_eq_ok hadvance
    cases h
    exact .inr ⟨not_not.mp herr, hcur, rfl, rfl⟩
  · cases h

theorem parseGroup_carries (hparse : Parses parse) (hs : Broken s) (hp : p < s.nodes.count)
    (hprev : s.Has prev) (h : parseGroup p prev parse fuel s = (.ok r, t)) : Carries s t r := by
  rcases parseGroup_eq_ok h with ⟨grp, m, u, hnew, hloop, hend⟩
  rcases hs.newNode hp hprev hnew with ⟨hbounded, hspoilt, hcount, hgrp⟩
  have hle : s.nodes.count ≤ m.count := by
    rw [hcount]
    exact Nat.le_succ _
  have hopened : Broken { s with nodes := m, srcP := s.srcP.tail } :=
    ⟨hbounded, hs.beg.mono hle, hspoilt⟩
  rcases groupLoop_broken hparse hopened hgrp (Parser.has_none _) hloop with ⟨hu, hcount'⟩
  have hle' : s.nodes.count ≤ u.nodes.count := hle.trans hcount'
  rcases hend with ⟨-, rfl, hnodes, hbeg⟩ | ⟨-, -, rfl, rfl⟩
  · refine ⟨⟨?_, ?_, ?_⟩, ?_, t.has_none⟩
    · rw [hnodes]
      exact hu.bounded
    · intro b hb
      rw [hbeg] at hb
      rw [hnodes]
      exact hu.beg b hb
    · rw [hnodes]
      exact hu.spoilt
    · rw [hnodes]
      exact hle'
  · refine ⟨⟨hu.bounded, hu.beg, hu.spoilt⟩, hle', ?_⟩
    intro b hb
    rw [← Option.some.inj hb]
    exact hgrp.trans_le hcount'

/-- The level of a group, when nothing has been read in it. -/
theorem Level.opened {m : Nodes} (h : Level s kids p prev)
    (hlinked : Linked m (Function.update kids p (kids p ++ [s.nodes.count])))
    (hcount : m.count = s.nodes.count + 1)
    (hprevs : ∀ b < s.nodes.count, (m.node b).prev = (s.nodes.node b).prev) :
    Function.update kids p (kids p ++ [s.nodes.count]) s.nodes.count = [] ∧
      Level { s with nodes := m, srcP := s.srcP.tail }
        (Function.update kids p (kids p ++ [s.nodes.count])) s.nodes.count none := by
  have hkids : Function.update kids p (kids p ++ [s.nodes.count]) s.nodes.count = [] := by
    rw [Function.update_of_ne h.lt.ne']
    exact h.linked.kids_fresh
  refine ⟨hkids, hlinked, ?_, ?_, h.err, ?_⟩
  · change s.nodes.count < m.count
    rw [hcount]
    exact Nat.lt_succ_self _
  · rw [hkids]
    rfl
  · intro b hb
    rcases h.beg b hb with ⟨hlt, hnone⟩
    refine ⟨?_, (hprevs b hlt).trans hnone⟩
    change b < m.count
    rw [hcount]
    exact Nat.lt_succ_of_lt hlt

theorem parseGroup_outcome (hparse : Parses parse) (hs : Level s kids p prev)
    (hsrc : s.srcP = chr '(' :: src) (h : parseGroup p prev parse fuel s = (.ok r, t)) :
    Outcome s kids p r t := by
  rcases parseGroup_eq_ok h with ⟨grp, m, u, hnew, hloop, hend⟩
  rw [hs.prev] at hnew
  rcases hs.linked.newNode hs.lt hnew with ⟨rfl, hcount, hlinked, hprevs⟩
  have hne : p ≠ s.nodes.count := hs.lt.ne
  rcases hs.opened hlinked hcount hprevs with ⟨hkids, hopened⟩
  have hle : s.nodes.count ≤ m.count := by
    rw [hcount]
    exact Nat.le_succ _
  have hgroup : ∀ v, Elements (kids p).length s.srcP v ↔
      ∃ s', Elements 0 s.srcP.tail (chr ')' :: s') ∧ Elements ((kids p).length + 1) s' v := by
    intro v
    rw [hsrc]
    exact elements_group
  cases groupLoop_ends hparse hopened hloop with
  | failed herr =>
    rcases hend with ⟨herr', -⟩ | ⟨hok, -⟩
    · exact .failed herr'
    · exact absurd hok herr
  | ended kids' hlevel hle' hothers hbeg helements =>
    rcases hend with ⟨herr', -⟩ | ⟨hok, hcur, rfl, rfl⟩
    · exact .failed herr'
    have hlt : p < m.count := hs.lt.trans_le hle
    have hkids' : kids' p = kids p ++ [s.nodes.count] := by
      rw [hothers p hlt hne, Function.update_self]
    apply Outcome.continues kids'
    constructor
    · refine ⟨hlevel.linked, hlt.trans_le hle', ?_, hok, hlevel.beg⟩
      rw [hkids', List.getLast?_append_cons, List.getLast?_singleton]
    · exact hle.trans hle'
    · intro q hq hqp
      rw [hothers q (hq.trans_le hle) hq.ne, Function.update_of_ne hqp]
    · rw [hkids', List.length_append]
      exact le_rfl
    · rw [hkids']
      exact List.append_ne_nil_of_right_ne_nil _ (List.cons_ne_nil _ _)
    · exact hbeg
    · intro v
      rw [hkids] at helements
      rw [hgroup, hkids', List.length_append]
      have hclosed : u.srcP = chr ')' :: u.srcP.tail := by
        unfold Parser.cur at hcur
        rcases hu : u.srcP with _ | ⟨c, rest⟩
        · rw [hu] at hcur
          exact absurd hcur (by decide)
        · rw [hu] at hcur
          rw [← hcur]
          rfl
      constructor
      · rintro ⟨s', hbody, hrest⟩
        have hbody' := (helements _).mp hbody
        rw [← hbody']
        exact hrest
      · intro hrest
        exact ⟨u.srcP.tail, (helements _).mpr hclosed.symm, hrest⟩
  | broken hbroken hle' hnot =>
    rw [hkids] at hnot
    have hnot' : ∀ v, ¬ Elements (kids p).length s.srcP v := by
      intro v helements
      rcases (hgroup v).mp helements with ⟨s', hbody, -⟩
      exact hnot _ hbody
    rcases hend with ⟨herr', -⟩ | ⟨-, -, rfl, rfl⟩
    · exact .failed herr'
    refine .broken ⟨⟨hbroken.bounded, hbroken.beg, hbroken.spoilt⟩, hle.trans hle', ?_⟩ hnot'
    intro b hb
    rw [← Option.some.inj hb]
    exact hopened.lt.trans_le hle'

/-! ## Alternatives -/

theorem altLoop_broken {altGroup lastIdx : ℕ} {lastBegOrNode alt : Option ℕ}
    (hparse : Parses parse) (hs : Broken s) (hgroup : altGroup < s.nodes.count)
    (halt : s.Has alt)
    (h : altLoop parse altGroup lastBegOrNode fuel lastIdx alt s = (.ok r, t)) :
    Broken t ∧ s.nodes.count ≤ t.nodes.count := by
  induction fuel generalizing lastIdx alt s with
  | zero => cases h
  | succ fuel ih =>
    unfold altLoop at h
    rcases bind_eq_ok.mp h with ⟨s', v, hget, h⟩
    cases hget
    split at h
    · cases h
      exact ⟨hs, le_rfl⟩
    rcases bind_eq_ok.mp h with ⟨alt', u, hchild, h⟩
    have hu := hparse.broken hs hgroup halt hchild
    rcases bind_eq_ok.mp h with ⟨u', v, hget, h⟩
    cases hget
    split at h
    · cases h
      exact ⟨hu.broken, hu.count⟩
    split at h
    · cases h
      exact ⟨hu.broken, hu.count⟩
    · rcases ih hu.broken (hgroup.trans_le hu.count) hu.has h with ⟨ht, hle⟩
      exact ⟨ht, hu.count.trans hle⟩

/-- A `|` without an alternative before it is an error. Any other one splits the nodes, and comes
to a spoilt tree if they are spoilt then. -/
theorem parseOr_carries (hparse : Parses parse) (hbounded : Bounded s.nodes)
    (hp : p < s.nodes.count) (hbeg : s.Has s.begOrNode)
    (hspoils : ∀ b o g n, s.begOrNode = some b → Split s.nodes p b o g n → ∃ q, Spoilt n q)
    (h : parseOr p parse fuel s = (.ok r, t)) :
    (r = none ∧ t = { s with err := -1 }) ∨ Carries s t r := by
  unfold parseOr at h
  rcases bind_eq_ok.mp h with ⟨s', v, hget, h⟩
  cases hget
  rcases Option.eq_none_or_eq_some s.begOrNode with hb | ⟨b, hb⟩
  · rw [hb] at h
    cases h
    exact .inl ⟨rfl, rfl⟩
  rw [hb] at h
  right
  rcases bind_eq_ok.mp h with ⟨⟨o, g⟩, v, hlink, h⟩
  rcases link_eq_ok hlink with ⟨n, hm, rfl⟩
  rcases Except.map_eq_ok.mp hm with ⟨⟨orNode, groupNode, m⟩, hsplit, heq⟩
  cases heq
  have hspec : Split s.nodes p b orNode groupNode m := splitOr_spec hbounded hp (hbeg b hb) hsplit
  have hcount := hspec.count
  have hor : orNode < m.count := by
    rw [hspec.or_fresh, hcount]
    omega
  have hgroup : groupNode < m.count := by
    rw [hspec.group_fresh, hcount]
    omega
  rcases bind_eq_ok.mp h with ⟨_, v, hadvance, h⟩
  obtain rfl := advance_eq_ok hadvance
  rcases bind_eq_ok.mp h with ⟨altGroup, v, hlink', h⟩
  rcases link_eq_ok hlink' with ⟨m₂, hnew, rfl⟩
  -- the nodes are spoilt from here on
  have hsplitted : Broken { s with nodes := m } := by
    refine ⟨hspec.bounded, ?_, hspoils b orNode groupNode m hb hspec⟩
    exact hbeg.mono (by rw [hcount]; exact Nat.le_add_right _ 2)
  have hprev : ({ s with nodes := m } : Parser).Has (some groupNode) := by
    intro c hc
    rw [← Option.some.inj hc]
    exact hgroup
  rcases hsplitted.newNode hor hprev hnew with ⟨hbounded₂, hspoilt₂, hcount₂, halt⟩
  have hle₂ : m.count ≤ m₂.count := by
    rw [hcount₂]
    exact Nat.le_succ _
  have hle : s.nodes.count ≤ m₂.count := by
    rw [hcount₂, hcount]
    omega
  have hopened : Broken { s with nodes := m₂, srcP := s.srcP.tail } :=
    ⟨hbounded₂, hbeg.mono hle, hspoilt₂⟩
  rcases bind_eq_ok.mp h with ⟨alt, u, hloop, h⟩
  rcases altLoop_broken hparse hopened halt (Parser.has_none _) hloop with ⟨hu, hcount'⟩
  have hle' : s.nodes.count ≤ u.nodes.count := hle.trans hcount'
  have hor' : orNode < u.nodes.count := (hor.trans_le hle₂).trans_le hcount'
  have hhas : u.Has (some orNode) := by
    intro c hc
    rw [← Option.some.inj hc]
    exact hor'
  rcases bind_eq_ok.mp h with ⟨u', v, hget, h⟩
  cases hget
  split at h
  · cases h
    exact ⟨hu, hle', Parser.has_none _⟩
  split at h
  · cases h
  · rcases bind_eq_ok.mp h with ⟨_, v, hset, h⟩
    cases hset
    cases h
    exact ⟨hu.setBeg hhas, hle', hhas⟩

/-! ## Every call -/

theorem regexParseNode_succ (h : regexParseNode (fuel + 1) p prev s = (.ok r, t)) :
    (s.err ≠ 0 ∧ r = none ∧ t = s) ∨
    (s.err = 0 ∧ ∃ src, s.srcP = chr '(' :: src ∧
      parseGroup p prev (regexParseNode fuel) fuel s = (.ok r, t)) ∨
    (s.err = 0 ∧ s.cur = chr '|' ∧ parseOr p (regexParseNode fuel) fuel s = (.ok r, t)) ∨
    (s.err = 0 ∧ Reads p prev s r t) := by
  unfold regexParseNode at h
  rcases bind_eq_ok.mp h with ⟨s', v, hget, h⟩
  cases hget
  by_cases herr : s.err = 0
  rotate_left
  · rw [if_pos herr] at h
    cases h
    exact .inl ⟨herr, rfl, rfl⟩
  rw [if_neg (not_not_intro herr)] at h
  by_cases hzero : s.cur = 0
  · rw [if_pos hzero] at h
    cases h
  rw [if_neg hzero] at h
  obtain ⟨src, hsrc⟩ : ∃ src, s.srcP = s.cur :: src := by
    unfold Parser.cur at hzero ⊢
    rcases hs : s.srcP with _ | ⟨c, rest⟩
    · rw [hs] at hzero
      exact absurd rfl hzero
    · exact ⟨rest, rfl⟩
  by_cases hanchor : s.cur = chr '^' ∨ s.cur = chr '$'
  · rw [if_pos hanchor] at h
    refine .inr (.inr (.inr ⟨herr, parseAnchor_reads ?_ h⟩))
    apply behindElement_char hsrc
    · rcases hanchor with hc | hc <;> rw [hc] <;> decide
    · rcases hanchor with hc | hc <;> rw [hc] <;> decide
    · rcases hanchor with hc | hc <;> rw [hc] <;> decide
  rw [if_neg hanchor] at h
  by_cases hopen : s.cur = chr '('
  · rw [if_pos hopen] at h
    rw [hopen] at hsrc
    exact .inr (.inl ⟨herr, src, hsrc, h⟩)
  rw [if_neg hopen] at h
  by_cases hclose : s.cur = chr ')'
  · rw [if_pos hclose] at h
    cases h
  rw [if_neg hclose] at h
  by_cases hor : s.cur = chr '|'
  · rw [if_pos hor] at h
    exact .inr (.inr (.inl ⟨herr, hor, h⟩))
  rw [if_neg hor] at h
  refine .inr (.inr (.inr ⟨herr, ?_⟩))
  by_cases hplus : s.cur = chr '+'
  · rw [if_pos hplus] at h
    exact parseRepeat_reads hsrc (.inl hplus) h
  rw [if_neg hplus] at h
  by_cases hstar : s.cur = chr '*'
  · rw [if_pos hstar] at h
    exact parseRepeat_reads hsrc (.inr hstar) h
  rw [if_neg hstar] at h
  by_cases hquestion : s.cur = chr '?'
  · rw [if_pos hquestion] at h
    rw [hquestion] at hsrc
    exact parseMaybe_reads hsrc h
  rw [if_neg hquestion] at h
  by_cases hbrace : s.cur = chr '\x7b'
  · rw [if_pos hbrace] at h
    rw [hbrace] at hsrc
    exact parseRepeatN_reads hsrc h
  rw [if_neg hbrace] at h
  have hoperators : s.cur ∉ operators := by
    unfold operators
    simp only [List.mem_cons, List.not_mem_nil, or_false, not_or]
    exact ⟨hzero, hopen, hclose, hor, hplus, hstar, hquestion, hbrace⟩
  by_cases hclass : s.cur = chr '['
  · rw [if_pos hclass] at h
    rw [hclass] at hsrc
    exact parseClass_reads hsrc h
  rw [if_neg hclass] at h
  by_cases hdot : s.cur = chr '.'
  · rw [if_pos hdot] at h
    refine parseSimple_reads (behindElement_char hsrc hoperators hclass ?_) h
    rw [hdot]
    decide
  rw [if_neg hdot] at h
  by_cases hescape : s.cur = chr '\\'
  · rw [if_pos hescape] at h
    rw [hescape] at hsrc
    exact parseEscape_reads hsrc h
  · rw [if_neg hescape] at h
    exact parseSimple_reads (behindElement_char hsrc hoperators hclass hescape) h

theorem regexParseNode_parses (fuel : ℕ) : Parses (regexParseNode fuel) := by
  induction fuel with
  | zero =>
    constructor
    · intro p prev s r t _ h
      cases h
    · intro p prev s r t _ _ _ h
      cases h
    · intro s kids p prev r t _ h
      cases h
  | succ fuel ih =>
    constructor
    · intro p prev s r t hs h
      rcases regexParseNode_succ h with ⟨-, -, rfl⟩ | ⟨herr, -⟩ | ⟨herr, -⟩ | ⟨herr, -⟩
      · exact hs
      · exact absurd herr hs
      · exact absurd herr hs
      · exact absurd herr hs
    · intro p prev s r t hs hp hprev h
      rcases regexParseNode_succ h with ⟨-, rfl, rfl⟩ | ⟨-, src, -, hgroup⟩ | ⟨-, -, hor⟩ |
        ⟨-, hreads⟩
      · exact ⟨hs, le_rfl, t.has_none⟩
      · exact parseGroup_carries ih hs hp hprev hgroup
      · -- what is spoilt stays so at a `|`
        rcases hs.spoilt with ⟨q, hq⟩
        have hspoils : ∀ b o g n, s.begOrNode = some b → Split s.nodes p b o g n →
            ∃ q, Spoilt n q :=
          fun b o g n _ hsplit => ⟨q, hq.split hs.bounded hsplit⟩
        rcases parseOr_carries ih hs.bounded hp hs.beg hspoils hor with ⟨rfl, rfl⟩ | hcarries
        · exact ⟨hs.setErr _, le_rfl, Parser.has_none _⟩
        · exact hcarries
      · exact hreads.carries hs hp hprev
    · intro s kids p prev r t hs h
      rcases regexParseNode_succ h with ⟨herr, -, rfl⟩ | ⟨-, src, hsrc, hgroup⟩ |
        ⟨-, hcur, hor⟩ | ⟨-, hreads⟩
      · exact .failed herr
      · exact parseGroup_outcome ih hs hsrc hgroup
      · -- the alternative begins with the first child of its level, and spoils its parent
        have hspoils : ∀ b o g n, s.begOrNode = some b → Split s.nodes p b o g n →
            ∃ q, Spoilt n q :=
          fun b o g n hb hsplit => ⟨p, hsplit.spoils hs.lt (hs.beg b hb).2⟩
        rcases parseOr_carries ih hs.linked.bounded hs.lt hs.hasBeg hspoils hor with
          ⟨-, rfl⟩ | hcarries
        · refine .failed ?_
          change (-1 : ℤ) ≠ 0
          decide
        · exact .broken hcarries fun u => not_elements_or hcur
      · exact hreads.outcome hs

/-! ## The whole pattern -/

/-- One round of the loop of `regex_parse`. -/
theorem parseLoop_succ {program : ℕ}
    (h : parseLoop program (fuel + 1) prev s = (.ok (), t)) :
    (s.cur = 0 ∧ t = s) ∨
      ∃ r u, regexParseNode fuel program prev { s with err := 0 } = (.ok r, u) ∧
        ((u.err ≠ 0 ∧ t = u) ∨ (u.err = 0 ∧ parseLoop program fuel r
          (if u.begOrNode = none then { u with begOrNode := r } else u) = (.ok (), t))) := by
  unfold parseLoop at h
  rcases bind_eq_ok.mp h with ⟨s', v, hget, h⟩
  cases hget
  split at h
  · rename_i hcur
    cases h
    exact .inl ⟨hcur, rfl⟩
  rcases bind_eq_ok.mp h with ⟨_, v, hset, h⟩
  cases hset
  rcases bind_eq_ok.mp h with ⟨r, u, hparse, h⟩
  refine .inr ⟨r, u, hparse, ?_⟩
  rcases bind_eq_ok.mp h with ⟨u', v, hget, h⟩
  cases hget
  split at h
  · rename_i herr
    cases h
    exact .inl ⟨herr, rfl⟩
  rename_i herr
  refine .inr ⟨not_not.mp herr, ?_⟩
  split at h
  · rename_i hbeg
    rcases bind_eq_ok.mp h with ⟨_, v, hset, h⟩
    cases hset
    rw [if_pos hbeg]
    exact h
  · rename_i hbeg
    rw [if_neg hbeg]
    exact h

/-- The loop ends at an error or at the end of the pattern. -/
theorem parseLoop_cur {program : ℕ} (hs : s.err = 0)
    (h : parseLoop program fuel prev s = (.ok (), t)) : t.err ≠ 0 ∨ t.cur = 0 := by
  induction fuel generalizing prev s with
  | zero => cases h
  | succ fuel ih =>
    rcases parseLoop_succ h with ⟨hcur, rfl⟩ | ⟨r, u, -, ⟨herr, rfl⟩ | ⟨herr, hrest⟩⟩
    · exact .inr hcur
    · exact .inl herr
    · refine ih ?_ hrest
      split
      · exact herr
      · exact herr

theorem parseLoop_broken {program : ℕ} (hs : Broken s) (hprogram : program < s.nodes.count)
    (hprev : s.Has prev) (h : parseLoop program fuel prev s = (.ok (), t)) :
    Broken t ∧ s.nodes.count ≤ t.nodes.count := by
  induction fuel generalizing prev s with
  | zero => cases h
  | succ fuel ih =>
    rcases parseLoop_succ h with ⟨-, rfl⟩ | ⟨r, u, hparse, hend⟩
    · exact ⟨hs, le_rfl⟩
    have hu : Carries { s with err := 0 } u r :=
      (regexParseNode_parses fuel).broken (hs.setErr 0) hprogram hprev hparse
    rcases hend with ⟨-, rfl⟩ | ⟨-, hrest⟩
    · exact ⟨hu.broken, hu.count⟩
    · have hu' := hu.begins (c := u.begOrNode = none)
      rcases ih hu'.broken (hprogram.trans_le hu'.count) hu'.has hrest with ⟨ht, hle⟩
      exact ⟨ht, hu'.count.trans hle⟩

/-- Before the first round no alternative has begun, and from it on one always has. -/
theorem parseLoop_ends {program : ℕ} (hs : Level s kids program prev)
    (hbegun : s.begOrNode = none → kids program = [])
    (h : parseLoop program fuel prev s = (.ok (), t)) : Ends s kids program t := by
  induction fuel generalizing prev s kids with
  | zero => cases h
  | succ fuel ih =>
    rcases parseLoop_succ h with ⟨hcur, rfl⟩ | ⟨r, u, hparse, hend⟩
    · exact hs.ends (.inl hcur)
    have heq : ({ s with err := 0 } : Parser) = s := by
      rw [← hs.err]
    rw [heq] at hparse
    cases (regexParseNode_parses fuel).outcome hs hparse with
    | failed herr =>
      rcases hend with ⟨-, rfl⟩ | ⟨hok, -⟩
      · exact .failed herr
      · exact absurd hok herr
    | continues kids' hu =>
      rcases hend with ⟨herr, -⟩ | ⟨-, hrest⟩
      · exact absurd hu.level.err herr
      split at hrest
      · rename_i hnone
        have hnone' : s.begOrNode = none := by
          by_contra hne
          exact hu.beg hne hnone
        have hu' := hu.setBeg (hbegun hnone')
        refine hu'.ends (ih hu'.level ?_ hrest)
        intro hr
        -- the node that was read is there
        have hr' : r = none := hr
        rw [hu.level.prev, List.getLast?_eq_none_iff] at hr'
        exact hr'
      · rename_i hsome
        exact hu.ends (ih hu.level (fun hnone => absurd hnone hsome) hrest)
    | broken hu hnot =>
      rcases hend with ⟨herr, rfl⟩ | ⟨-, hrest⟩
      · exact .failed herr
      have hu' := hu.begins (c := u.begOrNode = none)
      have hlt := hs.lt.trans_le hu'.count
      rcases parseLoop_broken hu'.broken hlt hu'.has hrest with ⟨ht, hle⟩
      exact .broken ht (hu'.count.trans hle) hnot

/-- A pattern of elements and groups, in which what is repeated has a sibling before it. -/
def Sequential (src : Bytes) : Prop := ∃ u, Elements 0 src u ∧ u.headD 0 = 0

/-- The nodes of the program node alone, and the loop over the pattern. -/
theorem regexCompile_eq_ok {memory : ℕ → RNode} {root : ℕ}
    (h : regexCompile fuel (initParser memory src) = (.ok (.success, root), t)) :
    ∃ m, (⟨memory, 0⟩ : Nodes).newNode .program none 0 none none = .ok (root, m) ∧
      parseLoop root fuel none { initParser memory src with nodes := m } = (.ok (), t) ∧
      t.err = 0 := by
  unfold regexCompile at h
  rcases bind_eq_ok.mp h with ⟨program, u, hparse, h⟩
  unfold regexParse at hparse
  rcases bind_eq_ok.mp hparse with ⟨program', v, hlink, hparse⟩
  rcases link_eq_ok hlink with ⟨m, hm, rfl⟩
  rcases bind_eq_ok.mp hparse with ⟨_, v, hset, hparse⟩
  cases hset
  rcases bind_eq_ok.mp hparse with ⟨_, v, hloop, hparse⟩
  cases hparse
  rcases bind_eq_ok.mp h with ⟨u', v, hget, h⟩
  cases hget
  split at h
  · cases h
  rename_i herr
  split at h
  · cases h
    exact ⟨m, hm, hloop, not_not.mp herr⟩
  · cases h

/-- After a successful `regex_compile` the tree is well formed exactly if the pattern is a
sequence whose repeats have a sibling before what they repeat. -/
theorem wellFormed_iff {memory : ℕ → RNode} {root : ℕ}
    (h : regexCompile fuel (initParser memory src) = (.ok (.success, root), t)) :
    WellFormed t.nodes root ↔ Sequential src := by
  rcases regexCompile_eq_ok h with ⟨m, hm, hloop, herr⟩
  rcases Linked.single (n := ⟨memory, 0⟩) hm with ⟨rfl, hlinked⟩
  have hlevel : Level { initParser memory src with nodes := m } (fun _ => []) 0 none := by
    constructor
    · exact hlinked
    · exact hlinked.root
    · rfl
    · rfl
    · intro b hb
      cases hb
  have hcur : t.cur = 0 := by
    rcases parseLoop_cur hlevel.err hloop with herr' | hcur
    · exact absurd herr herr'
    · exact hcur
  cases parseLoop_ends hlevel (fun _ => rfl) hloop with
  | failed herr' => exact absurd herr herr'
  | ended kids' hlevel' _ _ _ helements =>
    constructor
    · intro _
      exact ⟨t.srcP, (helements t.srcP).mpr rfl, hcur⟩
    · intro _
      exact hlevel'.linked.wellFormed
  | broken hbroken _ hnot =>
    rcases hbroken.spoilt with ⟨q, hq⟩
    constructor
    · intro hw
      exact absurd hw hq.not_wellFormed
    · rintro ⟨u, helements, -⟩
      exact absurd helements (hnot u)

/-- Memory before anything is allocated in it. -/
def unused : ℕ → RNode := fun _ => freshNode .atom none 0 none none

/-- `ab*(cd+)e` -/
def sequence : Bytes := ['a', 'b', '*', '(', 'c', 'd', '+', ')', 'e'].map chr

theorem sequence_sequential : Sequential sequence := by
  have hgroup : Elements 0 (['c', 'd', '+', ')', 'e'].map chr) ([')', 'e'].map chr) := by
    apply Elements.single (h := rfl)
    apply Elements.single (h := rfl)
    apply Elements.repeated le_rfl (h := rfl)
    exact .done (.inr rfl)
  refine ⟨[], ?_, rfl⟩
  apply Elements.single (h := rfl)
  apply Elements.single (h := rfl)
  apply Elements.repeated le_rfl (h := rfl)
  apply Elements.group hgroup
  apply Elements.single (h := rfl)
  exact .done (.inl rfl)

theorem sequence_wellFormed :
    WellFormed (regexCompile 20 (initParser unused sequence)).2.nodes 0 := by
  have hok : (regexCompile 20 (initParser unused sequence)).1 = .ok (.success, 0) := by
    decide +kernel
  rcases hcompiled : regexCompile 20 (initParser unused sequence) with ⟨res, t⟩
  rw [hcompiled] at hok
  obtain rfl : res = .ok (.success, 0) := hok
  exact (wellFormed_iff hcompiled).mpr sequence_sequential

/-- The repeat of `a*` is the first child of its parent and has itself a node before it. -/
theorem star_not_wellFormed : ¬ ∀ (memory : ℕ → RNode) (src : Bytes) (fuel root : ℕ) (t : Parser),
    regexCompile fuel (initParser memory src) = (.ok (.success, root), t) →
      WellFormed t.nodes root := by
  intro hall
  let compiled := regexCompile 20 (initParser unused [chr 'a', chr '*'])
  have hok : compiled.1 = .ok (.success, 0) := by
    decide +kernel
  have hspoilt : Spoilt compiled.2.nodes 0 := by
    constructor
    · decide +kernel
    · refine ⟨2, ?_, .inr ?_⟩
      · decide +kernel
      · decide +kernel
  exact hspoilt.not_wellFormed (hall unused _ 20 0 compiled.2 (Prod.ext hok rfl))

end Clox.Regex
