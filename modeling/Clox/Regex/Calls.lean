import Clox.Regex.Grammar
import Clox.Regex.Spoilt

/-! # What one call of the parser does

A call that reads an element adds one node behind the others of its level, a call that reads a
repeat puts one above the last of them.
-/

namespace Clox.Regex

open Clox.Printing (Bytes)
open Clox.Scanning (chr)
open Commands Commands.Command

/-- The nodes differ in fields that link nothing. -/
structure SamePointers (n n' : Nodes) : Prop where
  count : n'.count = n.count
  next : ∀ b, (n'.node b).next = (n.node b).next
  prev : ∀ b, (n'.node b).prev = (n.node b).prev
  parent : ∀ b, (n'.node b).parent = (n.node b).parent
  children : ∀ b, (n'.node b).children = (n.node b).children

variable {n n' : Nodes} {kids : ℕ → List ℕ} {p q a : ℕ} {prev r : Option ℕ} {s t : Parser}
  {type : RNodeType} {c : UInt8} {src : Bytes}

namespace SamePointers

theorem refl (n : Nodes) : SamePointers n n :=
  ⟨rfl, fun _ => rfl, fun _ => rfl, fun _ => rfl, fun _ => rfl⟩

theorem linked (h : SamePointers n n') (hl : Linked n kids) : Linked n' kids := by
  refine ⟨?_, ?_, fun p hp => ?_, fun hc => ?_, ?_⟩
  · rw [h.count]
    exact hl.tree
  · rw [h.count]
    exact hl.root
  · rw [h.count] at hp
    rw [h.children]
    exact (hl.links p hp).congr (fun b _ => h.prev b) fun b _ => h.next b
  · rw [h.parent]
    exact hl.parent hc
  · rw [h.next, h.prev]
    exact hl.alone

theorem bounded (h : SamePointers n n') (hb : Bounded n) : Bounded n' := by
  constructor
  · intro b hlt d hd
    rw [h.count] at hlt ⊢
    exact hb.next b hlt d (h.next b ▸ hd)
  · intro b hlt d hd
    rw [h.count] at hlt ⊢
    exact hb.prev b hlt d (h.prev b ▸ hd)
  · intro b hlt d hd
    rw [h.count] at hlt ⊢
    exact hb.children b hlt d (h.children b ▸ hd)

theorem spoilt (h : SamePointers n n') (hs : Spoilt n p) : Spoilt n' p := by
  rcases hs with ⟨hp, d, hd, hbad⟩
  refine ⟨?_, d, (h.children p).trans hd, ?_⟩
  · rw [h.count]
    exact hp
  · rw [h.parent, h.prev]
    exact hbad

end SamePointers

/-- A call that neither opens a group nor splits an alternative. -/
inductive Reads (p : ℕ) (prev : Option ℕ) (s : Parser) : Option ℕ → Parser → Prop
  | failed {t : Parser} (herr : t.err ≠ 0) (hbeg : t.begOrNode = s.begOrNode)
      (hnodes : t.nodes = s.nodes ∨ ∃ type tok toklen a m,
        s.nodes.newNode type tok toklen (some p) prev = .ok (a, m) ∧ SamePointers m t.nodes) :
      Reads p prev s none t
  | element {t : Parser} {type : RNodeType} {tok : Option Bytes} {toklen a : ℕ} {m : Nodes}
      (hnew : s.nodes.newNode type tok toklen (some p) prev = .ok (a, m))
      (hsame : SamePointers m t.nodes) (hbeg : t.begOrNode = s.begOrNode) (herr : t.err = s.err)
      (hsrc : behindElement s.srcP = some t.srcP) : Reads p prev s (some a) t
  | repeated {t : Parser} {type : RNodeType} {tok : Bytes} {toklen x a : ℕ} {m : Nodes}
      (hprev : prev = some x) (hwrap : s.nodes.wrap type tok toklen p x = .ok (a, m))
      (hsame : SamePointers m t.nodes) (hbeg : t.begOrNode = s.begOrNode) (herr : t.err = s.err)
      (hsrc : behindRepeat s.srcP = some t.srcP) : Reads p prev s (some a) t

/-! ## Inversions -/

theorem link_eq_ok {α : Type} {f : Nodes → Except Stop (α × Nodes)} {x : α}
    (h : link f s = (.ok x, t)) : ∃ m, f s.nodes = .ok (x, m) ∧ t = { s with nodes := m } := by
  unfold link at h
  split at h
  · rename_i y m hf
    cases h
    exact ⟨m, hf, rfl⟩
  · cases h

theorem advance_eq_ok {x : Unit} (h : advance s = (.ok x, t)) :
    t = { s with srcP := s.srcP.tail } := by
  unfold advance at h
  split at h
  · cases h
  · rename_i hsrc
    cases h
    rw [hsrc]
    rfl

theorem newElement_eq_ok (h : newElement p prev type s = (.ok a, t)) :
    ∃ m, s.nodes.newNode type (some s.srcP) 1 (some p) prev = .ok (a, m) ∧
      t = { s with nodes := m } := by
  rcases bind_eq_ok.mp h with ⟨s', u, hget, hlink⟩
  cases hget
  exact link_eq_ok hlink

theorem update_samePointers (n : Nodes) (a : ℕ) {f : RNode → RNode}
    (hnext : ∀ r, (f r).next = r.next) (hprev : ∀ r, (f r).prev = r.prev)
    (hparent : ∀ r, (f r).parent = r.parent) (hchildren : ∀ r, (f r).children = r.children) :
    SamePointers n (n.update a f) :=
  ⟨rfl, fun _ => Nodes.update_other hnext, fun _ => Nodes.update_other hprev,
    fun _ => Nodes.update_other hparent, fun _ => Nodes.update_other hchildren⟩

theorem parseSimple_eq_ok (h : parseSimple p prev type s = (.ok r, t)) :
    ∃ a m, s.nodes.newNode type (some s.srcP) 1 (some p) prev = .ok (a, m) ∧ r = some a ∧
      t = { s with nodes := m, srcP := s.srcP.tail } := by
  rcases bind_eq_ok.mp h with ⟨a, u, hnew, h⟩
  rcases newElement_eq_ok hnew with ⟨m, hm, rfl⟩
  rcases bind_eq_ok.mp h with ⟨_, u, hadvance, h⟩
  obtain rfl := advance_eq_ok hadvance
  cases h
  exact ⟨a, m, hm, rfl, rfl⟩

/-- An element whose node gets more fields. -/
theorem reads_element {f : RNode → RNode} {s₁ : Parser}
    (h : (do let a ← newElement p prev type; setInfo a f; advance; return some a) s₁ = (.ok r, t))
    (hnext : ∀ r, (f r).next = r.next) (hprev : ∀ r, (f r).prev = r.prev)
    (hparent : ∀ r, (f r).parent = r.parent) (hchildren : ∀ r, (f r).children = r.children)
    (hnodes : s₁.nodes = s.nodes) (hbeg : s₁.begOrNode = s.begOrNode) (herr : s₁.err = s.err)
    (hsrc : behindElement s.srcP = some s₁.srcP.tail) : Reads p prev s r t := by
  rcases bind_eq_ok.mp h with ⟨a, u, hnew, h⟩
  rcases newElement_eq_ok hnew with ⟨m, hm, rfl⟩
  rcases bind_eq_ok.mp h with ⟨_, u, hinfo, h⟩
  cases hinfo
  rcases bind_eq_ok.mp h with ⟨_, u, hadvance, h⟩
  obtain rfl := advance_eq_ok hadvance
  cases h
  rw [hnodes] at hm
  exact .element hm (update_samePointers m a hnext hprev hparent hchildren) hbeg herr hsrc

theorem reads_parseError {s₁ : Parser} (h : parseError s₁ = (.ok r, t))
    (hnodes : s₁.nodes = s.nodes) (hbeg : s₁.begOrNode = s.begOrNode) : Reads p prev s r t := by
  cases h
  refine .failed ?_ hbeg (.inl hnodes)
  change (-1 : ℤ) ≠ 0
  decide

/-! ## Single nodes -/

theorem behindElement_char (hsrc : s.srcP = c :: src) (hc : c ∉ operators) (hclass : c ≠ chr '[')
    (hescape : c ≠ chr '\\') : behindElement s.srcP = some s.srcP.tail := by
  rw [hsrc, behindElement, if_neg hc, if_neg hclass, if_neg hescape]
  rfl

theorem parseSimple_reads (hsrc : behindElement s.srcP = some s.srcP.tail)
    (h : parseSimple p prev type s = (.ok r, t)) : Reads p prev s r t := by
  rcases parseSimple_eq_ok h with ⟨a, m, hm, rfl, rfl⟩
  exact .element hm (.refl m) rfl rfl hsrc

theorem parseAnchor_reads (hsrc : behindElement s.srcP = some s.srcP.tail)
    (h : parseAnchor p prev c s = (.ok r, t)) : Reads p prev s r t :=
  reads_element h (fun _ => rfl) (fun _ => rfl) (fun _ => rfl) (fun _ => rfl) rfl rfl rfl hsrc

theorem parseClass_reads (hsrc : s.srcP = chr '[' :: src)
    (h : parseClass p prev s = (.ok r, t)) : Reads p prev s r t := by
  rcases bind_eq_ok.mp h with ⟨a, u, hnew, h⟩
  rcases newElement_eq_ok hnew with ⟨m, hm, rfl⟩
  rcases bind_eq_ok.mp h with ⟨_, u, hadvance, h⟩
  obtain rfl := advance_eq_ok hadvance
  rcases bind_eq_ok.mp h with ⟨_, u, hget, h⟩
  cases hget
  dsimp only at h
  rcases bind_eq_ok.mp h with ⟨_, u, hinfo, h⟩
  cases hinfo
  rcases bind_eq_ok.mp h with ⟨_, u, hset, h⟩
  cases hset
  have hbehind : behindElement s.srcP = if (classEnd (src.headD 0) src).2 = [] then none
      else some (classEnd (src.headD 0) src).2.tail := by
    rw [hsrc, behindElement, if_neg (by decide), if_pos rfl]
  have hloop : classEnd (Parser.cur { s with nodes := m, srcP := s.srcP.tail }) s.srcP.tail =
      classEnd (src.headD 0) src := by
    unfold Parser.cur
    rw [hsrc]
    rfl
  rw [hloop] at h
  have hsame := update_samePointers m a (f := fun r : RNode =>
    { r with toklen := r.toklen + (classEnd (src.headD 0) src).1 }) (fun _ => rfl) (fun _ => rfl)
    (fun _ => rfl) fun _ => rfl
  split at h
  · cases h
    refine .failed ?_ rfl (.inr ⟨_, _, _, a, m, hm, hsame⟩)
    change (-1 : ℤ) ≠ 0
    decide
  · rename_i hend
    rcases bind_eq_ok.mp h with ⟨_, u, hadvance, h⟩
    obtain rfl := advance_eq_ok hadvance
    cases h
    rw [if_neg hend] at hbehind
    exact .element hm hsame rfl rfl hbehind

theorem parseEscape_reads (hsrc : s.srcP = chr '\\' :: src)
    (h : parseEscape p prev s = (.ok r, t)) : Reads p prev s r t := by
  rcases bind_eq_ok.mp h with ⟨_, u, hadvance, h⟩
  obtain rfl := advance_eq_ok hadvance
  rcases bind_eq_ok.mp h with ⟨_, u, hget, h⟩
  cases hget
  have hbehind : behindElement s.srcP = if src.headD 0 = 0 then none else some src.tail := by
    rw [hsrc, behindElement, if_neg (by decide), if_neg (by decide), if_pos rfl]
  have hcur : Parser.cur { s with srcP := s.srcP.tail } = src.headD 0 := by
    unfold Parser.cur
    rw [hsrc]
    rfl
  rw [hcur] at h
  split at h
  · exact reads_parseError h rfl rfl
  rename_i hend
  rw [if_neg hend] at hbehind
  have htail : src.tail = s.srcP.tail.tail := by
    rw [hsrc]
    rfl
  rw [htail] at hbehind
  rcases hclass : eclassOf (src.headD 0) with _ | etype
  rotate_left
  · rw [hclass] at h
    exact reads_element h (fun _ => rfl) (fun _ => rfl) (fun _ => rfl) (fun _ => rfl) rfl rfl
      rfl hbehind
  rw [hclass] at h
  dsimp only at h
  split at h
  · rcases parseSimple_eq_ok h with ⟨a, m, hm, rfl, rfl⟩
    exact .element hm (.refl m) rfl rfl hbehind
  split at h
  · exact reads_element h (fun _ => rfl) (fun _ => rfl) (fun _ => rfl) (fun _ => rfl) rfl rfl
      rfl hbehind
  · rcases bind_eq_ok.mp h with ⟨_, u, hadvance, h⟩
    obtain rfl := advance_eq_ok hadvance
    rcases bind_eq_ok.mp h with ⟨a, u, hnew, h⟩
    rcases newElement_eq_ok hnew with ⟨m, hm, rfl⟩
    cases h
    exact .element hm (.refl m) rfl rfl hbehind

/-! ## Repeats -/

theorem parseRepeat_reads {greedy nongreedy : RNodeType} (hsrc : s.srcP = c :: src)
    (hc : c = chr '+' ∨ c = chr '*') (h : parseRepeat p prev greedy nongreedy s = (.ok r, t)) :
    Reads p prev s r t := by
  unfold parseRepeat at h
  split at h
  · exact reads_parseError h rfl rfl
  rename_i x
  rcases bind_eq_ok.mp h with ⟨_, u, hadvance, h⟩
  obtain rfl := advance_eq_ok hadvance
  rcases bind_eq_ok.mp h with ⟨_, u, hget, h⟩
  cases hget
  dsimp only at h
  have hcur : Parser.cur { s with srcP := s.srcP.tail } = src.headD 0 := by
    unfold Parser.cur
    rw [hsrc]
    rfl
  have hbehind : behindRepeat s.srcP = some (if src.headD 0 = chr '?' then src.tail else src) := by
    rw [hsrc, behindRepeat, if_pos hc]
  have htail : s.srcP.tail = src := by rw [hsrc]; rfl
  rw [hcur, htail] at h
  split at h
  · rename_i hquestion
    rw [if_pos hquestion] at hbehind
    rcases bind_eq_ok.mp h with ⟨_, u, hadvance, h⟩
    obtain rfl := advance_eq_ok hadvance
    rcases bind_eq_ok.mp h with ⟨_, u, hget, h⟩
    cases hget
    rcases bind_eq_ok.mp h with ⟨a, u, hlink, h⟩
    rcases link_eq_ok hlink with ⟨m, hm, rfl⟩
    cases h
    exact .repeated rfl hm (.refl m) rfl rfl hbehind
  · rename_i hquestion
    rw [if_neg hquestion] at hbehind
    rcases bind_eq_ok.mp h with ⟨a, u, hlink, h⟩
    rcases link_eq_ok hlink with ⟨m, hm, rfl⟩
    cases h
    exact .repeated rfl hm (.refl m) rfl rfl hbehind

theorem parseMaybe_reads (hsrc : s.srcP = chr '?' :: src) (h : parseMaybe p prev s = (.ok r, t)) :
    Reads p prev s r t := by
  unfold parseMaybe at h
  split at h
  · exact reads_parseError h rfl rfl
  rename_i x
  rcases bind_eq_ok.mp h with ⟨_, u, hadvance, h⟩
  obtain rfl := advance_eq_ok hadvance
  rcases bind_eq_ok.mp h with ⟨_, u, hget, h⟩
  cases hget
  rcases bind_eq_ok.mp h with ⟨a, u, hlink, h⟩
  rcases link_eq_ok hlink with ⟨m, hm, rfl⟩
  cases h
  refine .repeated rfl hm (.refl m) rfl rfl ?_
  change behindRepeat s.srcP = some s.srcP.tail
  rw [hsrc, behindRepeat, if_neg (by decide), if_pos rfl]
  rfl

theorem parseRepeatN_reads (hsrc : s.srcP = chr '\x7b' :: src)
    (h : parseRepeatN p prev s = (.ok r, t)) : Reads p prev s r t := by
  unfold parseRepeatN at h
  split at h
  · exact reads_parseError h rfl rfl
  rename_i x
  rcases bind_eq_ok.mp h with ⟨_, u, hadvance, h⟩
  obtain rfl := advance_eq_ok hadvance
  rcases bind_eq_ok.mp h with ⟨_, u, hget, h⟩
  cases hget
  rcases bind_eq_ok.mp h with ⟨_, u, hset, h⟩
  cases hset
  dsimp only at h
  rcases hnumbers : (repeatNumbers s.srcP.tail).1 with _ | ⟨lval1, lval2⟩
  · rw [hnumbers] at h
    exact reads_parseError h rfl rfl
  rw [hnumbers] at h
  rcases bind_eq_ok.mp h with ⟨a, u, hlink, h⟩
  rcases link_eq_ok hlink with ⟨m, hm, rfl⟩
  rcases bind_eq_ok.mp h with ⟨_, u, hinfo, h⟩
  cases hinfo
  cases h
  have hsame := update_samePointers m a (f := fun r : RNode =>
    { r with repeatMin := lval1, repeatMax := lval2 }) (fun _ => rfl) (fun _ => rfl)
    (fun _ => rfl) fun _ => rfl
  refine .repeated rfl hm hsame rfl rfl ?_
  have htail : s.srcP.tail = src := by rw [hsrc]; rfl
  dsimp only
  rw [htail] at hnumbers ⊢
  rw [hsrc, behindRepeat, if_neg (by decide), if_neg (by decide), if_pos rfl, hnumbers]
  rfl

end Clox.Regex
