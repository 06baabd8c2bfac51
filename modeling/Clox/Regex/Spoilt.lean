import Clox.Regex.Tree

/-! # What is never put right

The first child of a node that has another parent, or a node before it. Whatever is linked
afterwards, the first child of that node is a wrong one.
-/

namespace Clox.Regex

open Clox.Printing (Bytes)

/-- The pointers of allocated nodes are to allocated nodes. -/
structure Bounded (n : Nodes) : Prop where
  next : ∀ b < n.count, ∀ c, (n.node b).next = some c → c < n.count
  prev : ∀ b < n.count, ∀ c, (n.node b).prev = some c → c < n.count
  children : ∀ b < n.count, ∀ c, (n.node b).children = some c → c < n.count

/-- The first child of `p` has another parent or a node before it. -/
structure Spoilt (n : Nodes) (p : ℕ) : Prop where
  lt : p < n.count
  first : ∃ c, (n.node p).children = some c ∧
    ((n.node c).parent ≠ some p ∨ (n.node c).prev ≠ none)

theorem Spoilt.not_wellFormed {n : Nodes} {p root : ℕ} (h : Spoilt n p) : ¬ WellFormed n root := by
  intro hw
  rcases h.first with ⟨c, hc, hparent | hprev⟩
  · exact hparent (hw.parent p h.lt c ⟨c, hc, .refl⟩)
  · exact hprev (hw.first p h.lt c hc)

variable {n n' : Nodes} {a b c p q x o g : ℕ} {v parent prev : Option ℕ} {type : RNodeType}
  {tok : Option Bytes} {toklen fuel : ℕ}

/-! ## Bounds -/

theorem Linked.bounded {kids : ℕ → List ℕ} (h : Linked n kids) : Bounded n := by
  have hplace : ∀ b < n.count, b = 0 ∨ ∃ q, b ∈ kids q := by
    intro b hb
    rcases Relation.ReflTransGen.cases_tail (h.tree.reached b hb) with heq | ⟨q, -, hq⟩
    · exact .inl heq
    · exact .inr ⟨q, hq⟩
  have hsplit : ∀ b q, b ∈ kids q → ∃ l₁ l₂, kids q = l₁ ++ b :: l₂ ∧
      (n.node b).next = l₂.head? ∧ (n.node b).prev = l₁.getLast? := by
    intro b q hb
    rcases List.append_of_mem hb with ⟨l₁, l₂, hl⟩
    have hlinks := h.links q (h.lt_of_mem hb).1
    exact ⟨l₁, l₂, hl, hlinks.next _ _ _ hl, hlinks.prev _ _ _ hl⟩
  constructor
  · intro b hb c hc
    rcases hplace b hb with rfl | ⟨q, hq⟩
    · rw [h.alone.1] at hc
      cases hc
    · rcases hsplit b q hq with ⟨l₁, l₂, hl, hnext, -⟩
      rw [hc] at hnext
      have hmem : c ∈ kids q := by
        rw [hl]
        exact List.mem_append_right _ (List.mem_cons_of_mem _ (List.mem_of_mem_head? hnext.symm))
      exact (h.lt_of_mem hmem).2
  · intro b hb c hc
    rcases hplace b hb with rfl | ⟨q, hq⟩
    · rw [h.alone.2] at hc
      cases hc
    · rcases hsplit b q hq with ⟨l₁, l₂, hl, -, hprev⟩
      rw [hc] at hprev
      have hmem : c ∈ kids q := by
        rw [hl]
        exact List.mem_append_left _ (List.mem_of_getLast? hprev.symm)
      exact (h.lt_of_mem hmem).2
  · intro b hb c hc
    have hhead := (h.links b hb).head
    rw [hc] at hhead
    exact (h.lt_of_mem (List.mem_of_mem_head? hhead.symm)).2

namespace Bounded

theorem setNext (h : Bounded n) (hv : ∀ c, v = some c → c < n.count) : Bounded (n.setNext a v) := by
  refine ⟨fun b hb c hc => ?_, fun b hb c hc => ?_, fun b hb c hc => ?_⟩
  · rw [Nodes.setNext_next] at hc
    split at hc
    · exact hv c hc
    · exact h.next b hb c hc
  · exact h.prev b hb c (by rwa [Nodes.setNext_prev] at hc)
  · exact h.children b hb c (by rwa [Nodes.setNext_children] at hc)

theorem setPrev (h : Bounded n) (hv : ∀ c, v = some c → c < n.count) : Bounded (n.setPrev a v) := by
  refine ⟨fun b hb c hc => ?_, fun b hb c hc => ?_, fun b hb c hc => ?_⟩
  · exact h.next b hb c (by rwa [Nodes.setPrev_next] at hc)
  · rw [Nodes.setPrev_prev] at hc
    split at hc
    · exact hv c hc
    · exact h.prev b hb c hc
  · exact h.children b hb c (by rwa [Nodes.setPrev_children] at hc)

theorem setChildren (h : Bounded n) (hv : ∀ c, v = some c → c < n.count) :
    Bounded (n.setChildren a v) := by
  refine ⟨fun b hb c hc => ?_, fun b hb c hc => ?_, fun b hb c hc => ?_⟩
  · exact h.next b hb c (by rwa [Nodes.setChildren_next] at hc)
  · exact h.prev b hb c (by rwa [Nodes.setChildren_prev] at hc)
  · rw [Nodes.setChildren_children] at hc
    split at hc
    · exact hv c hc
    · exact h.children b hb c hc

theorem setParent (h : Bounded n) : Bounded (n.setParent a v) := by
  refine ⟨fun b hb c hc => ?_, fun b hb c hc => ?_, fun b hb c hc => ?_⟩
  · exact h.next b hb c (by rwa [Nodes.setParent_next] at hc)
  · exact h.prev b hb c (by rwa [Nodes.setParent_prev] at hc)
  · exact h.children b hb c (by rwa [Nodes.setParent_children] at hc)

theorem allocate (h : Bounded n) (hprev : ∀ c, prev = some c → c < n.count) :
    Bounded (n.allocate type tok toklen parent prev) := by
  rcases Nodes.allocate_spec n type tok toklen parent prev with ⟨hcount, hspec⟩
  have hold : ∀ b < n.count + 1, b ≠ n.count → b < n.count := by
    intro b hb hne
    omega
  constructor
  · intro b hb c hc
    rw [hcount] at hb ⊢
    rw [(hspec b).1] at hc
    split at hc
    · rw [← Option.some.inj hc]
      exact Nat.lt_succ_self _
    · split at hc
      · cases hc
      · rename_i hne
        exact Nat.lt_succ_of_lt (h.next b (hold b hb hne) c hc)
  · intro b hb c hc
    rw [hcount] at hb ⊢
    rw [(hspec b).2.1] at hc
    split at hc
    · exact Nat.lt_succ_of_lt (hprev c hc)
    · rename_i hne
      exact Nat.lt_succ_of_lt (h.prev b (hold b hb hne) c hc)
  · intro b hb c hc
    rw [hcount] at hb ⊢
    rw [(hspec b).2.2.2] at hc
    split at hc
    · cases hc
    · rename_i hne
      exact Nat.lt_succ_of_lt (h.children b (hold b hb hne) c hc)

/-- The walk to the last child comes to an allocated node, which has none behind it. -/
theorem lastChild (h : Bounded n) (ha : a < n.count) (hok : n.lastChild fuel a = .ok b) :
    b < n.count ∧ (n.node b).next = none := by
  induction fuel generalizing a with
  | zero => cases hok
  | succ fuel ih =>
    unfold Nodes.lastChild at hok
    split at hok
    · rename_i c hc
      exact ih (h.next a ha c hc) hok
    · rename_i hnone
      cases hok
      exact ⟨ha, hnone⟩

/-- Only the allocated nodes are walked over. -/
theorem lastChild_congr (h : Bounded n) (hnext : ∀ b < n.count, (n'.node b).next = (n.node b).next)
    (ha : a < n.count) : n'.lastChild fuel a = n.lastChild fuel a := by
  induction fuel generalizing a with
  | zero => rfl
  | succ fuel ih =>
    unfold Nodes.lastChild
    rw [hnext a ha]
    split
    · rename_i c hc
      exact ih (h.next a ha c hc)
    · rfl

end Bounded

/-! ## A new node -/

/-- What `new_node` leaves of the nodes that were there, and the new one. -/
structure NewNode (n : Nodes) (parent prev : Option ℕ) (a : ℕ) (n' : Nodes) : Prop where
  fresh : a = n.count
  count : n'.count = n.count + 1
  bounded : Bounded n'
  prev_old : ∀ b < n.count, (n'.node b).prev = (n.node b).prev
  parent_old : ∀ b < n.count, (n'.node b).parent = (n.node b).parent
  children_old : ∀ b < n.count, (n.node b).children ≠ none →
    (n'.node b).children = (n.node b).children
  parent_new : (n'.node a).parent = parent
  children_new : (n'.node a).children = none
  next_new : (n'.node a).next = none
  prev_new : prev ≠ none → (n'.node a).prev = prev
  /-- Behind the children that are there, which no node with a `next` is the last of. -/
  appended : ∀ p, parent = some p → prev = none → (n.node p).children ≠ none →
    ∃ q < n.count, (n'.node a).prev = some q ∧ (n.node q).next = none
  alone : ∀ p, parent = some p → prev = none → (n.node p).children = none →
    (n'.node a).prev = none
  next_old : prev = none → ∀ b < n.count, (n.node b).next ≠ none →
    (n'.node b).next = (n.node b).next
  next_alone : ∀ p, parent = some p → prev = none → (n.node p).children = none →
    ∀ b < n.count, (n'.node b).next = (n.node b).next

/-- A fresh node that no other points at, and the old ones as they were. -/
structure Unlinked (n m : Nodes) : Prop where
  count : m.count = n.count + 1
  bounded : Bounded m
  old : ∀ b < n.count, (m.node b).next = (n.node b).next ∧ (m.node b).prev = (n.node b).prev ∧
    (m.node b).parent = (n.node b).parent ∧ (m.node b).children = (n.node b).children
  fresh : (m.node n.count).next = none ∧ (m.node n.count).prev = none ∧
    (m.node n.count).children = none

theorem Bounded.unlinked (h : Bounded n) : Unlinked n (n.allocate type tok toklen parent none) := by
  have hbounded : Bounded (n.allocate type tok toklen parent none) := by
    apply h.allocate
    intro c hc
    cases hc
  rcases Nodes.allocate_spec n type tok toklen parent none with ⟨hcount, hspec⟩
  refine ⟨hcount, hbounded, fun b hb => ⟨?_, ?_, ?_, ?_⟩, ?_, ?_, ?_⟩
  · rw [(hspec b).1, if_neg (by intro h; cases h), if_neg hb.ne]
  · rw [(hspec b).2.1, if_neg hb.ne]
  · rw [(hspec b).2.2.1, if_neg hb.ne]
  · rw [(hspec b).2.2.2, if_neg hb.ne]
  · rw [(hspec n.count).1, if_neg (by intro h; cases h), if_pos rfl]
  · rw [(hspec n.count).2.1, if_pos rfl]
  · rw [(hspec n.count).2.2.2, if_pos rfl]

/-- Where `node_add_child` is not called. -/
theorem NewNode.allocate (h : Bounded n) (hprev : ∀ p, prev = some p → p < n.count)
    (hplain : parent = none ∨ prev ≠ none) :
    NewNode n parent prev n.count (n.allocate type tok toklen parent prev) := by
  rcases Nodes.allocate_spec n type tok toklen parent prev with ⟨hcount, hspec⟩
  have hprevNew : prev ≠ some n.count := fun heq => Nat.lt_irrefl _ (hprev _ heq)
  have halone : ∀ p, parent = some p → prev = none → False := by
    intro p hp hnone
    rcases hplain with h | h
    · rw [hp] at h
      cases h
    · exact h hnone
  refine ⟨rfl, hcount, h.allocate hprev, fun b hb => ?_, fun b hb => ?_, fun b hb _ => ?_, ?_, ?_,
    ?_, fun _ => ?_, fun p hp hnone => (halone p hp hnone).elim,
    fun p hp hnone => (halone p hp hnone).elim, fun hnone b hb _ => ?_,
    fun p hp hnone => (halone p hp hnone).elim⟩
  · rw [(hspec b).2.1, if_neg hb.ne]
  · rw [(hspec b).2.2.1, if_neg hb.ne]
  · rw [(hspec b).2.2.2, if_neg hb.ne]
  · rw [(hspec n.count).2.2.1, if_pos rfl]
  · rw [(hspec n.count).2.2.2, if_pos rfl]
  · rw [(hspec n.count).1, if_neg hprevNew, if_pos rfl]
  · rw [(hspec n.count).2.1, if_pos rfl]
  · rw [(hspec b).1, if_neg (by rw [hnone]; exact Option.some_ne_none b ∘ Eq.symm), if_neg hb.ne]

theorem Unlinked.firstChild {m : Nodes} (h : Unlinked n m) (hp : p < n.count)
    (hnone : (n.node p).children = none) :
    NewNode n (some p) none n.count
      ((m.setParent n.count (some p)).setChildren p (some n.count)) := by
  refine ⟨rfl, h.count, h.bounded.setParent.setChildren fun c hc => ?_, fun b hb => ?_,
    fun b hb => ?_, fun b hb hne => ?_, ?_, ?_, ?_, fun hne => absurd rfl hne,
    fun q hq _ hne => ?_, fun q _ _ _ => ?_, fun _ b hb _ => ?_, fun q _ _ _ b hb => ?_⟩
  · rw [← Option.some.inj hc]
    exact h.count ▸ Nat.lt_succ_self _
  · rw [Nodes.setChildren_prev, Nodes.setParent_prev, (h.old b hb).2.1]
  · rw [Nodes.setChildren_parent, Nodes.setParent_parent, if_neg hb.ne, (h.old b hb).2.2.1]
  · have hbp : b ≠ p := by
      rintro rfl
      exact hne hnone
    rw [Nodes.setChildren_children, if_neg hbp, Nodes.setParent_children, (h.old b hb).2.2.2]
  · rw [Nodes.setChildren_parent, Nodes.setParent_parent, if_pos rfl]
  · rw [Nodes.setChildren_children, if_neg hp.ne', Nodes.setParent_children, h.fresh.2.2]
  · rw [Nodes.setChildren_next, Nodes.setParent_next, h.fresh.1]
  · rw [← Option.some.inj hq] at hne
    exact absurd hnone hne
  · rw [Nodes.setChildren_prev, Nodes.setParent_prev, h.fresh.2.1]
  · rw [Nodes.setChildren_next, Nodes.setParent_next, (h.old b hb).1]
  · rw [Nodes.setChildren_next, Nodes.setParent_next, (h.old b hb).1]

theorem Unlinked.laterChild {m : Nodes} {first last : ℕ} (h : Unlinked n m)
    (hfirst : (n.node p).children = some first) (hlt : last < n.count)
    (hend : (n.node last).next = none) :
    NewNode n (some p) none n.count
      (((m.setParent n.count (some p)).setNext last (some n.count)).setPrev n.count
        (some last)) := by
  have hnew : n.count < m.count := h.count ▸ Nat.lt_succ_self _
  refine ⟨rfl, h.count, ?_, fun b hb => ?_, fun b hb => ?_, fun b hb _ => ?_, ?_, ?_, ?_,
    fun hne => absurd rfl hne, fun q hq _ _ => ⟨last, hlt, ?_, hend⟩, fun q hq _ hnone => ?_,
    fun _ b hb hne => ?_, fun q hq _ hnone => ?_⟩
  · refine (h.bounded.setParent.setNext fun c hc => ?_).setPrev fun c hc => ?_
    · rw [← Option.some.inj hc]
      exact hnew
    · rw [← Option.some.inj hc]
      exact hlt.trans hnew
  · rw [Nodes.setPrev_prev, if_neg hb.ne, Nodes.setNext_prev, Nodes.setParent_prev,
      (h.old b hb).2.1]
  · rw [Nodes.setPrev_parent, Nodes.setNext_parent, Nodes.setParent_parent, if_neg hb.ne,
      (h.old b hb).2.2.1]
  · rw [Nodes.setPrev_children, Nodes.setNext_children, Nodes.setParent_children,
      (h.old b hb).2.2.2]
  · rw [Nodes.setPrev_parent, Nodes.setNext_parent, Nodes.setParent_parent, if_pos rfl]
  · rw [Nodes.setPrev_children, Nodes.setNext_children, Nodes.setParent_children, h.fresh.2.2]
  · rw [Nodes.setPrev_next, Nodes.setNext_next, if_neg hlt.ne', Nodes.setParent_next, h.fresh.1]
  · rw [Nodes.setPrev_prev, if_pos rfl]
  · rw [← Option.some.inj hq, hfirst] at hnone
    cases hnone
  · have hbl : b ≠ last := by
      rintro rfl
      exact hne hend
    rw [Nodes.setPrev_next, Nodes.setNext_next, if_neg hbl, Nodes.setParent_next, (h.old b hb).1]
  · rw [← Option.some.inj hq, hfirst] at hnone
    cases hnone

theorem newNode_spec (h : Bounded n) (hparent : ∀ p, parent = some p → p < n.count)
    (hprev : ∀ p, prev = some p → p < n.count)
    (hok : n.newNode type tok toklen parent prev = .ok (a, n')) : NewNode n parent prev a n' := by
  rcases newNode_cases hok with ⟨rfl, halloc, hadd⟩
  by_cases hplain : parent = none ∨ prev ≠ none
  · rw [halloc hplain]
    exact .allocate h hprev hplain
  rw [not_or, not_not] at hplain
  obtain ⟨p, rfl⟩ := Option.ne_none_iff_exists'.mp hplain.1
  obtain rfl := hplain.2
  have hp := hparent p rfl
  have hadd' := hadd p rfl rfl
  have hm : Unlinked n (n.allocate type tok toklen (some p) none) := h.unlinked
  generalize n.allocate type tok toklen (some p) none = m at hadd' hm
  rcases nodeAddChild_cases hadd' with ⟨hnone, rfl⟩ | ⟨first, last, hfirst, hlast, rfl⟩
  · exact hm.firstChild hp ((hm.old p hp).2.2.2.symm.trans hnone)
  · have hfirst' := (hm.old p hp).2.2.2.symm.trans hfirst
    have hwalk : (m.setParent n.count (some p)).lastChild m.count first =
        n.lastChild m.count first := by
      refine h.lastChild_congr (fun b hb => ?_) (h.children p hp first hfirst')
      rw [Nodes.setParent_next, (hm.old b hb).1]
    rw [hwalk] at hlast
    rcases h.lastChild (h.children p hp first hfirst') hlast with ⟨hlt, hend⟩
    exact hm.laterChild hfirst' hlt hend

theorem Spoilt.newNode (hs : Spoilt n q) (hb : Bounded n) (h : NewNode n parent prev a n') :
    Spoilt n' q := by
  rcases hs with ⟨hq, c, hc, hbad⟩
  have hcn := hb.children q hq c hc
  have hne : (n.node q).children ≠ none := by
    rw [hc]
    exact Option.some_ne_none c
  refine ⟨?_, c, (h.children_old q hq hne).trans hc, ?_⟩
  · rw [h.count]
    exact Nat.lt_succ_of_lt hq
  · rw [h.parent_old c hcn, h.prev_old c hcn]
    exact hbad

/-! ## A repeat -/

/-- What a repeat of `x` leaves of the nodes that were there. -/
structure Wrapped (n : Nodes) (p x a : ℕ) (n' : Nodes) : Prop where
  fresh : a = n.count
  count : n'.count = n.count + 1
  bounded : Bounded n'
  prev_old : ∀ b < n.count, (n'.node b).prev = if b = x then none else (n.node b).prev
  parent_old : ∀ b < n.count, (n'.node b).parent = if b = x then some a else (n.node b).parent
  children_old : ∀ b < n.count, (n.node b).children ≠ none →
    (n'.node b).children =
      if b = p ∧ (n.node x).prev = none then some a else (n.node b).children
  prev_new : (n.node x).prev = none → (n.node p).children ≠ none → (n'.node a).prev ≠ none

theorem wrap_spec (h : Bounded n) (hp : p < n.count) (hx : x < n.count) {tok : Bytes}
    (hok : n.wrap type tok toklen p x = .ok (a, n')) : Wrapped n p x a n' := by
  rcases wrap_cases hok with ⟨m, hm, hadd⟩
  have hnew : NewNode n (some p) (n.node x).prev a m :=
    newNode_spec h (fun q hq => Option.some.inj hq ▸ hp) (h.prev x hx) hm
  have hpa : p ≠ a := hnew.fresh ▸ hp.ne
  have hxa : x ≠ a := hnew.fresh ▸ hx.ne
  have ham : a < m.count := by
    rw [hnew.fresh, hnew.count]
    exact Nat.lt_succ_self _
  have hxm : x < m.count := by
    rw [hnew.count]
    exact Nat.lt_succ_of_lt hx
  rw [hnew.prev_old x hx] at hadd
  -- the nodes when the new one has the place of `x`
  generalize hk : (if (n.node x).prev = none then m.setChildren p (some a) else m) = k at hadd
  have hkcount : k.count = m.count := by
    rw [← hk]
    split <;> rfl
  have hkbounded : Bounded k := by
    rw [← hk]
    split
    · exact hnew.bounded.setChildren fun c hc => Option.some.inj hc ▸ ham
    · exact hnew.bounded
  have hkprev : ∀ b, (k.node b).prev = (m.node b).prev := by
    intro b
    rw [← hk]
    split
    · exact Nodes.setChildren_prev
    · rfl
  have hkparent : ∀ b, (k.node b).parent = (m.node b).parent := by
    intro b
    rw [← hk]
    split
    · exact Nodes.setChildren_parent
    · rfl
  have hkchildren : ∀ b, (k.node b).children =
      if b = p ∧ (n.node x).prev = none then some a else (m.node b).children := by
    intro b
    rw [← hk]
    by_cases hprev : (n.node x).prev = none
    · rw [if_pos hprev, Nodes.setChildren_children]
      simp only [hprev, and_true]
    · rw [if_neg hprev, if_neg fun h => hprev h.2]
  rcases nodeAddChild_cases hadd with ⟨-, rfl⟩ | ⟨first, last, hfirst, -⟩
  · refine ⟨hnew.fresh, ?_, ?_, fun b hb => ?_, fun b hb => ?_, fun b hb hne => ?_, fun hnone hne => ?_⟩
    · exact hkcount.trans hnew.count
    · refine (((hkbounded.setNext ?_).setPrev ?_).setParent).setChildren ?_
      · intro c hc
        cases hc
      · intro c hc
        cases hc
      · intro c hc
        rw [← Option.some.inj hc]
        exact hkcount ▸ hxm
    · rw [Nodes.setChildren_prev, Nodes.setParent_prev, Nodes.setPrev_prev, Nodes.setNext_prev,
        hkprev, hnew.prev_old b hb]
    · rw [Nodes.setChildren_parent, Nodes.setParent_parent, Nodes.setPrev_parent,
        Nodes.setNext_parent, hkparent, hnew.parent_old b hb]
    · rw [Nodes.setChildren_children, if_neg (hnew.fresh ▸ hb.ne), Nodes.setParent_children,
        Nodes.setPrev_children, Nodes.setNext_children, hkchildren, hnew.children_old b hb hne]
    · rw [Nodes.setChildren_prev, Nodes.setParent_prev, Nodes.setPrev_prev, if_neg hxa.symm,
        Nodes.setNext_prev, hkprev]
      rcases hnew.appended p rfl hnone hne with ⟨q, -, hq, -⟩
      rw [hq]
      exact Option.some_ne_none q
  · rw [Nodes.setPrev_children, Nodes.setNext_children, hkchildren, if_neg fun h => hpa h.1.symm,
      hnew.children_new] at hfirst
    cases hfirst

/-- A node that is spoilt stays so when something is repeated. -/
theorem Spoilt.wrap (hs : Spoilt n q) (hb : Bounded n) (h : Wrapped n p x a n') : Spoilt n' q := by
  rcases hs with ⟨hq, c, hc, hbad⟩
  have hcn := hb.children q hq c hc
  have hne : (n.node q).children ≠ none := by
    rw [hc]
    exact Option.some_ne_none c
  have hqa : q ≠ a := h.fresh ▸ hq.ne
  have hq' : q < n'.count := by
    rw [h.count]
    exact Nat.lt_succ_of_lt hq
  have hfirst := h.children_old q hq hne
  by_cases hplace : q = p ∧ (n.node x).prev = none
  · rw [if_pos hplace] at hfirst
    refine ⟨hq', a, hfirst, .inr (h.prev_new hplace.2 ?_)⟩
    rw [← hplace.1]
    exact hne
  · rw [if_neg hplace, hc] at hfirst
    refine ⟨hq', c, hfirst, ?_⟩
    rw [h.parent_old c hcn, h.prev_old c hcn]
    split
    · -- the first child is what is repeated
      refine .inl fun heq => hqa ?_
      exact (Option.some.inj heq).symm
    · exact hbad

/-- The repeat of a first child spoils its parent. -/
theorem Wrapped.spoils (h : Wrapped n p x a n') (hp : p < n.count) (hprev : (n.node x).prev = none)
    (hchildren : (n.node p).children ≠ none) : Spoilt n' p := by
  refine ⟨?_, a, ?_, .inr (h.prev_new hprev hchildren)⟩
  · rw [h.count]
    exact Nat.lt_succ_of_lt hp
  · rw [h.children_old p hp hchildren, if_pos ⟨rfl, hprev⟩]

/-! ## An alternative -/

theorem unlink_spec (n : Nodes) (p c : ℕ) : (n.unlink p c).count = n.count ∧ ∀ b,
    (((n.unlink p c).node b).next =
      if (n.node c).prev = some b then (n.node c).next else (n.node b).next) ∧
    (((n.unlink p c).node b).prev =
      if (n.node c).next = some b then (n.node c).prev else (n.node b).prev) ∧
    (((n.unlink p c).node b).parent = (n.node b).parent) ∧
    (((n.unlink p c).node b).children =
      if b = p ∧ (n.node c).prev = none then (n.node c).next else (n.node b).children) := by
  unfold Nodes.unlink
  dsimp only
  generalize (n.node c).prev = before
  generalize (n.node c).next = behind
  rcases before with _ | q
  · rcases behind with _ | r
    · refine ⟨rfl, fun b => ⟨?_, ?_, ?_, ?_⟩⟩ <;> simp
    · refine ⟨rfl, fun b => ⟨?_, ?_, ?_, ?_⟩⟩ <;> simp [@eq_comm ℕ b]
  · rcases behind with _ | r
    · refine ⟨rfl, fun b => ⟨?_, ?_, ?_, ?_⟩⟩ <;> simp [@eq_comm ℕ b]
    · refine ⟨rfl, fun b => ⟨?_, ?_, ?_, ?_⟩⟩ <;> simp [@eq_comm ℕ b]

/-- What `node_remove_child` leaves of the nodes. -/
structure Removed (n : Nodes) (p c : ℕ) (n' : Nodes) : Prop where
  count : n'.count = n.count
  next : ∀ b, (n'.node b).next = (n.node b).next ∨
    (n.node c).prev = some b ∧ (n'.node b).next = (n.node c).next
  prev : ∀ b, (n'.node b).prev = (n.node b).prev ∨
    (n.node c).next = some b ∧ (n'.node b).prev = (n.node c).prev
  parent : ∀ b, (n'.node b).parent = if b = c then none else (n.node b).parent
  children : ∀ b, (n'.node b).children = (n.node b).children ∨
    b = p ∧ (n.node c).prev = none ∧ (n'.node b).children = (n.node c).next

theorem nodeRemoveChild_spec (h : n.nodeRemoveChild p c = .ok n') : Removed n p c n' := by
  have hplain : Removed n p c (n.setParent c none) :=
    ⟨rfl, fun _ => .inl Nodes.setParent_next, fun _ => .inl Nodes.setParent_prev,
      fun _ => Nodes.setParent_parent, fun _ => .inl Nodes.setParent_children⟩
  unfold Nodes.nodeRemoveChild at h
  simp only at h
  split at h
  · cases h
    exact hplain
  · rcases Except.bind_eq_ok.mp h with ⟨found, -, hrest⟩
    split at hrest
    · cases hrest
      rcases unlink_spec (n.setParent c none) p c with ⟨hcount, hspec⟩
      refine ⟨hcount, fun b => ?_, fun b => ?_, fun b => ?_, fun b => ?_⟩
      · rw [(hspec b).1, Nodes.setParent_prev, Nodes.setParent_next, Nodes.setParent_next]
        split
        · rename_i hb
          exact .inr ⟨hb, rfl⟩
        · exact .inl rfl
      · rw [(hspec b).2.1, Nodes.setParent_prev, Nodes.setParent_next, Nodes.setParent_prev]
        split
        · rename_i hb
          exact .inr ⟨hb, rfl⟩
        · exact .inl rfl
      · rw [(hspec b).2.2.1, Nodes.setParent_parent]
      · rw [(hspec b).2.2.2, Nodes.setParent_prev, Nodes.setParent_next, Nodes.setParent_children]
        split
        · rename_i hb
          exact .inr ⟨hb.1, hb.2, rfl⟩
        · exact .inl rfl
    · cases hrest
      exact hplain

theorem Removed.bounded (h : Removed n p c n') (hb : Bounded n) (hc : c < n.count) :
    Bounded n' := by
  constructor
  · intro b hlt d hd
    rw [h.count] at hlt ⊢
    rcases h.next b with heq | ⟨-, heq⟩
    · exact hb.next b hlt d (heq ▸ hd)
    · exact hb.next c hc d (heq ▸ hd)
  · intro b hlt d hd
    rw [h.count] at hlt ⊢
    rcases h.prev b with heq | ⟨-, heq⟩
    · exact hb.prev b hlt d (heq ▸ hd)
    · exact hb.prev c hc d (heq ▸ hd)
  · intro b hlt d hd
    rw [h.count] at hlt ⊢
    rcases h.children b with heq | ⟨-, -, heq⟩
    · exact hb.children b hlt d (heq ▸ hd)
    · exact hb.next c hc d (heq ▸ hd)

/-- The loop sets parents and nothing else, from the first two nodes on. -/
structure Adopted (n : Nodes) (o g : ℕ) (start : Option ℕ) (n' : Nodes) : Prop where
  count : n'.count = n.count
  next : ∀ b, (n'.node b).next = (n.node b).next
  prev : ∀ b, (n'.node b).prev = (n.node b).prev
  children : ∀ b, (n'.node b).children = (n.node b).children
  parent : ∀ b, (n'.node b).parent = (n.node b).parent ∨ (n'.node b).parent = some g
  parent_or : (n'.node o).parent = (n.node o).parent
  adopted : ∀ b, start = some b → (n'.node b).parent = some g ∧
    ∀ c, (n.node b).next = some c → (n'.node c).parent = some g

theorem adopt_spec {start : Option ℕ} (h : Nodes.adopt o g fuel n start = .ok n') :
    Adopted n o g start n' := by
  induction fuel generalizing n start with
  | zero =>
    rcases start with _ | b
    · cases h
      exact ⟨rfl, fun _ => rfl, fun _ => rfl, fun _ => rfl, fun _ => .inl rfl, rfl,
        fun b hb => by cases hb⟩
    · cases h
  | succ fuel ih =>
    rcases start with _ | b
    · cases h
      exact ⟨rfl, fun _ => rfl, fun _ => rfl, fun _ => rfl, fun _ => .inl rfl, rfl,
        fun b hb => by cases hb⟩
    unfold Nodes.adopt at h
    split at h
    · cases h
    rename_i hbo
    have hrest := ih h
    refine ⟨hrest.count, fun c => ?_, fun c => ?_, fun c => ?_, fun c => ?_, ?_, fun c hc => ?_⟩
    · rw [hrest.next, Nodes.setParent_next]
    · rw [hrest.prev, Nodes.setParent_prev]
    · rw [hrest.children, Nodes.setParent_children]
    · rcases hrest.parent c with heq | heq
      · rw [heq, Nodes.setParent_parent]
        split
        · exact .inr rfl
        · exact .inl rfl
      · exact .inr heq
    · rw [hrest.parent_or, Nodes.setParent_parent, if_neg fun h => hbo h.symm]
    · rw [← Option.some.inj hc]
      constructor
      · rcases hrest.parent b with heq | heq
        · rw [heq, Nodes.setParent_parent, if_pos rfl]
        · exact heq
      · intro d hd
        exact (hrest.adopted d (Nodes.setParent_next.trans hd)).1

theorem relinkOr_spec (n : Nodes) (p b o g : ℕ) : (n.relinkOr p b o g).count = n.count ∧ ∀ x,
    (((n.relinkOr p b o g).node x).next =
      if (n.node b).prev = some x then some o else (n.node x).next) ∧
    (((n.relinkOr p b o g).node x).prev =
      if x = o ∧ (n.node b).prev ≠ none then (n.node b).prev else (n.node x).prev) ∧
    (((n.relinkOr p b o g).node x).parent =
      if x = g then some o else if x = b then some g else (n.node x).parent) ∧
    (((n.relinkOr p b o g).node x).children =
      if x = g then some b else if x = o then some g
        else if x = p ∧ (n.node b).prev = none then some o else (n.node x).children) := by
  unfold Nodes.relinkOr
  dsimp only
  rw [Nodes.setParent_prev]
  generalize (n.node b).prev = before
  rcases before with _ | q
  · refine ⟨rfl, fun x => ⟨?_, ?_, ?_, ?_⟩⟩ <;> simp
  · refine ⟨rfl, fun x => ⟨?_, ?_, ?_, ?_⟩⟩ <;> simp [@eq_comm ℕ x]

theorem splitOr_cases {tok : Bytes} (h : n.splitOr tok p b = .ok (o, g, n')) : ∃ n₁ n₃ n₄ n₈,
    n.nodeRemoveChild p b = .ok n₁ ∧
    (n₁.setParent b none).newNode .or (some tok) 1 (some p)
      ((n₁.setParent b none).node b).prev = .ok (o, n₃) ∧
    n₃.newNode .group none 0 (some o) none = .ok (g, n₄) ∧
    (n₄.relinkOr p b o g).nodeRemoveChild g o = .ok n₈ ∧
    Nodes.adopt o g n₈.count n₈ (some b) = .ok n' := by
  unfold Nodes.splitOr at h
  rcases Except.bind_eq_ok.mp h with ⟨n₁, h₁, h⟩
  rcases Except.bind_eq_ok.mp h with ⟨⟨o', n₃⟩, h₃, h⟩
  rcases Except.bind_eq_ok.mp h with ⟨⟨g', n₄⟩, h₄, h⟩
  rcases Except.bind_eq_ok.mp h with ⟨n₈, h₈, h⟩
  rcases Except.bind_eq_ok.mp h with ⟨n₉, h₉, h⟩
  cases h
  exact ⟨n₁, n₃, n₄, n₈, h₁, h₃, h₄, h₈, h₉⟩

theorem Bounded.relinkOr (h : Bounded n) (hb : b < n.count) (ho : o < n.count) (hg : g < n.count) :
    Bounded (n.relinkOr p b o g) := by
  have hsome : ∀ {a : ℕ}, a < n.count → ∀ c, some a = some c → c < n.count := by
    intro a ha c hc
    rw [← Option.some.inj hc]
    exact ha
  unfold Nodes.relinkOr
  dsimp only
  rw [Nodes.setParent_prev]
  cases hprev : (n.node b).prev with
  | none =>
    exact (((h.setParent.setChildren (hsome ho)).setParent).setChildren (hsome hg)).setChildren
      (hsome hb)
  | some q =>
    have hq := h.prev b hb q hprev
    exact ((((h.setParent.setNext (hsome ho)).setPrev (hsome hq)).setParent).setChildren
      (hsome hg)).setChildren (hsome hb)

theorem Adopted.bounded {start : Option ℕ} (h : Adopted n o g start n') (hb : Bounded n) :
    Bounded n' := by
  constructor
  · intro b hlt c hc
    rw [h.count] at hlt ⊢
    exact hb.next b hlt c (h.next b ▸ hc)
  · intro b hlt c hc
    rw [h.count] at hlt ⊢
    exact hb.prev b hlt c (h.prev b ▸ hc)
  · intro b hlt c hc
    rw [h.count] at hlt ⊢
    exact hb.children b hlt c (h.children b ▸ hc)

/-- What `|` leaves of the nodes that were there. -/
structure Split (n : Nodes) (p b o g : ℕ) (n' : Nodes) : Prop where
  or_fresh : o = n.count
  group_fresh : g = n.count + 1
  count : n'.count = n.count + 2
  bounded : Bounded n'
  parent_or : (n'.node o).parent = none
  replaced : (n.node b).prev = none → (n'.node p).children = some o
  children_old : ∀ q < n.count, (n.node q).children ≠ none →
    ¬ (q = p ∧ (n.node b).prev = none) → (n'.node q).children = (n.node q).children
  parent_old : ∀ c < n.count, (n'.node c).parent = (n.node c).parent ∨
    (n'.node c).parent = none ∨ (n'.node c).parent = some g
  prev_old : ∀ c < n.count, (n'.node c).prev = (n.node c).prev ∨
    (n.node b).prev ≠ none ∧ (n'.node c).prev = (n.node b).prev ∨ (n'.node c).parent = some g

/-- The nodes when `|` has linked its own two nodes, before the new node is removed from its
group. -/
structure Relinked (n : Nodes) (p b o g : ℕ) (m : Nodes) : Prop where
  or_fresh : o = n.count
  group_fresh : g = n.count + 1
  count : m.count = n.count + 2
  bounded : Bounded m
  /-- Nothing stands behind the new node. -/
  next_or : (m.node o).next = none
  replaced : (n.node b).prev = none → (m.node p).children = some o
  children_old : ∀ q < n.count, (n.node q).children ≠ none →
    ¬ (q = p ∧ (n.node b).prev = none) → (m.node q).children = (n.node q).children
  parent_old : ∀ c < n.count, (m.node c).parent = (n.node c).parent ∨
    (m.node c).parent = some g
  prev_old : ∀ c < n.count, (m.node c).prev = (n.node c).prev ∨
    (n.node b).next = some c ∧ (m.node c).prev = (n.node b).prev
  next_old : (n.node b).prev = none → ∀ c, (n.node b).next = some c →
    (m.node b).next = some c ∧ (m.node o).prev ≠ some b

theorem Removed.relinked {n₁ n₃ n₄ : Nodes} {tok : Bytes} (hremoved : Removed n p b n₁)
    (h : Bounded n) (hp : p < n.count) (hb : b < n.count)
    (h₃ : (n₁.setParent b none).newNode .or (some tok) 1 (some p)
      ((n₁.setParent b none).node b).prev = .ok (o, n₃))
    (h₄ : n₃.newNode .group none 0 (some o) none = .ok (g, n₄)) :
    Relinked n p b o g (n₄.relinkOr p b o g) := by
  -- `prev` of the alternative stays what it was
  have hprev₁ : (n₁.node b).prev = (n.node b).prev := by
    rcases hremoved.prev b with heq | ⟨-, heq⟩ <;> exact heq
  generalize hn₂ : n₁.setParent b none = n₂ at h₃
  have hcount₂ : n₂.count = n.count := by
    rw [← hn₂]
    exact hremoved.count
  have hbounded₂ : Bounded n₂ := by
    rw [← hn₂]
    exact (hremoved.bounded h hb).setParent
  have hprev₂ : (n₂.node b).prev = (n.node b).prev := by
    rw [← hn₂, Nodes.setParent_prev, hprev₁]
  rw [hprev₂] at h₃
  have hor : NewNode n₂ (some p) (n.node b).prev o n₃ :=
    newNode_spec hbounded₂ (fun q hq => by rw [hcount₂, ← Option.some.inj hq]; exact hp)
      (fun q hq => by rw [hcount₂]; exact h.prev b hb q hq) h₃
  have ho : o = n.count := hor.fresh.trans hcount₂
  have hcount₃ : n₃.count = n.count + 1 := by rw [hor.count, hcount₂]
  have hgroup : NewNode n₃ (some o) none g n₄ :=
    newNode_spec hor.bounded (fun q hq => by rw [hcount₃, ← Option.some.inj hq, ho]; omega)
      (fun q hq => by cases hq) h₄
  have hg : g = n.count + 1 := hgroup.fresh.trans hcount₃
  have hcount₄ : n₄.count = n.count + 2 := by rw [hgroup.count, hcount₃]
  have hprev₄ : ∀ c < n.count, (n₄.node c).prev = (n₁.node c).prev := by
    intro c hc
    rw [hgroup.prev_old c (by omega), hor.prev_old c (by omega), ← hn₂, Nodes.setParent_prev]
  have hprevb : (n₄.node b).prev = (n.node b).prev := (hprev₄ b hb).trans hprev₁
  rcases relinkOr_spec n₄ p b o g with ⟨hcount₇, hspec⟩
  rw [hprevb] at hspec
  refine ⟨ho, hg, hcount₇.trans hcount₄, ?_, ?_, fun hnone => ?_, fun q hq hne hplace => ?_,
    fun c hc => ?_, fun c hc => ?_, fun hnone c hnext => ⟨?_, ?_⟩⟩
  · exact hgroup.bounded.relinkOr (by omega) (by omega) (by omega)
  · have hself : (n.node b).prev ≠ some o := fun heq => by
      have := h.prev b hb o heq
      omega
    rw [(hspec o).1, if_neg hself,
      hgroup.next_alone o rfl rfl hor.children_new o (by omega), hor.next_new]
  · rw [(hspec p).2.2.2, if_neg (by omega), if_neg (by omega), if_pos ⟨rfl, hnone⟩]
  · have hfirst : (n₂.node q).children = (n.node q).children := by
      rw [← hn₂, Nodes.setParent_children]
      rcases hremoved.children q with heq | ⟨hqp, hprev, -⟩
      · exact heq
      · exact absurd ⟨hqp, hprev⟩ hplace
    have hor' := hor.children_old q (by omega) (by rw [hfirst]; exact hne)
    have hgroup' := hgroup.children_old q (by omega) (by rw [hor', hfirst]; exact hne)
    rw [(hspec q).2.2.2, if_neg (by omega), if_neg (by omega), if_neg hplace, hgroup', hor',
      hfirst]
  · rw [(hspec c).2.2.1, if_neg (by omega)]
    split
    · exact .inr rfl
    · rename_i hcb
      rw [hgroup.parent_old c (by omega), hor.parent_old c (by omega), ← hn₂,
        Nodes.setParent_parent, if_neg hcb, hremoved.parent, if_neg hcb]
      exact .inl rfl
  · rw [(hspec c).2.1, if_neg fun hco => absurd hco.1 (by omega), hprev₄ c hc]
    exact hremoved.prev c
  · have hnext₂ : (n₂.node b).next = some c := by
      rw [← hn₂, Nodes.setParent_next]
      rcases hremoved.next b with heq | ⟨heq, -⟩
      · rw [heq, hnext]
      · rw [hnone] at heq
        cases heq
    have hnext₃ := hor.next_old hnone b (by omega) (by rw [hnext₂]; exact Option.some_ne_none c)
    rw [(hspec b).1, hnone, if_neg (by intro h; cases h),
      hgroup.next_alone o rfl rfl hor.children_new b (by omega), hnext₃, hnext₂]
  · -- the node before the new one is the last child, and `b` is not
    rw [(hspec o).2.1, if_neg fun h => h.2 hnone, hgroup.prev_old o (by omega)]
    by_cases hchildren : (n₂.node p).children = none
    · rw [hor.alone p rfl hnone hchildren]
      intro h
      cases h
    · rcases hor.appended p rfl hnone hchildren with ⟨r, -, hr, hend⟩
      rw [hr]
      intro heq
      rw [Option.some.inj heq, ← hn₂, Nodes.setParent_next] at hend
      rcases hremoved.next b with heq' | ⟨heq', -⟩
      · rw [heq', hnext] at hend
        cases hend
      · rw [hnone] at heq'
        cases heq'

theorem splitOr_spec (h : Bounded n) (hp : p < n.count) (hb : b < n.count) {tok : Bytes}
    (hok : n.splitOr tok p b = .ok (o, g, n')) : Split n p b o g n' := by
  rcases splitOr_cases hok with ⟨n₁, n₃, n₄, n₈, h₁, h₃, h₄, h₈, h₉⟩
  have hm := (nodeRemoveChild_spec h₁).relinked h hp hb h₃ h₄
  generalize n₄.relinkOr p b o g = m at h₈ hm
  have ho := hm.or_fresh
  have hg := hm.group_fresh
  have hremoved := nodeRemoveChild_spec h₈
  have hadopted := adopt_spec h₉
  have hcount : n₈.count = n.count + 2 := hremoved.count.trans hm.count
  have hlt : o < m.count := by
    rw [hm.count, ho]
    omega
  -- the removal of the new node from its group leaves `children` of all other nodes
  have hchildren : ∀ q, q ≠ g → (n'.node q).children = (m.node q).children := by
    intro q hqg
    rw [hadopted.children]
    rcases hremoved.children q with heq | ⟨heq, -⟩
    · exact heq
    · exact absurd heq hqg
  refine ⟨ho, hg, hadopted.count.trans hcount, ?_, ?_, fun hnone => ?_,
    fun q hq hne hplace => ?_, fun c hc => ?_, fun c hc => ?_⟩
  · exact hadopted.bounded (hremoved.bounded hm.bounded hlt)
  · rw [hadopted.parent_or, hremoved.parent, if_pos rfl]
  · rw [hchildren p (by omega), hm.replaced hnone]
  · rw [hchildren q (by omega), hm.children_old q hq hne hplace]
  · rcases hadopted.parent c with heq | heq
    · rw [heq, hremoved.parent, if_neg (by omega)]
      rcases hm.parent_old c hc with heq' | heq'
      · exact .inl heq'
      · exact .inr (.inr heq')
    · exact .inr (.inr heq)
  · have hprev : (n'.node c).prev = (m.node c).prev := by
      rw [hadopted.prev]
      rcases hremoved.prev c with heq | ⟨heq, -⟩
      · exact heq
      · rw [hm.next_or] at heq
        cases heq
    rw [hprev]
    rcases hm.prev_old c hc with heq | ⟨hnext, heq⟩
    · exact .inl heq
    by_cases hnone : (n.node b).prev = none
    · -- `c` stands behind the alternative's first node, where the loop comes to it
      rcases hm.next_old hnone c hnext with ⟨hnext', hbefore⟩
      refine .inr (.inr ((hadopted.adopted b rfl).2 c ?_))
      rcases hremoved.next b with heq | ⟨heq, -⟩
      · rw [heq, hnext']
      · exact absurd heq hbefore
    · exact .inr (.inl ⟨hnone, heq⟩)

/-- `|` spoils the node whose alternative it is, if that begins with a first child. -/
theorem Split.spoils (h : Split n p b o g n') (hp : p < n.count)
    (hprev : (n.node b).prev = none) : Spoilt n' p := by
  refine ⟨?_, o, h.replaced hprev, .inl ?_⟩
  · rw [h.count]
    omega
  · rw [h.parent_or]
    intro heq
    cases heq

/-- A node that is spoilt stays so at a `|`. -/
theorem Spoilt.split (hs : Spoilt n q) (hb : Bounded n) (h : Split n p b o g n') :
    Spoilt n' q := by
  rcases hs with ⟨hq, c, hc, hbad⟩
  have hcn := hb.children q hq c hc
  have hqg : q ≠ g := by
    rw [h.group_fresh]
    omega
  by_cases hplace : q = p ∧ (n.node b).prev = none
  · rw [hplace.1] at hq ⊢
    exact h.spoils hq hplace.2
  have hfirst := h.children_old q hq (by rw [hc]; exact Option.some_ne_none c) hplace
  refine ⟨?_, c, hfirst.trans hc, ?_⟩
  · rw [h.count]
    omega
  have hgroup : (n'.node c).parent = some g → (n'.node c).parent ≠ some q := by
    intro heq heq'
    rw [heq] at heq'
    exact hqg (Option.some.inj heq').symm
  rcases hbad with hparent | hprev
  · left
    rcases h.parent_old c hcn with heq | heq | heq
    · rw [heq]
      exact hparent
    · rw [heq]
      intro h
      cases h
    · exact hgroup heq
  · rcases h.prev_old c hcn with heq | ⟨hne, heq⟩ | heq
    · right
      rw [heq]
      exact hprev
    · right
      rw [heq]
      exact hne
    · exact .inl (hgroup heq)

end Clox.Regex
