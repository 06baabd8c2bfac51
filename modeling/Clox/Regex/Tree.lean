import Clox.Lib.DoublyLinked
import Clox.Regex.Nodes

/-! # The tree of a regex

What it means that the pointers of the nodes are a tree, and that a new node behind the last child,
or above a last child that has a sibling before it, keeps them one.
-/

namespace Clox.Regex

open Clox.Printing (Bytes)
open Relation Trees

/-- Following `children` and then `next`. -/
def ChildOf (n : Nodes) (p c : ℕ) : Prop :=
  ∃ first, (n.node p).children = some first ∧
    ReflTransGen (fun a b => (n.node a).next = some b) first c

/-- The children of every node are a doubly linked list and point at it, no node is its own
ancestor or sibling, and the allocated nodes are those that are reached from the root. -/
structure WellFormed (n : Nodes) (root : ℕ) : Prop where
  first : ∀ p < n.count, ∀ c, (n.node p).children = some c → (n.node c).prev = none
  next_prev : ∀ p < n.count, ∀ c, ChildOf n p c →
    ∀ d, (n.node c).next = some d → (n.node d).prev = some c
  parent : ∀ p < n.count, ∀ c, ChildOf n p c → (n.node c).parent = some p
  not_ancestor : ∀ a < n.count, ¬ TransGen (ChildOf n) a a
  not_sibling : ∀ p < n.count, ∀ c, ChildOf n p c →
    ¬ TransGen (fun a b => (n.node a).next = some b) c c
  reached : ∀ a, ReflTransGen (ChildOf n) root a ↔ a < n.count

/-- The allocated nodes are a tree with the children lists `kids`, and the pointers are those of
the lists. -/
structure Linked (n : Nodes) (kids : ℕ → List ℕ) : Prop where
  tree : Tree kids 0 {a | a < n.count}
  root : 0 < n.count
  links : ∀ p < n.count, DoublyLinked (fun a => (n.node a).prev) (fun a => (n.node a).next)
    (n.node p).children (kids p).getLast? (kids p)
  parent : ∀ {p c}, c ∈ kids p → (n.node c).parent = some p
  /-- The root has no siblings. -/
  alone : (n.node 0).next = none ∧ (n.node 0).prev = none

variable {n n' : Nodes} {kids : ℕ → List ℕ} {a b c p x y : ℕ} {l : List ℕ} {parent prev : Option ℕ}
  {type : RNodeType} {tok : Option Bytes} {toklen : ℕ}

/-! ## Well-formed -/

namespace Linked

theorem childOf_iff (h : Linked n kids) (hp : p < n.count) : ChildOf n p c ↔ c ∈ kids p :=
  (h.links p hp).reached_iff

theorem lt_of_mem (h : Linked n kids) (hc : c ∈ kids p) : p < n.count ∧ c < n.count :=
  h.tree.child_mem hc

theorem wellFormed (h : Linked n kids) : WellFormed n 0 := by
  have hsplit : ∀ p c, c ∈ kids p → ∃ l₁ l₂, kids p = l₁ ++ c :: l₂ ∧
      (n.node c).next = l₂.head? ∧ (n.node c).prev = l₁.getLast? := by
    intro p c hc
    rcases List.append_of_mem hc with ⟨l₁, l₂, hl⟩
    have hlinks := h.links p (h.lt_of_mem hc).1
    exact ⟨l₁, l₂, hl, hlinks.next _ _ _ hl, hlinks.prev _ _ _ hl⟩
  -- the steps from an allocated node are those of the lists
  have htrans : ∀ a < n.count, ∀ b, TransGen (ChildOf n) a b →
      TransGen (Child kids) a b ∧ b < n.count := by
    intro a ha b hab
    induction hab with
    | single hb =>
      have hmem := (h.childOf_iff ha).mp hb
      exact ⟨.single hmem, (h.lt_of_mem hmem).2⟩
    | tail _ hlast ih =>
      have hmem := (h.childOf_iff ih.2).mp hlast
      exact ⟨ih.1.tail hmem, (h.lt_of_mem hmem).2⟩
  constructor
  · intro p hp c hc
    have hlinks := h.links p hp
    have hhead := hlinks.head
    rw [hc] at hhead
    rcases List.head?_eq_some_iff.mp hhead.symm with ⟨l₂, hl⟩
    exact hlinks.prev [] c l₂ hl
  · intro p hp c hc d hd
    rcases hsplit p c ((h.childOf_iff hp).mp hc) with ⟨l₁, l₂, hl, hnext, -⟩
    rw [hd] at hnext
    rcases List.head?_eq_some_iff.mp hnext.symm with ⟨l₃, rfl⟩
    have hback : (n.node d).prev = (l₁ ++ [c]).getLast? :=
      (h.links p hp).prev (l₁ ++ [c]) d l₃ (by simpa using hl)
    rw [hback, List.getLast?_append_cons, List.getLast?_singleton]
  · intro p hp c hc
    exact h.parent ((h.childOf_iff hp).mp hc)
  · intro a ha hself
    exact h.tree.not_ancestor_self ha (htrans a ha a hself).1
  · intro p hp c hc
    exact (h.links p hp).not_next_self ((h.childOf_iff hp).mp hc)
  · intro a
    have hreached := h.tree.reached_iff (n := a) h.root
    constructor
    · intro ha
      rcases reflTransGen_iff_eq_or_transGen.mp ha with rfl | ha
      · exact h.root
      · exact (htrans 0 h.root a ha).2
    · intro ha
      refine ReflTransGen.mono ?_ _ _ (hreached.mpr ha)
      intro p c hc
      exact (h.childOf_iff (h.lt_of_mem hc).1).mpr hc

end Linked

/-! ## New nodes -/

theorem nodeAddChild_cases (h : n.nodeAddChild p c = .ok n') :
    ((n.node p).children = none ∧ n' = (n.setParent c (some p)).setChildren p (some c)) ∨
      ∃ first last, (n.node p).children = some first ∧
        (n.setParent c (some p)).lastChild n.count first = .ok last ∧
        n' = ((n.setParent c (some p)).setNext last (some c)).setPrev c (some last) := by
  unfold Nodes.nodeAddChild at h
  simp only at h
  split at h
  · rename_i hnone
    cases h
    exact .inl ⟨hnone, rfl⟩
  · rename_i first hfirst
    rcases Except.bind_eq_ok.mp h with ⟨last, hlast, heq⟩
    cases heq
    exact .inr ⟨first, last, hfirst, hlast, rfl⟩

theorem newNode_cases (h : n.newNode type tok toklen parent prev = .ok (a, n')) :
    a = n.count ∧
      (parent = none ∨ prev ≠ none → n' = n.allocate type tok toklen parent prev) ∧
      (∀ p, parent = some p → prev = none →
        (n.allocate type tok toklen parent prev).nodeAddChild p n.count = .ok n') := by
  unfold Nodes.newNode at h
  simp only at h
  cases parent with
  | none =>
    cases h
    exact ⟨rfl, fun _ => rfl, fun p hp => by cases hp⟩
  | some q =>
    cases prev with
    | none =>
      rcases Except.map_eq_ok.mp h with ⟨m, hm, heq⟩
      cases heq
      refine ⟨rfl, fun h => ?_, fun p hp _ => ?_⟩
      · rcases h with h | h
        · cases h
        · exact absurd rfl h
      · cases hp
        exact hm
    | some r =>
      cases h
      exact ⟨rfl, fun _ => rfl, fun p _ hprev => by cases hprev⟩

theorem wrap_cases {tok : Bytes} (h : n.wrap type tok toklen p x = .ok (a, n')) :
    ∃ m, n.newNode type (some tok) toklen (some p) (n.node x).prev = .ok (a, m) ∧
      (((if (m.node x).prev = none then m.setChildren p (some a) else m).setNext x none).setPrev x
        none).nodeAddChild a x = .ok n' := by
  unfold Nodes.wrap at h
  rcases Except.bind_eq_ok.mp h with ⟨⟨b, m⟩, hm, hrest⟩
  rcases Except.bind_eq_ok.mp hrest with ⟨m', hm', heq⟩
  cases heq
  exact ⟨m, hm, hm'⟩

/-- The pointers when a node is put above a child that stands behind `y`. -/
theorem wrap_pointers (hx : x < n.count) (hprev : (n.node x).prev = some y) {tok : Bytes}
    (hok : n.wrap type tok toklen p x = .ok (a, n')) :
    a = n.count ∧ n'.count = n.count + 1 ∧ ∀ b,
      ((n'.node b).next = if b = x then none else if y = b then some a
        else if b = a then none else (n.node b).next) ∧
      ((n'.node b).prev = if b = x then none else if b = a then some y else (n.node b).prev) ∧
      ((n'.node b).parent = if b = x then some a else if b = a then some p
        else (n.node b).parent) ∧
      ((n'.node b).children = if b = a then some x else (n.node b).children) := by
  rcases wrap_cases hok with ⟨m, hm, hadd⟩
  rw [hprev] at hm
  rcases newNode_cases hm with ⟨rfl, halloc, -⟩
  rcases Nodes.allocate_spec n type (some tok) toklen (some p) (some y) with ⟨hcount, hspec⟩
  rw [← halloc (.inr (Option.some_ne_none y))] at hcount hspec
  have hxn : x ≠ n.count := hx.ne
  have hback : (m.node x).prev ≠ none := by
    rw [(hspec x).2.1, if_neg hxn, hprev]
    exact Option.some_ne_none y
  rw [if_neg hback] at hadd
  refine ⟨rfl, ?_⟩
  rcases nodeAddChild_cases hadd with ⟨-, rfl⟩ | ⟨first, last, hfirst, -⟩
  · refine ⟨hcount, fun b => ⟨?_, ?_, ?_, ?_⟩⟩
    · rw [Nodes.setChildren_next, Nodes.setParent_next, Nodes.setPrev_next, Nodes.setNext_next,
        (hspec b).1]
      simp only [Option.some.injEq]
    · rw [Nodes.setChildren_prev, Nodes.setParent_prev, Nodes.setPrev_prev, Nodes.setNext_prev,
        (hspec b).2.1]
    · rw [Nodes.setChildren_parent, Nodes.setParent_parent, Nodes.setPrev_parent,
        Nodes.setNext_parent, (hspec b).2.2.1]
    · rw [Nodes.setChildren_children, Nodes.setParent_children, Nodes.setPrev_children,
        Nodes.setNext_children, (hspec b).2.2.2]
      split <;> rfl
  · rw [Nodes.setPrev_children, Nodes.setNext_children, (hspec n.count).2.2.2, if_pos rfl] at hfirst
    cases hfirst

namespace Linked

/-- The program node alone. -/
theorem single (hok : (⟨n.node, 0⟩ : Nodes).newNode type tok toklen none none = .ok (a, n')) :
    a = 0 ∧ Linked n' fun _ => [] := by
  rcases newNode_cases hok with ⟨rfl, hn, -⟩
  obtain rfl := hn (.inl rfl)
  have hspec := (Nodes.allocate_spec ⟨n.node, 0⟩ type tok toklen none none).2 0
  refine ⟨rfl, ?_, Nat.one_pos, ?_, fun h => (List.not_mem_nil h).elim, ⟨?_, ?_⟩⟩
  · have hone : {a | a < 1} = ({0} : Set ℕ) := by
      ext a
      exact Nat.lt_one_iff
    change Tree (fun _ => []) 0 {a | a < 1}
    rw [hone]
    exact .single 0
  · intro p hp
    obtain rfl : p = 0 := Nat.lt_one_iff.mp hp
    exact .nil
  · rw [hspec.1, if_neg (by intro h; cases h), if_pos rfl]
  · rw [hspec.2.1, if_pos rfl]

theorem insert_count (n : Nodes) :
    insert n.count {a | a < n.count} = {a : ℕ | a < n.count + 1} := by
  ext a
  rw [Set.mem_insert_iff]
  change a = n.count ∨ a < n.count ↔ a < n.count + 1
  omega

theorem kids_fresh (h : Linked n kids) : kids n.count = [] := by
  rw [List.eq_nil_iff_forall_not_mem]
  intro c hc
  exact absurd (h.lt_of_mem hc).1 (Nat.lt_irrefl _)

/-- The pointers when a node is added behind the last child. -/
theorem newNode_pointers (h : Linked n kids) (hp : p < n.count)
    (hok : n.newNode type tok toklen (some p) (kids p).getLast? = .ok (a, n')) :
    a = n.count ∧ n'.count = n.count + 1 ∧ ∀ b,
      ((n'.node b).next = if (kids p).getLast? = some b then some a
        else if b = a then none else (n.node b).next) ∧
      ((n'.node b).prev = if b = a then (kids p).getLast? else (n.node b).prev) ∧
      ((n'.node b).parent = if b = a then some p else (n.node b).parent) ∧
      ((n'.node b).children = if b = a then none
        else if b = p ∧ kids p = [] then some a else (n.node b).children) := by
  rcases newNode_cases hok with ⟨rfl, hprev, hadd⟩
  rcases Nodes.allocate_spec n type tok toklen (some p) (kids p).getLast? with ⟨hcount, hspec⟩
  have hchildren := (h.links p hp).head
  refine ⟨rfl, ?_⟩
  by_cases hkids : kids p = []
  · -- the first child: `node_add_child` finds no other
    have hnone : (kids p).getLast? = none := by rw [hkids]; rfl
    have hadd' := hadd p rfl hnone
    generalize n.allocate type tok toklen (some p) (kids p).getLast? = m at hcount hspec hadd'
    have hpn : p ≠ n.count := hp.ne
    rw [hkids] at hchildren
    rcases nodeAddChild_cases hadd' with ⟨-, rfl⟩ | ⟨first, last, hfirst, -⟩
    · refine ⟨hcount, fun b => ⟨?_, ?_, ?_, ?_⟩⟩
      · rw [Nodes.setChildren_next, Nodes.setParent_next]
        exact (hspec b).1
      · rw [Nodes.setChildren_prev, Nodes.setParent_prev]
        exact (hspec b).2.1
      · rw [Nodes.setChildren_parent, Nodes.setParent_parent, (hspec b).2.2.1]
        split <;> rfl
      · rw [Nodes.setChildren_children, Nodes.setParent_children, (hspec b).2.2.2]
        by_cases hb : b = p
        · rw [if_pos hb, if_neg fun hbn => hpn (hb ▸ hbn), if_pos ⟨hb, hkids⟩]
        · rw [if_neg hb, if_neg fun hbp : b = p ∧ kids p = [] => hb hbp.1]
    · rw [(hspec p).2.2.2, if_neg hpn, hchildren] at hfirst
      cases hfirst
  · have hsome : (kids p).getLast? ≠ none := fun hnone => hkids (List.getLast?_eq_none_iff.mp hnone)
    obtain rfl := hprev (.inr hsome)
    refine ⟨hcount, fun b => ⟨(hspec b).1, (hspec b).2.1, (hspec b).2.2.1, ?_⟩⟩
    rw [(hspec b).2.2.2, if_neg fun hbp : b = p ∧ kids p = [] => hkids hbp.2]

/-- A new node behind the last child. -/
theorem newNode (h : Linked n kids) (hp : p < n.count)
    (hok : n.newNode type tok toklen (some p) (kids p).getLast? = .ok (a, n')) :
    a = n.count ∧ n'.count = n.count + 1 ∧
      Linked n' (Function.update kids p (kids p ++ [a])) ∧
      ∀ b < n.count, (n'.node b).prev = (n.node b).prev := by
  rcases h.newNode_pointers hp hok with ⟨rfl, hcount, hspec⟩
  have hold : ∀ {q c}, c ∈ kids q → c ≠ n.count := fun hc => (h.lt_of_mem hc).2.ne
  have hfresh : ∀ q, n.count ∉ kids q := fun q hq => hold hq rfl
  have hpn : p ≠ n.count := hp.ne
  refine ⟨rfl, hcount, ⟨?_, ?_, ?_, ?_, ⟨?_, ?_⟩⟩, fun b hb => ?_⟩
  · rw [hcount, ← insert_count]
    exact h.tree.addLeaf hp (Nat.lt_irrefl _) h.root
  · rw [hcount]
    exact Nat.succ_pos _
  · intro q hq
    by_cases hqn : q = n.count
    · rw [hqn, Function.update_of_ne hpn.symm, h.kids_fresh, (hspec n.count).2.2.2, if_pos rfl]
      exact .nil
    have hq' : q < n.count := by omega
    rw [(hspec q).2.2.2, if_neg hqn]
    by_cases hqp : q = p
    · have hhead : (if p = p ∧ kids p = [] then some n.count else (n.node p).children) =
          if (kids p).getLast? = none then some n.count else (n.node p).children := by
        simp only [true_and, List.getLast?_eq_none_iff]
      rw [hqp, Function.update_self, List.getLast?_append_cons, List.getLast?_singleton, hhead]
      apply (h.links p hp).append (hfresh p)
      · rw [(hspec n.count).1, if_neg fun hlast => hfresh p (List.mem_of_getLast? hlast), if_pos rfl]
      · rw [(hspec n.count).2.1, if_pos rfl]
      · intro b hb
        rw [(hspec b).1, if_pos hb]
      · intro b hb
        rw [(hspec b).2.1, if_neg hb]
      · intro b hb hlast
        rw [(hspec b).1, if_neg hlast, if_neg hb]
    · rw [if_neg fun hqp' : q = p ∧ kids p = [] => hqp hqp'.1, Function.update_of_ne hqp]
      refine (h.links q hq').congr ?_ ?_
      · intro b hb
        rw [(hspec b).2.1, if_neg (hold hb)]
      · intro b hb
        rw [(hspec b).1, if_neg fun hlast => ?_, if_neg (hold hb)]
        exact hqp (h.tree.unique hb (List.mem_of_getLast? hlast))
  · intro q c hc
    rw [(hspec c).2.2.1]
    by_cases hqp : q = p
    · rw [hqp, Function.update_self, List.mem_append, List.mem_singleton] at hc
      rcases hc with hc | hc
      · rw [if_neg (hold hc), hqp]
        exact h.parent hc
      · rw [if_pos hc, hqp]
    · rw [Function.update_of_ne hqp] at hc
      rw [if_neg (hold hc)]
      exact h.parent hc
  · rw [(hspec 0).1, if_neg fun hlast => h.tree.root_not p (List.mem_of_getLast? hlast),
      if_neg h.root.ne]
    exact h.alone.1
  · rw [(hspec 0).2.1, if_neg h.root.ne]
    exact h.alone.2
  · rw [(hspec b).2.1, if_neg hb.ne]

/-- A new node above the last child, which has a sibling before it. -/
theorem wrap (h : Linked n kids) (hkids : kids p = l ++ [x]) (hl : l ≠ [])
    {tok : Bytes} (hok : n.wrap type tok toklen p x = .ok (a, n')) :
    a = n.count ∧ n'.count = n.count + 1 ∧
      Linked n' (Function.update (Function.update kids p (l ++ [a])) a [x]) ∧
      ∀ b < n.count, (n.node b).prev = none → (n'.node b).prev = none := by
  have hx : x ∈ kids p := by
    rw [hkids]
    exact List.mem_append_right _ List.mem_cons_self
  have hp := (h.lt_of_mem hx).1
  have hlinks := h.links p hp
  obtain ⟨y, hy⟩ := Option.ne_none_iff_exists'.mp (mt List.getLast?_eq_none_iff.mp hl)
  have hyl : y ∈ l := List.mem_of_getLast? hy
  have hyp : y ∈ kids p := by
    rw [hkids]
    exact List.mem_append_left _ hyl
  have hxl : x ∉ l := by
    have hnodup := hlinks.nodup
    rw [hkids] at hnodup
    intro hmem
    exact (List.nodup_append.mp hnodup).2.2 x hmem x List.mem_cons_self rfl
  have hprev : (n.node x).prev = some y := (hlinks.prev l x [] hkids).trans hy
  rcases wrap_pointers (h.lt_of_mem hx).2 hprev hok with ⟨rfl, hcount, hspec⟩
  have hold : ∀ {q c}, c ∈ kids q → c ≠ n.count := fun hc => (h.lt_of_mem hc).2.ne
  have hpn : p ≠ n.count := hp.ne
  have hroot : ∀ {c}, c ∈ kids p → 0 ≠ c := fun hc heq => h.tree.root_not p (heq ▸ hc)
  refine ⟨rfl, hcount, ⟨?_, ?_, ?_, ?_, ⟨?_, ?_⟩⟩, fun b hb hnone => ?_⟩
  · rw [hcount, ← insert_count]
    exact h.tree.wrapLast hp (Nat.lt_irrefl _) h.root hkids
  · rw [hcount]
    exact Nat.succ_pos _
  · intro q hq
    rw [(hspec q).2.2.2]
    by_cases hqn : q = n.count
    · rw [hqn, Function.update_self, if_pos rfl]
      apply DoublyLinked.singleton
      · rw [(hspec x).1, if_pos rfl]
      · rw [(hspec x).2.1, if_pos rfl]
    rw [if_neg hqn, Function.update_of_ne hqn]
    by_cases hqp : q = p
    · rw [hqp, Function.update_self, List.getLast?_append_cons, List.getLast?_singleton]
      rw [hkids] at hlinks
      have hhead : (n.node p).children = (l ++ [n.count]).head? := by
        rw [hlinks.head]
        cases l with
        | nil => exact absurd rfl hl
        | cons c l => rfl
      rw [hhead]
      have hmem : ∀ {c}, c ∈ l → c ∈ kids p := by
        intro c hc
        rw [hkids]
        exact List.mem_append_left _ hc
      apply hlinks.replaceLast (fun hmem' => hold (hmem hmem') rfl)
      · rw [(hspec n.count).1, if_neg (hold hx).symm, if_neg (hold hyp), if_pos rfl]
      · rw [(hspec n.count).2.1, if_neg (hold hx).symm, if_pos rfl, hy]
      · intro c hc
        have hcy : y = c := by
          rw [hy] at hc
          exact Option.some.inj hc
        rw [← hcy, (hspec y).1, if_neg fun hyx : y = x => hxl (hyx ▸ hyl), if_pos rfl]
      · intro c hc
        rw [(hspec c).2.1, if_neg fun hcx : c = x => hxl (hcx ▸ hc), if_neg (hold (hmem hc))]
      · intro c hc hlast
        have hyc : y ≠ c := fun hyc => hlast (hyc ▸ hy)
        rw [(hspec c).1, if_neg fun hcx : c = x => hxl (hcx ▸ hc), if_neg hyc,
          if_neg (hold (hmem hc))]
    · rw [Function.update_of_ne hqp]
      have hq' : q < n.count := by omega
      refine (h.links q hq').congr ?_ ?_
      · intro b hb
        have hbx : b ≠ x := fun hbx => hqp (h.tree.unique (hbx ▸ hb) hx)
        rw [(hspec b).2.1, if_neg hbx, if_neg (hold hb)]
      · intro b hb
        have hbx : b ≠ x := fun hbx => hqp (h.tree.unique (hbx ▸ hb) hx)
        have hby : y ≠ b := fun hyb => hqp (h.tree.unique (hyb ▸ hb) hyp)
        rw [(hspec b).1, if_neg hbx, if_neg hby, if_neg (hold hb)]
  · intro q c hc
    rw [(hspec c).2.2.1]
    by_cases hqn : q = n.count
    · rw [hqn, Function.update_self, List.mem_singleton] at hc
      rw [if_pos hc, hqn]
    rw [Function.update_of_ne hqn] at hc
    by_cases hqp : q = p
    · rw [hqp, Function.update_self, List.mem_append, List.mem_singleton] at hc
      rcases hc with hc | hc
      · have hcp : c ∈ kids p := by
          rw [hkids]
          exact List.mem_append_left _ hc
        rw [if_neg fun hcx : c = x => hxl (hcx ▸ hc), if_neg (hold hcp), hqp]
        exact h.parent hcp
      · rw [hc, if_neg (hold hx).symm, if_pos rfl, hqp]
    · rw [Function.update_of_ne hqp] at hc
      have hcx : c ≠ x := fun hcx => hqp (h.tree.unique (hcx ▸ hc) hx)
      rw [if_neg hcx, if_neg (hold hc)]
      exact h.parent hc
  · rw [(hspec 0).1, if_neg (hroot hx), if_neg (hroot hyp).symm, if_neg h.root.ne]
    exact h.alone.1
  · rw [(hspec 0).2.1, if_neg (hroot hx), if_neg h.root.ne]
    exact h.alone.2
  · rw [(hspec b).2.1]
    split
    · rfl
    · rw [if_neg hb.ne]
      exact hnone

end Linked

end Clox.Regex
