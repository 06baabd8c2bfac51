import Mathlib.Logic.Relation
import Mathlib.Data.List.Nodup
import Mathlib.Data.Set.Insert

/-! # Trees by the children of their nodes

A tree is a root and, for each node, the list of its children. Two operations make it grow: a leaf
behind the last child, and a node above the last child.
-/

namespace Trees

open Relation

variable {α : Type} {kids : α → List α} {nodes : Set α} {root n p q c : α} {l : List α}

/-- Where every point has at most one predecessor and the root has none, no point that is reached
from the root is on a cycle. -/
theorem not_transGen_self {R : α → α → Prop} (huniq : ∀ a b c, R a c → R b c → a = b)
    (hroot : ∀ a, ¬ R a root) (hreach : ReflTransGen R root n) : ¬ TransGen R n n := by
  induction hreach with
  | refl =>
    intro hcycle
    rcases TransGen.tail'_iff.mp hcycle with ⟨a, -, ha⟩
    exact hroot a ha
  | tail _ hlast ih =>
    rename_i m n _
    intro hcycle
    rcases TransGen.tail'_iff.mp hcycle with ⟨a, hpath, ha⟩
    -- the cycle enters by the same predecessor, which then is on it too
    rw [huniq a m n ha hlast] at hpath
    exact ih (TransGen.head'_iff.mpr ⟨n, hlast, hpath⟩)

/-- The node `c` is a child of `p`. -/
def Child (kids : α → List α) (p c : α) : Prop := c ∈ kids p

/-- Every node but the root is a child of one node and at one place, and is reached from the
root. -/
structure Tree (kids : α → List α) (root : α) (nodes : Set α) : Prop where
  child_mem : ∀ {p c}, c ∈ kids p → p ∈ nodes ∧ c ∈ nodes
  nodup : ∀ p, (kids p).Nodup
  unique : ∀ {p q c}, c ∈ kids p → c ∈ kids q → p = q
  root_not : ∀ p, root ∉ kids p
  reached : ∀ n ∈ nodes, ReflTransGen (Child kids) root n

namespace Tree

theorem single (root : α) : Tree (fun _ => []) root {root} where
  child_mem h := by cases h
  nodup _ := List.nodup_nil
  unique h := by cases h
  root_not _ h := by cases h
  reached n hn := by
    rw [Set.mem_singleton_iff.mp hn]

theorem not_ancestor_self (h : Tree kids root nodes) (hn : n ∈ nodes) :
    ¬ TransGen (Child kids) n n :=
  not_transGen_self (fun _ _ _ => h.unique) h.root_not (h.reached n hn)

theorem mem_of_reached (h : Tree kids root nodes) (hroot : root ∈ nodes)
    (hreach : ReflTransGen (Child kids) root n) : n ∈ nodes := by
  induction hreach with
  | refl => exact hroot
  | tail _ hlast _ => exact (h.child_mem hlast).2

theorem reached_iff (h : Tree kids root nodes) (hroot : root ∈ nodes) :
    ReflTransGen (Child kids) root n ↔ n ∈ nodes :=
  ⟨h.mem_of_reached hroot, h.reached n⟩

variable [DecidableEq α]

/-- A new leaf behind the last child. -/
theorem addLeaf (h : Tree kids root nodes) (hp : p ∈ nodes) (hn : n ∉ nodes)
    (hroot : root ∈ nodes) :
    Tree (Function.update kids p (kids p ++ [n])) root (insert n nodes) := by
  have hfresh : ∀ q, n ∉ kids q := fun q hq => hn (h.child_mem hq).2
  have hmem : ∀ q c, c ∈ Function.update kids p (kids p ++ [n]) q ↔
      c ∈ kids q ∨ q = p ∧ c = n := by
    intro q c
    rw [Function.update_apply]
    split
    · rename_i hq
      rw [hq, List.mem_append, List.mem_singleton, and_iff_right rfl]
    · rename_i hq
      rw [or_iff_left fun h => hq h.1]
  have hold : ∀ a b, Child kids a b → Child (Function.update kids p (kids p ++ [n])) a b :=
    fun a b hab => (hmem a b).mpr (.inl hab)
  constructor
  · intro q c hc
    rcases (hmem q c).mp hc with hc | ⟨rfl, rfl⟩
    · exact ⟨.inr (h.child_mem hc).1, .inr (h.child_mem hc).2⟩
    · exact ⟨.inr hp, .inl rfl⟩
  · intro q
    rw [Function.update_apply]
    split
    · exact List.nodup_append.mpr ⟨h.nodup p, List.nodup_singleton n, fun a ha b hb heq =>
        hfresh p (List.mem_singleton.mp hb ▸ heq ▸ ha)⟩
    · exact h.nodup q
  · intro q q' c hc hc'
    rcases (hmem q c).mp hc with hb | ⟨hq, hcn⟩
    · rcases (hmem q' c).mp hc' with hb' | ⟨-, hcn⟩
      · exact h.unique hb hb'
      · exact absurd (hcn ▸ hb) (hfresh q)
    · rcases (hmem q' c).mp hc' with hb' | ⟨hq', -⟩
      · exact absurd (hcn ▸ hb') (hfresh q')
      · rw [hq, hq']
  · intro q hq
    rcases (hmem q root).mp hq with hq | ⟨-, heq⟩
    · exact h.root_not q hq
    · exact hn (heq ▸ hroot)
  · intro m hm
    rcases Set.mem_insert_iff.mp hm with rfl | hm
    · exact (ReflTransGen.mono hold _ _ (h.reached p hp)).tail ((hmem p m).mpr (.inr ⟨rfl, rfl⟩))
    · exact ReflTransGen.mono hold _ _ (h.reached m hm)

/-- The children when a new node takes the place of the last child, with that child below it. -/
theorem mem_wrapLast (h : Tree kids root nodes) (hp : p ∈ nodes) (hn : n ∉ nodes)
    (hkids : kids p = l ++ [c]) {b : α} :
    b ∈ Function.update (Function.update kids p (l ++ [n])) n [c] q ↔
      (b ∈ kids q ∧ b ≠ c) ∨ (q = p ∧ b = n) ∨ (q = n ∧ b = c) := by
  have hc : c ∈ kids p := by
    rw [hkids]
    exact List.mem_append_right l List.mem_cons_self
  have hcl : c ∉ l := by
    have hnodup := h.nodup p
    rw [hkids] at hnodup
    intro hmem
    exact (List.nodup_append.mp hnodup).2.2 c hmem c List.mem_cons_self rfl
  have hpn : p ≠ n := fun heq => hn (heq ▸ hp)
  by_cases hqn : q = n
  · have hleaf : kids n = [] := by
      rw [List.eq_nil_iff_forall_not_mem]
      exact fun a ha => hn (h.child_mem ha).1
    rw [hqn, Function.update_self, hleaf, List.mem_singleton]
    constructor
    · intro hb
      exact .inr (.inr ⟨rfl, hb⟩)
    · rintro (⟨hb, -⟩ | ⟨heq, -⟩ | ⟨-, hb⟩)
      · cases hb
      · exact absurd heq.symm hpn
      · exact hb
  rw [Function.update_of_ne hqn]
  by_cases hqp : q = p
  · rw [hqp, Function.update_self, hkids, List.mem_append, List.mem_append,
      List.mem_singleton, List.mem_singleton]
    constructor
    · rintro (hb | hb)
      · exact .inl ⟨.inl hb, fun heq => hcl (heq ▸ hb)⟩
      · exact .inr (.inl ⟨rfl, hb⟩)
    · rintro (⟨hb | hb, hne⟩ | ⟨-, hb⟩ | ⟨heq, -⟩)
      · exact .inl hb
      · exact absurd hb hne
      · exact .inr hb
      · exact absurd heq hpn
  · rw [Function.update_of_ne hqp]
    constructor
    · intro hb
      exact .inl ⟨hb, fun heq => hqp (h.unique (heq ▸ hb) hc)⟩
    · rintro (⟨hb, -⟩ | ⟨heq, -⟩ | ⟨heq, -⟩)
      · exact hb
      · exact absurd heq hqp
      · exact absurd heq hqn

/-- A new node in the place of the last child, with that child below it. -/
theorem wrapLast (h : Tree kids root nodes) (hp : p ∈ nodes) (hn : n ∉ nodes)
    (hroot : root ∈ nodes) (hkids : kids p = l ++ [c]) :
    Tree (Function.update (Function.update kids p (l ++ [n])) n [c]) root (insert n nodes) := by
  have hc : c ∈ kids p := by
    rw [hkids]
    exact List.mem_append_right l List.mem_cons_self
  have hfresh : ∀ q, n ∉ kids q := fun q hq => hn (h.child_mem hq).2
  have hmem : ∀ q b, b ∈ Function.update (Function.update kids p (l ++ [n])) n [c] q ↔
      (b ∈ kids q ∧ b ≠ c) ∨ (q = p ∧ b = n) ∨ (q = n ∧ b = c) :=
    fun _ _ => h.mem_wrapLast hp hn hkids
  -- a path over the child goes over the new node now
  have hold : ∀ a b, Child kids a b →
      ReflTransGen (Child (Function.update (Function.update kids p (l ++ [n])) n [c])) a b := by
    intro a b hab
    by_cases hbc : b = c
    · have ha : a = p := h.unique (hbc ▸ hab) hc
      rw [hbc, ha]
      exact (ReflTransGen.single ((hmem p n).mpr (.inr (.inl ⟨rfl, rfl⟩)))).tail
        ((hmem n c).mpr (.inr (.inr ⟨rfl, rfl⟩)))
    · exact .single ((hmem a b).mpr (.inl ⟨hab, hbc⟩))
  have hreached : ∀ m ∈ nodes, ReflTransGen
      (Child (Function.update (Function.update kids p (l ++ [n])) n [c])) root m := by
    intro m hm
    have hpath := h.reached m hm
    induction hpath with
    | refl => exact .refl
    | tail hpath hlast ih => exact (ih (h.child_mem hlast).1).trans (hold _ _ hlast)
  constructor
  · intro q b hb
    rcases (hmem q b).mp hb with ⟨hb, -⟩ | ⟨rfl, rfl⟩ | ⟨rfl, rfl⟩
    · exact ⟨.inr (h.child_mem hb).1, .inr (h.child_mem hb).2⟩
    · exact ⟨.inr hp, .inl rfl⟩
    · exact ⟨.inl rfl, .inr (h.child_mem hc).2⟩
  · intro q
    rw [Function.update_apply]
    split
    · exact List.nodup_singleton c
    · rw [Function.update_apply]
      split
      · have hnodup := h.nodup p
        rw [hkids] at hnodup
        refine List.nodup_append.mpr ⟨(List.nodup_append.mp hnodup).1, List.nodup_singleton n, ?_⟩
        intro a ha b hb heq
        apply hfresh p
        rw [hkids, ← List.mem_singleton.mp hb, ← heq]
        exact List.mem_append_left _ ha
      · exact h.nodup q
  · intro q q' b hb hb'
    rcases (hmem q b).mp hb with ⟨hold, hne⟩ | ⟨hq, hbn⟩ | ⟨hq, hbc⟩
    · rcases (hmem q' b).mp hb' with ⟨hold', -⟩ | ⟨-, hbn⟩ | ⟨-, hbc⟩
      · exact h.unique hold hold'
      · exact absurd (hbn ▸ hold) (hfresh q)
      · exact absurd hbc hne
    · rcases (hmem q' b).mp hb' with ⟨hold', -⟩ | ⟨hq', -⟩ | ⟨-, hbc⟩
      · exact absurd (hbn ▸ hold') (hfresh q')
      · rw [hq, hq']
      · rw [hbn] at hbc
        exact absurd (hbc ▸ hc) (hfresh p)
    · rcases (hmem q' b).mp hb' with ⟨-, hne⟩ | ⟨-, hbn⟩ | ⟨hq', -⟩
      · exact absurd hbc hne
      · rw [hbn] at hbc
        exact absurd (hbc ▸ hc) (hfresh p)
      · rw [hq, hq']
  · intro q hq
    rcases (hmem q root).mp hq with ⟨hq, -⟩ | ⟨-, heq⟩ | ⟨-, heq⟩
    · exact h.root_not q hq
    · exact hn (heq ▸ hroot)
    · exact h.root_not p (heq ▸ hc)
  · intro m hm
    rcases Set.mem_insert_iff.mp hm with rfl | hm
    · exact (hreached p hp).tail ((hmem p m).mpr (.inr (.inl ⟨rfl, rfl⟩)))
    · exact hreached m hm

end Tree

end Trees
