import Mathlib.Data.List.Basic
import Mathlib.Logic.Function.Basic

/-! # Blocks of memory and who holds them

A memory of blocks that a program allocates, and holders that each hold the address of at most
one block. A holder may be guarded: it never writes to the block that it holds. The discipline is
that two holders of one block are both guarded.
-/

namespace Sharing

/-! ## Blocks -/

/-- Blocks of cells by address. A cell that was never written is `none`; a block that was freed or
never allocated is `none`. The addresses from `next` on were never handed out. -/
structure Blocks (β : Type) where
  cells : ℕ → Option (List (Option β))
  next : ℕ

namespace Blocks

variable {β : Type}

def empty : Blocks β := ⟨fun _ => none, 0⟩

/-- The cells of the block at `p`; none where there is no block. -/
def load (m : Blocks β) (p : Option ℕ) : List (Option β) := (p.bind m.cells).getD []

/-- A new block, at the address `m.next`. -/
def alloc (m : Blocks β) (cells : List (Option β)) : Blocks β where
  cells := Function.update m.cells m.next (some cells)
  next := m.next + 1

/-- The block at `p` gets other cells. -/
def put (m : Blocks β) (p : ℕ) (cells : List (Option β)) : Blocks β :=
  { m with cells := Function.update m.cells p (some cells) }

def free (m : Blocks β) (p : ℕ) : Blocks β :=
  { m with cells := Function.update m.cells p none }

variable {m : Blocks β} {p q : ℕ} {cells : List (Option β)}

@[simp] theorem next_alloc : (m.alloc cells).next = m.next + 1 := rfl

@[simp] theorem next_put : (m.put p cells).next = m.next := rfl

@[simp] theorem next_free : (m.free p).next = m.next := rfl

@[simp] theorem load_none : m.load none = [] := rfl

@[simp] theorem load_alloc_self : (m.alloc cells).load (some m.next) = cells := by
  simp [load, alloc]

theorem load_alloc_of_ne (h : p ≠ m.next) : (m.alloc cells).load (some p) = m.load (some p) := by
  simp [load, alloc, Function.update_of_ne h]

@[simp] theorem load_put_self : (m.put p cells).load (some p) = cells := by
  simp [load, put]

theorem load_put_of_ne (h : q ≠ p) : (m.put p cells).load (some q) = m.load (some q) := by
  simp [load, put, Function.update_of_ne h]

theorem load_free_of_ne (h : q ≠ p) : (m.free p).load (some q) = m.load (some q) := by
  simp [load, free, Function.update_of_ne h]

@[simp] theorem put_put {cells' : List (Option β)} :
    (m.put p cells).put p cells' = m.put p cells' := by
  simp [put]

/-- A block that is written over with what it has. -/
theorem load_put_load (q : Option ℕ) : (m.put p (m.load (some p))).load q = m.load q := by
  cases q with
  | none => rfl
  | some q =>
    by_cases hq : q = p
    · rw [hq, load_put_self]
    · rw [load_put_of_ne hq]

end Blocks

/-! ## Holders -/

/-- What a holder has: the address of a block, and whether it keeps its hands off it. -/
structure Handle (κ : Type) where
  kind : κ
  addr : Option ℕ
  guarded : Bool

variable {κ ι : Type}

/-- What is held was handed out, and no block of a holder of kind `k` has a second holder, unless
that one is of the same kind and both are guarded. -/
structure Sound (k : κ) (next : ℕ) (handle : ι → Option (Handle κ)) : Prop where
  bounded : ∀ i g p, handle i = some g → g.addr = some p → p < next
  apart : ∀ i j gi gj p, i ≠ j → handle i = some gi → handle j = some gj → gi.addr = some p →
    gj.addr = some p → gi.kind = k → gj.kind = k ∧ gi.guarded = true ∧ gj.guarded = true

/-- A holder other than `i` that has the block at `p` is of no interest to `k`, and `i`, which
is of kind `mine`, is not either. -/
def Spare (k mine : κ) (i : ι) (p : ℕ) (handle : ι → Option (Handle κ)) : Prop :=
  ∀ j g, j ≠ i → handle j = some g → g.addr = some p → g.kind ≠ k ∧ mine ≠ k

section Discipline

variable {k mine : κ} {next next' : ℕ} {handle : ι → Option (Handle κ)} {i j : ι}
  {g gi gj : Handle κ} {p : ℕ}

theorem Sound.mono (h : Sound k next handle) (hle : next ≤ next') : Sound k next' handle :=
  ⟨fun i g p hi hp => Nat.lt_of_lt_of_le (h.bounded i g p hi hp) hle, h.apart⟩

/-- Nobody holds what was never handed out. -/
theorem Sound.spare_of_le (h : Sound k next handle) (hp : next ≤ p) : Spare k mine i p handle :=
  fun j g _ hj hg => absurd (h.bounded j g p hj hg) (Nat.not_lt.mpr hp)

/-- An unguarded holder has its block for itself. -/
theorem Sound.spare_of_unguarded (h : Sound k next handle) (hi : handle i = some g)
    (hp : g.addr = some p) (hg : g.kind = k → g.guarded = false) :
    Spare k g.kind i p handle := by
  intro j gj hji hj hgj
  constructor
  · intro hk
    obtain ⟨hk', -, hguard⟩ := h.apart j i gj g p hji hj hi hgj hp hk
    simp [hg hk'] at hguard
  · intro hk
    obtain ⟨-, hguard, -⟩ := h.apart i j g gj p hji.symm hi hj hp hgj hk
    simp [hg hk] at hguard

theorem spare_of_alone (h : ∀ j g, j ≠ i → handle j = some g → g.addr ≠ some p) :
    Spare k mine i p handle :=
  fun j g hji hj hg => absurd hg (h j g hji hj)

variable [DecidableEq ι]

theorem Spare.update (h : Spare k mine i p handle) :
    Spare k mine i p (Function.update handle i (some g)) := by
  intro j gj hji hj
  rw [Function.update_of_ne hji] at hj
  exact h j gj hji hj

/-- A holder takes a block that `k` lets it have. -/
theorem Sound.take (h : Sound k next handle) (hbound : ∀ p, g.addr = some p → p < next)
    (hshare : ∀ l gl p, l ≠ i → handle l = some gl → g.addr = some p → gl.addr = some p →
      (g.kind = k ∨ gl.kind = k) →
      (g.kind = k ∧ g.guarded = true) ∧ gl.kind = k ∧ gl.guarded = true) :
    Sound k next (Function.update handle i (some g)) := by
  constructor
  · intro l gl p hl hp
    by_cases hli : l = i
    · subst hli
      rw [Function.update_self] at hl
      cases hl
      exact hbound p hp
    · rw [Function.update_of_ne hli] at hl
      exact h.bounded l gl p hl hp
  · intro l l' gl gl' p hll' hl hl' hpl hpl' hk
    by_cases hli : l = i
    · subst hli
      rw [Function.update_self] at hl
      rw [Function.update_of_ne hll'.symm] at hl'
      cases hl
      obtain ⟨⟨-, hg⟩, hkl', hgl'⟩ := hshare l' gl' p hll'.symm hl' hpl hpl' (Or.inl hk)
      exact ⟨hkl', hg, hgl'⟩
    · rw [Function.update_of_ne hli] at hl
      by_cases hli' : l' = i
      · subst hli'
        rw [Function.update_self] at hl'
        cases hl'
        obtain ⟨⟨hk', hg⟩, -, hgl⟩ := hshare l gl p hli hl hpl' hpl (Or.inr hk)
        exact ⟨hk', hgl, hg⟩
      · rw [Function.update_of_ne hli'] at hl'
        exact h.apart l l' gl gl' p hll' hl hl' hpl hpl' hk

/-- A holder takes a block that it has for itself. -/
theorem Sound.hold (h : Sound k next handle)
    (hg : ∀ p, g.addr = some p → p < next ∧ Spare k g.kind i p handle) :
    Sound k next (Function.update handle i (some g)) := by
  refine h.take (fun p hp => (hg p hp).1) fun l gl p hli hl hp hpl hk => ?_
  obtain ⟨hkl, hkg⟩ := (hg p hp).2 l gl hli hl hpl
  rcases hk with hk | hk
  · exact absurd hk hkg
  · exact absurd hk hkl

/-- A holder keeps its block and does not drop its guard. -/
theorem Sound.keep (h : Sound k next handle) (hi : handle i = some gi) (hkind : g.kind = gi.kind)
    (haddr : g.addr = gi.addr) (hguard : gi.guarded = true → g.guarded = true) :
    Sound k next (Function.update handle i (some g)) := by
  refine h.take (fun p hp => h.bounded i gi p hi (haddr ▸ hp)) fun l gl p hli hl hp hpl hk => ?_
  rw [haddr] at hp
  rcases hk with hk | hk
  · obtain ⟨hkl, hgi, hgl⟩ := h.apart i l gi gl p hli.symm hi hl hp hpl (hkind ▸ hk)
    exact ⟨⟨hk, hguard hgi⟩, hkl, hgl⟩
  · obtain ⟨hki, hgl, hgi⟩ := h.apart l i gl gi p hli hl hi hpl hp hk
    exact ⟨⟨hkind.trans hki, hguard hgi⟩, hk, hgl⟩

/-- A guarded holder takes the block of another guarded holder. -/
theorem Sound.borrow (h : Sound k next handle) (hj : handle j = some gj)
    (hkind : g.kind = gj.kind) (haddr : g.addr = gj.addr) (hg : g.guarded = true)
    (hgj : gj.guarded = true) : Sound k next (Function.update handle i (some g)) := by
  refine h.take (fun p hp => h.bounded j gj p hj (haddr ▸ hp)) fun l gl p hli hl hp hpl hk => ?_
  rw [haddr] at hp
  by_cases hlj : l = j
  · subst hlj
    cases hj.symm.trans hl
    rcases hk with hk | hk
    · exact ⟨⟨hk, hg⟩, hkind ▸ hk, hgj⟩
    · exact ⟨⟨hkind.trans hk, hg⟩, hk, hgj⟩
  · rcases hk with hk | hk
    · obtain ⟨hkl, -, hgl⟩ := h.apart j l gj gl p (Ne.symm hlj) hj hl hp hpl (hkind ▸ hk)
      exact ⟨⟨hk, hg⟩, hkl, hgl⟩
    · obtain ⟨hkj, hgl, -⟩ := h.apart l j gl gj p hlj hl hj hpl hp hk
      exact ⟨⟨hkind.trans hkj, hg⟩, hk, hgl⟩

end Discipline

end Sharing
