import Clox.Gc.Heap
import Clox.Lib.Linked
import Mathlib.Data.List.Nodup
import Mathlib.Tactic.Tauto

/-! # The free list

Which slots the free list has: every operation of the machine keeps the free slots that it
misses, except the full collection, which starts a new list and does not link the slots
that were free already.
-/

namespace Clox.Gc

/-- From the head of the free list one meets the slots of `l`, once each, and they are free. -/
structure FreeList (h : Heap) (l : List ℕ) : Prop where
  linked : Linked (fun r => (h.slot r).nextFree) h.freeList l
  nodup : l.Nodup
  free : ∀ r ∈ l, r < h.size ∧ (h.slot r).body = none

/-- A free slot that is not on the list. -/
def Missing (h : Heap) (l : List ℕ) (r : ℕ) : Prop :=
  r < h.size ∧ (h.slot r).body = none ∧ r ∉ l

/-- The free list is acyclic and holds each slot of type `OBJ_T_NONE` once and no other. -/
def Exact (h : Heap) : Prop := ∃ l, FreeList h l ∧ ∀ r, ¬ Missing h l r

/-- `h'` has a free list, which misses what the list `l` of `h` misses. -/
def Keeps (h : Heap) (l : List ℕ) (h' : Heap) : Prop :=
  ∃ l', FreeList h' l' ∧ ∀ r, Missing h' l' r ↔ Missing h l r

/-- The young stack holds objects, each once. -/
structure Young (h : Heap) : Prop where
  nodup : h.youngStack.Nodup
  live : ∀ r ∈ h.youngStack, r < h.size ∧ (h.slot r).body ≠ none

/-- The same slots are free and linked in the same way. -/
structure SameFree (h h' : Heap) : Prop where
  size : h'.size = h.size
  freeList : h'.freeList = h.freeList
  nextFree : ∀ r, (h'.slot r).nextFree = (h.slot r).nextFree
  body : ∀ r, (h'.slot r).body = none ↔ (h.slot r).body = none

variable {h h' h'' : Heap} {l l' : List ℕ} {r : ℕ}

theorem exact_iff (hl : FreeList h l) : Exact h ↔ ∀ r, ¬ Missing h l r := by
  constructor
  · rintro ⟨l', hl', hmiss⟩
    rwa [hl.linked.unique hl'.linked]
  · intro hmiss
    exact ⟨l, hl, hmiss⟩

namespace SameFree

theorem refl (h : Heap) : SameFree h h := ⟨rfl, rfl, fun _ => rfl, fun _ => Iff.rfl⟩

theorem trans (h₁ : SameFree h h') (h₂ : SameFree h' h'') : SameFree h h'' where
  size := h₂.size.trans h₁.size
  freeList := h₂.freeList.trans h₁.freeList
  nextFree r := (h₂.nextFree r).trans (h₁.nextFree r)
  body r := (h₂.body r).trans (h₁.body r)

/-- Only the header or the fields of an object are written. -/
theorem setSlot {s : Slot} (hnext : s.nextFree = (h.slot r).nextFree)
    (hbody : s.body = none ↔ (h.slot r).body = none) : SameFree h (h.setSlot r s) := by
  refine ⟨rfl, rfl, fun q => ?_, fun q => ?_⟩ <;> unfold Heap.setSlot
  · by_cases hq : q = r
    · subst hq
      simpa using hnext
    · simp [Function.update_of_ne hq]
  · by_cases hq : q = r
    · subst hq
      simpa using hbody
    · simp [Function.update_of_ne hq]

theorem freeList_of (hs : SameFree h h') (hl : FreeList h l) : FreeList h' l where
  linked := by
    rw [hs.freeList]
    exact hl.linked.congr fun r _ => hs.nextFree r
  nodup := hl.nodup
  free r hr := by
    rw [hs.size, hs.body]
    exact hl.free r hr

theorem missing_iff (hs : SameFree h h') : Missing h' l r ↔ Missing h l r := by
  unfold Missing
  rw [hs.size, hs.body]

theorem keeps (hs : SameFree h h') (hl : FreeList h l) : Keeps h l h' :=
  ⟨l, hs.freeList_of hl, fun _ => hs.missing_iff⟩

theorem exact_iff (hs : SameFree h h') : Exact h' ↔ Exact h := by
  unfold Exact
  constructor
  · rintro ⟨l, hl, hmiss⟩
    refine ⟨l, ⟨?_, hl.nodup, fun r hr => ?_⟩, fun r => ?_⟩
    · have := hl.linked
      rw [hs.freeList] at this
      exact this.congr fun r _ => (hs.nextFree r).symm
    · have := hl.free r hr
      rwa [hs.size, hs.body] at this
    · rw [← hs.missing_iff]
      exact hmiss r
  · rintro ⟨l, hl, hmiss⟩
    exact ⟨l, hs.freeList_of hl, fun r => by rw [hs.missing_iff]; exact hmiss r⟩

theorem young (hs : SameFree h h') (hstack : h'.youngStack = h.youngStack) (hy : Young h) :
    Young h' where
  nodup := by
    rw [hstack]
    exact hy.nodup
  live r hr := by
    rw [hstack] at hr
    rw [hs.size, ne_eq, hs.body]
    exact hy.live r hr

end SameFree

theorem Keeps.refl (hl : FreeList h l) : Keeps h l h := ⟨l, hl, fun _ => Iff.rfl⟩

theorem Keeps.trans (h₁ : Keeps h l h') (h₂ : ∀ l', FreeList h' l' → Keeps h' l' h'') :
    Keeps h l h'' := by
  obtain ⟨l', hl', hmiss⟩ := h₁
  obtain ⟨l'', hl'', hmiss'⟩ := h₂ l' hl'
  exact ⟨l'', hl'', fun r => (hmiss' r).trans (hmiss r)⟩

theorem Keeps.exact_iff (hk : Keeps h l h') : Exact h' ↔ ∀ r, ¬ Missing h l r := by
  obtain ⟨l', hl', hmiss⟩ := hk
  rw [Gc.exact_iff hl']
  simp only [hmiss]

/-! ## Freeing and allocating -/

/-- A slot that is not on the list becomes its head. -/
theorem pushFree_freeList (hl : FreeList h l) (hr : r < h.size) (hnot : r ∉ l) :
    FreeList (h.pushFree r) (r :: l) where
  linked := by
    rw [Heap.pushFree_freeList]
    refine .cons ?_
    rw [Heap.pushFree_self]
    refine hl.linked.congr fun q hq => ?_
    have hqr : q ≠ r := fun heq => hnot (heq ▸ hq)
    rw [Heap.pushFree_of_ne h r hqr]
  nodup := List.nodup_cons.mpr ⟨hnot, hl.nodup⟩
  free q hq := by
    by_cases hqr : q = r
    · rw [hqr, Heap.pushFree_self]
      exact ⟨hr, rfl⟩
    · rw [Heap.pushFree_of_ne h r hqr]
      exact hl.free q ((List.mem_cons.mp hq).resolve_left hqr)

/-- An object is freed. -/
theorem pushFree_keeps (hl : FreeList h l) (hr : r < h.size) (hbody : (h.slot r).body ≠ none) :
    Keeps h l (h.pushFree r) := by
  have hnot : r ∉ l := fun hmem => hbody (hl.free r hmem).2
  refine ⟨r :: l, pushFree_freeList hl hr hnot, fun q => ?_⟩
  unfold Missing
  by_cases hqr : q = r
  · subst hqr
    simp [hbody]
  · rw [Heap.pushFree_of_ne h r hqr]
    simp [hqr]

theorem addSlots_keeps (hl : FreeList h l) (k : ℕ) :
    Keeps h l { (List.range' h.size k).foldl Heap.pushFree h with size := h.size + k } := by
  induction k with
  | zero => exact Keeps.refl hl
  | succ k ih =>
    obtain ⟨l', hl', hmiss⟩ := ih
    rw [List.range'_concat, List.foldl_append, Nat.one_mul]
    -- the slots linked so far, in a heap with one slot more
    let g : Heap :=
      { (List.range' h.size k).foldl Heap.pushFree h with size := h.size + k + 1 }
    have hg : FreeList g l' := ⟨hl'.linked, hl'.nodup, fun r hr => by
      have hlt : r < h.size + k := (hl'.free r hr).1
      exact ⟨Nat.lt_succ_of_lt hlt, (hl'.free r hr).2⟩⟩
    have hnot : h.size + k ∉ l' := fun hmem =>
      absurd (hl'.free _ hmem).1 (Nat.lt_irrefl _)
    have hpush := pushFree_freeList hg (Nat.lt_succ_self _) hnot
    refine ⟨(h.size + k) :: l', hpush, fun r => ?_⟩
    rw [← hmiss r]
    change Missing (g.pushFree (h.size + k)) _ r ↔ _
    unfold Missing
    by_cases hr : r = h.size + k
    · subst hr
      simp
    · rw [Heap.pushFree_of_ne g _ hr]
      have hlt : r < (g.pushFree (h.size + k)).size ↔ r < h.size + k := by
        change r < h.size + k + 1 ↔ _
        omega
      rw [hlt, List.mem_cons]
      change _ ∧ (((List.range' h.size k).foldl Heap.pushFree h).slot r).body = none ∧ _ ↔ _
      tauto

theorem addHeap_keeps (hl : FreeList h l) : Keeps h l h.addHeap := addSlots_keeps hl heapSlots

/-- What linking a slot leaves alone, adding a page leaves alone. -/
theorem foldl_pushFree_eq {α : Type} (f : Heap → α) (hf : ∀ h r, f (h.pushFree r) = f h)
    (rs : List ℕ) (h : Heap) : f (rs.foldl Heap.pushFree h) = f h := by
  induction rs generalizing h with
  | nil => rfl
  | cons r rs ih => rw [List.foldl_cons, ih, hf]

theorem addSlots_eq {α : Type} (f : Heap → α) (hf : ∀ h r, f (Heap.pushFree h r) = f h)
    (hsize : ∀ (h : Heap) n, f { h with size := n } = f h) (h : Heap) (k : ℕ) :
    f { (List.range' h.size k).foldl Heap.pushFree h with size := h.size + k } = f h :=
  (hsize _ _).trans (foldl_pushFree_eq f hf _ h)

theorem addHeap_eq {α : Type} (f : Heap → α) (hf : ∀ h r, f (Heap.pushFree h r) = f h)
    (hsize : ∀ (h : Heap) n, f { h with size := n } = f h) (h : Heap) : f h.addHeap = f h :=
  addSlots_eq f hf hsize h heapSlots

theorem addHeap_gcOn (h : Heap) : h.addHeap.gcOn = h.gcOn :=
  addHeap_eq Heap.gcOn (fun _ _ => rfl) (fun _ _ => rfl) h

theorem addHeap_inGC (h : Heap) : h.addHeap.inGC = h.inGC :=
  addHeap_eq Heap.inGC (fun _ _ => rfl) (fun _ _ => rfl) h

theorem addHeap_dontGC (h : Heap) : h.addHeap.dontGC = h.dontGC :=
  addHeap_eq Heap.dontGC (fun _ _ => rfl) (fun _ _ => rfl) h

theorem addHeap_activeFinalizers (h : Heap) : h.addHeap.activeFinalizers = h.activeFinalizers :=
  addHeap_eq Heap.activeFinalizers (fun _ _ => rfl) (fun _ _ => rfl) h

theorem addHeap_youngStack (h : Heap) : h.addHeap.youngStack = h.youngStack :=
  addHeap_eq Heap.youngStack (fun _ _ => rfl) (fun _ _ => rfl) h

theorem foldl_pushFree_of_notMem {rs : List ℕ} (hr : r ∉ rs) :
    (rs.foldl Heap.pushFree h).slot r = h.slot r := by
  induction rs generalizing h with
  | nil => rfl
  | cons q rs ih =>
    rw [List.mem_cons, not_or] at hr
    rw [List.foldl_cons, ih hr.2, Heap.pushFree_of_ne h q hr.1]

theorem addSlots_slot (k : ℕ) (hr : r < h.size) :
    ((List.range' h.size k).foldl Heap.pushFree h).slot r = h.slot r := by
  refine foldl_pushFree_of_notMem fun hmem => ?_
  have hle := (List.mem_range'_1.mp hmem).1
  omega

/-- A new page is behind the slots there are. -/
theorem addHeap_slot (hr : r < h.size) : h.addHeap.slot r = h.slot r :=
  addSlots_slot heapSlots hr

theorem addHeap_young (hy : Young h) : Young h.addHeap := by
  have hstack := addHeap_youngStack h
  refine ⟨by rw [hstack]; exact hy.nodup, fun r hr => ?_⟩
  rw [hstack] at hr
  obtain ⟨hlt, hbody⟩ := hy.live r hr
  rw [addHeap_slot hlt]
  exact ⟨Nat.lt_add_right _ hlt, hbody⟩

/-- The head of the list is a free slot. -/
theorem FreeList.head (hl : FreeList h l) (hr : h.freeList = some r) :
    r < h.size ∧ (h.slot r).body = none := by
  have hlinked := hl.linked
  rw [hr] at hlinked
  cases hlinked with
  | cons _ => exact hl.free r List.mem_cons_self

/-- A new object has taken the slot `r`, the head of the free list. -/
structure Allocated (h : Heap) (r : ℕ) (body : ObjBody) (isHidden : Bool) (h' : Heap) : Prop where
  head : h.freeList = some r
  freeList : h'.freeList = (h.slot r).nextFree
  size : h'.size = h.size
  body : (h'.slot r).body = some (body.setFinalizerFunc none)
  white : (h'.slot r).dark = false
  hidden : (h'.slot r).hidden = isHidden
  others : ∀ q ≠ r, h'.slot q = h.slot q
  youngStack : h'.youngStack = h.youngStack ++ [r] ∨ h'.youngStack = h.youngStack
  rememberSet : h'.rememberSet = h.rememberSet
  activeFinalizers : h'.activeFinalizers = h.activeFinalizers
  inGC : h'.inGC = h.inGC
  dontGC : h'.dontGC = h.dontGC

theorem getNewObject_allocated {body : ObjBody} {isOld isHidden tried : Bool}
    (hnew : h.getNewObject body isOld isHidden tried = some h') :
    ∃ r, Allocated h r body isHidden h' := by
  unfold Heap.getNewObject at hnew
  cases hfree : h.freeList with
  | none =>
    rw [hfree] at hnew
    cases hnew
  | some r =>
    rw [hfree] at hnew
    simp only at hnew
    split at hnew
    · obtain rfl := Option.some.inj hnew
      refine ⟨r, hfree, rfl, rfl, ?_, ?_, ?_, fun q hq => ?_, ?_, rfl, rfl, rfl, rfl⟩
      · exact congrArg Slot.body (Heap.setSlot_self h r _)
      · exact congrArg Slot.dark (Heap.setSlot_self h r _)
      · exact congrArg Slot.hidden (Heap.setSlot_self h r _)
      · exact Heap.setSlot_of_ne h r _ hq
      · simp only
        split
        · exact .inl rfl
        · exact .inr rfl
    · cases hnew

/-- An object takes the slot at the head of the list. -/
theorem getNewObject_keeps {body : ObjBody} {isOld isHidden tried : Bool} (hl : FreeList h l)
    (hy : Young h) (hnew : h.getNewObject body isOld isHidden tried = some h') :
    Keeps h l h' ∧ Young h' := by
  obtain ⟨r, ha⟩ := getNewObject_allocated hnew
  obtain ⟨hlt, hbody⟩ := hl.head ha.head
  have hlinked := hl.linked
  rw [ha.head] at hlinked
  cases hlinked with
  | @cons _ l hrest =>
    obtain ⟨hnot, hnodup⟩ := List.nodup_cons.mp hl.nodup
    have hlive : (h'.slot r).body ≠ none := by
      rw [ha.body]
      exact Option.some_ne_none _
    have hyoung : r ∉ h.youngStack := fun hmem => (hy.live r hmem).2 hbody
    have hold : ∀ q, q ∈ l ∨ q ∈ h.youngStack → h'.slot q = h.slot q := by
      rintro q (hq | hq)
      · exact ha.others q fun heq => hnot (heq ▸ hq)
      · exact ha.others q fun heq => hyoung (heq ▸ hq)
    refine ⟨⟨l, ⟨?_, hnodup, fun q hq => ?_⟩, fun q => ?_⟩, ?_, fun q hq => ?_⟩
    · rw [ha.freeList]
      exact hrest.congr fun q hq => congrArg Slot.nextFree (hold q (.inl hq))
    · rw [ha.size, hold q (.inl hq)]
      exact hl.free q (List.mem_cons_of_mem r hq)
    · unfold Missing
      rw [ha.size]
      by_cases hqr : q = r
      · subst hqr
        simp [hlive]
      · rw [ha.others q hqr]
        simp [hqr]
    · rcases ha.youngStack with hpush | hsame
      · rw [hpush]
        refine List.nodup_append.mpr ⟨hy.nodup, List.nodup_singleton r, ?_⟩
        rintro a ha b hb rfl
        rw [List.mem_singleton] at hb
        exact hyoung (hb ▸ ha)
      · rw [hsame]
        exact hy.nodup
    · rw [ha.size]
      by_cases hqr : q = r
      · subst hqr
        exact ⟨hlt, hlive⟩
      · have hmem : q ∈ h.youngStack := by
          rcases ha.youngStack with hpush | hsame
          · rw [hpush, List.mem_append, List.mem_singleton] at hq
            exact hq.resolve_right hqr
          · rwa [hsame] at hq
        rw [hold q (.inr hmem)]
        exact hy.live q hmem

/-! ## The collectors -/

theorem promoteOnce_body (s : Slot) : (Heap.promoteOnce s).body = s.body := by
  unfold Heap.promoteOnce
  split <;> rfl

theorem promoteOnce_nextFree (s : Slot) : (Heap.promoteOnce s).nextFree = s.nextFree := by
  unfold Heap.promoteOnce
  split <;> rfl

theorem promoteOnce_gen (s : Slot) : s.gen ≤ (Heap.promoteOnce s).gen := by
  unfold Heap.promoteOnce
  split
  · exact Nat.le_refl _
  · exact Nat.le_succ _

theorem promoteOnce_flags (s : Slot) :
    (Heap.promoteOnce s).dark = s.dark ∧ (Heap.promoteOnce s).hidden = s.hidden := by
  unfold Heap.promoteOnce
  split
  · exact ⟨rfl, rfl⟩
  · exact ⟨rfl, rfl⟩

theorem keep_sameFree (r : ℕ) : SameFree h (h.setSlot r (Heap.keep (h.slot r))) :=
  .setSlot (promoteOnce_nextFree _) (by rw [← promoteOnce_body (h.slot r)]; rfl)

/-- One object of the young stack is kept or freed; the others are as they were. -/
theorem sweepYoung_keeps (dark : ℕ → Bool) (hl : FreeList h l) (hr : r < h.size)
    (hbody : (h.slot r).body ≠ none) :
    Keeps h l (h.sweepYoung dark r) ∧ (h.sweepYoung dark r).size = h.size ∧
      ∀ q ≠ r, (h.sweepYoung dark r).slot q = h.slot q := by
  have hset : ∀ s : Slot, s.nextFree = (h.slot r).nextFree →
      (s.body = none ↔ (h.slot r).body = none) → Keeps h l (h.setSlot r s) ∧
        (h.setSlot r s).size = h.size ∧ ∀ q ≠ r, (h.setSlot r s).slot q = h.slot q := by
    intro s hnext hs
    exact ⟨(SameFree.setSlot hnext hs).keeps hl, rfl, fun q hq => Heap.setSlot_of_ne h r s hq⟩
  have hkeep := hset (Heap.keep (h.slot r)) (promoteOnce_nextFree _)
    (by rw [← promoteOnce_body (h.slot r)]; rfl)
  unfold Heap.sweepYoung
  simp only
  split
  · exact hset _ rfl Iff.rfl
  · split
    · exact hkeep
    · split
      · exact hkeep
      · split
        · exact hkeep
        · exact ⟨pushFree_keeps hl hr hbody, rfl, fun q hq => Heap.pushFree_of_ne h r hq⟩

theorem sweepYoungs_keeps (dark : ℕ → Bool) {rs : List ℕ} (hl : FreeList h l)
    (hnodup : rs.Nodup) (hlive : ∀ r ∈ rs, r < h.size ∧ (h.slot r).body ≠ none) :
    Keeps h l (rs.foldl (Heap.sweepYoung dark) h) := by
  induction rs generalizing h l with
  | nil => exact Keeps.refl hl
  | cons r rs ih =>
    obtain ⟨hnot, hnodup⟩ := List.nodup_cons.mp hnodup
    obtain ⟨hr, hbody⟩ := hlive r List.mem_cons_self
    obtain ⟨hkeeps, hsize, hsame⟩ := sweepYoung_keeps dark hl hr hbody
    refine hkeeps.trans fun l' hl' => ih hl' hnodup fun q hq => ?_
    have hqr : q ≠ r := fun heq => hnot (heq ▸ hq)
    rw [hsize, hsame q hqr]
    exact hlive q (List.mem_cons_of_mem r hq)

/-- The young collection keeps the free list. -/
theorem collectYoungGarbage_keeps {dark : ℕ → Bool} (hl : FreeList h l) (hy : Young h)
    (hcollect : h.collectYoungGarbage dark = some h') : Keeps h l h' ∧ Young h' := by
  unfold Heap.collectYoungGarbage at hcollect
  split at hcollect
  · obtain rfl := Option.some.inj hcollect
    exact ⟨Keeps.refl hl, hy⟩
  · split at hcollect
    · cases hcollect
    · split at hcollect
      · obtain rfl := Option.some.inj hcollect
        exact ⟨Keeps.refl hl, hy⟩
      · obtain rfl := Option.some.inj hcollect
        refine ⟨?_, List.nodup_nil, fun r hr => by cases hr⟩
        obtain ⟨l', hl', hmiss⟩ := sweepYoungs_keeps dark hl hy.nodup hy.live
        exact ⟨l', ⟨hl'.linked, hl'.nodup, hl'.free⟩, hmiss⟩

theorem sweepSlot_keeps (stackObjs : List ℕ) (hl : FreeList h l) (hr : r < h.size) (n : ℕ) :
    Keeps h l (Heap.sweepSlot stackObjs (h, n) r).1 ∧
      (Heap.sweepSlot stackObjs (h, n) r).1.size = h.size := by
  unfold Heap.sweepSlot
  simp only
  split
  · exact ⟨Keeps.refl hl, rfl⟩
  next hbody =>
    have hbody : (h.slot r).body ≠ none := by
      intro hnone
      rw [hnone] at hbody
      exact hbody rfl
    split
    · split
      · exact ⟨Keeps.refl hl, rfl⟩
      · exact ⟨pushFree_keeps hl hr hbody, rfl⟩
    · split
      · exact ⟨Keeps.refl hl, rfl⟩
      · exact ⟨(keep_sameFree r).keeps hl, rfl⟩

theorem sweepSlots_keeps (stackObjs rs : List ℕ) (hl : FreeList h l)
    (hlt : ∀ r ∈ rs, r < h.size) (n : ℕ) :
    Keeps h l (rs.foldl (Heap.sweepSlot stackObjs) (h, n)).1 := by
  induction rs generalizing h l n with
  | nil => exact Keeps.refl hl
  | cons r rs ih =>
    obtain ⟨hkeeps, hsize⟩ := sweepSlot_keeps stackObjs hl (hlt r List.mem_cons_self) n
    rw [List.foldl_cons]
    refine hkeeps.trans fun l' hl' => ?_
    exact ih hl' (fun q hq => by rw [hsize]; exact hlt q (List.mem_cons_of_mem r hq)) _

/-- Phase 2 misses the free slots that the list it starts with misses. -/
theorem sweep_keeps (stackObjs : List ℕ) (hl : FreeList h l) : Keeps h l (h.sweep stackObjs) := by
  have hkeeps := sweepSlots_keeps stackObjs (List.range h.size) hl
    (fun r hr => List.mem_range.mp hr) 0
  unfold Heap.sweep
  generalize (List.range h.size).foldl (Heap.sweepSlot stackObjs) (h, 0) = swept at hkeeps
  have hgrown : Keeps h l (if swept.2 < freeMin then swept.1.addHeap else swept.1) := by
    split
    · exact hkeeps.trans fun l' hl' => addHeap_keeps hl'
    · exact hkeeps
  obtain ⟨l', hl', hmiss⟩ := hgrown
  exact ⟨l', ⟨hl'.linked, hl'.nodup, hl'.free⟩, hmiss⟩

theorem sweep_young (stackObjs : List ℕ) : Young (h.sweep stackObjs) :=
  ⟨List.nodup_nil, fun r hr => by cases hr⟩

/-! ## New lists -/

/-- There is no free slot. -/
def Full (h : Heap) : Prop := ∀ r < h.size, (h.slot r).body ≠ none

theorem freeList_nil (hnone : h.freeList = none) : FreeList h [] :=
  ⟨by rw [hnone]; exact .nil, List.nodup_nil, fun r hr => by cases hr⟩

theorem full_iff_missing : Full h ↔ ∀ r, ¬ Missing h [] r := by
  unfold Full Missing
  simp

theorem Exact.freeList_eq_none_iff (he : Exact h) : h.freeList = none ↔ Full h := by
  constructor
  · intro hnone
    rw [full_iff_missing]
    exact (exact_iff (freeList_nil hnone)).mp he
  · intro hfull
    obtain ⟨l, hl, -⟩ := he
    cases l with
    | nil =>
      have hlinked := hl.linked
      generalize h.freeList = p at hlinked
      cases hlinked
      rfl
    | cons r l =>
      obtain ⟨hlt, hbody⟩ := hl.free r List.mem_cons_self
      exact absurd hbody (hfull r hlt)

/-- A list that is started anew holds all free slots only if there are none. -/
theorem exact_of_none (hnone : h.freeList = none) : Exact h ↔ Full h := by
  rw [exact_iff (freeList_nil hnone), full_iff_missing]

theorem sweep_exact_iff (stackObjs : List ℕ) (hnone : h.freeList = none) :
    Exact (h.sweep stackObjs) ↔ Full h := by
  rw [(sweep_keeps stackObjs (freeList_nil hnone)).exact_iff, full_iff_missing]

theorem sweep_exact (stackObjs : List ℕ) (he : Exact h) : Exact (h.sweep stackObjs) := by
  obtain ⟨l, hl, hmiss⟩ := he
  exact (sweep_keeps stackObjs hl).exact_iff.mpr hmiss

/-! ## The machine -/

/-- The steps after which the free list is exact again: a full collection starts with no free
slot, and its phase 1 comes to the end of the heap with none. -/
def Safe (m : Machine) : Op → Prop
  | .collectGarbage _ _ => m.heap.gcOn = true → m.heap.freeList = none
  | .finalizerReturns => ∀ scan ∈ m.scans.head?, scan.collector ≠ .final →
      m.heap.activeFinalizers ≠ 1 →
      (∀ r, scan.cursor < r → r < m.heap.size → m.heap.finalizable scan.collector r = false) →
      m.heap.freeList = none
  | _ => True

theorem mark_sameFree (dark : ℕ → Bool) (h : Heap) : SameFree h (h.mark dark) := by
  refine ⟨rfl, rfl, fun r => ?_, fun r => ?_⟩ <;> unfold Heap.mark <;> simp only <;> split <;> rfl

theorem setFinalizerFunc_eq_none (callable : Option ℕ) (body : Option ObjBody) :
    body.map (ObjBody.setFinalizerFunc callable) = none ↔ body = none := Option.map_eq_none_iff

theorem leaveFinalizer_sameFree (h : Heap) (r : ℕ) : SameFree h (h.leaveFinalizer r) := by
  have hset := SameFree.setSlot (h := h) (r := r)
    (s := { h.slot r with body := (h.slot r).body.map (ObjBody.setFinalizerFunc none) }) rfl
    (setFinalizerFunc_eq_none none _)
  exact ⟨rfl, rfl, hset.nextFree, hset.body⟩

theorem leaveFinalizer_slot {cursor : ℕ} (hr : r ≠ cursor) :
    (h.leaveFinalizer cursor).slot r = h.slot r := Heap.setSlot_of_ne h cursor _ hr

theorem leaveFinalizer_finalizable {cursor : ℕ} (c : Collector) (hr : cursor < r) :
    (h.leaveFinalizer cursor).finalizable c r = h.finalizable c r := by
  have hslot : (h.leaveFinalizer cursor).slot r = h.slot r := leaveFinalizer_slot (by omega)
  have hkeeps : c.keeps (h.leaveFinalizer cursor) r = c.keeps h r := by
    unfold Collector.keeps
    rw [hslot]
  unfold Heap.finalizable Heap.hasFinalizer Heap.object
  rw [hkeeps, hslot]
  rfl

theorem find?_range'_eq_none {p : ℕ → Bool} {i n : ℕ} :
    (List.range' i (n - i)).find? p = none ↔ ∀ r, i ≤ r → r < n → p r = false := by
  rw [List.find?_eq_none]
  simp only [List.mem_range'_1, Bool.not_eq_true]
  constructor
  · intro h r hi hn
    exact h r ⟨hi, by omega⟩
  · intro h r hr
    exact h r hr.1 (by omega)

theorem objWrite_sameFree (h : Heap) (pointed : ℕ) :
    SameFree h (h.objWrite pointed) ∧ (h.objWrite pointed).youngStack = h.youngStack := by
  unfold Heap.objWrite
  split
  · exact ⟨⟨rfl, rfl, fun _ => rfl, fun _ => Iff.rfl⟩, rfl⟩
  · exact ⟨SameFree.refl h, rfl⟩

theorem addFinalizer_sameFree (h : Heap) (r : ℕ) : SameFree h (h.addFinalizer r) := by
  have hpromote := SameFree.setSlot (h := h) (r := r) (promoteOnce_nextFree (h.slot r))
    (by rw [promoteOnce_body])
  exact ⟨rfl, rfl, hpromote.nextFree, hpromote.body⟩

theorem setObjectFinalizer_sameFree {callable : ℕ}
    (hset : h.setObjectFinalizer r callable = some h') :
    SameFree h h' ∧ h'.youngStack = h.youngStack := by
  unfold Heap.setObjectFinalizer at hset
  split at hset
  · cases hset
  next body hobject =>
    have hbody : (h.slot r).body = some body := by
      unfold Heap.object at hobject
      split at hobject
      · exact hobject
      · cases hobject
    split at hset
    · cases hset
    · obtain rfl := Option.some.inj hset
      have hadd : SameFree h (if body.finalizerFunc.isNone then h.addFinalizer r else h) ∧
          (if body.finalizerFunc.isNone then h.addFinalizer r else h).youngStack =
            h.youngStack := by
        split
        · exact ⟨addFinalizer_sameFree h r, rfl⟩
        · exact ⟨SameFree.refl h, rfl⟩
      generalize (if body.finalizerFunc.isNone then h.addFinalizer r else h) = g at hadd
      obtain ⟨hg, hstack⟩ := hadd
      obtain ⟨hwrite, hstack'⟩ := objWrite_sameFree g callable
      have hlive : ((g.objWrite callable).slot r).body ≠ none := by
        rw [ne_eq, hwrite.body, hg.body, hbody]
        exact Option.some_ne_none body
      refine ⟨(hg.trans hwrite).trans (.setSlot rfl ?_), hstack'.trans hstack⟩
      exact iff_of_false (Option.some_ne_none _) hlive

theorem freeAll_keeps : FreeList h.freeAll [] := freeList_nil rfl

theorem freeAll_exact : Exact h.freeAll :=
  (exact_of_none rfl).mpr fun _ hr => absurd hr (Nat.not_lt_zero _)

theorem phase2_young (c : Collector) : Young (c.phase2 h) := by
  cases c with
  | full stackObjs => exact sweep_young stackObjs
  | final => exact ⟨List.nodup_nil, fun r hr => by cases hr⟩

theorem phase2_exact (c : Collector) (he : Exact h) : Exact (c.phase2 h) := by
  cases c with
  | full stackObjs => exact sweep_exact stackObjs he
  | final => exact freeAll_exact

theorem phase2_exact_iff (c : Collector) (hnone : h.freeList = none) :
    Exact (c.phase2 h) ↔ (c ≠ .final → Full h) := by
  cases c with
  | full stackObjs =>
    refine (sweep_exact_iff stackObjs hnone).trans ⟨fun hfull _ => hfull, fun hfull => hfull ?_⟩
    rintro ⟨⟩
  | final => exact iff_of_true freeAll_exact fun hne => absurd rfl hne

theorem enterFinalizer_sameFree (h : Heap) : SameFree h h.enterFinalizer :=
  ⟨rfl, rfl, fun _ => rfl, fun _ => Iff.rfl⟩

/-- Phase 1 goes on: it stops at a finalizer, or the list is started anew. -/
theorem scanFrom_exact (he : Exact h) (hy : Young h) (scans : List Scan) (c : Collector) (i : ℕ) :
    Young (scanFrom h scans c i).heap ∧
      (Exact (scanFrom h scans c i).heap ↔ (c ≠ .final →
        (∀ r, i ≤ r → r < h.size → h.finalizable c r = false) → h.freeList = none)) := by
  unfold scanFrom
  rw [← find?_range'_eq_none]
  split
  next cursor hfind =>
    have hsame := enterFinalizer_sameFree h
    refine ⟨hsame.young rfl hy, iff_of_true (hsame.exact_iff.mpr he) fun _ hnone => ?_⟩
    rw [hfind] at hnone
    cases hnone
  next hfind =>
    refine ⟨phase2_young c, ?_⟩
    rw [phase2_exact_iff c rfl, he.freeList_eq_none_iff]
    simp only [hfind, true_imp_iff]
    rfl

/-- Phase 1 begins, with an empty list. -/
theorem scanFrom_of_none (hnone : h.freeList = none) (hy : Young h) (scans : List Scan)
    (stackObjs : List ℕ) (i : ℕ) :
    Young (scanFrom h scans (.full stackObjs) i).heap ∧
      (Exact (scanFrom h scans (.full stackObjs) i).heap ↔ Full h) := by
  unfold scanFrom
  split
  · have hsame := enterFinalizer_sameFree h
    exact ⟨hsame.young rfl hy, hsame.exact_iff.trans (exact_of_none hnone)⟩
  · exact ⟨sweep_young stackObjs, sweep_exact_iff stackObjs rfl⟩

/-- A full collection starts a new list: it is exact if no slot was free. -/
theorem collectGarbage_exact {m m' : Machine} {dark : ℕ → Bool} {stackObjs : List ℕ}
    (he : Exact m.heap) (hy : Young m.heap)
    (hcollect : collectGarbage dark stackObjs m = some m') :
    Young m'.heap ∧
      (Exact m'.heap ↔ (m.heap.gcOn = true → m.heap.freeList = none)) := by
  unfold collectGarbage at hcollect
  rw [he.freeList_eq_none_iff]
  split at hcollect
  next hoff =>
    obtain rfl := Option.some.inj hcollect
    refine ⟨hy, iff_of_true he fun hon => ?_⟩
    rw [hon] at hoff
    cases hoff
  next hon =>
    have hon : m.heap.gcOn = true := by simpa using hon
    simp only [hon, true_imp_iff]
    split at hcollect
    · cases hcollect
    · -- the heap when phase 1 or phase 2 begins
      have hmark := mark_sameFree dark m.heap
      obtain ⟨h, hh⟩ : ∃ h, h = { m.heap.mark dark with inGC := true, freeList := none } :=
        ⟨_, rfl⟩
      have hnone : h.freeList = none := by rw [hh]
      have hfull : Full h ↔ Full m.heap := by
        unfold Full
        rw [hh]
        exact forall_congr' fun r => by rw [ne_eq, hmark.body]; rfl
      have hyoung : Young h := by
        rw [hh]
        refine ⟨hy.nodup, fun r hr => ?_⟩
        have hlive := hy.live r hr
        exact ⟨hlive.1, fun hbody => hlive.2 ((hmark.body r).mp hbody)⟩
      simp only [← hh] at hcollect
      split at hcollect
      · obtain rfl := Option.some.inj hcollect
        exact ⟨sweep_young stackObjs, (sweep_exact_iff stackObjs hnone).trans hfull⟩
      · obtain rfl := Option.some.inj hcollect
        rw [← hfull]
        exact scanFrom_of_none hnone hyoung _ stackObjs 0

theorem freeObjects_exact {m : Machine} (he : Exact m.heap) (hy : Young m.heap) :
    Young (freeObjects m).heap ∧ (Exact (freeObjects m).heap ↔ True) := by
  unfold freeObjects
  split
  · exact ⟨phase2_young .final, iff_true_intro freeAll_exact⟩
  · obtain ⟨hyoung, hiff⟩ := scanFrom_exact he hy m.scans .final 0
    exact ⟨hyoung, iff_true_intro (hiff.mpr fun hne => absurd rfl hne)⟩

/-- A finalizer returns: phase 2 goes on with the list its page is on, or starts a new one. -/
theorem finalizerReturns_exact {m m' : Machine} (he : Exact m.heap) (hy : Young m.heap)
    (hreturn : finalizerReturns m = some m') :
    Young m'.heap ∧ (Exact m'.heap ↔ Safe m .finalizerReturns) := by
  unfold finalizerReturns at hreturn
  unfold Safe
  cases hscans : m.scans with
  | nil =>
    rw [hscans] at hreturn
    cases hreturn
  | cons scan scans =>
    obtain ⟨c, cursor⟩ := scan
    rw [hscans] at hreturn
    have hsame := leaveFinalizer_sameFree m.heap cursor
    have hexact := hsame.exact_iff.mpr he
    have hactive : (m.heap.leaveFinalizer cursor).activeFinalizers = 0 ↔
        m.heap.activeFinalizers = 1 := by
      change m.heap.activeFinalizers - 1 = 0 ↔ _
      omega
    simp only [hactive] at hreturn
    simp only [List.head?_cons, Option.mem_some_iff, forall_eq']
    split at hreturn
    next hone =>
      obtain rfl := Option.some.inj hreturn
      exact ⟨phase2_young c,
        iff_of_true (phase2_exact c hexact) fun _ hne => absurd hone hne⟩
    next hne =>
      obtain rfl := Option.some.inj hreturn
      obtain ⟨hyoung, hiff⟩ :=
        scanFrom_exact hexact (hsame.young rfl hy) scans c (cursor + 1)
      refine ⟨hyoung, hiff.trans ?_⟩
      simp only [hne, ne_eq, not_false_eq_true, true_imp_iff]
      have hsize : (m.heap.leaveFinalizer cursor).size = m.heap.size := hsame.size
      have hfree : (m.heap.leaveFinalizer cursor).freeList = m.heap.freeList := hsame.freeList
      rw [hsize, hfree]
      refine imp_congr_right fun _ => imp_congr_left (forall_congr' fun r => ?_)
      constructor
      · intro h hr hlt
        rw [← leaveFinalizer_finalizable c hr]
        exact h hr hlt
      · intro h hr hlt
        rw [leaveFinalizer_finalizable c hr]
        exact h hr hlt

theorem promote_eq_some {m m' : Machine} {gen : ℕ} (hstep : m.step (.promote r gen) = some m') :
    gen ≠ 0 ∧
      m' = { m with heap := m.heap.setSlot r { m.heap.slot r with gen := min gen genMax } } := by
  change (if gen = 0 then none else some _) = some m' at hstep
  split at hstep
  · cases hstep
  next hne => exact ⟨hne, (Option.some.inj hstep).symm⟩

/-- What a collector does, which may start a new list. -/
def Op.Collects : Op → Prop
  | .collectGarbage _ _ | .freeObjects | .finalizerReturns => True
  | _ => False

theorem step_keeps {m m' : Machine} {op : Op} (hop : ¬ op.Collects) (hl : FreeList m.heap l)
    (hy : Young m.heap) (hstep : m.step op = some m') :
    Keeps m.heap l m'.heap ∧ Young m'.heap := by
  -- a step that leaves the list alone
  have hsame : ∀ {h' : Heap}, SameFree m.heap h' ∧ h'.youngStack = m.heap.youngStack →
      Keeps m.heap l h' ∧ Young h' := fun h => ⟨h.1.keeps hl, h.1.young h.2 hy⟩
  cases op with
  | getNewObject body isOld isHidden tried =>
    obtain ⟨h', hnew, heq⟩ := Option.bind_eq_some_iff.mp hstep
    obtain rfl := Option.some.inj heq
    exact getNewObject_keeps hl hy hnew
  | addHeap =>
    obtain rfl := Option.some.inj hstep
    exact ⟨addHeap_keeps hl, addHeap_young hy⟩
  | collectYoungGarbage dark =>
    obtain ⟨h', hcollect, heq⟩ := Option.bind_eq_some_iff.mp hstep
    obtain rfl := Option.some.inj heq
    exact collectYoungGarbage_keeps hl hy hcollect
  | collectGarbage dark stackObjs => exact absurd trivial hop
  | freeObjects => exact absurd trivial hop
  | finalizerReturns => exact absurd trivial hop
  | finalizerThrows =>
    change Gc.finalizerThrows m = some m' at hstep
    unfold finalizerThrows at hstep
    split at hstep
    · cases hstep
    · obtain rfl := Option.some.inj hstep
      exact ⟨Keeps.refl hl, hy⟩
  | setObjectFinalizer r callable =>
    obtain ⟨h', hset, heq⟩ := Option.bind_eq_some_iff.mp hstep
    obtain rfl := Option.some.inj heq
    exact hsame (setObjectFinalizer_sameFree hset)
  | write r f =>
    obtain rfl := Option.some.inj hstep
    exact hsame ⟨.setSlot rfl Option.map_eq_none_iff, rfl⟩
  | objWrite pointed =>
    obtain rfl := Option.some.inj hstep
    exact hsame (objWrite_sameFree m.heap pointed)
  | setHidden r hidden =>
    obtain rfl := Option.some.inj hstep
    exact hsame ⟨.setSlot rfl Iff.rfl, rfl⟩
  | promote r gen =>
    obtain ⟨-, rfl⟩ := promote_eq_some hstep
    exact hsame ⟨.setSlot rfl Iff.rfl, rfl⟩
  | setGCOnOff on =>
    obtain rfl := Option.some.inj hstep
    exact hsame ⟨⟨rfl, rfl, fun _ => rfl, fun _ => Iff.rfl⟩, rfl⟩

/-- The free list has free slots, whichever it misses, and the young stack has objects. -/
structure Lists (h : Heap) : Prop where
  list : ∃ l, FreeList h l
  young : Young h

theorem Lists.of_sameFree (hs : SameFree h h') (hstack : h'.youngStack = h.youngStack)
    (hl : Lists h) : Lists h' := by
  obtain ⟨l, hfree⟩ := hl.list
  exact ⟨⟨l, hs.freeList_of hfree⟩, hs.young hstack hl.young⟩

theorem phase2_lists (c : Collector) (hl : ∃ l, FreeList h l) : Lists (c.phase2 h) := by
  refine ⟨?_, phase2_young c⟩
  obtain ⟨l, hfree⟩ := hl
  cases c with
  | full stackObjs =>
    obtain ⟨l', hfree', -⟩ := sweep_keeps stackObjs hfree
    exact ⟨l', hfree'⟩
  | final => exact ⟨[], freeAll_keeps⟩

theorem scanFrom_lists (hl : Lists h) (scans : List Scan) (c : Collector) (i : ℕ) :
    Lists (scanFrom h scans c i).heap := by
  unfold scanFrom
  split
  · exact hl.of_sameFree (enterFinalizer_sameFree h) rfl
  · exact phase2_lists c ⟨[], freeList_nil rfl⟩

theorem collectGarbage_lists {m m' : Machine} {dark : ℕ → Bool} {stackObjs : List ℕ}
    (hl : Lists m.heap) (hcollect : collectGarbage dark stackObjs m = some m') :
    Lists m'.heap := by
  unfold collectGarbage at hcollect
  split at hcollect
  · obtain rfl := Option.some.inj hcollect
    exact hl
  · split at hcollect
    · cases hcollect
    · -- the heap when phase 1 or phase 2 begins
      have hmark := mark_sameFree dark m.heap
      have hbegin : Lists { m.heap.mark dark with inGC := true, freeList := none } := by
        refine ⟨⟨[], freeList_nil rfl⟩, hl.young.nodup, fun r hr => ?_⟩
        have hlive := hl.young.live r hr
        exact ⟨hlive.1, fun hbody => hlive.2 ((hmark.body r).mp hbody)⟩
      simp only at hcollect
      split at hcollect
      · obtain rfl := Option.some.inj hcollect
        exact phase2_lists (.full stackObjs) hbegin.list
      · obtain rfl := Option.some.inj hcollect
        exact scanFrom_lists hbegin _ _ 0

theorem freeObjects_lists {m : Machine} (hl : Lists m.heap) : Lists (freeObjects m).heap := by
  unfold freeObjects
  split
  · exact phase2_lists .final hl.list
  · exact scanFrom_lists hl _ _ 0

theorem finalizerReturns_lists {m m' : Machine} (hl : Lists m.heap)
    (hreturn : finalizerReturns m = some m') : Lists m'.heap := by
  unfold finalizerReturns at hreturn
  cases hscans : m.scans with
  | nil =>
    rw [hscans] at hreturn
    cases hreturn
  | cons scan scans =>
    obtain ⟨c, cursor⟩ := scan
    rw [hscans] at hreturn
    have hleave := hl.of_sameFree (leaveFinalizer_sameFree m.heap cursor) rfl
    simp only at hreturn
    split at hreturn
    · obtain rfl := Option.some.inj hreturn
      exact phase2_lists c hleave.list
    · obtain rfl := Option.some.inj hreturn
      exact scanFrom_lists hleave _ _ _

/-- A step leaves lists, whatever it misses. -/
theorem step_lists {m m' : Machine} {op : Op} (hl : Lists m.heap) (hstep : m.step op = some m') :
    Lists m'.heap := by
  have hkeeps : ¬ op.Collects → Lists m'.heap := by
    intro hop
    obtain ⟨l, hfree⟩ := hl.list
    obtain ⟨⟨l', hfree', -⟩, hyoung⟩ := step_keeps hop hfree hl.young hstep
    exact ⟨⟨l', hfree'⟩, hyoung⟩
  cases op with
  | collectGarbage dark stackObjs => exact collectGarbage_lists hl hstep
  | freeObjects =>
    obtain rfl := Option.some.inj hstep
    exact freeObjects_lists hl
  | finalizerReturns => exact finalizerReturns_lists hl hstep
  | _ => exact hkeeps not_false

/-- A step after which the list is exact again. -/
theorem step_exact {m m' : Machine} {op : Op} (he : Exact m.heap) (hy : Young m.heap)
    (hstep : m.step op = some m') : Young m'.heap ∧ (Exact m'.heap ↔ Safe m op) := by
  have hkeeps : ¬ op.Collects → Young m'.heap ∧ (Exact m'.heap ↔ True) := by
    intro hop
    obtain ⟨l, hl, hmiss⟩ := he
    obtain ⟨hkeep, hyoung⟩ := step_keeps hop hl hy hstep
    exact ⟨hyoung, iff_true_intro (hkeep.exact_iff.mpr hmiss)⟩
  cases op with
  | collectGarbage dark stackObjs => exact collectGarbage_exact he hy hstep
  | freeObjects =>
    obtain rfl := Option.some.inj hstep
    exact freeObjects_exact he hy
  | finalizerReturns => exact finalizerReturns_exact he hy hstep
  | _ => exact hkeeps not_false

/-- The list is exact in every state of the run. -/
def ExactAlong : Machine → List Op → Prop
  | m, [] => Exact m.heap
  | m, op :: ops => Exact m.heap ∧ ∀ m', m.step op = some m' → ExactAlong m' ops

/-- Every step of the run is safe. -/
def SafeAlong : Machine → List Op → Prop
  | _, [] => True
  | m, op :: ops => ∀ m', m.step op = some m' → Safe m op ∧ SafeAlong m' ops

theorem exactAlong_iff {m : Machine} (he : Exact m.heap) (hy : Young m.heap) (ops : List Op) :
    ExactAlong m ops ↔ SafeAlong m ops := by
  induction ops generalizing m with
  | nil => exact iff_of_true he trivial
  | cons op ops ih =>
    unfold ExactAlong SafeAlong
    rw [and_iff_right he]
    refine forall₂_congr fun m' hstep => ?_
    obtain ⟨hyoung, hiff⟩ := step_exact he hy hstep
    rw [← hiff]
    constructor
    · intro hall
      have hexact : Exact m'.heap := by
        cases ops with
        | nil => exact hall
        | cons op' ops => exact hall.1
      exact ⟨hexact, (ih hexact hyoung).mp hall⟩
    · rintro ⟨hexact, hall⟩
      exact (ih hexact hyoung).mpr hall

variable (slot : ℕ → Slot)

theorem initialMachine_exact : Exact (initialMachine slot).heap :=
  (exact_of_none rfl).mpr fun _ hr => absurd hr (Nat.not_lt_zero _)

theorem initialMachine_young : Young (initialMachine slot).heap :=
  ⟨List.nodup_nil, fun r hr => by cases hr⟩

/-- In every state of a run the free list is acyclic and has every free slot once and nothing
else, exactly if every full collection starts without a free slot, and finds none on the list
when its phase 1 comes to the end of the heap. -/
theorem freeList_exact_iff (ops : List Op) :
    ExactAlong (initialMachine slot) ops ↔ SafeAlong (initialMachine slot) ops :=
  exactAlong_iff (initialMachine_exact slot) (initialMachine_young slot) ops

theorem addHeap_freeList_ne_none (h : Heap) : h.addHeap.freeList ≠ none := by
  have hcons : ∃ k, heapSlots = k + 1 := ⟨9999, by unfold heapSlots; rfl⟩
  obtain ⟨k, hk⟩ := hcons
  unfold Heap.addHeap
  rw [hk, List.range'_concat, List.foldl_append]
  exact Option.some_ne_none _

theorem collectGarbage_isSome {m : Machine} (hin : m.heap.inGC = false) (dark : ℕ → Bool)
    (stackObjs : List ℕ) : ∃ m', collectGarbage dark stackObjs m = some m' := by
  unfold collectGarbage
  rw [hin]
  split
  · exact ⟨_, rfl⟩
  · simp only [Bool.false_eq_true, if_false]
    split <;> exact ⟨_, rfl⟩

/-- A full collection that starts with a free slot loses it. -/
theorem not_exactAlong {m : Machine} (hy : Young m.heap) (hon : m.heap.gcOn = true)
    (hin : m.heap.inGC = false) (hfree : m.heap.freeList ≠ none) (dark : ℕ → Bool)
    (stackObjs : List ℕ) : ¬ ExactAlong m [.collectGarbage dark stackObjs] := by
  rintro ⟨he, hall⟩
  obtain ⟨m', hm'⟩ := collectGarbage_isSome hin dark stackObjs
  exact hfree ((collectGarbage_exact he hy hm').2.mp (hall m' hm') hon)

/-- A page is added and then collected, at the start of the program: its slots are lost. -/
theorem collectGarbage_loses_slots :
    ¬ ∀ (slot : ℕ → Slot) (ops : List Op), ExactAlong (initialMachine slot) ops := by
  intro h
  obtain ⟨-, hall⟩ := h (fun _ => ⟨none, false, false, 0, none⟩)
    [.addHeap, .collectGarbage (fun _ => false) []]
  refine not_exactAlong ?_ ?_ ?_ ?_ _ _ (hall _ rfl)
  · exact addHeap_young (initialMachine_young _)
  · exact addHeap_gcOn _
  · exact addHeap_inGC _
  · exact addHeap_freeList_ne_none _

end Clox.Gc
