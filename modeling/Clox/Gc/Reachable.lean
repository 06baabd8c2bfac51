import Clox.Gc.FreeList
import Clox.Gc.Mark

/-! # What a full collection frees

A full collection frees what it did not find when it marked. That is the same as what the
program can reach only if the marking goes everywhere, and if no finalizer of the same
collection has changed what can be reached.
-/

namespace Clox.Gc

/-- What the program can reach: from what the VM points at, and from the hidden objects. -/
def Reachable (vm : Vm) (h : Heap) : ℕ → Prop :=
  Worklist.Reaches (fun _ => False) h.pointersOf
    fun r => r ∈ vm.roots ∨ h.object r ≠ none ∧ (h.slot r).hidden = true

/-- The sweep leaves the object where it is. -/
def Heap.Kept (h : Heap) (stackObjs : List ℕ) (r : ℕ) : Prop :=
  (h.slot r).dark = true ∨ (h.slot r).hidden = true ∨ r ∈ stackObjs

/-- The collection that is about to begin will keep the object: also what is grayed on a path
of white objects is dark then. -/
def Spared (s : Process) (after : Vm) (r : ℕ) : Prop :=
  s.machine.heap.Kept s.vm.stackObjs r ∨
    Worklist.Reaches (fun a => (s.machine.heap.slot a).dark = true) s.machine.heap.grayedBy
      (· ∈ (s.vm.grayRoots after).filter (· < s.machine.heap.size)) r

/-- What the step frees the program cannot reach. -/
def FreesUnreachable (s s' : Process) : Prop :=
  ∀ r, Reachable s.vm s'.machine.heap r → s.machine.heap.object r ≠ none →
    s'.machine.heap.object r ≠ none

/-- So it is if the step is one of a full collection. -/
def CollectsUnreachable (s s' : Process) : Action → Prop
  | .collectGarbage => FreesUnreachable s s'
  | .heap .finalizerReturns =>
    ∀ scan ∈ s.machine.scans.head?, scan.collector ≠ .final → FreesUnreachable s s'
  | _ => True

/-- A collection that calls no finalizer is to find what can be reached; when the last finalizer
of a collection returns, what can be reached is to be what the collection has found before. -/
def FindsReachable (s : Process) : Action → Prop
  | .collectGarbage =>
    s.machine.heap.gcOn = true → ∀ after, s.vm.reap = some after →
      s.machine.heap.activeFinalizers = 0 ∨
        (∀ r, s.machine.heap.hasFinalizer r = true → Spared s after r) →
      ∀ r, Reachable s.vm s.machine.heap r → s.machine.heap.object r ≠ none → Spared s after r
  | .heap .finalizerReturns =>
    ∀ scan ∈ s.machine.scans.head?, ∀ stackObjs, scan.collector = .full stackObjs →
      s.machine.heap.activeFinalizers = 1 ∨
        (∀ r, scan.cursor < r → r < s.machine.heap.size →
          s.machine.heap.finalizable scan.collector r = false) →
      ∀ r, Reachable s.vm (s.machine.heap.leaveFinalizer scan.cursor) r →
        s.machine.heap.object r ≠ none → s.machine.heap.Kept stackObjs r
  | _ => True

variable {s s' : Process} {vm : Vm} {h h' : Heap} {r : ℕ}

/-! ## The marking -/

theorem mem_grayedBy_lt {a b : ℕ} (hb : b ∈ h.grayedBy a) : b < h.size := by
  have hlt := (List.mem_filter.mp hb).2
  simpa using hlt

/-- The marking finds what can be reached by graying. -/
theorem marked_iff (h : Heap) (roots : List ℕ) (r : ℕ) :
    h.marked roots r = true ↔ (h.slot r).dark = true ∨
      Worklist.Reaches (fun a => (h.slot a).dark = true) h.grayedBy
        (· ∈ roots.filter (· < h.size)) r := by
  refine Worklist.close_dark List.nodup_range ?_ ?_
  · intro a b hb
    exact List.mem_range.mpr (mem_grayedBy_lt hb)
  · intro a ha
    have hlt := (List.mem_filter.mp ha).2
    exact List.mem_range.mpr (by simpa using hlt)

/-! ## The sweep -/

theorem object_eq_none_of_body (hbody : (h.slot r).body = none) : h.object r = none := by
  unfold Heap.object
  rw [hbody, ite_self]

theorem object_ne_none_iff : h.object r ≠ none ↔ r < h.size ∧ (h.slot r).body ≠ none := by
  unfold Heap.object
  split
  next hlt => simp [hlt]
  next hlt => simp [hlt]

theorem sweepSlot_of_ne (stackObjs : List ℕ) (n : ℕ) {q : ℕ} (hq : q ≠ r) :
    (Heap.sweepSlot stackObjs (h, n) r).1.slot q = h.slot q := by
  unfold Heap.sweepSlot
  simp only
  split
  · rfl
  · split
    · split
      · rfl
      · exact Heap.pushFree_of_ne h r hq
    · split
      · rfl
      · exact Heap.setSlot_of_ne h r _ hq

/-- What the sweep makes of a slot. -/
structure Swept (h : Heap) (stackObjs : List ℕ) (r : ℕ) (s : Slot) : Prop where
  kept : h.Kept stackObjs r → s.body = (h.slot r).body
  freed : ¬ h.Kept stackObjs r → s.body = none
  hidden : s.hidden = (h.slot r).hidden
  gen : (h.slot r).gen ≤ s.gen
  white : s.body ≠ none → s.dark = false

theorem sweepSlot_self (stackObjs : List ℕ) (n : ℕ) :
    Swept h stackObjs r ((Heap.sweepSlot stackObjs (h, n) r).1.slot r) := by
  unfold Heap.sweepSlot
  simp only
  split
  next hnone =>
    have hnone : (h.slot r).body = none := by simpa using hnone
    exact ⟨fun _ => rfl, fun _ => hnone, rfl, Nat.le_refl _, fun hlive => absurd hnone hlive⟩
  next =>
    split
    next hwhite =>
      have hwhite : (h.slot r).dark = false ∧ (h.slot r).hidden = false := by simpa using hwhite
      split
      next hmem =>
        exact ⟨fun _ => rfl, fun hnot => absurd (.inr (.inr hmem)) hnot, rfl, Nat.le_refl _,
          fun _ => hwhite.1⟩
      next hmem =>
        have hnot : ¬ h.Kept stackObjs r := by
          unfold Heap.Kept
          simp [hwhite, hmem]
        simp only [Heap.pushFree_self]
        exact ⟨fun hkept => absurd hkept hnot, fun _ => rfl, rfl, Nat.le_refl _,
          fun hlive => absurd rfl hlive⟩
    next hdark =>
      have hkept : h.Kept stackObjs r := by
        unfold Heap.Kept
        by_contra hno
        simp only [not_or, Bool.not_eq_true] at hno
        simp [hno.1, hno.2.1] at hdark
      split
      next hwhite =>
        have hwhite : (h.slot r).dark = false := by
          simp only [Bool.and_eq_true, Bool.not_eq_true'] at hwhite
          exact hwhite.2
        exact ⟨fun _ => rfl, fun hno => absurd hkept hno, rfl, Nat.le_refl _, fun _ => hwhite⟩
      next =>
        simp only [Heap.setSlot_self]
        exact ⟨fun _ => promoteOnce_body _, fun hno => absurd hkept hno, (promoteOnce_flags _).2,
          promoteOnce_gen _, fun _ => rfl⟩

theorem sweepSlots_of_notMem (stackObjs : List ℕ) {rs : List ℕ} (hr : r ∉ rs) (n : ℕ) :
    (rs.foldl (Heap.sweepSlot stackObjs) (h, n)).1.slot r = h.slot r := by
  induction rs generalizing h n with
  | nil => rfl
  | cons a rs ih =>
    rw [List.mem_cons, not_or] at hr
    rw [List.foldl_cons, ih hr.2, sweepSlot_of_ne stackObjs n hr.1]

/-- Each slot is swept once, as it is before the sweep. -/
theorem sweepSlots_slot (stackObjs : List ℕ) {rs : List ℕ} (hnodup : rs.Nodup) (hr : r ∈ rs)
    (n : ℕ) :
    Swept h stackObjs r ((rs.foldl (Heap.sweepSlot stackObjs) (h, n)).1.slot r) := by
  induction rs generalizing h n with
  | nil => cases hr
  | cons a rs ih =>
    obtain ⟨hnot, hnodup⟩ := List.nodup_cons.mp hnodup
    rw [List.foldl_cons]
    by_cases hra : r = a
    · subst hra
      rw [sweepSlots_of_notMem stackObjs hnot]
      exact sweepSlot_self stackObjs n
    · have hrest := ih (h := (Heap.sweepSlot stackObjs (h, n) a).1) hnodup
        ((List.mem_cons.mp hr).resolve_left hra) (Heap.sweepSlot stackObjs (h, n) a).2
      have hsame := sweepSlot_of_ne stackObjs n hra (h := h)
      have hkept : (Heap.sweepSlot stackObjs (h, n) a).1.Kept stackObjs r ↔
          h.Kept stackObjs r := by
        unfold Heap.Kept
        rw [hsame]
      refine ⟨fun h' => ?_, fun h' => hrest.freed (mt hkept.mp h'), ?_, ?_, hrest.white⟩
      · rw [hrest.kept (hkept.mpr h'), hsame]
      · rw [hrest.hidden, hsame]
      · rw [← hsame]
        exact hrest.gen

/-- What writing and freeing a slot leave alone, phase 2 leaves alone. -/
theorem sweepSlots_eq {α : Type} (f : Heap → α) (hset : ∀ h r s, f (Heap.setSlot h r s) = f h)
    (hpush : ∀ h r, f (Heap.pushFree h r) = f h) (stackObjs rs : List ℕ) (h : Heap) (n : ℕ) :
    f (rs.foldl (Heap.sweepSlot stackObjs) (h, n)).1 = f h := by
  induction rs generalizing h n with
  | nil => rfl
  | cons a rs ih =>
    rw [List.foldl_cons, ih]
    unfold Heap.sweepSlot
    simp only
    split
    · rfl
    · split
      · split
        · rfl
        · exact hpush h a
      · split
        · rfl
        · exact hset h a _

theorem foldl_pushFree_of_mem {rs : List ℕ} (hr : r ∈ rs) :
    ((rs.foldl Heap.pushFree h).slot r).body = none := by
  induction rs generalizing h with
  | nil => cases hr
  | cons q rs ih =>
    by_cases hmem : r ∈ rs
    · exact ih hmem
    · have hrq := (List.mem_cons.mp hr).resolve_right hmem
      rw [List.foldl_cons, foldl_pushFree_of_notMem hmem, hrq, Heap.pushFree_self]

theorem addHeap_object (h : Heap) (r : ℕ) : h.addHeap.object r = h.object r := by
  have hsize : h.addHeap.size = h.size + heapSlots := rfl
  by_cases hlt : r < h.size
  · unfold Heap.object
    rw [if_pos hlt, if_pos (by omega), addHeap_slot hlt]
  · have hnone : h.object r = none := if_neg hlt
    rw [hnone]
    by_cases hnew : r < h.size + heapSlots
    · refine object_eq_none_of_body ?_
      exact foldl_pushFree_of_mem (List.mem_range'_1.mpr ⟨by omega, hnew⟩)
    · exact if_neg hnew

/-- The sweep, and the page that may be added at its end. -/
theorem sweep_swept (stackObjs : List ℕ) (h : Heap) (r : ℕ) :
    (r < h.size → Swept h stackObjs r ((h.sweep stackObjs).slot r)) ∧
      h.size ≤ (h.sweep stackObjs).size ∧
      (¬ r < h.size → (h.sweep stackObjs).object r = none) := by
  obtain ⟨g, hg⟩ : ∃ g, g = ((List.range h.size).foldl (Heap.sweepSlot stackObjs) (h, 0)).1 :=
    ⟨_, rfl⟩
  have hsize : g.size = h.size := by
    rw [hg]
    exact sweepSlots_eq Heap.size (fun _ _ _ => rfl) (fun _ _ => rfl) _ _ _ _
  have hcases : (h.sweep stackObjs).slot = g.slot ∧ (h.sweep stackObjs).size = g.size ∨
      (h.sweep stackObjs).slot = g.addHeap.slot ∧ (h.sweep stackObjs).size = g.addHeap.size := by
    unfold Heap.sweep
    rw [hg]
    simp only
    split
    · exact .inr ⟨rfl, rfl⟩
    · exact .inl ⟨rfl, rfl⟩
  have hswept : r < h.size → Swept h stackObjs r (g.slot r) := fun hlt => by
    rw [hg]
    exact sweepSlots_slot stackObjs List.nodup_range (List.mem_range.mpr hlt) 0
  have hnone : ¬ r < h.size → g.object r = none := fun hge => if_neg (hsize.symm ▸ hge)
  rcases hcases with ⟨hslot, hsz⟩ | ⟨hslot, hsz⟩
  · rw [hslot, hsz]
    refine ⟨hswept, hsize.ge, fun hge => ?_⟩
    rw [← hnone hge]
    unfold Heap.object
    rw [hslot, hsz]
  · rw [hslot, hsz]
    refine ⟨fun hlt => ?_, hsize.ge.trans (Nat.le_add_right _ _), fun hge => ?_⟩
    · rw [addHeap_slot (hsize.symm ▸ hlt)]
      exact hswept hlt
    · rw [← hnone hge, ← addHeap_object g r]
      unfold Heap.object
      rw [hslot, hsz]

/-- What the sweep leaves. -/
theorem sweep_object (stackObjs : List ℕ) (h : Heap) (r : ℕ) :
    (h.Kept stackObjs r → (h.sweep stackObjs).object r = h.object r) ∧
      (¬ h.Kept stackObjs r → (h.sweep stackObjs).object r = none) ∧
      (r < h.size → ((h.sweep stackObjs).slot r).hidden = (h.slot r).hidden) := by
  obtain ⟨hswept, hsize, hnone⟩ := sweep_swept stackObjs h r
  by_cases hlt : r < h.size
  · have hswept := hswept hlt
    refine ⟨fun hkept => ?_, fun hnot => ?_, fun _ => hswept.hidden⟩
    · unfold Heap.object
      rw [if_pos hlt, if_pos (hlt.trans_le hsize), hswept.kept hkept]
    · exact object_eq_none_of_body (hswept.freed hnot)
  · have hobject : h.object r = none := if_neg hlt
    exact ⟨fun _ => (hnone hlt).trans hobject.symm, fun _ => hnone hlt, fun h => absurd h hlt⟩

/-! ## What is reached -/

/-- Only the objects and which of them are hidden matter. -/
theorem reachable_congr (hobject : ∀ r, h'.object r = h.object r)
    (hhidden : ∀ r, (h'.slot r).hidden = (h.slot r).hidden) :
    Reachable vm h' r ↔ Reachable vm h r := by
  have hpointers : h'.pointersOf = h.pointersOf := by
    funext a
    unfold Heap.pointersOf
    rw [hobject]
  unfold Reachable
  simp only [hpointers, hobject, hhidden]

theorem not_kept_iff (stackObjs : List ℕ) (hr : h.object r ≠ none) :
    (h.sweep stackObjs).object r ≠ none ↔ h.Kept stackObjs r := by
  obtain ⟨hkept, hfreed, -⟩ := sweep_object stackObjs h r
  constructor
  · intro hlive
    by_contra hnot
    exact hlive (hfreed hnot)
  · intro hk
    rw [hkept hk]
    exact hr

/-- The sweep frees nothing that can be reached, exactly if it keeps all that could be reached
before. -/
theorem sweep_frees_iff (vm : Vm) (h : Heap) (stackObjs : List ℕ) :
    (∀ r, Reachable vm (h.sweep stackObjs) r → h.object r ≠ none →
        (h.sweep stackObjs).object r ≠ none) ↔
      ∀ r, Reachable vm h r → h.object r ≠ none → h.Kept stackObjs r := by
  constructor
  · intro hfree r hreach hobj
    by_contra hnot
    -- the first object on the path that is not kept is reached afterwards too
    obtain ⟨b, hb, -, hpath⟩ := hreach.first (p := fun a => h.object a ≠ none →
      h.Kept stackObjs a) fun himp => hnot (himp hobj)
    rw [Classical.not_imp] at hb
    obtain ⟨hbobj, hbkept⟩ := hb
    have hafter := hpath (h.sweep stackObjs).pointersOf fun a ha c hc => by
      unfold Heap.pointersOf at hc ⊢
      by_cases hobj : h.object a = none
      · rw [hobj] at hc
        cases hc
      · rwa [(sweep_object stackObjs h a).1 (ha hobj)]
    refine hbkept ((not_kept_iff stackObjs hbobj).mp (hfree b ?_ hbobj))
    refine hafter.mono (fun _ => id) (fun _ _ => id) fun a ha => ?_
    rcases ha with hroot | ⟨hobj, hhidden⟩
    · exact .inl hroot
    · have hlt := (object_ne_none_iff.mp hobj).1
      obtain ⟨hkept, -, hhid⟩ := sweep_object stackObjs h a
      have hk : h.Kept stackObjs a := .inr (.inl hhidden)
      rw [hkept hk, hhid hlt]
      exact .inr ⟨hobj, hhidden⟩
  · intro hkeep r hreach hobj
    refine (not_kept_iff stackObjs hobj).mpr (hkeep r ?_ hobj)
    -- what is left is as it was
    have hsub : ∀ a, (h.sweep stackObjs).object a ≠ none →
        (h.sweep stackObjs).object a = h.object a := by
      intro a ha
      obtain ⟨hkept, hfreed, -⟩ := sweep_object stackObjs h a
      by_cases hk : h.Kept stackObjs a
      · exact hkept hk
      · exact absurd (hfreed hk) ha
    refine hreach.mono (fun _ => id) (fun a b hb => ?_) fun a ha => ?_
    · unfold Heap.pointersOf at hb ⊢
      by_cases hnone : (h.sweep stackObjs).object a = none
      · rw [hnone] at hb
        cases hb
      · rwa [hsub a hnone] at hb
    · rcases ha with hroot | ⟨hlive, hhidden⟩
      · exact .inl hroot
      · rw [hsub a hlive] at hlive
        rw [(sweep_object stackObjs h a).2.2 (object_ne_none_iff.mp hlive).1] at hhidden
        exact .inr ⟨hlive, hhidden⟩

/-! ## The steps -/

theorem keeps_full_iff {stackObjs : List ℕ} :
    (Collector.full stackObjs).keeps h r = true ↔ h.Kept stackObjs r := by
  unfold Collector.keeps Heap.Kept
  simp only [Bool.or_eq_true, decide_eq_true_eq, or_assoc]

theorem finalizable_full_iff {stackObjs : List ℕ} :
    h.finalizable (.full stackObjs) r = true ↔
      ¬ h.Kept stackObjs r ∧ h.hasFinalizer r = true := by
  unfold Heap.finalizable
  rw [Bool.and_eq_true, Bool.not_eq_true', ← keeps_full_iff, Bool.not_eq_true]

theorem hasFinalizer_lt (hfin : h.hasFinalizer r = true) : r < h.size := by
  by_contra hge
  have hnone : h.object r = none := if_neg hge
  unfold Heap.hasFinalizer at hfin
  rw [hnone] at hfin
  cases hfin

/-- Phase 1 goes on from the slot `i`: nothing is freed if it stops at a finalizer. -/
theorem scanFrom_frees_iff (vm : Vm) (h : Heap) (scans : List Scan) (stackObjs : List ℕ) (i : ℕ) :
    (∀ r, Reachable vm (scanFrom h scans (.full stackObjs) i).heap r → h.object r ≠ none →
        (scanFrom h scans (.full stackObjs) i).heap.object r ≠ none) ↔
      ((∀ r, i ≤ r → r < h.size → h.finalizable (.full stackObjs) r = false) →
        ∀ r, Reachable vm h r → h.object r ≠ none → h.Kept stackObjs r) := by
  unfold scanFrom
  rw [← find?_range'_eq_none]
  split
  next cursor hfind =>
    refine iff_of_true (fun r _ hobj => hobj) fun hnone => ?_
    rw [hfind] at hnone
    cases hnone
  next hfind =>
    simp only [hfind, true_imp_iff]
    exact sweep_frees_iff vm { h with freeList := none } stackObjs

theorem mark_slot (dark : ℕ → Bool) (h : Heap) (r : ℕ) :
    (((h.mark dark).slot r).dark = true ↔ (h.slot r).dark = true ∨ dark r = true) ∧
      ((h.mark dark).slot r).hidden = (h.slot r).hidden ∧
      (h.mark dark).object r = h.object r := by
  have hbody : ((h.mark dark).slot r).body = (h.slot r).body := by
    unfold Heap.mark
    simp only
    split <;> rfl
  refine ⟨?_, ?_, ?_⟩
  · unfold Heap.mark
    simp only
    split
    next hnew => simp_all
    next hnew =>
      constructor
      · exact .inl
      · rintro (hold | hdark)
        · exact hold
        · simpa [hdark] using hnew
  · unfold Heap.mark
    simp only
    split <;> rfl
  · change (if r < h.size then ((h.mark dark).slot r).body else none) = _
    rw [hbody]
    rfl

/-- The heap when the marking of a full collection is over. -/
def Process.markedHeap (s : Process) (after : Vm) : Heap :=
  { s.machine.heap.mark (s.machine.heap.marked (s.vm.grayRoots after)) with
    inGC := true, freeList := none }

theorem collectGarbage_cases (hstep : s.step .collectGarbage = some s') :
    s.machine.heap.gcOn = false ∧ s' = s ∨
      s.machine.heap.gcOn = true ∧ ∃ after, s.vm.reap = some after ∧ s'.machine =
        if s.machine.heap.activeFinalizers = 0 then
          ⟨(s.markedHeap after).sweep s.vm.stackObjs, s.machine.scans⟩
        else scanFrom (s.markedHeap after) s.machine.scans (.full s.vm.stackObjs) 0 := by
  change s.collectGarbage = some s' at hstep
  unfold Process.collectGarbage at hstep
  simp only at hstep
  split at hstep
  next hoff =>
    obtain rfl := Option.some.inj hstep
    exact .inl ⟨by simpa using hoff, rfl⟩
  next hon =>
    have hon : s.machine.heap.gcOn = true := by simpa using hon
    split at hstep
    · cases hstep
    obtain ⟨after, hreap, hstep⟩ := Option.bind_eq_some_iff.mp hstep
    obtain ⟨m, hcollect, heq⟩ := Option.bind_eq_some_iff.mp hstep
    obtain rfl := Option.some.inj heq
    refine .inr ⟨hon, after, hreap, ?_⟩
    unfold Gc.collectGarbage at hcollect
    rw [if_neg (by simp [hon])] at hcollect
    split at hcollect
    · cases hcollect
    change (if s.machine.heap.activeFinalizers = 0 then
      some ⟨(s.markedHeap after).sweep s.vm.stackObjs, s.machine.scans⟩ else
      some (scanFrom (s.markedHeap after) s.machine.scans (.full s.vm.stackObjs) 0)) =
        some m at hcollect
    split at hcollect
    next hzero => rw [if_pos hzero, ← Option.some.inj hcollect]
    next hne => rw [if_neg hne, ← Option.some.inj hcollect]

theorem markedHeap_object (s : Process) (after : Vm) (r : ℕ) :
    (s.markedHeap after).object r = s.machine.heap.object r ∧
      (s.markedHeap after).hasFinalizer r = s.machine.heap.hasFinalizer r ∧
      ((s.markedHeap after).slot r).hidden = (s.machine.heap.slot r).hidden := by
  obtain ⟨-, hhidden, hobject⟩ :=
    mark_slot (s.machine.heap.marked (s.vm.grayRoots after)) s.machine.heap r
  have hobject : (s.markedHeap after).object r = s.machine.heap.object r := hobject
  refine ⟨hobject, ?_, hhidden⟩
  unfold Heap.hasFinalizer
  rw [hobject]

theorem markedHeap_reachable (s : Process) (after : Vm) (r : ℕ) :
    Reachable s.vm (s.markedHeap after) r ↔ Reachable s.vm s.machine.heap r :=
  reachable_congr (fun r => (markedHeap_object s after r).1)
    fun r => (markedHeap_object s after r).2.2

theorem markedHeap_kept (s : Process) (after : Vm) (r : ℕ) :
    (s.markedHeap after).Kept s.vm.stackObjs r ↔ Spared s after r := by
  obtain ⟨hdark, hhidden, -⟩ :=
    mark_slot (s.machine.heap.marked (s.vm.grayRoots after)) s.machine.heap r
  rw [marked_iff] at hdark
  unfold Heap.Kept Spared Heap.Kept Process.markedHeap
  simp only
  rw [hdark, hhidden]
  tauto

/-- A full collection: it frees nothing that can be reached, exactly if it keeps that. -/
theorem collectGarbage_frees_iff (hstep : s.step .collectGarbage = some s') :
    CollectsUnreachable s s' .collectGarbage ↔ FindsReachable s .collectGarbage := by
  unfold CollectsUnreachable FreesUnreachable FindsReachable
  rcases collectGarbage_cases hstep with ⟨hoff, rfl⟩ | ⟨hon, after, hreap, hm⟩
  · refine iff_of_true (fun r _ hobj => hobj) fun hon => ?_
    rw [hon] at hoff
    cases hoff
  · rw [hreap, hm]
    simp only [hon, true_imp_iff, Option.some.injEq, forall_eq']
    simp only [← markedHeap_reachable s after, ← markedHeap_kept s after,
      ← (markedHeap_object s after _).1, ← (markedHeap_object s after _).2.1]
    split
    next hzero =>
      simp only [hzero, true_or, true_imp_iff]
      exact sweep_frees_iff s.vm (s.markedHeap after) s.vm.stackObjs
    next hne =>
      simp only [hne, false_or]
      refine (scanFrom_frees_iff s.vm (s.markedHeap after) s.machine.scans s.vm.stackObjs 0).trans
        (imp_congr_left ?_)
      constructor
      · intro hall r hfin
        by_contra hnot
        have htrue := finalizable_full_iff.mpr ⟨hnot, hfin⟩
        rw [hall r (Nat.zero_le r) (hasFinalizer_lt hfin)] at htrue
        cases htrue
      · intro hall r _ hlt
        rw [← Bool.not_eq_true, finalizable_full_iff]
        exact fun hfin => hfin.1 (hall r hfin.2)

theorem leaveFinalizer_same (h : Heap) (cursor r : ℕ) :
    ((h.leaveFinalizer cursor).slot r).dark = (h.slot r).dark ∧
      ((h.leaveFinalizer cursor).slot r).hidden = (h.slot r).hidden ∧
      ((h.leaveFinalizer cursor).object r = none ↔ h.object r = none) := by
  have hsame := leaveFinalizer_sameFree h cursor
  have hobject : (h.leaveFinalizer cursor).object r = none ↔ h.object r = none := by
    unfold Heap.object
    rw [hsame.size]
    split
    · exact hsame.body r
    · exact Iff.rfl
  by_cases hr : r = cursor
  · have hslot := Heap.setSlot_self h cursor { h.slot cursor with
      body := (h.slot cursor).body.map (ObjBody.setFinalizerFunc none) }
    subst hr
    exact ⟨(congrArg Slot.dark hslot).trans rfl, (congrArg Slot.hidden hslot).trans rfl, hobject⟩
  · rw [leaveFinalizer_slot hr]
    exact ⟨rfl, rfl, hobject⟩

/-- A finalizer returns, and the collection it belongs to goes on. -/
theorem finalizerReturns_frees_iff (hstep : s.step (.heap .finalizerReturns) = some s') :
    CollectsUnreachable s s' (.heap .finalizerReturns) ↔
      FindsReachable s (.heap .finalizerReturns) := by
  unfold CollectsUnreachable FreesUnreachable FindsReachable
  obtain ⟨m, hreturn, heq⟩ := Option.bind_eq_some_iff.mp hstep
  obtain rfl := Option.some.inj heq
  change finalizerReturns s.machine = some m at hreturn
  unfold finalizerReturns at hreturn
  cases hscans : s.machine.scans with
  | nil =>
    rw [hscans] at hreturn
    cases hreturn
  | cons scan scans =>
    obtain ⟨c, cursor⟩ := scan
    rw [hscans] at hreturn
    simp only [List.head?_cons, Option.mem_some_iff, forall_eq']
    cases c with
    | final => exact iff_of_true (fun hne => absurd rfl hne) fun _ heq => by cases heq
    | full stackObjs =>
      obtain ⟨h, hh⟩ : ∃ h, h = s.machine.heap.leaveFinalizer cursor := ⟨_, rfl⟩
      have hsame := leaveFinalizer_same s.machine.heap cursor
      have hactive : h.activeFinalizers = 0 ↔ s.machine.heap.activeFinalizers = 1 := by
        rw [hh]
        change s.machine.heap.activeFinalizers - 1 = 0 ↔ _
        omega
      have hobject : ∀ r, s.machine.heap.object r ≠ none ↔ h.object r ≠ none := fun r => by
        rw [hh, ne_eq, ne_eq, (hsame r).2.2]
      have hkept : ∀ r, s.machine.heap.Kept stackObjs r ↔ h.Kept stackObjs r := fun r => by
        unfold Heap.Kept
        rw [hh, (hsame r).1, (hsame r).2.1]
      have hfin : ∀ r, cursor < r → s.machine.heap.finalizable (.full stackObjs) r =
          h.finalizable (.full stackObjs) r := fun r hr => by
        rw [hh, leaveFinalizer_finalizable _ hr]
      have hsize : s.machine.heap.size = h.size := by rw [hh]; rfl
      have hfull : Collector.full stackObjs ≠ .final := by rintro ⟨⟩
      simp only [← hh] at hreturn
      simp only [ne_eq, hfull, not_false_eq_true, true_imp_iff, Collector.full.injEq, forall_eq',
        ← hh, ← hactive]
      simp only [← ne_eq, hobject, hkept, hsize]
      split at hreturn
      next hzero =>
        obtain rfl := Option.some.inj hreturn
        simp only [hzero, true_or, true_imp_iff]
        exact sweep_frees_iff s.vm h stackObjs
      next hne =>
        obtain rfl := Option.some.inj hreturn
        simp only [hne, false_or]
        refine (scanFrom_frees_iff s.vm h scans stackObjs (cursor + 1)).trans (imp_congr_left ?_)
        refine forall_congr' fun r => ?_
        constructor
        · intro hall hr hlt
          rw [hfin r hr]
          exact hall hr hlt
        · intro hall hr hlt
          rw [← hfin r hr]
          exact hall hr hlt

theorem step_frees_iff {a : Action} (hstep : s.step a = some s') :
    CollectsUnreachable s s' a ↔ FindsReachable s a := by
  cases a with
  | heap op =>
    cases op with
    | finalizerReturns => exact finalizerReturns_frees_iff hstep
    | _ => exact Iff.rfl
  | vm vm => exact Iff.rfl
  | collectGarbage => exact collectGarbage_frees_iff hstep

/-- No full collection of the run frees anything the program can reach. -/
def CollectsUnreachableAlong : Process → List Action → Prop
  | _, [] => True
  | s, a :: as => ∀ s', s.step a = some s' → CollectsUnreachable s s' a ∧ CollectsUnreachableAlong s' as

def FindsReachableAlong : Process → List Action → Prop
  | _, [] => True
  | s, a :: as => ∀ s', s.step a = some s' → FindsReachable s a ∧ FindsReachableAlong s' as

/-- Whatever the heap and the roots are at the beginning: the full collections of a run free
nothing the program can reach, exactly if each that calls no finalizer finds what can be reached
by graying what the collector grays, and each that does has found before what can be reached
when the last finalizer returns. -/
theorem collectsUnreachable_iff (s : Process) (as : List Action) :
    CollectsUnreachableAlong s as ↔ FindsReachableAlong s as := by
  induction as generalizing s with
  | nil => exact Iff.rfl
  | cons a as ih =>
    unfold CollectsUnreachableAlong FindsReachableAlong
    refine forall₂_congr fun s' hstep => ?_
    rw [step_frees_iff hstep, ih s']

/-! A finalizer stores its object in a global variable. -/

/-- A VM without threads. -/
def bareVm (globals constants : List ℕ) : Vm where
  threads := []
  unlisted := []
  loadedScripts := []
  globals := globals
  constants := constants
  strings := []
  regexLiterals := []
  autoloadTbl := []
  compilerRoots := []
  initString := none
  fileString := none
  dirString := none
  sigHandlers := []
  printBuf := none
  exitHandlers := []
  hiddenObjs := []

/-- One page: an instance with a finalizer, its finalizer and its class, and free slots. -/
def finalizableHeap : Heap where
  size := heapSlots
  slot
    | 0 => ⟨some (.inst ⟨some 2, none, some 1, []⟩ []), false, false, 1, none⟩
    | 1 => ⟨some (.nativeFunction none none), false, false, 1, none⟩
    | 2 => ⟨some (.klass ⟨none, none, none, []⟩
        ⟨[], [], [], [], none, none, none, [], none⟩), false, false, 1, none⟩
    | r => ⟨none, false, false, 0, if r + 1 < heapSlots then some (r + 1) else none⟩
  freeList := some 3
  youngStack := []
  rememberSet := []
  activeFinalizers := 1
  inGC := false
  dontGC := false
  gcOn := true

/-- Only the class is found. -/
theorem marked_finalizableHeap : finalizableHeap.marked [2] 0 = false := by
  rw [← Bool.not_eq_true, marked_iff]
  rintro (hdark | hreach)
  · cases hdark
  · have hclass : ∀ r, Worklist.Reaches (fun a => (finalizableHeap.slot a).dark = true)
        finalizableHeap.grayedBy (· ∈ [2].filter (· < finalizableHeap.size)) r → r = 2 := by
      intro r hr
      induction hr with
      | root hmem _ => simpa using (List.mem_filter.mp hmem).1
      | @ref a b _ hmem _ ih =>
        subst ih
        have hobject : ∃ classInfo, finalizableHeap.object 2 =
            some (.klass ⟨none, none, none, []⟩ classInfo) ∧ classInfo.grayed = [] ∧
              classInfo.superclass = none :=
          ⟨_, if_pos (by unfold finalizableHeap heapSlots; decide), rfl, rfl⟩
        obtain ⟨classInfo, hobject, hgrayed, hsuper⟩ := hobject
        unfold Heap.grayedBy at hmem
        rw [hobject] at hmem
        simp [ObjBody.grayed, InstanceFields.pointers, hgrayed, hsuper] at hmem
    have habs := hclass 0 hreach
    cases habs

/-- The finalizer of the object at the first slot is called first. -/
theorem scanFrom_zero {c : Collector} (hfin : h.finalizable c 0 = true) (hpos : 0 < h.size)
    (scans : List Scan) : scanFrom h scans c 0 = ⟨h.enterFinalizer, ⟨c, 0⟩ :: scans⟩ := by
  obtain ⟨n, hn⟩ := Nat.exists_eq_add_of_lt hpos
  have hfind : (List.range' 0 (h.size - 0)).find? (h.finalizable c) = some 0 := by
    rw [Nat.sub_zero, show h.size = n + 1 by omega, List.range'_succ, List.find?_cons_of_pos hfin]
  unfold scanFrom
  rw [hfind]

theorem collectGarbage_stops {m : Machine} {dark : ℕ → Bool} {stackObjs : List ℕ}
    (hh : h = { m.heap.mark dark with inGC := true, freeList := none })
    (hon : m.heap.gcOn = true) (hin : m.heap.inGC = false) (hactive : h.activeFinalizers ≠ 0)
    (hpos : 0 < h.size) (hfin : h.finalizable (.full stackObjs) 0 = true) :
    Gc.collectGarbage dark stackObjs m =
      some ⟨h.enterFinalizer, ⟨.full stackObjs, 0⟩ :: m.scans⟩ := by
  unfold Gc.collectGarbage
  rw [if_neg (by simp [hon]), if_neg (by simp [hin])]
  simp only [← hh]
  rw [if_neg ?_, scanFrom_zero hfin hpos]
  rw [hh] at hactive
  exact hactive

/-- The heap while the finalizer runs. -/
theorem collectGarbage_finalizableHeap :
    ∃ h, (⟨⟨finalizableHeap, []⟩, bareVm [] [2]⟩ : Process).step .collectGarbage =
        some ⟨⟨h, [⟨.full [], 0⟩]⟩, bareVm [] [2]⟩ ∧
      h.activeFinalizers = 1 ∧ ¬ h.Kept [] 0 ∧ h.object 0 ≠ none := by
  obtain ⟨h, hh⟩ : ∃ h, h = { finalizableHeap.mark (finalizableHeap.marked [2]) with
    inGC := true, freeList := none } := ⟨_, rfl⟩
  have hroots : (bareVm [] [2]).grayRoots (bareVm [] [2]) = [2] := rfl
  obtain ⟨hdark, hhidden, hobject⟩ :=
    mark_slot (finalizableHeap.marked [2]) finalizableHeap 0
  have hpos : 0 < finalizableHeap.size := by
    unfold finalizableHeap heapSlots
    decide
  have hlive : h.object 0 ≠ none := by
    rw [hh]
    change (finalizableHeap.mark (finalizableHeap.marked [2])).object 0 ≠ none
    rw [hobject]
    exact object_ne_none_iff.mpr ⟨hpos, Option.some_ne_none _⟩
  have hnot : ¬ h.Kept [] 0 := by
    rw [hh]
    rintro (hmark | hhid | hmem)
    · rcases hdark.mp hmark with hold | hnew
      · cases hold
      · rw [marked_finalizableHeap] at hnew
        cases hnew
    · change ((finalizableHeap.mark (finalizableHeap.marked [2])).slot 0).hidden = true at hhid
      rw [hhidden] at hhid
      cases hhid
    · cases hmem
  have hfin : h.finalizable (.full []) 0 = true := by
    refine finalizable_full_iff.mpr ⟨hnot, ?_⟩
    rw [hh]
    change ((finalizableHeap.mark (finalizableHeap.marked [2])).object 0).any _ = true
    rw [hobject]
    unfold Heap.object
    rw [if_pos hpos]
    rfl
  refine ⟨h.enterFinalizer, ?_, ?_, hnot, hlive⟩
  · change (bareVm [] [2]).reap.bind (fun after => (Gc.collectGarbage
      (finalizableHeap.marked ((bareVm [] [2]).grayRoots after)) [] ⟨finalizableHeap, []⟩).bind
      fun m => some (⟨m, after⟩ : Process)) = _
    refine Option.bind_eq_some_iff.mpr ⟨bareVm [] [2], rfl, ?_⟩
    refine Option.bind_eq_some_iff.mpr ⟨_, ?_, rfl⟩
    rw [hroots]
    refine collectGarbage_stops (m := ⟨finalizableHeap, []⟩) hh rfl rfl ?_ ?_ hfin
    · rw [hh]
      exact Int.one_ne_zero
    · rw [hh]
      exact hpos
  · rw [hh]
    rfl

theorem finalizer_resurrects :
    ¬ ∀ (s : Process) (as : List Action), CollectsUnreachableAlong s as := by
  intro hall
  have hfinds := (collectsUnreachable_iff _ _).mp (hall ⟨⟨finalizableHeap, []⟩, bareVm [] [2]⟩
    [.collectGarbage, .vm (bareVm [0] [2]), .heap .finalizerReturns])
  obtain ⟨h, hstep, hactive, hnot, hlive⟩ := collectGarbage_finalizableHeap
  obtain ⟨-, hfinds⟩ := hfinds _ hstep
  obtain ⟨-, hfinds⟩ := hfinds _ rfl
  have hreturn : ∃ m, finalizerReturns ⟨h, [⟨.full [], 0⟩]⟩ = some m := by
    unfold finalizerReturns
    simp only
    split
    · exact ⟨_, rfl⟩
    · exact ⟨_, rfl⟩
  obtain ⟨m, hm⟩ := hreturn
  obtain ⟨hfind, -⟩ := hfinds ⟨m, bareVm [0] [2]⟩ (Option.bind_eq_some_iff.mpr ⟨m, hm, rfl⟩)
  refine hnot (hfind ⟨.full [], 0⟩ rfl [] rfl (.inl hactive) 0 (.root (.inl ?_) not_false) hlive)
  exact List.mem_cons_self

end Clox.Gc
