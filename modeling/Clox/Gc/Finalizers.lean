import Clox.Gc.Reachable
import Mathlib.Data.Finset.Card

/-! # Finalizers

Which finalizer a step calls is read off the collectors that wait. Beside the machine stands a
record of what the program has asked for: for each object the callable it set last, until
that is called.

In an orderly run a collector that waits is left to itself: no other full collection begins
and the VM is not shut down before the finalizer returns, and it does return; what the
finalizer sets finalizers on is still to be visited or is kept.
-/

namespace Clox.Gc

namespace Heap

def finalizerFunc (h : Heap) (r : ℕ) : Option ℕ := (h.object r).bind ObjBody.finalizerFunc

/-- The objects whose `finalizerFunc` is set. -/
def finalizers (h : Heap) : Finset ℕ := (Finset.range h.size).filter fun r => h.hasFinalizer r

end Heap

/-- The object whose finalizer the step calls. -/
def Process.calls (s s' : Process) : Action → Option ℕ
  | .collectGarbage | .heap .freeObjects =>
    if s.machine.scans.length < s'.machine.scans.length then
      s'.machine.scans.head?.map Scan.cursor
    else none
  | .heap .finalizerReturns =>
    if s.machine.scans.length = s'.machine.scans.length then
      s'.machine.scans.head?.map Scan.cursor
    else none
  | _ => none

/-- The callables that were set last and are still to be called, after the step. -/
def nextPending (pending : ℕ → Option ℕ) (s s' : Process) (a : Action) (r : ℕ) : Option ℕ :=
  if (s'.machine.heap.object r).isNone || s.calls s' a == some r then none
  else
    match a with
    | .heap (.setObjectFinalizer q callable) => if q = r then some callable else pending r
    | _ => pending r

/-- The step calls a finalizer only if it is the one that was set last and that was not called
yet, and of an object that cannot be reached unless the VM shuts down; and it frees no object
before its finalizer was called. -/
structure CallsPending (pending : ℕ → Option ℕ) (s s' : Process) (a : Action) : Prop where
  last : ∀ r, s.calls s' a = some r →
    pending r ≠ none ∧ s'.machine.heap.finalizerFunc r = pending r
  unreachable : ∀ r, s.calls s' a = some r →
    (∀ scan ∈ s'.machine.scans.head?, scan.collector ≠ .final) →
    ¬ Reachable s.vm s'.machine.heap r
  freed : ∀ r, s.machine.heap.object r ≠ none → s'.machine.heap.object r = none →
    pending r = none

/-- The counter is right; and where no collector waits, also after a finalizer was left by an
error, they are as after a collection: none is on or forbidden, nothing is marked and there is
a free list. -/
structure Consistent (m : Machine) : Prop where
  activeFinalizers : m.heap.activeFinalizers = m.heap.finalizers.card
  inGC : m.scans = [] → m.heap.inGC = false
  dontGC : m.scans = [] → m.heap.dontGC = false
  white : m.scans = [] → ∀ r, m.heap.object r ≠ none → (m.heap.slot r).dark = false
  freeList : m.scans = [] → ∃ l, FreeList m.heap l

/-- So it is in every state and every step of the run. -/
def FinalizesOnce : (ℕ → Option ℕ) → Process → List Action → Prop
  | _, s, [] => Consistent s.machine
  | pending, s, a :: as => Consistent s.machine ∧ ∀ s', s.step a = some s' →
      CallsPending pending s s' a ∧ FinalizesOnce (nextPending pending s s' a) s' as

/-- What the program is to keep to, so that each finalizer is called once. -/
def Orderly (s : Process) : Action → Prop
  /- no full collection while a collector waits; and the marking finds what has a finalizer -/
  | .collectGarbage =>
    s.machine.heap.gcOn = true → s.machine.scans = [] ∧
      ∀ after, s.vm.reap = some after → ∀ r, Reachable s.vm s.machine.heap r →
        s.machine.heap.hasFinalizer r = true → Spared s after r
  | .heap .freeObjects => s.machine.scans = []
  | .heap .finalizerThrows => False
  /- the finalizer has made nothing reachable whose finalizer is still to be called -/
  | .heap .finalizerReturns =>
    ∀ scan ∈ s.machine.scans.head?, scan.collector ≠ .final → ∀ r, scan.cursor < r →
      Reachable s.vm (s.machine.heap.leaveFinalizer scan.cursor) r →
      s.machine.heap.hasFinalizer r = true → scan.collector.keeps s.machine.heap r = true
  /- not on the object that is finalized, nor on one that phase 1 has passed and phase 2 frees -/
  | .heap (.setObjectFinalizer r _) =>
    ∀ scan ∈ s.machine.scans.head?, r ≠ scan.cursor ∧
      (r < scan.cursor → scan.collector.keeps s.machine.heap r = true)
  /- what phase 1 has passed and was kept because it was hidden or marked is so still -/
  | .heap (.setHidden r hidden) =>
    ∀ scan ∈ s.machine.scans.head?, r < scan.cursor → s.machine.heap.hasFinalizer r = true →
      hidden = true ∨ scan.collector.keeps
        (s.machine.heap.setSlot r { s.machine.heap.slot r with hidden := false }) r = true
  | .heap (.collectYoungGarbage _) =>
    ∀ scan ∈ s.machine.scans.head?, ∀ r ∈ s.machine.heap.youngStack, r < scan.cursor →
      s.machine.heap.hasFinalizer r = true → scan.collector.keeps
        (s.machine.heap.setSlot r { s.machine.heap.slot r with dark := false }) r = true
  | _ => True

def OrderlyAlong : Process → List Action → Prop
  | _, [] => True
  | s, a :: as => ∀ s', s.step a = some s' → Orderly s a ∧ OrderlyAlong s' as

/-! ## The invariant -/

/-- Between the steps of an orderly run. -/
structure Inv (pending : ℕ → Option ℕ) (m : Machine) : Prop where
  freeList : ∃ l, FreeList m.heap l
  young : Young m.heap
  activeFinalizers : m.heap.activeFinalizers = m.heap.finalizers.card
  /-- the young collection does not look for finalizers -/
  old : ∀ r, m.heap.hasFinalizer r = true → 0 < (m.heap.slot r).gen
  last : ∀ r, (∀ scan ∈ m.scans, r ≠ scan.cursor) → pending r = m.heap.finalizerFunc r
  called : ∀ scan ∈ m.scans, pending scan.cursor = none ∧ m.heap.hasFinalizer scan.cursor = true
  /-- what phase 1 has passed -/
  behind : ∀ scan ∈ m.scans, ∀ r < scan.cursor, m.heap.hasFinalizer r = true →
    scan.collector.keeps m.heap r = true
  waiting : m.scans.length ≤ 1
  inGC : m.heap.inGC = false
  dontGC : m.scans = [] → m.heap.dontGC = false
  white : m.scans = [] → ∀ r, m.heap.object r ≠ none → (m.heap.slot r).dark = false

variable {pending : ℕ → Option ℕ} {m m' : Machine} {s s' : Process} {h h' : Heap} {r : ℕ}
  {c : Collector}

theorem hasFinalizer_iff : h.hasFinalizer r = true ↔ h.finalizerFunc r ≠ none := by
  unfold Heap.hasFinalizer Heap.finalizerFunc
  cases h.object r with
  | none => simp
  | some body => simp [Option.isSome_iff_ne_none]

theorem mem_finalizers : r ∈ h.finalizers ↔ h.hasFinalizer r = true := by
  unfold Heap.finalizers
  rw [Finset.mem_filter, Finset.mem_range]
  exact and_iff_right_of_imp hasFinalizer_lt

theorem finalizerFunc_of_object (hobject : h.object r = none) : h.finalizerFunc r = none := by
  unfold Heap.finalizerFunc
  rw [hobject]
  rfl

theorem finalizerFunc_congr (hobject : h'.object r = h.object r) :
    h'.finalizerFunc r = h.finalizerFunc r := by
  unfold Heap.finalizerFunc
  rw [hobject]

theorem hasFinalizer_congr (hfunc : h'.finalizerFunc r = h.finalizerFunc r) :
    h'.hasFinalizer r = h.hasFinalizer r := by
  rw [Bool.eq_iff_iff, hasFinalizer_iff, hasFinalizer_iff, hfunc]

theorem finalizers_congr (hfunc : ∀ r, h'.finalizerFunc r = h.finalizerFunc r) :
    h'.finalizers = h.finalizers := by
  ext r
  rw [mem_finalizers, mem_finalizers, hasFinalizer_congr (hfunc r)]

theorem Inv.consistent (hi : Inv pending m) : Consistent m :=
  ⟨hi.activeFinalizers, fun _ => hi.inGC, hi.dontGC, hi.white, fun _ => hi.freeList⟩

/-- What is pending is a finalizer that is set. -/
theorem Inv.pending_ne_none (hi : Inv pending m) (hr : pending r ≠ none) :
    pending r = m.heap.finalizerFunc r ∧ m.heap.object r ≠ none := by
  have hcursor : ∀ scan ∈ m.scans, r ≠ scan.cursor := by
    rintro scan hscan rfl
    exact hr (hi.called scan hscan).1
  refine ⟨hi.last r hcursor, fun hobject => hr ?_⟩
  rw [hi.last r hcursor, finalizerFunc_of_object hobject]

/-! ## Steps of the program -/

/-- What the steps leave alone that neither set a finalizer nor are a collector's. -/
structure Tame (h h' : Heap) : Prop where
  finalizerFunc : ∀ r, h'.finalizerFunc r = h.finalizerFunc r
  activeFinalizers : h'.activeFinalizers = h.activeFinalizers
  inGC : h'.inGC = h.inGC
  dontGC : h'.dontGC = h.dontGC
  old : ∀ r, h.hasFinalizer r = true → 0 < (h.slot r).gen → 0 < (h'.slot r).gen
  white : (∀ r, h.object r ≠ none → (h.slot r).dark = false) →
    ∀ r, h'.object r ≠ none → (h'.slot r).dark = false

theorem Tame.hasFinalizer (ht : Tame h h') (r : ℕ) : h'.hasFinalizer r = h.hasFinalizer r :=
  hasFinalizer_congr (ht.finalizerFunc r)

theorem Inv.tame (hi : Inv pending m) (hscans : m'.scans = m.scans) (ht : Tame m.heap m'.heap)
    (hfree : ∃ l, FreeList m'.heap l) (hyoung : Young m'.heap)
    (hbehind : ∀ scan ∈ m.scans, ∀ r < scan.cursor, m.heap.hasFinalizer r = true →
      scan.collector.keeps m.heap r = true → scan.collector.keeps m'.heap r = true) :
    Inv pending m' where
  freeList := hfree
  young := hyoung
  activeFinalizers := by
    rw [ht.activeFinalizers, finalizers_congr ht.finalizerFunc]
    exact hi.activeFinalizers
  old r hr := by
    rw [ht.hasFinalizer] at hr
    exact ht.old r hr (hi.old r hr)
  last r hr := by
    rw [ht.finalizerFunc]
    exact hi.last r (hscans ▸ hr)
  called scan hscan := by
    rw [ht.hasFinalizer]
    exact hi.called scan (hscans ▸ hscan)
  behind scan hscan r hr hfin := by
    rw [ht.hasFinalizer] at hfin
    rw [hscans] at hscan
    exact hbehind scan hscan r hr hfin (hi.behind scan hscan r hr hfin)
  waiting := hscans ▸ hi.waiting
  inGC := ht.inGC.trans hi.inGC
  dontGC hnil := ht.dontGC.trans (hi.dontGC (hscans ▸ hnil))
  white hnil := ht.white (hi.white (hscans ▸ hnil))

/-- Nothing is called, and what is freed had no finalizer. -/
theorem Inv.tame_step (hi : Inv pending s.machine) (s' : Process) {a : Action}
    (hfunc : ∀ r, s'.machine.heap.finalizerFunc r = s.machine.heap.finalizerFunc r)
    (hcalls : s.calls s' a = none)
    (ha : ∀ q callable, a ≠ .heap (.setObjectFinalizer q callable)) :
    CallsPending pending s s' a ∧ nextPending pending s s' a = pending := by
  have hfreed : ∀ r, s'.machine.heap.object r = none → pending r = none := by
    intro r hobject
    by_contra hne
    obtain ⟨heq, -⟩ := hi.pending_ne_none hne
    rw [heq, ← hfunc, finalizerFunc_of_object hobject] at hne
    exact hne rfl
  refine ⟨⟨fun r hr => ?_, fun r hr => ?_, fun r _ hobject => hfreed r hobject⟩, ?_⟩
  · rw [hcalls] at hr
    cases hr
  · rw [hcalls] at hr
    cases hr
  · funext r
    unfold nextPending
    rw [hcalls]
    by_cases hobject : s'.machine.heap.object r = none
    · simp [hobject, hfreed r hobject]
    · rw [if_neg (by simp [hobject])]
      split
      next _ q callable => exact absurd rfl (ha q callable)
      next => rfl

theorem Tame.refl (h : Heap) : Tame h h :=
  ⟨fun _ => rfl, rfl, rfl, rfl, fun _ _ => id, fun hwhite => hwhite⟩

theorem Tame.trans {g : Heap} (h₁ : Tame h g) (h₂ : Tame g h') : Tame h h' where
  finalizerFunc r := (h₂.finalizerFunc r).trans (h₁.finalizerFunc r)
  activeFinalizers := h₂.activeFinalizers.trans h₁.activeFinalizers
  inGC := h₂.inGC.trans h₁.inGC
  dontGC := h₂.dontGC.trans h₁.dontGC
  old r hr hgen := h₂.old r ((h₁.hasFinalizer r).symm ▸ hr) (h₁.old r hr hgen)
  white hwhite := h₂.white (h₁.white hwhite)

theorem setSlot_object (h : Heap) (r : ℕ) (s : Slot) (q : ℕ) :
    (h.setSlot r s).object q = if q = r then (if r < h.size then s.body else none)
      else h.object q := by
  unfold Heap.object
  rw [Heap.setSlot_size]
  by_cases hq : q = r
  · subst hq
    rw [Heap.setSlot_self, if_pos rfl]
  · rw [Heap.setSlot_of_ne h r s hq, if_neg hq]

/-- One slot is written, and its finalizer is not. -/
theorem Tame.setSlot {s : Slot}
    (hfunc : s.body.bind ObjBody.finalizerFunc = (h.slot r).body.bind ObjBody.finalizerFunc)
    (hgen : 0 < (h.slot r).gen → 0 < s.gen)
    (hdark : s.body ≠ none → (h.slot r).body ≠ none ∧ (s.dark = true → (h.slot r).dark = true)) :
    Tame h (h.setSlot r s) where
  finalizerFunc q := by
    unfold Heap.finalizerFunc
    rw [setSlot_object]
    split
    next hq =>
      subst hq
      unfold Heap.object
      split
      · exact hfunc
      · rfl
    next => rfl
  activeFinalizers := rfl
  inGC := rfl
  dontGC := rfl
  old q _ hq := by
    by_cases hqr : q = r
    · subst hqr
      rw [Heap.setSlot_self]
      exact hgen hq
    · rwa [Heap.setSlot_of_ne h r s hqr]
  white hwhite q hq := by
    rw [setSlot_object] at hq
    by_cases hqr : q = r
    · subst hqr
      rw [if_pos rfl] at hq
      split at hq
      next hlt =>
        obtain ⟨hbody, hd⟩ := hdark hq
        have hold := hwhite q (object_ne_none_iff.mpr ⟨hlt, hbody⟩)
        rw [Heap.setSlot_self]
        rw [← Bool.not_eq_true] at hold ⊢
        exact fun hmark => hold (hd hmark)
      next => exact absurd rfl hq
    · rw [if_neg hqr] at hq
      rw [Heap.setSlot_of_ne h r s hqr]
      exact hwhite q hq

theorem setFinalizerFunc_none (body : ObjBody) :
    (body.setFinalizerFunc none).finalizerFunc = none := by
  cases body <;> rfl

theorem getNewObject_tame {body : ObjBody} {isHidden : Bool} {l : List ℕ} (hl : FreeList h l)
    (ha : Allocated h r body isHidden h') : Tame h h' := by
  have hbody := (hl.head ha.head).2
  have hfunc : ∀ q, h'.finalizerFunc q = h.finalizerFunc q := by
    intro q
    unfold Heap.finalizerFunc Heap.object
    rw [ha.size]
    by_cases hq : q = r
    · subst hq
      rw [ha.body, hbody]
      split
      · exact setFinalizerFunc_none body
      · rfl
    · rw [ha.others q hq]
  refine ⟨hfunc, ha.activeFinalizers, ha.inGC, ha.dontGC, fun q hq hgen => ?_,
    fun hwhite q hq => ?_⟩
  · have hne : q ≠ r := by
      rintro rfl
      have hset := hasFinalizer_iff.mp hq
      exact hset (finalizerFunc_of_object (object_eq_none_of_body hbody))
    rwa [ha.others q hne]
  · by_cases hqr : q = r
    · rw [hqr]
      exact ha.white
    · rw [object_ne_none_iff, ha.size, ha.others q hqr, ← object_ne_none_iff] at hq
      rw [ha.others q hqr]
      exact hwhite q hq

theorem addHeap_tame (h : Heap) : Tame h h.addHeap where
  finalizerFunc r := finalizerFunc_congr (addHeap_object h r)
  activeFinalizers := addHeap_activeFinalizers h
  inGC := addHeap_inGC h
  dontGC := addHeap_dontGC h
  old r hr hgen := by rwa [addHeap_slot (hasFinalizer_lt hr)]
  white hwhite r hr := by
    rw [addHeap_object] at hr
    rw [addHeap_slot (object_ne_none_iff.mp hr).1]
    exact hwhite r hr

/-- An object of the young stack is kept, and is white then, or freed if it is young. -/
theorem sweepYoung_cases (dark : ℕ → Bool) (h : Heap) (r : ℕ) :
    (∃ s, h.sweepYoung dark r = h.setSlot r s ∧ s.body = (h.slot r).body ∧
        (h.slot r).gen ≤ s.gen ∧ s.hidden = (h.slot r).hidden ∧ s.dark = false) ∨
      h.sweepYoung dark r = h.pushFree r ∧ (h.slot r).gen = 0 := by
  have hkeep : (Heap.keep (h.slot r)).body = (h.slot r).body ∧
      (h.slot r).gen ≤ (Heap.keep (h.slot r)).gen ∧
      (Heap.keep (h.slot r)).hidden = (h.slot r).hidden ∧ (Heap.keep (h.slot r)).dark = false := by
    exact ⟨promoteOnce_body _, promoteOnce_gen _, (promoteOnce_flags _).2, rfl⟩
  unfold Heap.sweepYoung
  simp only
  split
  · exact .inl ⟨_, rfl, rfl, Nat.le_refl _, rfl, rfl⟩
  next hyoung =>
    have hgen : (h.slot r).gen = 0 := by
      simp only [Bool.or_eq_true, decide_eq_true_eq, not_or] at hyoung
      omega
    split
    · exact .inl ⟨_, rfl, hkeep⟩
    · split
      · exact .inl ⟨_, rfl, hkeep⟩
      · split
        · exact .inl ⟨_, rfl, hkeep⟩
        · exact .inr ⟨rfl, hgen⟩

theorem sweepYoung_tame (dark : ℕ → Bool) (r : ℕ)
    (hold : ∀ r, h.hasFinalizer r = true → 0 < (h.slot r).gen) :
    Tame h (h.sweepYoung dark r) := by
  rcases sweepYoung_cases dark h r with ⟨s, heq, hbody, hgen, -, hwhite⟩ | ⟨heq, hgen⟩
  · rw [heq]
    refine Tame.setSlot (by rw [hbody]) (fun hpos => by omega) fun hlive => ⟨hbody ▸ hlive, ?_⟩
    rw [hwhite]
    rintro ⟨⟩
  · rw [heq]
    have hfunc : h.finalizerFunc r = none := by
      by_contra hne
      have hpos := hold r (hasFinalizer_iff.mpr hne)
      omega
    by_cases hlt : r < h.size
    · have htame := Tame.setSlot (h := h) (r := r)
        (s := { h.slot r with body := none, nextFree := h.freeList }) ?_ id
        fun hne => absurd rfl hne
      · exact ⟨htame.finalizerFunc, rfl, rfl, rfl, htame.old, htame.white⟩
      · unfold Heap.finalizerFunc Heap.object at hfunc
        rw [if_pos hlt] at hfunc
        exact hfunc.symm
    · have hobject : ∀ q, (h.pushFree r).object q = h.object q := by
        intro q
        unfold Heap.object
        rw [Heap.pushFree_size]
        split
        next hq => rw [Heap.pushFree_of_ne h r (by omega)]
        next => rfl
      refine ⟨fun q => finalizerFunc_congr (hobject q), rfl, rfl, rfl, fun q hq hpos => ?_,
        fun hwhite q hq => ?_⟩
      · rwa [Heap.pushFree_of_ne h r (by have := hasFinalizer_lt hq; omega)]
      · rw [hobject] at hq
        have hq' := (object_ne_none_iff.mp hq).1
        rw [Heap.pushFree_of_ne h r (by omega)]
        exact hwhite q hq

theorem sweepYoungs_tame (dark : ℕ → Bool) (rs : List ℕ)
    (hold : ∀ r, h.hasFinalizer r = true → 0 < (h.slot r).gen) :
    Tame h (rs.foldl (Heap.sweepYoung dark) h) := by
  induction rs generalizing h with
  | nil => exact Tame.refl h
  | cons r rs ih =>
    have htame := sweepYoung_tame dark r hold
    refine htame.trans (ih fun q hq => ?_)
    rw [htame.hasFinalizer] at hq
    exact htame.old q hq (hold q hq)

theorem sweepYoungs_of_notMem (dark : ℕ → Bool) {rs : List ℕ} (hr : r ∉ rs) :
    (rs.foldl (Heap.sweepYoung dark) h).slot r = h.slot r := by
  induction rs generalizing h with
  | nil => rfl
  | cons q rs ih =>
    rw [List.mem_cons, not_or] at hr
    rw [List.foldl_cons, ih hr.2]
    rcases sweepYoung_cases dark h q with ⟨s, heq, -⟩ | ⟨heq, -⟩
    · rw [heq, Heap.setSlot_of_ne h q s hr.1]
    · rw [heq, Heap.pushFree_of_ne h q hr.1]

theorem sweepYoungs_hidden (dark : ℕ → Bool) (rs : List ℕ) :
    ((rs.foldl (Heap.sweepYoung dark) h).slot r).hidden = (h.slot r).hidden := by
  induction rs generalizing h with
  | nil => rfl
  | cons q rs ih =>
    rw [List.foldl_cons, ih]
    by_cases hr : r = q
    · subst hr
      rcases sweepYoung_cases dark h r with ⟨s, heq, -, -, hhidden, -⟩ | ⟨heq, -⟩
      · rw [heq, Heap.setSlot_self, hhidden]
      · rw [heq, Heap.pushFree_self]
    · rcases sweepYoung_cases dark h q with ⟨s, heq, -⟩ | ⟨heq, -⟩
      · rw [heq, Heap.setSlot_of_ne h q s hr]
      · rw [heq, Heap.pushFree_of_ne h q hr]

theorem keeps_of_slot (hdark : (h.slot r).dark = true → (h'.slot r).dark = true)
    (hhidden : (h.slot r).hidden = true → (h'.slot r).hidden = true)
    (hkeeps : c.keeps h r = true) : c.keeps h' r = true := by
  cases c with
  | full stackObjs =>
    rw [keeps_full_iff] at hkeeps ⊢
    rcases hkeeps with hd | hh | hmem
    · exact .inl (hdark hd)
    · exact .inr (.inl (hhidden hh))
    · exact .inr (.inr hmem)
  | final => cases hkeeps

/-- The young collection frees nothing with a finalizer; it takes marks away. -/
theorem collectYoungGarbage_tame {dark : ℕ → Bool} (hold : ∀ r, h.hasFinalizer r = true →
    0 < (h.slot r).gen) (hcollect : h.collectYoungGarbage dark = some h') :
    Tame h h' ∧ ∀ c r, Collector.keeps h r c = true → (r ∈ h.youngStack →
      Collector.keeps (h.setSlot r { h.slot r with dark := false }) r c = true) →
        Collector.keeps h' r c = true := by
  unfold Heap.collectYoungGarbage at hcollect
  split at hcollect
  · obtain rfl := Option.some.inj hcollect
    exact ⟨Tame.refl h, fun _ _ hkeeps _ => hkeeps⟩
  · split at hcollect
    · cases hcollect
    · split at hcollect
      · obtain rfl := Option.some.inj hcollect
        exact ⟨Tame.refl h, fun _ _ hkeeps _ => hkeeps⟩
      · obtain rfl := Option.some.inj hcollect
        have htame := sweepYoungs_tame dark h.youngStack hold
        refine ⟨⟨htame.finalizerFunc, htame.activeFinalizers, htame.inGC, htame.dontGC,
          htame.old, htame.white⟩, fun c r hkeeps hyoung => ?_⟩
        by_cases hmem : r ∈ h.youngStack
        · refine keeps_of_slot ?_ ?_ (hyoung hmem)
          · rw [Heap.setSlot_self]
            rintro ⟨⟩
          · rw [Heap.setSlot_self]
            exact fun hhidden => (sweepYoungs_hidden dark h.youngStack).trans hhidden
        · have hslot := sweepYoungs_of_notMem (h := h) dark hmem
          refine keeps_of_slot ?_ ?_ hkeeps
          · exact fun hd => (congrArg Slot.dark hslot).trans hd
          · exact fun hh => (congrArg Slot.hidden hslot).trans hh

/-- What `setObjectFinalizer` does. -/
structure Finalized (h : Heap) (r callable : ℕ) (h' : Heap) : Prop where
  set : h'.finalizerFunc r = some callable
  others : ∀ q ≠ r, h'.slot q = h.slot q
  size : h'.size = h.size
  old : 0 < (h.slot r).gen ∨ h.hasFinalizer r = false → 0 < (h'.slot r).gen
  dark : (h'.slot r).dark = (h.slot r).dark
  hidden : (h'.slot r).hidden = (h.slot r).hidden
  live : h.object r ≠ none
  activeFinalizers : h'.activeFinalizers =
    if h.hasFinalizer r = true then h.activeFinalizers else h.activeFinalizers + 1
  inGC : h'.inGC = h.inGC
  dontGC : h'.dontGC = h.dontGC

theorem setFinalizerFunc_some {body : ObjBody} (hself : body.self?.isNone = false)
    (callable : ℕ) : (body.setFinalizerFunc (some callable)).finalizerFunc = some callable := by
  cases body with
  | iclass _ _ _ => cases hself
  | function _ _ _ _ _ => cases hself
  | scope _ _ => cases hself
  | nativeFunction _ _ => cases hself
  | boundMethod _ _ => cases hself
  | upvalue _ => cases hself
  | closure _ _ => cases hself
  | internal _ => cases hself
  | _ => rfl

theorem objWrite_slot (h : Heap) (pointed : ℕ) :
    (h.objWrite pointed).slot = h.slot ∧ (h.objWrite pointed).size = h.size ∧
      (h.objWrite pointed).activeFinalizers = h.activeFinalizers ∧
      (h.objWrite pointed).inGC = h.inGC ∧ (h.objWrite pointed).dontGC = h.dontGC := by
  unfold Heap.objWrite
  split
  · exact ⟨rfl, rfl, rfl, rfl, rfl⟩
  · exact ⟨rfl, rfl, rfl, rfl, rfl⟩

theorem promoteOnce_pos (s : Slot) : 0 < (Heap.promoteOnce s).gen := by
  unfold Heap.promoteOnce
  split
  next hmax =>
    rw [hmax]
    decide
  next => exact Nat.succ_pos _

theorem setObjectFinalizer_finalized {callable : ℕ}
    (hset : h.setObjectFinalizer r callable = some h') : Finalized h r callable h' := by
  unfold Heap.setObjectFinalizer at hset
  split at hset
  · cases hset
  next body hobject =>
    split at hset
    · cases hset
    next hself =>
      have hself : body.self?.isNone = false := by rwa [Bool.not_eq_true] at hself
      have hlive : h.object r ≠ none := by
        rw [hobject]
        exact Option.some_ne_none body
      have hlt := (object_ne_none_iff.mp hlive).1
      have hhas : h.hasFinalizer r = body.finalizerFunc.isSome := by
        unfold Heap.hasFinalizer
        rw [hobject]
        rfl
      obtain rfl := Option.some.inj hset
      -- the heap after the counter has gone up, if it does
      obtain ⟨g, hg⟩ : ∃ g, g = if body.finalizerFunc.isNone then h.addFinalizer r else h :=
        ⟨_, rfl⟩
      have hslot : (∀ q ≠ r, g.slot q = h.slot q) ∧ g.size = h.size ∧
          (0 < (h.slot r).gen ∨ h.hasFinalizer r = false → 0 < (g.slot r).gen) ∧
          (g.slot r).dark = (h.slot r).dark ∧ (g.slot r).hidden = (h.slot r).hidden ∧
          g.activeFinalizers = (if h.hasFinalizer r = true then h.activeFinalizers
            else h.activeFinalizers + 1) ∧ g.inGC = h.inGC ∧ g.dontGC = h.dontGC := by
        rw [hg, hhas]
        cases hfunc : body.finalizerFunc with
        | none =>
          have hself := Heap.setSlot_self h r (Heap.promoteOnce (h.slot r))
          refine ⟨fun q hq => Heap.setSlot_of_ne h r _ hq, rfl, fun _ => ?_, ?_, ?_, rfl, rfl, rfl⟩
          · exact (promoteOnce_pos (h.slot r)).trans_eq (congrArg Slot.gen hself).symm
          · exact (congrArg Slot.dark hself).trans (promoteOnce_flags _).1
          · exact (congrArg Slot.hidden hself).trans (promoteOnce_flags _).2
        | some f =>
          refine ⟨fun _ _ => rfl, rfl, fun hpos => ?_, rfl, rfl, rfl, rfl, rfl⟩
          exact hpos.resolve_right (by simp)
      obtain ⟨hothers, hsize, hgen, hdark, hhidden, hactive, hin, hdont⟩ := hslot
      obtain ⟨hwslot, hwsize, hwactive, hwin, hwdont⟩ := objWrite_slot g callable
      rw [← hg]
      refine ⟨?_, fun q hq => ?_, ?_, fun hpos => ?_, ?_, ?_, hlive, ?_, ?_, ?_⟩
      · unfold Heap.finalizerFunc
        rw [setSlot_object, if_pos rfl, hwsize, hsize, if_pos hlt]
        exact setFinalizerFunc_some hself callable
      · rw [Heap.setSlot_of_ne _ r _ hq, hwslot, hothers q hq]
      · rw [Heap.setSlot_size, hwsize, hsize]
      · rw [Heap.setSlot_self, hwslot]
        exact hgen hpos
      · rw [Heap.setSlot_self, hwslot]
        exact hdark
      · rw [Heap.setSlot_self, hwslot]
        exact hhidden
      · exact hwactive.trans hactive
      · exact hwin.trans hin
      · exact hwdont.trans hdont

/-- A finalizer is set. -/
theorem Inv.set {callable : ℕ} (hi : Inv pending m) (m' : Machine) (hf : Finalized m.heap r callable m'.heap)
    (hscans : m'.scans = m.scans) (hfree : ∃ l, FreeList m'.heap l) (hyoung : Young m'.heap)
    (hr : ∀ scan ∈ m.scans, r ≠ scan.cursor ∧
      (r < scan.cursor → scan.collector.keeps m.heap r = true)) :
    Inv (Function.update pending r (some callable)) m' := by
  have hobject : ∀ q ≠ r, m'.heap.object q = m.heap.object q := fun q hq => by
    unfold Heap.object
    rw [hf.size, hf.others q hq]
  have hfunc : ∀ q ≠ r, m'.heap.finalizerFunc q = m.heap.finalizerFunc q := fun q hq =>
    finalizerFunc_congr (hobject q hq)
  have hhas : m'.heap.hasFinalizer r = true := by
    rw [hasFinalizer_iff, hf.set]
    exact Option.some_ne_none callable
  refine ⟨hfree, hyoung, ?_, fun q hq => ?_, fun q hq => ?_, fun scan hscan => ?_,
    fun scan hscan q hq hfin => ?_, hscans ▸ hi.waiting, hf.inGC.trans hi.inGC,
    fun hnil => hf.dontGC.trans (hi.dontGC (hscans ▸ hnil)), fun hnil q hq => ?_⟩
  · have hinsert : m'.heap.finalizers = insert r m.heap.finalizers := by
      ext q
      rw [Finset.mem_insert, mem_finalizers, mem_finalizers]
      by_cases hq : q = r
      · subst hq
        simp [hhas]
      · rw [hasFinalizer_congr (hfunc q hq)]
        simp [hq]
    rw [hf.activeFinalizers, hi.activeFinalizers, hinsert]
    split
    next hold => rw [Finset.insert_eq_of_mem (mem_finalizers.mpr hold)]
    next hnew =>
      rw [Finset.card_insert_of_notMem (mt mem_finalizers.mp hnew)]
      rfl
  · by_cases hqr : q = r
    · subst hqr
      refine hf.old ?_
      by_cases hold : m.heap.hasFinalizer q = true
      · exact .inl (hi.old q hold)
      · exact .inr (Bool.not_eq_true _ ▸ hold)
    · rw [hasFinalizer_congr (hfunc q hqr)] at hq
      rw [hf.others q hqr]
      exact hi.old q hq
  · by_cases hqr : q = r
    · subst hqr
      rw [Function.update_self, hf.set]
    · rw [Function.update_of_ne hqr, hfunc q hqr]
      exact hi.last q (hscans ▸ hq)
  · rw [hscans] at hscan
    have hne := (hr scan hscan).1.symm
    rw [Function.update_of_ne hne, hasFinalizer_congr (hfunc _ hne)]
    exact hi.called scan hscan
  · rw [hscans] at hscan
    by_cases hqr : q = r
    · subst hqr
      exact keeps_of_slot (fun hd => hf.dark.trans hd) (fun hh => hf.hidden.trans hh)
        ((hr scan hscan).2 hq)
    · rw [hasFinalizer_congr (hfunc q hqr)] at hfin
      refine keeps_of_slot ?_ ?_ (hi.behind scan hscan q hq hfin)
      · rw [hf.others q hqr]
        exact id
      · rw [hf.others q hqr]
        exact id
  · rw [hscans] at hnil
    by_cases hqr : q = r
    · subst hqr
      rw [hf.dark]
      exact hi.white hnil q hf.live
    · rw [hobject q hqr] at hq
      rw [hf.others q hqr]
      exact hi.white hnil q hq

/-! ## The collectors -/

/-- What a collector in phase 1 finds, when it goes on at the slot `i`. -/
structure Phase1 (pending : ℕ → Option ℕ) (h : Heap) (c : Collector) (i : ℕ) : Prop where
  freeList : ∃ l, FreeList h l
  young : Young h
  activeFinalizers : h.activeFinalizers = h.finalizers.card
  old : ∀ r, h.hasFinalizer r = true → 0 < (h.slot r).gen
  last : ∀ r, pending r = h.finalizerFunc r
  behind : ∀ r < i, h.hasFinalizer r = true → c.keeps h r = true
  dontGC : h.dontGC = false

theorem sweep_flags (stackObjs : List ℕ) (h : Heap) :
    (h.sweep stackObjs).activeFinalizers = h.activeFinalizers ∧
      (h.sweep stackObjs).dontGC = h.dontGC := by
  have hactive := sweepSlots_eq Heap.activeFinalizers (fun _ _ _ => rfl) (fun _ _ => rfl) stackObjs
    (List.range h.size) h 0
  have hdont := sweepSlots_eq Heap.dontGC (fun _ _ _ => rfl) (fun _ _ => rfl) stackObjs
    (List.range h.size) h 0
  unfold Heap.sweep
  simp only
  split
  · exact ⟨(addHeap_activeFinalizers _).trans hactive, (addHeap_dontGC _).trans hdont⟩
  · exact ⟨hactive, hdont⟩

/-- Phase 2, when phase 1 has left no finalizer to call. -/
theorem Phase1.phase2 {i : ℕ} (hp : Phase1 pending h c i)
    (hkeeps : ∀ r, h.hasFinalizer r = true → c.keeps h r = true) :
    Inv pending ⟨c.phase2 h, []⟩ := by
  cases c with
  | full stackObjs =>
    obtain ⟨l, hl⟩ := hp.freeList
    obtain ⟨l', hl', -⟩ := sweep_keeps stackObjs hl
    obtain ⟨hactive, hdont⟩ := sweep_flags stackObjs h
    have hfunc : ∀ r, (h.sweep stackObjs).finalizerFunc r = h.finalizerFunc r := by
      intro r
      obtain ⟨hkept, hfreed, -⟩ := sweep_object stackObjs h r
      by_cases hk : h.Kept stackObjs r
      · exact finalizerFunc_congr (hkept hk)
      · rw [finalizerFunc_of_object (hfreed hk)]
        by_contra hne
        exact hk (keeps_full_iff.mp (hkeeps r (hasFinalizer_iff.mpr (Ne.symm hne))))
    refine ⟨⟨l', hl'⟩, phase2_young (.full stackObjs), ?_, fun r hr => ?_, fun r _ => ?_,
      fun scan hscan => (List.not_mem_nil hscan).elim,
      fun scan hscan => (List.not_mem_nil hscan).elim, Nat.zero_le 1, rfl,
      fun _ => hdont.trans hp.dontGC, fun _ r hr => ?_⟩
    · change (h.sweep stackObjs).activeFinalizers = (h.sweep stackObjs).finalizers.card
      rw [hactive, finalizers_congr hfunc]
      exact hp.activeFinalizers
    · change (h.sweep stackObjs).hasFinalizer r = true at hr
      rw [hasFinalizer_congr (hfunc r)] at hr
      have hswept := (sweep_swept stackObjs h r).1 (hasFinalizer_lt hr)
      exact (hp.old r hr).trans_le hswept.gen
    · exact (hp.last r).trans (hfunc r).symm
    · obtain ⟨hswept, -, hnone⟩ := sweep_swept stackObjs h r
      by_cases hlt : r < h.size
      · exact (hswept hlt).white (object_ne_none_iff.mp hr).2
      · exact absurd (hnone hlt) hr
  | final =>
    have hnone : ∀ r, h.finalizerFunc r = none := by
      intro r
      by_contra hne
      have hkeep := hkeeps r (hasFinalizer_iff.mpr hne)
      cases hkeep
    have hobject : ∀ r, h.freeAll.object r = none := fun r => if_neg (Nat.not_lt_zero r)
    have hfunc : ∀ r, h.freeAll.finalizerFunc r = none := fun r =>
      finalizerFunc_of_object (hobject r)
    refine ⟨⟨[], freeAll_keeps⟩, phase2_young .final, ?_, fun r hr => ?_, fun r _ => ?_,
      fun scan hscan => (List.not_mem_nil hscan).elim,
      fun scan hscan => (List.not_mem_nil hscan).elim, Nat.zero_le 1, rfl,
      fun _ => hp.dontGC, fun _ r hr => absurd (hobject r) hr⟩
    · have heq : h.freeAll.finalizers = h.finalizers :=
        finalizers_congr fun r => (hfunc r).trans (hnone r).symm
      change h.activeFinalizers = h.freeAll.finalizers.card
      rw [heq]
      exact hp.activeFinalizers
    · exact absurd (hfunc r) (hasFinalizer_iff.mp hr)
    · rw [hp.last r, hnone r]
      exact (hfunc r).symm

/-- Phase 1 calls the first finalizer it comes to. -/
theorem Phase1.call {i cursor : ℕ} (hp : Phase1 pending h c i)
    (hfin : h.finalizable c cursor = true)
    (hbefore : ∀ r, i ≤ r → r < cursor → h.finalizable c r = false) :
    Inv (Function.update pending cursor none) ⟨h.enterFinalizer, [⟨c, cursor⟩]⟩ where
  freeList := by
    obtain ⟨l, hl⟩ := hp.freeList
    exact ⟨l, (enterFinalizer_sameFree h).freeList_of hl⟩
  young := (enterFinalizer_sameFree h).young rfl hp.young
  activeFinalizers := hp.activeFinalizers
  old := hp.old
  last r hr := by
    have hne : r ≠ cursor := hr ⟨c, cursor⟩ List.mem_cons_self
    rw [Function.update_of_ne hne]
    exact hp.last r
  called scan hscan := by
    rw [List.mem_singleton] at hscan
    subst hscan
    refine ⟨Function.update_self .., ?_⟩
    unfold Heap.finalizable at hfin
    rw [Bool.and_eq_true] at hfin
    exact hfin.2
  behind scan hscan r hr hhas := by
    rw [List.mem_singleton] at hscan
    subst hscan
    change c.keeps h r = true
    by_cases hi : r < i
    · exact hp.behind r hi hhas
    · have hnot := hbefore r (by omega) hr
      change h.hasFinalizer r = true at hhas
      unfold Heap.finalizable at hnot
      rw [hhas, Bool.and_true, Bool.not_eq_false'] at hnot
      exact hnot
  waiting := Nat.le_refl 1
  inGC := rfl
  dontGC hnil := by cases hnil
  white hnil := by cases hnil

theorem Phase1.resets {i : ℕ} (hp : Phase1 pending h c i) :
    Phase1 pending { h with freeList := none } c i :=
  ⟨⟨[], freeList_nil rfl⟩, ⟨hp.young.nodup, hp.young.live⟩, hp.activeFinalizers, hp.old, hp.last,
    hp.behind, hp.dontGC⟩

/-- Nothing that is pending is freed, and a finalizer that is called is the one that was set last
and is pending no more. -/
theorem Inv.collector_step {a : Action} {pending' : ℕ → Option ℕ}
    (hi : Inv pending' s'.machine) (hcalls : s.calls s' a = s'.machine.scans.head?.map Scan.cursor)
    (ha : ∀ q callable, a ≠ .heap (.setObjectFinalizer q callable))
    (hcursor : ∀ scan ∈ s'.machine.scans,
      pending scan.cursor = s'.machine.heap.finalizerFunc scan.cursor)
    (hother : ∀ r, (∀ scan ∈ s'.machine.scans, r ≠ scan.cursor) → pending' r = pending r)
    (hunreachable : ∀ scan ∈ s'.machine.scans, scan.collector ≠ .final →
      ¬ Reachable s.vm s'.machine.heap scan.cursor) :
    CallsPending pending s s' a ∧ nextPending pending s s' a = pending' := by
  have hfreed : ∀ r, s'.machine.heap.object r = none → pending r = none := by
    intro r hobject
    have hfunc := finalizerFunc_of_object hobject
    by_cases hr : ∀ scan ∈ s'.machine.scans, r ≠ scan.cursor
    · rw [← hother r hr, hi.last r hr, hfunc]
    · push Not at hr
      obtain ⟨scan, hscan, rfl⟩ := hr
      rw [hcursor scan hscan, hfunc]
  refine ⟨⟨fun r hr => ?_, fun r hr hfull => ?_, fun r _ => hfreed r⟩, ?_⟩
  · rw [hcalls] at hr
    obtain ⟨scan, hscan, rfl⟩ := Option.map_eq_some_iff.mp hr
    have hmem := List.mem_of_mem_head? hscan
    rw [hcursor scan hmem]
    exact ⟨hasFinalizer_iff.mp (hi.called scan hmem).2, rfl⟩
  · rw [hcalls] at hr
    obtain ⟨scan, hscan, rfl⟩ := Option.map_eq_some_iff.mp hr
    exact hunreachable scan (List.mem_of_mem_head? hscan) (hfull scan hscan)
  · funext r
    unfold nextPending
    rw [hcalls]
    have hwaiting := hi.waiting
    cases hscans : s'.machine.scans with
    | nil =>
      have hr := hother r (by rw [hscans]; simp)
      rw [hr]
      by_cases hobject : s'.machine.heap.object r = none
      · simp [hobject, hfreed r hobject]
      · rw [if_neg (by simp [hobject])]
        split
        next _ q callable => exact absurd rfl (ha q callable)
        next => rfl
    | cons scan scans =>
      rw [hscans, List.length_cons] at hwaiting
      have hnil : scans = [] := List.length_eq_zero_iff.mp (by omega)
      subst hnil
      by_cases hcur : r = scan.cursor
      · subst hcur
        rw [if_pos (by simp)]
        exact (hi.called scan (by rw [hscans]; exact List.mem_cons_self)).1.symm
      · have hr := hother r (by rw [hscans]; simpa using hcur)
        rw [hr]
        by_cases hobject : s'.machine.heap.object r = none
        · simp [hobject, hfreed r hobject]
        · rw [if_neg (by simp [hobject, Ne.symm hcur])]
          split
          next _ q callable => exact absurd rfl (ha q callable)
          next => rfl

/-- The collector is done. -/
theorem Inv.collects {a : Action} (hi : Inv pending s'.machine)
    (hcalls : s.calls s' a = s'.machine.scans.head?.map Scan.cursor)
    (ha : ∀ q callable, a ≠ .heap (.setObjectFinalizer q callable))
    (hscans : s'.machine.scans = []) :
    CallsPending pending s s' a ∧ Inv (nextPending pending s s' a) s'.machine := by
  have hnone : ∀ scan, scan ∉ s'.machine.scans := by simp [hscans]
  have hcursor : ∀ scan ∈ s'.machine.scans,
      pending scan.cursor = s'.machine.heap.finalizerFunc scan.cursor :=
    fun scan hscan => absurd hscan (hnone scan)
  obtain ⟨hstep, hnext⟩ := hi.collector_step hcalls ha hcursor (fun _ _ => rfl)
    (fun scan hscan => absurd hscan (hnone scan))
  rw [hnext]
  exact ⟨hstep, hi⟩

/-- Phase 1 goes on, to its next finalizer or to the end. -/
theorem Phase1.scanFrom {i : ℕ} {a : Action} (hp : Phase1 pending h c i)
    (hm : s'.machine = scanFrom h [] c i)
    (hcalls : s.calls s' a = s'.machine.scans.head?.map Scan.cursor)
    (ha : ∀ q callable, a ≠ .heap (.setObjectFinalizer q callable))
    (hunreachable : c ≠ .final → ∀ r, i ≤ r → Reachable s.vm h r → h.hasFinalizer r = true →
      c.keeps h r = true) :
    CallsPending pending s s' a ∧ Inv (nextPending pending s s' a) s'.machine := by
  unfold Gc.scanFrom at hm
  split at hm
  next cursor hfind =>
    obtain ⟨hfin, hmem, hbefore⟩ := List.find?_range'_eq_some.mp hfind
    have hi := hp.call hfin fun r hir hr => by simpa using hbefore r hir hr
    rw [← hm] at hi
    have hscans : s'.machine.scans = [⟨c, cursor⟩] := by rw [hm]
    have hset : ∀ scan ∈ s'.machine.scans,
        pending scan.cursor = s'.machine.heap.finalizerFunc scan.cursor := by
      rw [hscans, hm]
      intro scan hscan
      rw [List.mem_singleton] at hscan
      subst hscan
      exact hp.last cursor
    have hother : ∀ r, (∀ scan ∈ s'.machine.scans, r ≠ scan.cursor) →
        Function.update pending cursor none r = pending r := by
      intro r hr
      rw [hscans] at hr
      exact Function.update_of_ne (hr ⟨c, cursor⟩ List.mem_cons_self) ..
    have hnot : ∀ scan ∈ s'.machine.scans, scan.collector ≠ .final →
        ¬ Reachable s.vm s'.machine.heap scan.cursor := by
      rw [hscans]
      intro scan hscan hfull hreach
      rw [List.mem_singleton] at hscan
      subst hscan
      unfold Heap.finalizable at hfin
      rw [Bool.and_eq_true, Bool.not_eq_true'] at hfin
      have hreach : Reachable s.vm h cursor := by
        rw [hm] at hreach
        exact hreach
      have hkeeps := hunreachable hfull cursor (List.mem_range'_1.mp hmem).1 hreach hfin.2
      exact absurd hkeeps (by simp [hfin.1])
    obtain ⟨hstep, hnext⟩ := hi.collector_step hcalls ha hset hother hnot
    rw [hnext]
    exact ⟨hstep, hi⟩
  next hfind =>
    have hi := hp.resets.phase2 fun r hhas => by
      change c.keeps h r = true
      change h.hasFinalizer r = true at hhas
      by_cases hir : r < i
      · exact hp.behind r hir hhas
      · have hnot := find?_range'_eq_none.mp hfind r (by omega) (hasFinalizer_lt hhas)
        unfold Heap.finalizable at hnot
        rw [hhas, Bool.and_true, Bool.not_eq_false'] at hnot
        exact hnot
    rw [← hm] at hi
    have hscans : s'.machine.scans = [] := by rw [hm]
    exact hi.collects hcalls ha hscans

theorem mark_gen (dark : ℕ → Bool) (h : Heap) (r : ℕ) :
    (h.slot r).gen ≤ ((h.mark dark).slot r).gen := by
  unfold Heap.mark
  simp only
  split
  · split
    · exact Nat.le_succ _
    · exact Nat.le_refl _
  · exact Nat.le_refl _

/-- A full collection that begins, with no collector that waits. -/
theorem Inv.phase1 (hi : Inv pending s.machine) (hnil : s.machine.scans = []) (after : Vm)
    (c : Collector) : Phase1 pending (s.markedHeap after) c 0 := by
  have hfunc : ∀ r, (s.markedHeap after).finalizerFunc r = s.machine.heap.finalizerFunc r :=
    fun r => finalizerFunc_congr (markedHeap_object s after r).1
  have hsame := mark_sameFree (s.machine.heap.marked (s.vm.grayRoots after)) s.machine.heap
  refine ⟨⟨[], freeList_nil rfl⟩, ?_, ?_, fun r hr => ?_, fun r => ?_,
    fun r hr => absurd hr (Nat.not_lt_zero r), hi.dontGC hnil⟩
  · have hyoung := hsame.young rfl hi.young
    exact ⟨hyoung.nodup, hyoung.live⟩
  · rw [finalizers_congr hfunc]
    exact hi.activeFinalizers
  · rw [hasFinalizer_congr (hfunc r)] at hr
    exact (hi.old r hr).trans_le (mark_gen _ _ r)
  · rw [hfunc]
    exact hi.last r (by simp [hnil])

theorem no_finalizers (hcard : (0 : ℤ) = h.finalizers.card) (r : ℕ) :
    h.hasFinalizer r ≠ true := by
  have hempty : h.finalizers = ∅ := Finset.card_eq_zero.mp (by omega)
  rw [ne_eq, ← mem_finalizers, hempty]
  exact Finset.notMem_empty r

theorem head?_map_of_length {β : Type} {l : List Scan} (f : Scan → β) :
    (if 0 < l.length then l.head?.map f else none) = l.head?.map f := by
  cases l with
  | nil => rfl
  | cons scan l => rw [if_pos (by simp)]

theorem Inv.collectGarbage (hi : Inv pending s.machine) (ho : Orderly s .collectGarbage)
    (hstep : s.step .collectGarbage = some s') :
    CallsPending pending s s' .collectGarbage ∧
      Inv (nextPending pending s s' .collectGarbage) s'.machine := by
  rcases collectGarbage_cases hstep with ⟨-, rfl⟩ | ⟨hon, after, hreap, hm⟩
  · obtain ⟨hcalls, hnext⟩ := hi.tame_step s' (a := .collectGarbage) (fun _ => rfl)
      (if_neg (Nat.lt_irrefl _)) (by rintro _ _ ⟨⟩)
    rw [hnext]
    exact ⟨hcalls, hi⟩
  · obtain ⟨hnil, hfinds⟩ := ho hon
    have hcalls : s.calls s' .collectGarbage = s'.machine.scans.head?.map Scan.cursor := by
      change (if s.machine.scans.length < _ then _ else _) = _
      rw [hnil]
      exact head?_map_of_length Scan.cursor
    have hp := hi.phase1 hnil after (.full s.vm.stackObjs)
    rw [hnil] at hm
    split at hm
    next hzero =>
      have hnone := no_finalizers (h := s.markedHeap after) (by
        rw [← hp.activeFinalizers]
        exact hzero.symm)
      have hdone := hp.phase2 fun r hr => absurd hr (hnone r)
      refine Inv.collects ?_ hcalls (by rintro _ _ ⟨⟩) (by rw [hm])
      rw [hm]
      exact hdone
    next =>
      refine hp.scanFrom hm hcalls (by rintro _ _ ⟨⟩) fun _ r _ hreach hhas => ?_
      rw [markedHeap_reachable] at hreach
      rw [(markedHeap_object s after r).2.1] at hhas
      exact keeps_full_iff.mpr ((markedHeap_kept s after r).mpr (hfinds after hreap r hreach hhas))

theorem Inv.freeObjects (hi : Inv pending s.machine) (ho : Orderly s (.heap .freeObjects))
    (hstep : s.step (.heap .freeObjects) = some s') :
    CallsPending pending s s' (.heap .freeObjects) ∧
      Inv (nextPending pending s s' (.heap .freeObjects)) s'.machine := by
  have hnil : s.machine.scans = [] := ho
  obtain rfl : { s with machine := Gc.freeObjects s.machine } = s' := Option.some.inj hstep
  have hp : Phase1 pending s.machine.heap .final 0 :=
    ⟨hi.freeList, hi.young, hi.activeFinalizers, hi.old, fun r => hi.last r (by simp [hnil]),
      fun r hr => absurd hr (Nat.not_lt_zero r), hi.dontGC hnil⟩
  have hcalls : s.calls { s with machine := Gc.freeObjects s.machine } (.heap .freeObjects) =
      (Gc.freeObjects s.machine).scans.head?.map Scan.cursor := by
    change (if s.machine.scans.length < _ then _ else _) = _
    rw [hnil]
    exact head?_map_of_length Scan.cursor
  have hm : Gc.freeObjects s.machine = if s.machine.heap.activeFinalizers = 0 then
      ⟨s.machine.heap.freeAll, []⟩ else scanFrom s.machine.heap [] .final 0 := by
    unfold Gc.freeObjects
    rw [hnil]
  split at hm
  next hzero =>
    have hnone := no_finalizers (h := s.machine.heap) (by rw [← hi.activeFinalizers, hzero])
    have hdone := hp.phase2 fun r hr => absurd hr (hnone r)
    refine Inv.collects ?_ hcalls (by rintro _ _ ⟨⟩) (by rw [hm])
    change Inv pending (Gc.freeObjects s.machine)
    rw [hm]
    exact hdone
  next => exact hp.scanFrom hm hcalls (by rintro _ _ ⟨⟩) fun hne => absurd rfl hne

/-- The finalizer returns, and its object has none any more. -/
theorem Inv.leaves {scan : Scan} (hi : Inv pending m) (hscans : m.scans = [scan]) :
    Phase1 pending (m.heap.leaveFinalizer scan.cursor) scan.collector (scan.cursor + 1) := by
  have hmem : scan ∈ m.scans := by
    rw [hscans]
    exact List.mem_cons_self
  obtain ⟨hpending, hhas⟩ := hi.called scan hmem
  have hsame := leaveFinalizer_sameFree m.heap scan.cursor
  have hfunc : ∀ r ≠ scan.cursor,
      (m.heap.leaveFinalizer scan.cursor).finalizerFunc r = m.heap.finalizerFunc r := by
    intro r hr
    refine finalizerFunc_congr ?_
    unfold Heap.object
    rw [hsame.size, leaveFinalizer_slot hr]
  have hcursor : (m.heap.leaveFinalizer scan.cursor).finalizerFunc scan.cursor = none := by
    have hobject := setSlot_object m.heap scan.cursor { m.heap.slot scan.cursor with
      body := (m.heap.slot scan.cursor).body.map (ObjBody.setFinalizerFunc none) } scan.cursor
    have hobject : (m.heap.leaveFinalizer scan.cursor).object scan.cursor = _ := hobject
    unfold Heap.finalizerFunc
    rw [hobject, if_pos rfl, if_pos (hasFinalizer_lt hhas)]
    cases (m.heap.slot scan.cursor).body with
    | none => rfl
    | some body => exact setFinalizerFunc_none body
  have hne : ∀ r, (m.heap.leaveFinalizer scan.cursor).hasFinalizer r = true →
      r ≠ scan.cursor := by
    rintro r hr rfl
    exact hasFinalizer_iff.mp hr hcursor
  have hold : ∀ r, (m.heap.leaveFinalizer scan.cursor).hasFinalizer r = true →
      m.heap.hasFinalizer r = true := by
    intro r hr
    rwa [hasFinalizer_congr (hfunc r (hne r hr))] at hr
  obtain ⟨l, hl⟩ := hi.freeList
  refine ⟨⟨l, hsame.freeList_of hl⟩, hsame.young rfl hi.young, ?_, fun r hr => ?_, fun r => ?_,
    fun r hr hfin => ?_, rfl⟩
  · have herase : (m.heap.leaveFinalizer scan.cursor).finalizers =
        m.heap.finalizers.erase scan.cursor := by
      ext r
      rw [Finset.mem_erase, mem_finalizers, mem_finalizers]
      constructor
      · intro hr
        exact ⟨hne r hr, hold r hr⟩
      · rintro ⟨hrc, hr⟩
        rwa [hasFinalizer_congr (hfunc r hrc)]
    have hcard := Finset.card_erase_add_one (mem_finalizers.mpr hhas)
    have hactive := hi.activeFinalizers
    rw [herase]
    change m.heap.activeFinalizers - 1 = _
    omega
  · rw [leaveFinalizer_slot (hne r hr)]
    exact hi.old r (hold r hr)
  · by_cases hr : r = scan.cursor
    · rw [hr, hpending, hcursor]
    · rw [hfunc r hr]
      refine hi.last r fun scan' hscan' => ?_
      rw [hscans, List.mem_singleton] at hscan'
      rwa [hscan']
  · have hlt : r < scan.cursor := by
      have hrc := hne r hfin
      omega
    have hslot : (m.heap.leaveFinalizer scan.cursor).slot r = m.heap.slot r :=
      leaveFinalizer_slot (hne r hfin)
    refine keeps_of_slot ?_ ?_ (hi.behind scan hmem r hlt (hold r hfin))
    · rw [hslot]
      exact id
    · rw [hslot]
      exact id

theorem Inv.finalizerReturns (hi : Inv pending s.machine)
    (ho : Orderly s (.heap .finalizerReturns))
    (hstep : s.step (.heap .finalizerReturns) = some s') :
    CallsPending pending s s' (.heap .finalizerReturns) ∧
      Inv (nextPending pending s s' (.heap .finalizerReturns)) s'.machine := by
  obtain ⟨m, hreturn, heq⟩ := Option.bind_eq_some_iff.mp hstep
  obtain rfl := Option.some.inj heq
  change Gc.finalizerReturns s.machine = some m at hreturn
  unfold Gc.finalizerReturns at hreturn
  have hwaiting := hi.waiting
  cases hscans : s.machine.scans with
  | nil =>
    rw [hscans] at hreturn
    cases hreturn
  | cons scan scans =>
    rw [hscans, List.length_cons] at hwaiting
    have hnil : scans = [] := List.length_eq_zero_iff.mp (by omega)
    subst hnil
    rw [hscans] at hreturn
    have hp := hi.leaves hscans
    have hcalls : m.scans.length ≤ 1 →
        s.calls { s with machine := m } (.heap .finalizerReturns) =
          m.scans.head?.map Scan.cursor := by
      intro hlen
      change (if s.machine.scans.length = m.scans.length then _ else _) = _
      rw [hscans]
      cases hm : m.scans with
      | nil => rfl
      | cons scan' scans' =>
        rw [hm, List.length_cons] at hlen
        rw [if_pos (by simp only [List.length_cons, List.length_nil]; omega)]
    simp only at hreturn
    split at hreturn
    next hzero =>
      have hm := Option.some.inj hreturn
      have hnone := no_finalizers (h := s.machine.heap.leaveFinalizer scan.cursor) (by
        rw [← hp.activeFinalizers]
        exact hzero.symm)
      have hdone := hp.phase2 fun r hr => absurd hr (hnone r)
      rw [hm] at hdone
      have hnil : m.scans = [] := by rw [← hm]
      exact hdone.collects (hcalls (by simp [hnil])) (by rintro _ _ ⟨⟩) hnil
    next =>
      have hm : ({ s with machine := m } : Process).machine = _ := (Option.some.inj hreturn).symm
      have hlen : m.scans.length ≤ 1 := by
        rw [← Option.some.inj hreturn]
        unfold Gc.scanFrom
        split
        · exact Nat.le_refl 1
        · exact Nat.zero_le 1
      refine hp.scanFrom hm (hcalls hlen) (by rintro _ _ ⟨⟩)
        fun hne r hr hreach hhas => ?_
      have hrc : r ≠ scan.cursor := by omega
      have hslot : (s.machine.heap.leaveFinalizer scan.cursor).slot r = s.machine.heap.slot r :=
        leaveFinalizer_slot hrc
      have hold : s.machine.heap.hasFinalizer r = true := by
        rw [← hhas]
        unfold Heap.hasFinalizer Heap.object
        rw [hslot]
        rfl
      refine keeps_of_slot ?_ ?_ (ho scan (by rw [hscans]; rfl) hne r hr hreach hold)
      · rw [hslot]
        exact id
      · rw [hslot]
        exact id

/-! ## Runs -/

/-- A step of the program that sets no finalizer. -/
theorem Inv.program {op : Op} (hi : Inv pending s.machine) (hop : ¬ op.Collects)
    (hset : ∀ q callable, op ≠ .setObjectFinalizer q callable)
    (hmachine : s.machine.step op = some m') (hscans : m'.scans = s.machine.scans)
    (ht : Tame s.machine.heap m'.heap)
    (hkeeps : ∀ scan ∈ s.machine.scans, ∀ r < scan.cursor,
      s.machine.heap.hasFinalizer r = true → scan.collector.keeps s.machine.heap r = true →
      scan.collector.keeps m'.heap r = true) :
    CallsPending pending s { s with machine := m' } (.heap op) ∧
      Inv (nextPending pending s { s with machine := m' } (.heap op)) m' := by
  obtain ⟨l, hl⟩ := hi.freeList
  obtain ⟨⟨l', hl', -⟩, hyoung⟩ := step_keeps hop hl hi.young hmachine
  have hcalls : s.calls { s with machine := m' } (.heap op) = none := by
    cases op with
    | freeObjects => exact absurd trivial hop
    | finalizerReturns => exact absurd trivial hop
    | _ => rfl
  obtain ⟨hpending, hnext⟩ := hi.tame_step { s with machine := m' } ht.finalizerFunc
    hcalls (by rintro q callable ⟨⟩; exact hset q callable rfl)
  rw [hnext]
  exact ⟨hpending, hi.tame hscans ht ⟨l', hl'⟩ hyoung hkeeps⟩

theorem FieldWrite.bind_finalizerFunc (f : FieldWrite) (body : Option ObjBody) :
    (body.map f.apply).bind ObjBody.finalizerFunc = body.bind ObjBody.finalizerFunc := by
  cases body with
  | none => rfl
  | some body => exact f.finalizerFunc body

/-- Writing a slot keeps what it is kept for. -/
theorem keeps_setSlot {q : ℕ} {s : Slot} (hdark : s.dark = (h.slot q).dark)
    (hhidden : s.hidden = (h.slot q).hidden) (hkeeps : c.keeps h r = true) :
    c.keeps (h.setSlot q s) r = true := by
  by_cases hr : r = q
  · subst hr
    refine keeps_of_slot ?_ ?_ hkeeps
    · rw [Heap.setSlot_self, hdark]
      exact id
    · rw [Heap.setSlot_self, hhidden]
      exact id
  · refine keeps_of_slot ?_ ?_ hkeeps
    · rw [Heap.setSlot_of_ne h q s hr]
      exact id
    · rw [Heap.setSlot_of_ne h q s hr]
      exact id

theorem heap_step {op : Op} (hstep : s.step (.heap op) = some s') :
    ∃ m, s.machine.step op = some m ∧ s' = { s with machine := m } := by
  have hbind : (s.machine.step op).bind (fun m => some { s with machine := m }) = some s' := by
    cases op with
    | collectGarbage dark stackObjs => cases hstep
    | _ => exact hstep
  obtain ⟨m, hm, heq⟩ := Option.bind_eq_some_iff.mp hbind
  exact ⟨m, hm, (Option.some.inj heq).symm⟩

/-- At most one collector waits. -/
theorem Inv.mem_head? (hi : Inv pending m) {scan : Scan} (hscan : scan ∈ m.scans) :
    scan ∈ m.scans.head? := by
  have hwaiting := hi.waiting
  cases hscans : m.scans with
  | nil =>
    rw [hscans] at hscan
    cases hscan
  | cons scan' scans =>
    rw [hscans, List.length_cons] at hwaiting
    have hnil : scans = [] := List.length_eq_zero_iff.mp (by omega)
    rw [hscans, hnil, List.mem_singleton] at hscan
    rw [hscan]
    rfl

theorem Inv.setObjectFinalizer {callable : ℕ} (hi : Inv pending s.machine)
    (ho : Orderly s (.heap (.setObjectFinalizer r callable)))
    (hset : s.machine.heap.setObjectFinalizer r callable = some h') :
    CallsPending pending s { s with machine := { s.machine with heap := h' } }
        (.heap (.setObjectFinalizer r callable)) ∧
      Inv (nextPending pending s { s with machine := { s.machine with heap := h' } }
        (.heap (.setObjectFinalizer r callable))) { s.machine with heap := h' } := by
  have hf := setObjectFinalizer_finalized hset
  obtain ⟨hsame, hstack⟩ := setObjectFinalizer_sameFree hset
  obtain ⟨l, hl⟩ := hi.freeList
  have hobject : ∀ q, h'.object q = none ↔ s.machine.heap.object q = none := by
    intro q
    unfold Heap.object
    rw [hsame.size]
    split
    · exact hsame.body q
    · exact Iff.rfl
  constructor
  · refine ⟨?_, ?_, fun q hlive hnone => absurd ((hobject q).mp hnone) hlive⟩
    · rintro q ⟨⟩
    · rintro q ⟨⟩
  · have hnext : nextPending pending s { s with machine := { s.machine with heap := h' } }
        (.heap (.setObjectFinalizer r callable)) = Function.update pending r (some callable) := by
      funext q
      unfold nextPending
      by_cases hq : h'.object q = none
      · have hne : q ≠ r := by
          rintro rfl
          exact hf.live ((hobject q).mp hq)
        have hpending : pending q = none := by
          by_contra hpend
          exact (hi.pending_ne_none hpend).2 ((hobject q).mp hq)
        rw [Function.update_of_ne hne, hpending, if_pos (by simp [hq])]
      · rw [if_neg (by simp [hq, Process.calls])]
        by_cases hqr : q = r
        · rw [hqr, Function.update_self]
          exact if_pos rfl
        · rw [Function.update_of_ne hqr]
          exact if_neg (Ne.symm hqr)
    rw [hnext]
    exact hi.set { s.machine with heap := h' } hf rfl ⟨l, hsame.freeList_of hl⟩
      (hsame.young hstack hi.young) fun scan hscan => ho scan (hi.mem_head? hscan)

theorem objWrite_tame (h : Heap) (pointed : ℕ) : Tame h (h.objWrite pointed) := by
  obtain ⟨hslot, hsize, hactive, hin, hdont⟩ := objWrite_slot h pointed
  have hobject : ∀ q, (h.objWrite pointed).object q = h.object q := by
    intro q
    unfold Heap.object
    rw [hsize, hslot]
  refine ⟨fun q => finalizerFunc_congr (hobject q), hactive, hin, hdont, fun q _ hgen => ?_,
    fun hwhite q hq => ?_⟩
  · rwa [hslot]
  · rw [hobject] at hq
    rw [hslot]
    exact hwhite q hq

/-- A slot that was free holds no finalizer. -/
theorem Allocated.ne {body : ObjBody} {isHidden : Bool} {l : List ℕ} {q : ℕ}
    (ha : Allocated h r body isHidden h') (hl : FreeList h l) (hhas : h.hasFinalizer q = true) :
    q ≠ r := by
  rintro rfl
  have hbody := (hl.head ha.head).2
  exact hasFinalizer_iff.mp hhas (finalizerFunc_of_object (object_eq_none_of_body hbody))

/-- A step of an orderly run. -/
theorem Inv.step {a : Action} (hi : Inv pending s.machine) (ho : Orderly s a)
    (hstep : s.step a = some s') :
    CallsPending pending s s' a ∧ Inv (nextPending pending s s' a) s'.machine := by
  cases a with
  | vm vm =>
    obtain rfl := Option.some.inj hstep
    obtain ⟨hcalls, hnext⟩ := hi.tame_step { s with vm := vm } (a := .vm vm)
      (fun _ => rfl) rfl (by rintro _ _ ⟨⟩)
    rw [hnext]
    exact ⟨hcalls, hi⟩
  | collectGarbage => exact hi.collectGarbage ho hstep
  | heap op =>
    obtain ⟨m, hm, rfl⟩ := heap_step hstep
    cases op with
    | collectGarbage dark stackObjs => cases hstep
    | freeObjects => exact hi.freeObjects ho hstep
    | finalizerReturns => exact hi.finalizerReturns ho hstep
    | finalizerThrows => exact absurd ho id
    | getNewObject body isOld isHidden tried =>
      obtain ⟨h', hnew, heq⟩ := Option.bind_eq_some_iff.mp hm
      obtain rfl := Option.some.inj heq
      obtain ⟨r, ha⟩ := getNewObject_allocated hnew
      obtain ⟨l, hl⟩ := hi.freeList
      refine hi.program not_false (by rintro _ _ ⟨⟩) hm rfl (getNewObject_tame hl ha) ?_
      intro scan _ q _ hhas hkeeps
      have hslot := ha.others q (ha.ne hl hhas)
      exact keeps_of_slot (fun hd => hslot ▸ hd) (fun hh => hslot ▸ hh) hkeeps
    | addHeap =>
      obtain rfl := Option.some.inj hm
      refine hi.program not_false (by rintro _ _ ⟨⟩) hm rfl (addHeap_tame _) ?_
      intro scan _ q _ hhas hkeeps
      have hslot := addHeap_slot (hasFinalizer_lt hhas)
      exact keeps_of_slot (fun hd => hslot ▸ hd) (fun hh => hslot ▸ hh) hkeeps
    | collectYoungGarbage dark =>
      obtain ⟨h', hcollect, heq⟩ := Option.bind_eq_some_iff.mp hm
      obtain rfl := Option.some.inj heq
      obtain ⟨ht, hkeeps⟩ := collectYoungGarbage_tame hi.old hcollect
      refine hi.program not_false (by rintro _ _ ⟨⟩) hm rfl ht ?_
      intro scan hscan q hq hhas hkeep
      exact hkeeps scan.collector q hkeep fun hmem => ho scan (hi.mem_head? hscan) q hmem hq hhas
    | setObjectFinalizer r callable =>
      obtain ⟨h', hset, heq⟩ := Option.bind_eq_some_iff.mp hm
      obtain rfl := Option.some.inj heq
      exact hi.setObjectFinalizer ho hset
    | write r f =>
      obtain rfl := Option.some.inj hm
      refine hi.program not_false (by rintro _ _ ⟨⟩) hm rfl ?_ ?_
      · exact Tame.setSlot (f.bind_finalizerFunc _) id fun hlive =>
          ⟨mt Option.map_eq_none_iff.mpr hlive, id⟩
      · intro scan _ q _ _ hkeeps
        exact keeps_setSlot rfl rfl hkeeps
    | objWrite pointed =>
      obtain rfl := Option.some.inj hm
      refine hi.program not_false (by rintro _ _ ⟨⟩) hm rfl (objWrite_tame _ pointed) ?_
      intro scan _ q _ _ hkeeps
      have hslot := (objWrite_slot s.machine.heap pointed).1
      exact keeps_of_slot (fun hd => hslot ▸ hd) (fun hh => hslot ▸ hh) hkeeps
    | setHidden r hidden =>
      obtain rfl := Option.some.inj hm
      refine hi.program not_false (by rintro _ _ ⟨⟩) hm rfl ?_ ?_
      · exact Tame.setSlot rfl id fun hlive => ⟨hlive, id⟩
      · intro scan hscan q hq hhas hkeeps
        by_cases hqr : q = r
        · subst hqr
          rcases ho scan (hi.mem_head? hscan) hq hhas with hhide | hkeep
          · refine keeps_of_slot ?_ ?_ hkeeps
            · rw [Heap.setSlot_self]
              exact id
            · rw [Heap.setSlot_self]
              exact fun _ => hhide
          · refine keeps_of_slot ?_ ?_ hkeep
            · rw [Heap.setSlot_self, Heap.setSlot_self]
              exact id
            · rw [Heap.setSlot_self]
              rintro ⟨⟩
        · have hslot := Heap.setSlot_of_ne s.machine.heap r
            { s.machine.heap.slot r with hidden := hidden } hqr
          exact keeps_of_slot (fun hd => hslot ▸ hd) (fun hh => hslot ▸ hh) hkeeps
    | promote r gen =>
      obtain ⟨hgen, heq⟩ := promote_eq_some hm
      subst heq
      refine hi.program not_false (by rintro _ _ ⟨⟩) hm rfl ?_ ?_
      · refine Tame.setSlot rfl (fun _ => ?_) fun hlive => ⟨hlive, id⟩
        change 0 < min gen genMax
        unfold genMax
        omega
      · intro scan _ q _ _ hkeeps
        exact keeps_setSlot rfl rfl hkeeps
    | setGCOnOff on =>
      obtain rfl := Option.some.inj hm
      refine hi.program not_false (by rintro _ _ ⟨⟩) hm rfl ?_ fun _ _ _ _ _ hkeeps => hkeeps
      exact ⟨fun _ => rfl, rfl, rfl, rfl, fun _ _ hgen => hgen, fun hwhite => hwhite⟩

theorem Inv.run (hi : Inv pending s.machine) {as : List Action} (ho : OrderlyAlong s as) :
    FinalizesOnce pending s as := by
  induction as generalizing pending s with
  | nil => exact hi.consistent
  | cons a as ih =>
    refine ⟨hi.consistent, fun s' hstep => ?_⟩
    obtain ⟨horder, hrest⟩ := ho s' hstep
    obtain ⟨hcalls, hi'⟩ := hi.step horder hstep
    exact ⟨hcalls, ih hi' hrest⟩

theorem initialMachine_inv (slot : ℕ → Slot) : Inv (fun _ => none) (initialMachine slot) := by
  have hobject : ∀ r, (initialMachine slot).heap.object r = none :=
    fun r => if_neg (Nat.not_lt_zero r)
  refine ⟨⟨[], freeList_nil rfl⟩, initialMachine_young slot, rfl, fun r hr => ?_, fun r _ => ?_,
    fun scan hscan => (List.not_mem_nil hscan).elim,
    fun scan hscan => (List.not_mem_nil hscan).elim, Nat.zero_le 1, rfl, fun _ => rfl,
    fun _ r hr => absurd (hobject r) hr⟩
  · exact absurd (finalizerFunc_of_object (hobject r)) (hasFinalizer_iff.mp hr)
  · exact (finalizerFunc_of_object (hobject r)).symm

/-- In an orderly run of the program each finalizer that is set is called once: the one set
last, of an object that cannot be reached or at the end, and before the object is freed. -/
theorem orderly_finalizesOnce (slot : ℕ → Slot) (vm : Vm) (as : List Action)
    (ho : OrderlyAlong ⟨initialMachine slot, vm⟩ as) :
    FinalizesOnce (fun _ => none) ⟨initialMachine slot, vm⟩ as :=
  (initialMachine_inv slot).run ho

theorem program_scans {op : Op} (hstep : s.step (.heap op) = some s') (hop : ¬ op.Collects)
    (hthrow : op ≠ .finalizerThrows) : s'.machine.scans = s.machine.scans := by
  obtain ⟨m, hm, rfl⟩ := heap_step hstep
  cases op with
  | collectGarbage dark stackObjs => exact absurd trivial hop
  | freeObjects => exact absurd trivial hop
  | finalizerReturns => exact absurd trivial hop
  | finalizerThrows => exact absurd rfl hthrow
  | promote r gen =>
    obtain ⟨-, rfl⟩ := promote_eq_some hm
    rfl
  | getNewObject body isOld isHidden tried =>
    obtain ⟨h', -, heq⟩ := Option.bind_eq_some_iff.mp hm
    obtain rfl := Option.some.inj heq
    rfl
  | collectYoungGarbage dark =>
    obtain ⟨h', -, heq⟩ := Option.bind_eq_some_iff.mp hm
    obtain rfl := Option.some.inj heq
    rfl
  | setObjectFinalizer r callable =>
    obtain ⟨h', -, heq⟩ := Option.bind_eq_some_iff.mp hm
    obtain rfl := Option.some.inj heq
    rfl
  | _ =>
    obtain rfl := Option.some.inj hm
    rfl

theorem scanFrom_collector {i : ℕ} {scan : Scan} (hscan : scan ∈ (scanFrom h [] c i).scans) :
    scan.collector = c := by
  unfold scanFrom at hscan
  split at hscan
  · rw [List.mem_singleton] at hscan
    rw [hscan]
  · cases hscan

/-- An instance gets a finalizer, the VM is shut down and the finalizer returns. -/
theorem shutdown_finalizesOnce :
    FinalizesOnce (fun _ => none)
      ⟨initialMachine fun _ => ⟨none, false, false, 0, none⟩, bareVm [] []⟩
      [.heap .addHeap, .heap (.getNewObject (.nativeFunction none none) true false false),
        .heap (.getNewObject (.inst ⟨none, none, none, []⟩ []) true false false),
        .heap (.setObjectFinalizer (heapSlots - 2) (heapSlots - 1)), .heap .freeObjects,
        .heap .finalizerReturns] := by
  refine orderly_finalizesOnce _ _ _ fun s₁ h₁ => ⟨trivial, fun s₂ h₂ => ⟨trivial,
    fun s₃ h₃ => ⟨trivial, fun s₄ h₄ => ?_⟩⟩⟩
  have hscans : s₃.machine.scans = [] := by
    rw [program_scans h₃ not_false (by rintro ⟨⟩), program_scans h₂ not_false (by rintro ⟨⟩),
      program_scans h₁ not_false (by rintro ⟨⟩)]
    rfl
  have hscans' : s₄.machine.scans = [] :=
    (program_scans h₄ not_false (by rintro ⟨⟩)).trans hscans
  refine ⟨fun scan hscan => ?_, fun s₅ h₅ => ⟨hscans', fun s₆ h₆ => ⟨fun scan hscan hne => ?_,
    trivial⟩⟩⟩
  · rw [hscans] at hscan
    cases hscan
  · obtain ⟨m, hm, rfl⟩ := heap_step h₅
    obtain rfl := Option.some.inj hm
    refine absurd (scanFrom_collector (h := s₄.machine.heap) (c := .final) (i := 0) ?_) hne
    have hmem := List.mem_of_mem_head? hscan
    change scan ∈ (Gc.freeObjects s₄.machine).scans at hmem
    unfold Gc.freeObjects at hmem
    rw [hscans'] at hmem
    split at hmem
    · cases hmem
    · exact hmem

/-! A finalizer that throws leaves the collector where it is. -/

theorem throws_not_finalizesOnce (hi : Inv pending s.machine) (hnil : s.machine.scans = [])
    (hon : s.machine.heap.gcOn = true) (hvm : s.vm = bareVm [] [])
    (hhas : s.machine.heap.hasFinalizer r = true)
    (hhidden : (s.machine.heap.slot r).hidden = false) :
    ¬ FinalizesOnce pending s [.collectGarbage, .heap .finalizerThrows] := by
  rintro ⟨-, hall⟩
  have hspared : ∀ after, s.vm.reap = some after → ¬ Spared s after r := by
    rintro after hreap (hkept | hreach)
    · rcases hkept with hd | hh | hmem
      · have hlive := object_ne_none_iff.mpr ⟨hasFinalizer_lt hhas, fun hbody =>
          hasFinalizer_iff.mp hhas (finalizerFunc_of_object (object_eq_none_of_body hbody))⟩
        rw [hi.white hnil r hlive] at hd
        cases hd
      · rw [hhidden] at hh
        cases hh
      · rw [hvm] at hmem
        cases hmem
    · have hroots : s.vm.grayRoots after = [] := by
        rw [hvm] at hreap ⊢
        obtain rfl := Option.some.inj hreap
        rfl
      rw [hroots] at hreach
      clear hhas hhidden
      induction hreach with
      | root hmem _ => cases hmem
      | ref _ _ _ ih => exact ih
  have hstep : ∃ s', s.step .collectGarbage = some s' := by
    obtain ⟨m, hm⟩ := collectGarbage_isSome (m := s.machine) hi.inGC
      (s.machine.heap.marked (s.vm.grayRoots (bareVm [] []))) s.vm.stackObjs
    refine ⟨⟨m, bareVm [] []⟩, ?_⟩
    change s.collectGarbage = _
    unfold Process.collectGarbage
    simp only [hon, Bool.not_true, Bool.false_eq_true, if_false]
    rw [if_neg (by rw [hvm]; exact Bool.false_ne_true)]
    refine Option.bind_eq_some_iff.mpr ⟨bareVm [] [], by rw [hvm]; rfl, ?_⟩
    exact Option.bind_eq_some_iff.mpr ⟨m, hm, rfl⟩
  obtain ⟨s', hstep⟩ := hstep
  obtain ⟨-, -, hall⟩ := hall s' hstep
  rcases collectGarbage_cases hstep with ⟨hoff, -⟩ | ⟨-, after, hreap, hm⟩
  · rw [hon] at hoff
    cases hoff
  · have hactive : s.machine.heap.activeFinalizers ≠ 0 := by
      have hpos := Finset.card_pos.mpr ⟨r, mem_finalizers.mpr hhas⟩
      rw [hi.activeFinalizers]
      omega
    rw [if_neg hactive, hnil] at hm
    have hfin : (s.markedHeap after).finalizable (.full s.vm.stackObjs) r = true := by
      rw [finalizable_full_iff, markedHeap_kept, (markedHeap_object s after r).2.1]
      exact ⟨hspared after hreap, hhas⟩
    have hentered : ∃ scan, s'.machine = ⟨(s.markedHeap after).enterFinalizer, [scan]⟩ := by
      unfold Gc.scanFrom at hm
      split at hm
      next cursor _ => exact ⟨_, hm⟩
      next hnone =>
        have hno := find?_range'_eq_none.mp hnone r (Nat.zero_le r) ?_
        · rw [hno] at hfin
          cases hfin
        · exact hasFinalizer_lt ((finalizable_full_iff.mp hfin).2)
    obtain ⟨scan, hentered⟩ := hentered
    obtain ⟨-, hconsistent⟩ := hall { s' with machine := { s'.machine with scans := [] } } (by
      change (Gc.finalizerThrows s'.machine).bind _ = _
      rw [hentered]
      rfl)
    have hdont := hconsistent.dontGC rfl
    rw [hentered] at hdont
    cases hdont

theorem getNewObject_isSome (hfree : h.freeList ≠ none) (body : ObjBody) :
    ∃ h', h.getNewObject body true false false = some h' := by
  obtain ⟨r, hr⟩ := Option.ne_none_iff_exists'.mp hfree
  unfold Heap.getNewObject
  rw [hr]
  exact ⟨_, rfl⟩

theorem Inv.next {a : Action} {as : List Action} (hi : Inv pending s.machine) (s' : Process)
    (hf : FinalizesOnce pending s (a :: as)) (ho : Orderly s a) (hstep : s.step a = some s') :
    ∃ pending', Inv pending' s'.machine ∧ FinalizesOnce pending' s' as :=
  ⟨_, (hi.step ho hstep).2, (hf.2 s' hstep).2⟩

/-- An object gets a finalizer and is collected, and the finalizer throws: collections stay
forbidden. -/
theorem finalizer_throws :
    ¬ ∀ (slot : ℕ → Slot) (vm : Vm) (as : List Action),
      FinalizesOnce (fun _ => none) ⟨initialMachine slot, vm⟩ as := by
  intro hall
  have hi₀ := initialMachine_inv fun _ => ⟨none, false, false, 0, none⟩
  have hall := hall (fun _ => ⟨none, false, false, 0, none⟩) (bareVm [] [])
  have hnil : (initialMachine fun _ => ⟨none, false, false, 0, none⟩).scans = [] := rfl
  generalize (initialMachine fun _ => ⟨none, false, false, 0, none⟩) = m at hi₀ hall hnil
  -- what is allocated is a function and an instance
  obtain ⟨h₂, hnew₂⟩ := getNewObject_isSome (addHeap_freeList_ne_none m.heap)
    (.nativeFunction none none)
  obtain ⟨f, -⟩ := getNewObject_allocated hnew₂
  obtain ⟨h₄, hnew₄⟩ := getNewObject_isSome (addHeap_freeList_ne_none h₂)
    (.inst ⟨none, none, none, []⟩ [])
  obtain ⟨r, ha⟩ := getNewObject_allocated hnew₄
  have hall := hall [.heap .addHeap, .heap (.getNewObject (.nativeFunction none none) true false
    false), .heap .addHeap, .heap (.getNewObject (.inst ⟨none, none, none, []⟩ []) true false
    false), .heap (.setObjectFinalizer r f), .heap (.setGCOnOff true), .collectGarbage,
    .heap .finalizerThrows]
  obtain ⟨_, hi₁, hall⟩ := hi₀.next ⟨⟨m.heap.addHeap, m.scans⟩, bareVm [] []⟩ hall
    trivial rfl
  obtain ⟨_, hi₂, hall⟩ := hi₁.next ⟨⟨h₂, m.scans⟩, bareVm [] []⟩ hall trivial
    (by change ((Heap.getNewObject _ _ _ _ _).bind _).bind _ = _; rw [hnew₂]; rfl)
  obtain ⟨_, hi₃, hall⟩ := hi₂.next ⟨⟨h₂.addHeap, m.scans⟩, bareVm [] []⟩ hall
    trivial rfl
  obtain ⟨l, hl⟩ := hi₃.freeList
  obtain ⟨_, hi₄, hall⟩ := hi₃.next ⟨⟨h₄, m.scans⟩, bareVm [] []⟩ hall trivial
    (by change ((Heap.getNewObject _ _ _ _ _).bind _).bind _ = _; rw [hnew₄]; rfl)
  have hset : ∃ h₅, h₄.setObjectFinalizer r f = some h₅ := by
    have hobject : h₄.object r = some (.inst ⟨none, none, none, []⟩ []) := by
      unfold Heap.object
      rw [ha.size, if_pos (hl.head ha.head).1, ha.body]
      rfl
    unfold Heap.setObjectFinalizer
    rw [hobject]
    exact ⟨_, rfl⟩
  obtain ⟨h₅, hset⟩ := hset
  have hf := setObjectFinalizer_finalized hset
  obtain ⟨_, hi₅, hall⟩ := hi₄.next ⟨⟨h₅, m.scans⟩, bareVm [] []⟩ hall
    (by rw [Orderly, hnil]; rintro scan ⟨⟩)
    (by change ((Heap.setObjectFinalizer _ _ _).bind _).bind _ = _; rw [hset]; rfl)
  obtain ⟨_, hi₆, hall⟩ := hi₅.next ⟨⟨{ h₅ with gcOn := true }, m.scans⟩, bareVm [] []⟩ hall trivial rfl
  refine throws_not_finalizesOnce (r := r) hi₆ hnil rfl rfl ?_ (hf.hidden.trans ha.hidden) hall
  change h₅.hasFinalizer r = true
  rw [hasFinalizer_iff, hf.set]
  exact Option.some_ne_none f

end Clox.Gc
