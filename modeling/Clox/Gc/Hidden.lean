import Clox.Gc.Reachable

/-! # Hidden objects

An object with `OBJ_FLAG_NOGC` is not freed, and what it points at is kept because
`vm.hiddenObjs` has it among the roots. `hideFromGC` and `unhideFromGC` write both; the flag
`NEWOBJ_FLAG_HIDDEN` sets only the one of the object.
-/

namespace Clox.Gc

variable {h h' : Heap} {m m' : Machine} {s s' : Process} {r q : ℕ}

/-- A live object with its hidden flag set. -/
def Heap.HiddenAt (h : Heap) (r : ℕ) : Prop := h.object r ≠ none ∧ (h.slot r).hidden = true

namespace Process

variable (s : Process) (r : ℕ)

def setHidden (hidden : Bool) : Machine :=
  { s.machine with
    heap := s.machine.heap.setSlot r { s.machine.heap.slot r with hidden := hidden } }

def hideFromGC : Process :=
  if (s.machine.heap.slot r).hidden then s
  else
    { machine := s.setHidden r true
      vm := { s.vm with hiddenObjs := s.vm.hiddenObjs ++ [r] } }

/-- `vec_remove` takes the first entry that is the object. -/
def unhideFromGC : Process :=
  if (s.machine.heap.slot r).hidden then
    { machine := s.setHidden r false
      vm := { s.vm with hiddenObjs := s.vm.hiddenObjs.erase r } }
  else s

end Process

/-- What the program does until the VM shuts down. -/
inductive HidingAction
  /-- `allocateObject`; `isHidden` is `NEWOBJ_FLAG_HIDDEN`. -/
  | allocate (body : ObjBody) (isOld isHidden triedYoungCollect : Bool)
  | hideFromGC (r : ℕ)
  | unhideFromGC (r : ℕ)
  /-- A step of the heap that is none of the other ones. -/
  | heap (op : Op)
  | collectGarbage
  /-- Other fields of the VM are written. -/
  | vm (vm : Vm)

/-- The steps that are actions of their own, and `freeObjects`, with which the VM ends. -/
def Op.isOther : Op → Bool
  | .getNewObject _ _ _ _ | .setHidden _ _ | .collectGarbage _ _ | .freeObjects => false
  | _ => true

/-- Only objects are hidden and unhidden. -/
def Process.hide (s : Process) : HidingAction → Option Process
  | .allocate body isOld isHidden tried => s.step (.heap (.getNewObject body isOld isHidden tried))
  | .hideFromGC r => if (s.machine.heap.object r).isSome then some (s.hideFromGC r) else none
  | .unhideFromGC r => if (s.machine.heap.object r).isSome then some (s.unhideFromGC r) else none
  | .heap op => if op.isOther then s.step (.heap op) else none
  | .collectGarbage => s.collectGarbage
  | .vm vm => some { s with vm := { vm with hiddenObjs := s.vm.hiddenObjs } }

/-- `vm.hiddenObjs` has each hidden object once and no other. -/
structure Process.Listed (s : Process) : Prop where
  nodup : s.vm.hiddenObjs.Nodup
  mem : ∀ r, r ∈ s.vm.hiddenObjs ↔ s.machine.heap.HiddenAt r

/-- A full collection marks what can be reached from the hidden objects by graying. -/
def Process.MarksHidden (s : Process) : Prop :=
  ∀ after, s.vm.reap = some after → ∀ r,
    Worklist.Reaches (fun a => (s.machine.heap.slot a).dark = true) s.machine.heap.grayedBy
      s.machine.heap.HiddenAt r →
    s.machine.heap.marked (s.vm.grayRoots after) r = true

/-! ## Which objects are hidden -/

/-- The same objects are hidden. -/
def SameHidden (h h' : Heap) : Prop := ∀ r, h'.HiddenAt r ↔ h.HiddenAt r

namespace SameHidden

variable {h'' : Heap}

theorem refl (h : Heap) : SameHidden h h := fun _ => Iff.rfl

theorem trans (h₁ : SameHidden h h') (h₂ : SameHidden h' h'') : SameHidden h h'' :=
  fun r => (h₂ r).trans (h₁ r)

/-- The same slots are free and the flags are the same. -/
theorem of_sameFree (hs : SameFree h h') (hflag : ∀ r, (h'.slot r).hidden = (h.slot r).hidden) :
    SameHidden h h' := by
  intro r
  unfold Heap.HiddenAt
  rw [object_ne_none_iff, object_ne_none_iff, hs.size, ne_eq, hs.body, hflag]

theorem setSlot {o : Slot} (hbody : o.body = none ↔ (h.slot r).body = none)
    (hflag : o.hidden = (h.slot r).hidden) : SameHidden h (h.setSlot r o) := by
  intro q
  unfold Heap.HiddenAt
  rw [object_ne_none_iff, object_ne_none_iff]
  by_cases hq : q = r
  · subst hq
    rw [Heap.setSlot_self, ne_eq, hbody, hflag]
    rfl
  · rw [Heap.setSlot_of_ne _ _ _ hq]
    rfl

/-- An object that is not hidden is freed. -/
theorem pushFree (hflag : (h.slot r).hidden = false) : SameHidden h (h.pushFree r) := by
  intro q
  unfold Heap.HiddenAt
  rw [object_ne_none_iff, object_ne_none_iff]
  by_cases hq : q = r
  · subst hq
    rw [Heap.pushFree_self, hflag]
    simp
  · rw [Heap.pushFree_of_ne _ _ hq]
    rfl

theorem addHeap (h : Heap) : SameHidden h h.addHeap := by
  intro q
  unfold Heap.HiddenAt
  rw [addHeap_object]
  refine and_congr_right fun hobject => ?_
  rw [addHeap_slot (object_ne_none_iff.mp hobject).1]

theorem keep (r : ℕ) : SameHidden h (h.setSlot r (Heap.keep (h.slot r))) := by
  refine setSlot ?_ (promoteOnce_flags _).2
  rw [← promoteOnce_body (h.slot r)]
  rfl

theorem foldl {α : Type} {f : Heap → α → Heap} (hf : ∀ h a, SameHidden h (f h a)) (as : List α)
    (h : Heap) : SameHidden h (as.foldl f h) := by
  induction as generalizing h with
  | nil => exact refl h
  | cons a as ih => exact (hf h a).trans (ih (f h a))

theorem sweepYoung (dark : ℕ → Bool) (h : Heap) (r : ℕ) : SameHidden h (h.sweepYoung dark r) := by
  unfold Heap.sweepYoung
  simp only
  split
  next => exact setSlot Iff.rfl rfl
  next hyoung =>
    split
    next => exact keep r
    next =>
      split
      next => exact keep r
      next =>
        split
        next => exact keep r
        next =>
          have hflag : (h.slot r).hidden = false := by
            rw [Bool.or_eq_true, not_or, Bool.not_eq_true, Bool.not_eq_true] at hyoung
            exact hyoung.2
          exact pushFree hflag

theorem mark (dark : ℕ → Bool) (h : Heap) : SameHidden h (h.mark dark) := by
  refine of_sameFree (mark_sameFree dark h) fun r => ?_
  unfold Heap.mark
  simp only
  split
  · rfl
  · rfl

theorem sweepSlot (stackObjs : List ℕ) (hn : Heap × ℕ) (r : ℕ) :
    SameHidden hn.1 (Heap.sweepSlot stackObjs hn r).1 := by
  obtain ⟨h, n⟩ := hn
  unfold Heap.sweepSlot
  simp only
  split
  next => exact refl h
  next =>
    split
    next hwhite =>
      rw [Bool.and_eq_true, Bool.not_eq_true', Bool.not_eq_true'] at hwhite
      split
      next => exact refl h
      next => exact pushFree hwhite.2
    next =>
      split
      next => exact refl h
      next => exact keep r

theorem sweepSlots (stackObjs rs : List ℕ) (hn : Heap × ℕ) :
    SameHidden hn.1 (rs.foldl (Heap.sweepSlot stackObjs) hn).1 := by
  induction rs generalizing hn with
  | nil => exact refl hn.1
  | cons r rs ih => exact (sweepSlot stackObjs hn r).trans (ih _)

/-- Only slots matter. -/
theorem congr (hsize : h''.size = h'.size) (hslot : h''.slot = h'.slot) (hs : SameHidden h h') :
    SameHidden h h'' := by
  intro r
  rw [← hs r]
  unfold Heap.HiddenAt Heap.object
  rw [hsize, hslot]

theorem sweep (stackObjs : List ℕ) (h : Heap) : SameHidden h (h.sweep stackObjs) := by
  have hslots := sweepSlots stackObjs (List.range h.size) (h, 0)
  unfold Heap.sweep
  generalize (List.range h.size).foldl (Heap.sweepSlot stackObjs) (h, 0) = swept at hslots
  have hgrown : SameHidden h (if swept.2 < freeMin then swept.1.addHeap else swept.1) := by
    split
    · exact hslots.trans (addHeap swept.1)
    · exact hslots
  exact congr rfl rfl hgrown

theorem collectYoungGarbage {dark : ℕ → Bool} (hcollect : h.collectYoungGarbage dark = some h') :
    SameHidden h h' := by
  unfold Heap.collectYoungGarbage at hcollect
  split at hcollect
  · obtain rfl := Option.some.inj hcollect
    exact refl h
  · split at hcollect
    · cases hcollect
    · split at hcollect
      · obtain rfl := Option.some.inj hcollect
        exact refl h
      · obtain rfl := Option.some.inj hcollect
        exact congr rfl rfl (foldl (sweepYoung dark) h.youngStack h)

theorem objWrite (h : Heap) (pointed : ℕ) : SameHidden h (h.objWrite pointed) := by
  unfold Heap.objWrite
  split
  · exact congr rfl rfl (refl h)
  · exact refl h

theorem addFinalizer (h : Heap) (r : ℕ) : SameHidden h (h.addFinalizer r) := by
  have hset : SameHidden h (h.setSlot r (Heap.promoteOnce (h.slot r))) :=
    setSlot (by rw [promoteOnce_body]) (promoteOnce_flags _).2
  exact congr rfl rfl hset

theorem leaveFinalizer (h : Heap) (r : ℕ) : SameHidden h (h.leaveFinalizer r) := by
  have hset : SameHidden h (h.setSlot r
      { h.slot r with body := (h.slot r).body.map (ObjBody.setFinalizerFunc none) }) :=
    setSlot Option.map_eq_none_iff rfl
  exact congr rfl rfl hset

theorem setObjectFinalizer {callable : ℕ} (hset : h.setObjectFinalizer r callable = some h') :
    SameHidden h h' := by
  unfold Heap.setObjectFinalizer at hset
  split at hset
  · cases hset
  next body hobject =>
    have hbody : (h.slot r).body ≠ none := by
      refine (object_ne_none_iff.mp ?_).2
      rw [hobject]
      exact Option.some_ne_none body
    split at hset
    · cases hset
    · obtain rfl := Option.some.inj hset
      have hadd : SameHidden h (if body.finalizerFunc.isNone then h.addFinalizer r else h) ∧
          SameFree h (if body.finalizerFunc.isNone then h.addFinalizer r else h) := by
        split
        · exact ⟨addFinalizer h r, addFinalizer_sameFree h r⟩
        · exact ⟨refl h, SameFree.refl h⟩
      generalize (if body.finalizerFunc.isNone then h.addFinalizer r else h) = g at hadd
      obtain ⟨hg, hfree⟩ := hadd
      have hlive : ((g.objWrite callable).slot r).body ≠ none := by
        rw [ne_eq, (objWrite_sameFree g callable).1.body, hfree.body]
        exact hbody
      refine (hg.trans (objWrite g callable)).trans (setSlot ?_ rfl)
      exact iff_of_false (Option.some_ne_none _) hlive

end SameHidden

/-! ## The collectors -/

/-- No collector that waits for a finalizer is the one that ends the VM. -/
def NoFinal (m : Machine) : Prop := ∀ scan ∈ m.scans, scan.collector ≠ .final

theorem phase2_sameHidden {c : Collector} (hc : c ≠ .final) : SameHidden h (c.phase2 h) := by
  cases c with
  | full stackObjs => exact .sweep stackObjs h
  | final => exact absurd rfl hc

/-- Phase 1 goes on, for a full collection. -/
theorem scanFrom_hidden {scans : List Scan} {c : Collector} (i : ℕ) (hc : c ≠ .final)
    (hscans : ∀ scan ∈ scans, scan.collector ≠ .final) :
    SameHidden h (scanFrom h scans c i).heap ∧ NoFinal (scanFrom h scans c i) := by
  unfold scanFrom
  split
  · refine ⟨.congr rfl rfl (.refl h), fun scan hscan => ?_⟩
    rcases List.mem_cons.mp hscan with rfl | hscan
    · exact hc
    · exact hscans scan hscan
  · have hlist : SameHidden h { h with freeList := none } := .congr rfl rfl (.refl h)
    exact ⟨hlist.trans (phase2_sameHidden hc), hscans⟩

theorem collectGarbage_hidden {dark : ℕ → Bool} {stackObjs : List ℕ} (hm : NoFinal m)
    (hcollect : collectGarbage dark stackObjs m = some m') :
    SameHidden m.heap m'.heap ∧ NoFinal m' := by
  unfold collectGarbage at hcollect
  split at hcollect
  · obtain rfl := Option.some.inj hcollect
    exact ⟨.refl _, hm⟩
  · split at hcollect
    · cases hcollect
    · have hbegin : SameHidden m.heap { m.heap.mark dark with inGC := true, freeList := none } :=
        .congr rfl rfl (.mark dark m.heap)
      have hfull : Collector.full stackObjs ≠ .final := by
        intro heq
        cases heq
      simp only at hcollect
      split at hcollect
      · obtain rfl := Option.some.inj hcollect
        exact ⟨hbegin.trans (.sweep stackObjs _), hm⟩
      · obtain rfl := Option.some.inj hcollect
        obtain ⟨hsame, hscans⟩ := scanFrom_hidden (h := { m.heap.mark dark with
          inGC := true, freeList := none }) 0 hfull hm
        exact ⟨hbegin.trans hsame, hscans⟩

theorem finalizerReturns_hidden (hm : NoFinal m) (hreturn : finalizerReturns m = some m') :
    SameHidden m.heap m'.heap ∧ NoFinal m' := by
  unfold finalizerReturns at hreturn
  unfold NoFinal at hm
  cases hscans : m.scans with
  | nil =>
    rw [hscans] at hreturn
    cases hreturn
  | cons scan scans =>
    obtain ⟨c, cursor⟩ := scan
    rw [hscans] at hreturn hm
    have hc : c ≠ .final := hm _ List.mem_cons_self
    have hrest : ∀ scan ∈ scans, scan.collector ≠ .final :=
      fun scan hscan => hm scan (List.mem_cons_of_mem _ hscan)
    have hleave := SameHidden.leaveFinalizer m.heap cursor
    simp only at hreturn
    split at hreturn
    · obtain rfl := Option.some.inj hreturn
      exact ⟨hleave.trans (phase2_sameHidden hc), hrest⟩
    · obtain rfl := Option.some.inj hreturn
      obtain ⟨hsame, hfinal⟩ :=
        scanFrom_hidden (h := m.heap.leaveFinalizer cursor) (cursor + 1) hc hrest
      exact ⟨hleave.trans hsame, hfinal⟩

/-- A step of the heap that neither allocates nor hides. -/
theorem step_hidden {op : Op} (hop : op.isOther = true) (hm : NoFinal m)
    (hstep : m.step op = some m') : SameHidden m.heap m'.heap ∧ NoFinal m' := by
  cases op with
  | getNewObject | setHidden | collectGarbage | freeObjects => cases hop
  | addHeap =>
    obtain rfl := Option.some.inj hstep
    exact ⟨.addHeap m.heap, hm⟩
  | collectYoungGarbage dark =>
    obtain ⟨h', hcollect, heq⟩ := Option.bind_eq_some_iff.mp hstep
    obtain rfl := Option.some.inj heq
    exact ⟨.collectYoungGarbage hcollect, hm⟩
  | finalizerReturns => exact finalizerReturns_hidden hm hstep
  | finalizerThrows =>
    change Gc.finalizerThrows m = some m' at hstep
    unfold finalizerThrows at hstep
    split at hstep
    · cases hstep
    next hscans =>
      obtain rfl := Option.some.inj hstep
      refine ⟨.refl _, fun scan hscan => hm scan ?_⟩
      rw [hscans]
      exact List.mem_cons_of_mem _ hscan
  | setObjectFinalizer r callable =>
    obtain ⟨h', hset, heq⟩ := Option.bind_eq_some_iff.mp hstep
    obtain rfl := Option.some.inj heq
    exact ⟨.setObjectFinalizer hset, hm⟩
  | write r f =>
    obtain rfl := Option.some.inj hstep
    exact ⟨.setSlot Option.map_eq_none_iff rfl, hm⟩
  | objWrite pointed =>
    obtain rfl := Option.some.inj hstep
    exact ⟨.objWrite m.heap pointed, hm⟩
  | promote r gen =>
    obtain ⟨-, rfl⟩ := promote_eq_some hstep
    exact ⟨.setSlot Iff.rfl rfl, hm⟩
  | setGCOnOff on =>
    obtain rfl := Option.some.inj hstep
    exact ⟨.congr rfl rfl (.refl _), hm⟩

/-! ## Flag and list -/

/-- What holds between the actions besides the list. -/
structure Process.Running (s : Process) : Prop where
  lists : Lists s.machine.heap
  noFinal : NoFinal s.machine

/-- An action that sets the flag of an object and leaves the list. -/
def HidingAction.SetsFlag : HidingAction → Prop
  | .allocate _ _ isHidden _ => isHidden = true
  | _ => False

theorem Process.Listed.congr (hl : s.Listed) (hsame : SameHidden s.machine.heap s'.machine.heap)
    (hvm : s'.vm.hiddenObjs = s.vm.hiddenObjs) : s'.Listed := by
  constructor
  · rw [hvm]
    exact hl.nodup
  · intro r
    rw [hvm, hl.mem, hsame r]

/-- The flag of the object `r` is set or cleared. -/
theorem hiddenAt_setHidden (hr : s.machine.heap.object r ≠ none) (hidden : Bool) :
    (s.setHidden r hidden).heap.HiddenAt q ↔
      if q = r then hidden = true else s.machine.heap.HiddenAt q := by
  unfold Process.setHidden Heap.HiddenAt
  rw [object_ne_none_iff]
  split
  next heq =>
    rw [heq, Heap.setSlot_self]
    exact and_iff_right (object_ne_none_iff.mp hr)
  next hne =>
    rw [Heap.setSlot_of_ne _ _ _ hne, object_ne_none_iff]
    rfl

theorem hideFromGC_listed (hl : s.Listed) (hr : s.machine.heap.object r ≠ none) :
    (s.hideFromGC r).Listed := by
  unfold Process.hideFromGC
  split
  next => exact hl
  next hflag =>
    have hnot : r ∉ s.vm.hiddenObjs := fun hmem => hflag ((hl.mem r).mp hmem).2
    constructor
    · refine List.nodup_append.mpr ⟨hl.nodup, List.nodup_singleton r, ?_⟩
      rintro a ha b hb rfl
      exact hnot (List.mem_singleton.mp hb ▸ ha)
    · intro q
      rw [hiddenAt_setHidden hr, List.mem_append, List.mem_singleton, hl.mem q]
      split
      next heq => exact iff_of_true (.inr heq) rfl
      next hne => exact or_iff_left hne

theorem unhideFromGC_listed (hl : s.Listed) (hr : s.machine.heap.object r ≠ none) :
    (s.unhideFromGC r).Listed := by
  unfold Process.unhideFromGC
  split
  next =>
    constructor
    · exact hl.nodup.erase r
    · intro q
      rw [hiddenAt_setHidden hr, hl.nodup.mem_erase_iff, hl.mem q]
      split
      next heq =>
        refine iff_of_false (fun h => h.1 heq) fun h => ?_
        cases h
      next hne => exact and_iff_right hne
  next => exact hl

/-- A new object with the flag is not on the list, and without it no object gets hidden. -/
theorem allocate_listed {body : ObjBody} {isOld isHidden tried : Bool} (hl : s.Listed)
    (hs : s.Running)
    (hstep : s.step (.heap (.getNewObject body isOld isHidden tried)) = some s') :
    s'.Running ∧ (s'.Listed ↔ isHidden = false) := by
  obtain ⟨m, hm, heq⟩ := Option.bind_eq_some_iff.mp hstep
  obtain rfl := Option.some.inj heq
  have hlists := step_lists hs.lists hm
  obtain ⟨h', hnew, heq⟩ := Option.bind_eq_some_iff.mp hm
  obtain rfl := Option.some.inj heq
  obtain ⟨r, ha⟩ := getNewObject_allocated hnew
  obtain ⟨l, hfree⟩ := hs.lists.list
  obtain ⟨hlt, hbody⟩ := hfree.head ha.head
  have hbefore : ¬ s.machine.heap.HiddenAt r := fun h => (object_ne_none_iff.mp h.1).2 hbody
  have hself : h'.HiddenAt r ↔ isHidden = true := by
    unfold Heap.HiddenAt
    rw [object_ne_none_iff, ha.size, ha.body, ha.hidden]
    exact and_iff_right ⟨hlt, Option.some_ne_none _⟩
  have hothers : ∀ q ≠ r, (h'.HiddenAt q ↔ s.machine.heap.HiddenAt q) := by
    intro q hq
    unfold Heap.HiddenAt
    rw [object_ne_none_iff, object_ne_none_iff, ha.size, ha.others q hq]
  refine ⟨⟨hlists, hs.noFinal⟩, ?_⟩
  constructor
  · intro hl'
    by_contra hflag
    have hmem := (hl'.mem r).mpr (hself.mpr (by simpa using hflag))
    exact hbefore ((hl.mem r).mp hmem)
  · intro hflag
    refine hl.congr (fun q => ?_) rfl
    by_cases hq : q = r
    · rw [hq, hself, hflag]
      exact iff_of_false Bool.false_ne_true hbefore
    · exact hothers q hq

theorem step_other {op : Op} (hop : op.isOther = true) :
    s.step (.heap op) = (s.machine.step op).bind fun m => some { s with machine := m } := by
  cases op with
  | collectGarbage => cases hop
  | _ => rfl

/-- One action keeps flags and list together exactly if it does not allocate a hidden object. -/
theorem hide_listed {a : HidingAction} (hl : s.Listed) (hs : s.Running)
    (hstep : s.hide a = some s') : s'.Running ∧ (s'.Listed ↔ ¬ a.SetsFlag) := by
  cases a with
  | allocate body isOld isHidden tried =>
    obtain ⟨hrun, hiff⟩ := allocate_listed hl hs hstep
    refine ⟨hrun, hiff.trans ?_⟩
    exact (Bool.not_eq_true isHidden).symm ▸ Iff.rfl
  | hideFromGC r =>
    change (if (s.machine.heap.object r).isSome then some (s.hideFromGC r) else none) = some s'
      at hstep
    split at hstep
    next hsome =>
      obtain rfl := Option.some.inj hstep
      have hr := Option.isSome_iff_ne_none.mp hsome
      refine ⟨?_, iff_of_true (hideFromGC_listed hl hr) not_false⟩
      unfold Process.hideFromGC
      split
      · exact hs
      · exact ⟨hs.lists.of_sameFree (.setSlot rfl Iff.rfl) rfl, hs.noFinal⟩
    next => cases hstep
  | unhideFromGC r =>
    change (if (s.machine.heap.object r).isSome then some (s.unhideFromGC r) else none) = some s'
      at hstep
    split at hstep
    next hsome =>
      obtain rfl := Option.some.inj hstep
      have hr := Option.isSome_iff_ne_none.mp hsome
      refine ⟨?_, iff_of_true (unhideFromGC_listed hl hr) not_false⟩
      unfold Process.unhideFromGC
      split
      · exact ⟨hs.lists.of_sameFree (.setSlot rfl Iff.rfl) rfl, hs.noFinal⟩
      · exact hs
    next => cases hstep
  | heap op =>
    change (if op.isOther then s.step (.heap op) else none) = some s' at hstep
    split at hstep
    next hop =>
      rw [step_other hop] at hstep
      obtain ⟨m, hm, heq⟩ := Option.bind_eq_some_iff.mp hstep
      obtain rfl := Option.some.inj heq
      obtain ⟨hsame, hfinal⟩ := step_hidden hop hs.noFinal hm
      exact ⟨⟨step_lists hs.lists hm, hfinal⟩, iff_of_true (hl.congr hsame rfl) not_false⟩
    next => cases hstep
  | collectGarbage =>
    change s.collectGarbage = some s' at hstep
    unfold Process.collectGarbage at hstep
    simp only at hstep
    split at hstep
    next =>
      obtain rfl := Option.some.inj hstep
      exact ⟨hs, iff_of_true hl not_false⟩
    next =>
      split at hstep
      next => cases hstep
      next =>
        obtain ⟨after, hreap, hrest⟩ := Option.bind_eq_some_iff.mp hstep
        obtain ⟨m, hm, heq⟩ := Option.bind_eq_some_iff.mp hrest
        obtain rfl := Option.some.inj heq
        obtain ⟨hsame, hfinal⟩ := collectGarbage_hidden hs.noFinal hm
        have hvm : after.hiddenObjs = s.vm.hiddenObjs := by
          obtain ⟨_, -, hafter⟩ := Option.bind_eq_some_iff.mp hreap
          rw [← Option.some.inj hafter]
        exact ⟨⟨collectGarbage_lists hs.lists hm, hfinal⟩,
          iff_of_true (hl.congr hsame hvm) not_false⟩
  | vm vm =>
    obtain rfl := Option.some.inj hstep
    exact ⟨⟨hs.lists, hs.noFinal⟩, iff_of_true (hl.congr (.refl _) rfl) not_false⟩

/-- The hidden objects are among the roots. -/
theorem Process.Listed.marksHidden (hl : s.Listed) : s.MarksHidden := by
  intro after _ r hr
  refine (marked_iff _ _ r).mpr (.inr (hr.mono (fun _ h => h) (fun _ _ h => h) fun q hq => ?_))
  refine List.mem_filter.mpr ⟨?_, by simpa using (object_ne_none_iff.mp hq.1).1⟩
  unfold Vm.grayRoots Vm.shared
  exact List.mem_append_right _ (List.mem_append_right _ ((hl.mem q).mpr hq))

/-! ## Runs -/

/-- The list is right, and a full collection marks what hidden objects hold, in every state. -/
def HiddenAlong : Process → List HidingAction → Prop
  | s, [] => s.Listed ∧ s.MarksHidden
  | s, a :: as => (s.Listed ∧ s.MarksHidden) ∧ ∀ s', s.hide a = some s' → HiddenAlong s' as

/-- No object is allocated hidden. -/
def PlainAlong : Process → List HidingAction → Prop
  | _, [] => True
  | s, a :: as => ∀ s', s.hide a = some s' → ¬ a.SetsFlag ∧ PlainAlong s' as

theorem hiddenAlong_iff (hl : s.Listed) (hs : s.Running) (as : List HidingAction) :
    HiddenAlong s as ↔ PlainAlong s as := by
  induction as generalizing s with
  | nil => exact iff_of_true ⟨hl, hl.marksHidden⟩ trivial
  | cons a as ih =>
    constructor
    · rintro ⟨-, hall⟩ s' hstep
      obtain ⟨hrun, hiff⟩ := hide_listed hl hs hstep
      have hafter := hall s' hstep
      have hl' : s'.Listed := by
        cases as with
        | nil => exact hafter.1
        | cons b as => exact hafter.1.1
      exact ⟨hiff.mp hl', (ih hl' hrun).mp hafter⟩
    · intro hplain
      refine ⟨⟨hl, hl.marksHidden⟩, fun s' hstep => ?_⟩
      obtain ⟨hrun, hiff⟩ := hide_listed hl hs hstep
      obtain ⟨hflag, hrest⟩ := hplain s' hstep
      exact (ih (hiff.mpr hflag) hrun).mpr hrest

/-- The VM when the first object is allocated. -/
def startProcess (slot : ℕ → Slot) (vm : Vm) : Process :=
  ⟨initialMachine slot, { vm with hiddenObjs := [] }⟩

theorem startProcess_listed (slot : ℕ → Slot) (vm : Vm) : (startProcess slot vm).Listed where
  nodup := List.nodup_nil
  mem r := by
    refine iff_of_false (fun hmem => by cases hmem) fun h => ?_
    exact absurd (object_ne_none_iff.mp h.1).1 (Nat.not_lt_zero r)

theorem startProcess_running (slot : ℕ → Slot) (vm : Vm) : (startProcess slot vm).Running := by
  refine ⟨⟨?_, initialMachine_young slot⟩, fun scan hscan => by cases hscan⟩
  obtain ⟨l, hl, -⟩ := initialMachine_exact slot
  exact ⟨l, hl⟩

/-- In all states of a run `vm.hiddenObjs` has the hidden objects, and a full collection marks
what they hold, exactly if no object of the run is allocated with `NEWOBJ_FLAG_HIDDEN`. -/
theorem hiddenObjs_listed_iff (slot : ℕ → Slot) (vm : Vm) (as : List HidingAction) :
    HiddenAlong (startProcess slot vm) as ↔ PlainAlong (startProcess slot vm) as :=
  hiddenAlong_iff (startProcess_listed slot vm) (startProcess_running slot vm) as

/-- `hiddenString` as the first allocation: `hideFromGC` finds the flag set. -/
theorem hiddenObjs_not_listed : ¬ ∀ slot vm as, HiddenAlong (startProcess slot vm) as := by
  intro hall
  let s := startProcess (fun _ => ⟨none, false, false, 0, none⟩) (bareVm [] [])
  let added : Process := { s with machine := { s.machine with heap := s.machine.heap.addHeap } }
  have hgrown : s.hide (.heap .addHeap) = some added := rfl
  have hl : added.Listed := (startProcess_listed _ _).congr (.addHeap s.machine.heap) rfl
  have hrun : added.Running :=
    (hide_listed (startProcess_listed _ _) (startProcess_running _ _) hgrown).1
  obtain ⟨r, hr⟩ := Option.ne_none_iff_exists'.mp (addHeap_freeList_ne_none s.machine.heap)
  let string := HidingAction.allocate (.string ⟨none, none, none, []⟩) true true false
  have hsome : ∃ s', added.hide string = some s' := by
    change ∃ s', ((added.machine.heap.getNewObject _ true true false).bind _).bind _ = some s'
    unfold Heap.getNewObject
    rw [show added.machine.heap.freeList = some r from hr]
    exact ⟨_, rfl⟩
  obtain ⟨s', hstep⟩ := hsome
  obtain ⟨-, hiff⟩ := hide_listed hl hrun hstep
  have hafter : HiddenAlong s [.heap .addHeap, string, .hideFromGC r] := hall _ _ _
  have hlisted : s'.Listed := ((hafter.2 _ hgrown).2 s' hstep).1.1
  exact hiff.mp hlisted rfl

end Clox.Gc
