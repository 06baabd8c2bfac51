import Clox.Gc.Reachable

/-! # Reaping

A full collection takes the zombies that were joined or detached from `vm.threads`. It collects their
indices first and then splices the vector once for each, so that from the second splice on the
threads have moved.
-/

namespace Clox.Gc

variable {vm after : Vm} {threads threads' : List LxThread × List LxThread} {i j k : ℕ}

/-- The indices that are collected. -/
def Vm.zombies (vm : Vm) : List ℕ :=
  (vm.threads.zipIdx.filter fun th => th.1.reapable).map Prod.snd

theorem mem_zombies : i ∈ vm.zombies ↔ ∃ th, vm.threads[i]? = some th ∧ th.reapable = true := by
  unfold Vm.zombies
  simp only [List.mem_map, List.mem_filter, Prod.exists, List.mem_zipIdx_iff_getElem?]
  constructor
  · rintro ⟨th, _, ⟨hth, hreap⟩, rfl⟩
    exact ⟨th, hth, hreap⟩
  · rintro ⟨th, hth, hreap⟩
    exact ⟨th, i, ⟨hth, hreap⟩, rfl⟩

theorem zombies_increasing (vm : Vm) : vm.zombies.Pairwise (· < ·) := by
  have hsub : vm.zombies.Sublist (vm.threads.zipIdx.map Prod.snd) :=
    List.filter_sublist.map Prod.snd
  refine List.Pairwise.sublist hsub ?_
  rw [List.zipIdx_map_snd]
  exact List.pairwise_lt_range'

theorem length_zombies (vm : Vm) :
    vm.zombies.length = (vm.threads.filter LxThread.reapable).length := by
  have hfst : vm.threads = vm.threads.zipIdx.map Prod.fst := (List.zipIdx_map_fst 0 _).symm
  unfold Vm.zombies
  conv_rhs => rw [hfst, List.filter_map]
  rw [List.length_map, List.length_map]
  rfl

/-- Threads in front of the spliced index stay where they are. -/
theorem splice_getElem? (h : Vm.splice threads i = some threads') (hj : j < i) :
    threads'.1[j]? = threads.1[j]? := by
  unfold Vm.splice at h
  split at h
  · cases h
  · cases h
    exact List.getElem?_eraseIdx_of_lt hj

theorem foldlM_splice_getElem? {zombies : List ℕ} (hall : ∀ i ∈ zombies, j < i)
    (h : zombies.foldlM Vm.splice threads = some threads') : threads'.1[j]? = threads.1[j]? := by
  induction zombies generalizing threads with
  | nil =>
    cases h
    rfl
  | cons i zombies ih =>
    rw [List.foldlM_cons] at h
    rcases Option.bind_eq_some_iff.mp h with ⟨threads₁, hfirst, hrest⟩
    rw [ih (fun i hi => hall i (List.mem_cons_of_mem _ hi)) hrest]
    exact splice_getElem? hfirst (hall i List.mem_cons_self)

theorem reap_eq_some (h : vm.reap = some after) :
    ∃ spliced, vm.zombies.foldlM Vm.splice (vm.threads, []) = some (after.threads, spliced) := by
  rcases Option.bind_eq_some_iff.mp h with ⟨⟨threads, spliced⟩, hfold, hafter⟩
  cases hafter
  exact ⟨spliced, hfold⟩

/-- Without a zombie nothing is spliced. -/
theorem reap_none (h : vm.zombies = []) :
    ∃ after, vm.reap = some after ∧ after.threads = vm.listed := by
  refine ⟨{ vm with threads := vm.threads, unlisted := vm.unlisted ++ [] }, ?_, ?_⟩
  · show (vm.zombies.foldlM Vm.splice (vm.threads, [])).bind _ = _
    rw [h]
    rfl
  · refine (List.filter_eq_self.mpr fun th hth => ?_).symm
    rcases List.mem_iff_getElem?.mp hth with ⟨i, hi⟩
    rw [Bool.not_eq_true', Bool.eq_false_iff]
    intro hreap
    have hmem : i ∈ vm.zombies := mem_zombies.mpr ⟨th, hi, hreap⟩
    rw [h] at hmem
    cases hmem

/-- The first zombie is still at its index when it is spliced. -/
theorem reap_one (h : vm.zombies = [i]) :
    ∃ after, vm.reap = some after ∧ after.threads = vm.listed := by
  have hmem : i ∈ vm.zombies := h ▸ List.mem_cons_self
  rcases mem_zombies.mp hmem with ⟨th, hth, hreap⟩
  have hothers : ∀ j th', j ≠ i → vm.threads[j]? = some th' → th'.reapable = false := by
    intro j th' hne hj
    by_contra htrue
    have hmem' : j ∈ vm.zombies := mem_zombies.mpr ⟨th', hj, by simpa using htrue⟩
    rw [h] at hmem'
    exact hne (List.mem_singleton.mp hmem')
  have hkept : vm.threads.eraseIdx i = vm.listed := by
    have hlt := (List.getElem?_eq_some_iff.mp hth).1
    have hsplit : vm.threads = vm.threads.take i ++ th :: vm.threads.drop (i + 1) := by
      rw [← (List.getElem?_eq_some_iff.mp hth).2, ← List.drop_eq_getElem_cons hlt,
        List.take_append_drop]
    have hfront : (vm.threads.take i).filter (fun th => !th.reapable) = vm.threads.take i := by
      refine List.filter_eq_self.mpr fun th' hth' => ?_
      rcases List.mem_iff_getElem?.mp hth' with ⟨j, hj⟩
      rw [List.getElem?_take] at hj
      split at hj
      · rename_i hji
        rw [hothers j th' hji.ne hj]
        rfl
      · cases hj
    have hback : (vm.threads.drop (i + 1)).filter (fun th => !th.reapable) =
        vm.threads.drop (i + 1) := by
      refine List.filter_eq_self.mpr fun th' hth' => ?_
      rcases List.mem_iff_getElem?.mp hth' with ⟨j, hj⟩
      rw [List.getElem?_drop] at hj
      rw [hothers (i + 1 + j) th' (by omega) hj]
      rfl
    unfold Vm.listed
    conv_rhs => rw [hsplit]
    rw [List.filter_append, List.filter_cons, hreap, hfront, hback]
    exact List.eraseIdx_eq_take_drop_succ ..
  refine ⟨{ vm with
    threads := vm.threads.eraseIdx i
    unlisted := vm.unlisted ++ [th].filter fun th => !th.reapable }, ?_, hkept⟩
  show (vm.zombies.foldlM Vm.splice (vm.threads, [])).bind _ = _
  rw [h]
  unfold List.foldlM Vm.splice
  rw [hth]
  rfl

/-- From two zombies on, the second one moves in front of its index and stays. -/
theorem reap_two {rest : List ℕ} (h : vm.zombies = i :: j :: rest) (hreap : vm.reap = some after) :
    ∃ th ∈ after.threads, th.reapable = true := by
  have hincreasing := zombies_increasing vm
  rw [h, List.pairwise_cons, List.pairwise_cons] at hincreasing
  have hij : i < j := hincreasing.1 j List.mem_cons_self
  have hmem : j ∈ vm.zombies := h ▸ List.mem_cons_of_mem i List.mem_cons_self
  rcases mem_zombies.mp hmem with ⟨th, hth, hreapable⟩
  rcases reap_eq_some hreap with ⟨spliced, hfold⟩
  rw [h, List.foldlM_cons] at hfold
  rcases Option.bind_eq_some_iff.mp hfold with ⟨threads₁, hfirst, hrest⟩
  -- the first splice moves it to `j - 1`, and all others are from `j` on
  have hmoved : threads₁.1[j - 1]? = some th := by
    unfold Vm.splice at hfirst
    split at hfirst
    · cases hfirst
    · cases hfirst
      rw [List.getElem?_eraseIdx_of_ge (by omega), Nat.sub_add_cancel (by omega)]
      exact hth
  have hstays : after.threads[j - 1]? = some th := by
    rw [← hmoved]
    refine foldlM_splice_getElem? (fun k hk => ?_) hrest
    rcases List.mem_cons.mp hk with rfl | hk
    · omega
    · have := hincreasing.2.1 k hk
      omega
  exact ⟨th, List.mem_of_getElem? hstays, hreapable⟩

/-- A collection leaves the threads in `vm.threads` that were not to be reaped, as they stood. -/
def ReapsExactly (vm : Vm) : Prop := ∃ after, vm.reap = some after ∧ after.threads = vm.listed

/-- A full collection leaves the thread table as the reaping did; that is right exactly if there is
at most one thread to reap. -/
theorem reaping_iff (vm : Vm) :
    (∀ s s' : Process, s.vm = vm → s.machine.heap.gcOn = true →
      s.step .collectGarbage = some s' → vm.reap = some s'.vm) ∧
    (ReapsExactly vm ↔ (vm.threads.filter LxThread.reapable).length ≤ 1) := by
  constructor
  · rintro s s' rfl hon hstep
    change s.collectGarbage = some s' at hstep
    unfold Process.collectGarbage at hstep
    simp only [hon, Bool.not_true, Bool.false_eq_true, if_false] at hstep
    split at hstep
    · cases hstep
    · rcases Option.bind_eq_some_iff.mp hstep with ⟨after, hreap, hmark⟩
      rcases Option.bind_eq_some_iff.mp hmark with ⟨m, -, hs'⟩
      cases hs'
      exact hreap
  · rw [← length_zombies]
    constructor
    · rintro ⟨after, hreap, hthreads⟩
      by_contra hmany
      rcases hz : vm.zombies with _ | ⟨i, _ | ⟨j, rest⟩⟩
      · rw [hz] at hmany
        exact hmany (Nat.zero_le 1)
      · rw [hz] at hmany
        exact hmany le_rfl
      · rcases reap_two hz hreap with ⟨th, hth, hreapable⟩
        rw [hthreads, Vm.listed, List.mem_filter, hreapable] at hth
        exact Bool.false_ne_true hth.2
    · intro hfew
      rcases hz : vm.zombies with _ | ⟨i, _ | ⟨j, rest⟩⟩
      · exact reap_none hz
      · exact reap_one hz
      · rw [hz, List.length_cons, List.length_cons] at hfew
        omega

/-- Two threads that were joined, between the main thread and one that runs. -/
def twoZombies : Vm :=
  let thread (inst : ℕ) (zombie : Bool) : LxThread :=
    { inst, zombie, joined := zombie, detached := false, ecs := [], openUpvalues := [],
      thisObj := none, thisStack := [], crefStack := [], blockStack := [], lastValue := none,
      errInfo := [], lastErrorThrown := none, errorToThrow := none, stackObjects := [],
      tlsMap := none }
  { bareVm [] [] with threads := [thread 0 false, thread 1 true, thread 2 true, thread 3 false] }

/-- The thread that runs is spliced in place of the second zombie. -/
theorem running_thread_spliced : ¬ ∀ vm : Vm, ReapsExactly vm := by
  intro h
  rcases h twoZombies with ⟨after, hreap, hthreads⟩
  cases hreap
  have hinst := congrArg (List.map LxThread.inst) hthreads
  revert hinst
  decide

end Clox.Gc
