import Clox.Vm.Activity

/-! # `return` returns to the caller

`OP_RETURN` looks at the block stack of the thread, not at its frame: with any
block active it ends the iteration of the innermost one, also from a function
that the block calls.
-/

namespace Clox.Blocks

variable {V : Type} {th : Thread} {act : Activity} {search : ℕ}

/-- What `return` should do. The frame of a yielded block ends the iteration of that block; any other
frame is left, with its protections, and its caller gets the value. -/
def ReturnsRight (act : Activity) (value : V) (r : Return V) : Prop :=
  if ((act.frames.head?.map (·.isYield)) = some true) then
    ∃ f t rest b th', act = .frame f :: .info t :: rest ∧ t.setjmp = .block b ∧
      r = .continued value (.block b) th' ∧ Lists th' rest
  else ∃ th', r = .returned value th' ∧ Lists th' act.leaveFrame

/-- The frame on top of which no native function stands is the last thing active. -/
theorem Activity.Wf.top_frame (wf : act.Wf) {f : CallFrame} {fs : List CallFrame}
    (hframes : act.frames = f :: fs) (hlox : f.isCCall = false) :
    (∃ rest, act = .frame f :: rest) ∨
      ∃ e t rest, act = .context e t :: rest ∧ f = { isEval := e, isContext := true } := by
  cases act with
  | nil => simp [Activity.frames] at hframes
  | cons a rest =>
    cases a with
    | frame g =>
      obtain ⟨rfl, -⟩ : g = f ∧ frames rest = fs := by
        simpa [Activity.frames, Active.frame?] using hframes
      exact .inl ⟨rest, rfl⟩
    | context e t =>
      obtain ⟨rfl, -⟩ : { isEval := e, isContext := true } = f ∧ frames rest = fs := by
        simpa [Activity.frames, Active.frame?] using hframes
      exact .inr ⟨e, t, rest, rfl, rfl⟩
    | info t =>
      have hframes' : frames rest = f :: fs := hframes
      have := wf.2.2.1
      simp [hframes', hlox] at this

/-- A yielded block's frame stands on the protection of the block. -/
theorem opReturn_of_isYield {f : CallFrame} {rest : Activity} (value : V)
    (lists : Lists th (.frame f :: rest)) (wf : Activity.Wf (.frame f :: rest))
    (hlox : f.isCCall = false) (hyield : f.isYield = true) :
    ReturnsRight (.frame f :: rest) value (opReturn search value th) := by
  obtain ⟨t, rest', b, rfl, ht⟩ := wf.2.2.1 hyield hlox
  have hactive : th.blockStack ≠ [] := by
    rw [lists.blockStack]
    simp [Activity.entries, Activity.infos, Active.info?, ErrTagInfo.bentry, ht]
  have heval : (th.frames.head?.map (·.isEval)) ≠ some true := by
    rw [lists.frames]
    simp [Activity.frames, Active.frame?, wf.2.1]
  have hinfos : th.errInfo = Activity.infos (.info t :: rest') := lists.errInfo
  rw [ReturnsRight, if_pos (by simp [Activity.frames, Active.frame?, hyield])]
  have hthrow : throwErr search (Activity.infos (.info t :: rest')) th = _ :=
    throwErr_block [f] lists wf.2.2.2 ht
  refine ⟨f, t, rest', b, (throwErr search th.errInfo th).2, rfl, ht, ?_, ?_⟩
  · rw [opReturn, if_pos ⟨heval, hactive⟩, hinfos, hthrow]
  · rw [hinfos, hthrow]
    exact ⟨rfl, rfl, rfl⟩

/-- In all runs `OP_RETURN` is right for the frame of a block, in an `eval`, and where no block is
active. -/
theorem Run.returnsRight_iff {P : Thread → Op → Prop} (run : Run P th act) {f : CallFrame}
    {fs : List CallFrame} (hframes : th.frames = f :: fs) (hlox : f.isCCall = false) (value : V) :
    ReturnsRight act value (opReturn search value th) ↔
      f.isYield = true ∨ f.isEval = true ∨ th.blockStack = [] := by
  obtain ⟨lists, wf⟩ := run.lists
  have hact : act.frames = f :: fs := by rw [← lists.frames, hframes]
  by_cases hyield : f.isYield = true
  · obtain ⟨rest, rfl⟩ | ⟨e, t, rest, rfl, rfl⟩ := wf.top_frame hact hlox
    · exact ⟨fun _ => .inl hyield, fun _ => opReturn_of_isYield value lists wf hlox hyield⟩
    · simp at hyield
  · have hnot : ¬ (act.frames.head?.map (·.isYield)) = some true := by
      simpa [hact] using hyield
    rw [ReturnsRight, if_neg hnot, opReturn]
    by_cases hthrow : (th.frames.head?.map (·.isEval)) ≠ some true ∧ th.blockStack ≠ []
    · rw [if_pos hthrow]
      have heval : f.isEval ≠ true := by simpa [hframes] using hthrow.1
      constructor
      · rintro ⟨th', h, -⟩
        cases h
      · rintro (h | h | h)
        · exact absurd h hyield
        · exact absurd h heval
        · exact absurd h hthrow.2
    · rw [if_neg hthrow]
      constructor
      · intro _
        by_cases hblocks : th.blockStack = []
        · exact .inr (.inr hblocks)
        · have : f.isEval = true := by
            by_contra heval
            exact hthrow ⟨by simpa [hframes] using heval, hblocks⟩
          exact .inr (.inl this)
      · intro _
        exact ⟨_, rfl, lists.popFrame wf⟩

/-- A function returns from the call of a function that `each` has called its block before. -/
theorem afterBlock_returnsRight :
    ReturnsRight [.frame {}, .frame {}] 5
      (opReturn 0 5 { frames := [{}, {}], infos := 1, freedEntries := [0], entries := 1 }) := by
  have each := Run.step (P := fun _ _ => True) .callNative .init trivial rfl
  have block := (each.step .yield trivial rfl).step (.throw 0) trivial rfl
  have called := (block.step .nativeReturn trivial rfl).step .call trivial rfl
  exact (called.returnsRight_iff rfl rfl 5).mpr (.inr (.inr rfl))

/-- `[1].each() -> (x) { f(x); };`: the `return` of `f` ends the iteration. -/
theorem returnInBlock_continues :
    ∃ (th : Thread) (act : Activity), Run (fun _ _ => True) th act ∧
      th.frames = [{}, { isYield := true }, { isCCall := true }, {}] ∧
        ¬ ReturnsRight act 5 (opReturn 0 5 th) := by
  have each := Run.step (P := fun _ _ => True) .callNative .init trivial rfl
  have block := each.step .yield trivial rfl
  have called := block.step .call trivial rfl
  refine ⟨_, _, called, rfl, ?_⟩
  rintro ⟨th', h, -⟩
  cases h

end Clox.Blocks
