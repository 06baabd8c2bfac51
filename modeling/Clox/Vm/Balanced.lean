import Clox.Vm.Activity

/-! # Tags and block entries are balanced

The lists of tags and block entries are those of what is active, whatever way a
native function is left: none is left behind, none is missing, and each tag is
in its frame. A block entry is freed once, and a tag at most once. A tag that
takes an error is removed by `popErrInfo`, which does not free it.
-/

namespace Clox.Blocks

/-- An error is thrown, also by `OP_RETURN`, and a protection takes it. -/
def Catches (th : Thread) : Op → Prop
  | .throw _ => th.errInfo ≠ []
  | .opReturn _ => (th.frames.head?.map (·.isEval)) ≠ some true ∧ th.blockStack ≠ []
  | _ => False

instance (th : Thread) : (op : Op) → Decidable (Catches th op)
  | .throw _ => inferInstanceAs (Decidable (th.errInfo ≠ []))
  | .opReturn _ =>
    inferInstanceAs (Decidable ((th.frames.head?.map (·.isEval)) ≠ some true ∧ th.blockStack ≠ []))
  | .call | .callNative | .yield | .yieldNative _ | .protect | .protectEnd | .load _ | .leave
  | .nativeReturn => inferInstanceAs (Decidable False)

/-- Where the tags and the entries that were allocated are; `lost` tags are in no list and not
freed. -/
structure Accounted (th : Thread) (lost : List ℕ) : Prop where
  infos : (th.errInfo.map (·.id) ++ th.freedInfos ++ lost).Perm (List.range th.infos)
  entries : (th.blockStack ++ th.freedEntries).Perm (List.range th.entries)

namespace Accounted

variable {th : Thread} {lost : List ℕ}

theorem addErrInfo (acc : Accounted th lost) (setjmp : Setjmp) :
    Accounted (th.addErrInfo setjmp) lost := by
  constructor
  · simp only [Thread.addErrInfo, List.map_cons, List.cons_append, List.range_succ]
    exact (acc.infos.cons _).trans (List.perm_append_singleton _ _).symm
  · exact acc.entries

theorem setupBlock (acc : Accounted th lost) : Accounted th.setupBlock lost := by
  constructor
  · exact (acc.addErrInfo (.block th.entries)).infos
  · simp only [Thread.setupBlock, Thread.addErrInfo, List.cons_append, List.range_succ]
    exact (acc.entries.cons _).trans (List.perm_append_singleton _ _).symm

theorem freeErrInfo (acc : Accounted th lost) : Accounted th.freeErrInfo lost := by
  cases h : th.errInfo with
  | nil => simpa only [Thread.freeErrInfo, h] using acc
  | cons info prev =>
    simp only [Thread.freeErrInfo, h]
    constructor
    · have hinfos := acc.infos
      rw [h, List.map_cons] at hinfos
      exact (List.perm_middle.append_right lost).trans hinfos
    · exact acc.entries

theorem popErrInfo (acc : Accounted th lost) : ∃ lost', Accounted th.popErrInfo lost' := by
  cases h : th.errInfo with
  | nil =>
    refine ⟨lost, ?_, acc.entries⟩
    simpa [Thread.popErrInfo, h] using acc.infos
  | cons info prev =>
    refine ⟨info.id :: lost, ?_, acc.entries⟩
    have hinfos := acc.infos
    rw [h, List.map_cons] at hinfos
    simp only [Thread.popErrInfo, h, List.tail_cons]
    exact List.perm_middle.trans hinfos

theorem popBlockEntry (acc : Accounted th lost) (b : ℕ) : Accounted (th.popBlockEntry b) lost := by
  rw [Thread.popBlockEntry]
  split
  · cases h : th.blockStack with
    | nil => simpa only [Thread.freeEntry, h] using acc
    | cons e rest =>
      simp only [Thread.freeEntry, h]
      constructor
      · exact acc.infos
      · have hentries := acc.entries
        rw [h] at hentries
        exact List.perm_middle.trans hentries
  · exact acc

theorem popBlockEntryUntil (acc : Accounted th lost) (b : ℕ) :
    Accounted (th.popBlockEntryUntil b) lost := by
  constructor
  · exact acc.infos
  · have hsplit := List.takeWhile_append_dropWhile (p := (· != b)) (l := th.blockStack)
    have hentries := acc.entries
    rw [← hsplit] at hentries
    simp only [Thread.popBlockEntryUntil]
    generalize th.blockStack.takeWhile (· != b) = above at hentries ⊢
    generalize th.blockStack.dropWhile (· != b) = left at hentries ⊢
    have hhead : (left.tail ++ left.head?.toList).Perm left := by
      cases left with
      | nil => exact List.Perm.refl _
      | cons e left => exact List.perm_append_singleton e left
    refine List.Perm.trans ?_ hentries
    rw [← List.append_assoc, ← List.append_assoc]
    apply List.Perm.append_right
    exact (hhead.append above.reverse_perm).trans List.perm_append_comm

theorem unwindErrInfo (depth : ℕ) (infos : List ErrTagInfo) (acc : Accounted th lost) :
    Accounted (Thread.unwindErrInfo depth infos th) lost := by
  induction infos generalizing th with
  | nil => exact acc
  | cons info prev ih =>
    rw [Thread.unwindErrInfo]
    split
    · apply ih
      apply freeErrInfo
      cases info.bentry with
      | none => exact acc
      | some b => exact acc.popBlockEntry b
    · exact acc

theorem withFrames (acc : Accounted th lost) (frames : List CallFrame) :
    Accounted { th with frames } lost :=
  ⟨acc.infos, acc.entries⟩

theorem popFrame (acc : Accounted th lost) : Accounted th.popFrame lost :=
  (acc.unwindErrInfo _ _).withFrames _

theorem popFrames (n : ℕ) (acc : Accounted th lost) : Accounted (Thread.popFrames n th) lost := by
  induction n generalizing th with
  | zero => exact acc
  | succ n ih => exact ih acc.popFrame

theorem freeInfosUntil (info : ErrTagInfo) (infos : List ErrTagInfo) (acc : Accounted th lost) :
    Accounted (Thread.freeInfosUntil info infos th) lost := by
  induction infos generalizing th with
  | nil => exact acc
  | cons i prev ih =>
    rw [Thread.freeInfosUntil]
    split
    · exact acc
    · exact ih acc.freeErrInfo

theorem unwindJumpRecover (acc : Accounted th lost) (info : ErrTagInfo) :
    Accounted (th.unwindJumpRecover info) lost :=
  (acc.popFrames _).freeInfosUntil _ _

/-- The tag that takes an error is lost. -/
theorem throwErr (search : ℕ) (infos : List ErrTagInfo) (acc : Accounted th lost) :
    ∃ lost', Accounted (throwErr search infos th).2 lost' ∧ (infos = [] → lost' = lost) := by
  induction infos generalizing th lost with
  | nil => exact ⟨lost, acc.popFrames _, fun _ => rfl⟩
  | cons info prev ih =>
    rw [Blocks.throwErr]
    cases info.setjmp with
    | block b =>
      obtain ⟨lost', acc'⟩ := ((acc.popBlockEntryUntil b).unwindJumpRecover info).popErrInfo
      exact ⟨lost', acc', by simp⟩
    | recursion =>
      obtain ⟨lost', acc'⟩ := (acc.unwindJumpRecover info).popErrInfo
      exact ⟨lost', acc', by simp⟩
    | context =>
      have acc₁ : Accounted (th.unwindJumpRecover info).popContext lost :=
        (acc.unwindJumpRecover info).withFrames _
      obtain ⟨lost₁, acc₂⟩ := acc₁.popErrInfo
      obtain ⟨lost', acc', -⟩ := ih acc₂
      exact ⟨lost', acc', by simp⟩

end Accounted

/-! ## Runs -/

section

variable {th : Thread} {act : Activity} {lost : List ℕ}

theorem Accounted.step (acc : Accounted th lost) (op : Op) {th' : Thread}
    (h : th.step op = some th') :
    ∃ lost', Accounted th' lost' ∧ (¬ Catches th op → lost' = lost) := by
  cases op with
  | call =>
    simp only [Thread.step, Option.ite_none_left_eq_some, Option.some.injEq] at h
    obtain ⟨-, rfl⟩ := h
    exact ⟨lost, acc.withFrames _, fun _ => rfl⟩
  | callNative =>
    simp only [Thread.step, Option.ite_none_left_eq_some, Option.some.injEq] at h
    obtain ⟨-, rfl⟩ := h
    exact ⟨lost, acc.withFrames _, fun _ => rfl⟩
  | yield =>
    simp only [Thread.step, Option.ite_none_right_eq_some, Option.some.injEq] at h
    obtain ⟨-, rfl⟩ := h
    exact ⟨lost, acc.setupBlock.withFrames _, fun _ => rfl⟩
  | yieldNative setup =>
    simp only [Thread.step, Option.ite_none_right_eq_some, Option.some.injEq] at h
    obtain ⟨-, rfl⟩ := h
    cases setup with
    | true => exact ⟨lost, acc.setupBlock.withFrames _, fun _ => rfl⟩
    | false => exact ⟨lost, acc.withFrames _, fun _ => rfl⟩
  | protect =>
    simp only [Thread.step, Option.ite_none_right_eq_some, Option.some.injEq] at h
    obtain ⟨-, rfl⟩ := h
    exact ⟨lost, acc.addErrInfo _, fun _ => rfl⟩
  | protectEnd =>
    simp only [Thread.step] at h
    split at h
    · simp only [Option.ite_none_right_eq_some, Option.some.injEq] at h
      obtain ⟨-, rfl⟩ := h
      exact ⟨lost, acc.freeErrInfo, fun _ => rfl⟩
    · cases h
  | load isEval =>
    simp only [Thread.step, Option.ite_none_right_eq_some, Option.some.injEq] at h
    obtain ⟨-, rfl⟩ := h
    exact ⟨lost, (acc.withFrames _).addErrInfo _, fun _ => rfl⟩
  | leave =>
    simp only [Thread.step, Option.ite_none_right_eq_some, Option.some.injEq] at h
    obtain ⟨-, rfl⟩ := h
    exact ⟨lost, acc.freeErrInfo.withFrames _, fun _ => rfl⟩
  | nativeReturn =>
    simp only [Thread.step, Option.ite_none_right_eq_some, Option.some.injEq] at h
    obtain ⟨-, rfl⟩ := h
    exact ⟨lost, acc.popFrame, fun _ => rfl⟩
  | opReturn search =>
    rw [Thread.step_opReturn h, opReturn]
    by_cases hc : (th.frames.head?.map (·.isEval)) ≠ some true ∧ th.blockStack ≠ []
    · rw [if_pos hc]
      obtain ⟨lost', acc', -⟩ := acc.throwErr search th.errInfo
      exact ⟨lost', acc', fun hn => absurd hc hn⟩
    · rw [if_neg hc]
      exact ⟨lost, acc.popFrame, fun _ => rfl⟩
  | throw search =>
    obtain rfl : _ = th' := by simpa [Thread.step] using h
    obtain ⟨lost', acc', hlost⟩ := acc.throwErr search th.errInfo
    refine ⟨lost', acc', ?_⟩
    intro hn
    exact hlost (not_not.mp hn)

/-- In all runs each tag and each entry is in its list, freed once or lost. -/
theorem Run.accounted {P : Thread → Op → Prop} (run : Run P th act) :
    ∃ lost, Accounted th lost ∧ ((∀ th op, P th op → ¬ Catches th op) → lost = []) := by
  induction run with
  | init => exact ⟨[], ⟨List.Perm.refl _, List.Perm.refl _⟩, fun _ => rfl⟩
  | step op _ hop hstep ih =>
    obtain ⟨lost, acc, hlost⟩ := ih
    obtain ⟨lost', acc', hlost'⟩ := acc.step op hstep
    refine ⟨lost', acc', ?_⟩
    intro hP
    rw [hlost' (hP _ _ hop), hlost hP]

/-- No tag and no entry is freed twice, and none that is freed is in its list. -/
theorem Run.freed_nodup {P : Thread → Op → Prop} (run : Run P th act) :
    (th.errInfo.map (·.id) ++ th.freedInfos).Nodup ∧ (th.blockStack ++ th.freedEntries).Nodup := by
  obtain ⟨lost, acc, -⟩ := run.accounted
  constructor
  · have := acc.infos.nodup_iff.mpr List.nodup_range
    exact (List.nodup_append.mp this).1
  · exact acc.entries.nodup_iff.mpr List.nodup_range

/-- `each` with a native function as its block: the tag is freed. -/
theorem nativeBlock_freed : ∃ th act, Run (fun _ _ => True) th act ∧ th.freedInfos = [0] ∧
    (th.errInfo.map (·.id) ++ th.freedInfos).Nodup ∧ (th.blockStack ++ th.freedEntries).Nodup := by
  have each := Run.step (P := fun _ _ => True) .callNative .init trivial rfl
  have block := each.step (.yieldNative true) trivial rfl
  have eachEnd := (block.step .nativeReturn trivial rfl).step .nativeReturn trivial rfl
  exact ⟨_, _, eachEnd, rfl, eachEnd.freed_nodup⟩

end

end Clox.Blocks
