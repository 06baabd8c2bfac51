import Clox.Vm.Blocks

/-! # What is active

The frames and protections the flow has entered and not left, as one stack: to
leave one is to leave all above it. This is what `errInfo` and `v_blockStack`
are kept for; each step of a thread does to them what it does to the stack.
-/

namespace Clox.Blocks

/-! ## The stack -/

inductive Active where
  | frame (f : CallFrame)
  /-- A script or `eval` under its protection. -/
  | context (isEval : Bool) (t : ErrTagInfo)
  /-- `SETUP_BLOCK` or `execStopRecursion` of a native function. -/
  | info (t : ErrTagInfo)
deriving DecidableEq, Repr

namespace Active

def frame? : Active → Option CallFrame
  | frame f => some f
  | context isEval _ => some { isEval, isContext := true }
  | info _ => none

def info? : Active → Option ErrTagInfo
  | frame _ => none
  | context _ t | info t => some t

end Active

abbrev Activity := List Active

namespace Activity

def frames (act : Activity) : List CallFrame := act.filterMap Active.frame?
def infos (act : Activity) : List ErrTagInfo := act.filterMap Active.info?
def entries (act : Activity) : List ℕ := (infos act).filterMap ErrTagInfo.bentry

/-- The last frame is left, and the protections in it. -/
def leaveFrame : Activity → Activity
  | [] => []
  | .frame _ :: rest | .context _ _ :: rest => rest
  | .info _ :: rest => leaveFrame rest

/-- An error is thrown: the last protection takes it and is left. A script or `eval` is left as a
whole and the search goes on from `cur`; without protections it leaves frames down to the number
`search`. -/
def throwFrom (search : ℕ) (cur : Activity) : Activity → Activity
  | [] => cur.drop (cur.length - search)
  | .frame _ :: rest => throwFrom search cur rest
  | .context _ _ :: rest => throwFrom search rest rest
  | .info _ :: rest => rest

def throw (search : ℕ) (act : Activity) : Activity := throwFrom search act act

/-- What a step enters and leaves; `th` tells the numbers of new tags and entries. -/
def step (th : Thread) (act : Activity) : Op → Activity
  | .call => .frame {} :: act
  | .callNative => .frame { isCCall := true } :: act
  | .yield =>
    .frame { isYield := true } :: .info ⟨th.infos, (frames act).length, .block th.entries⟩ :: act
  | .yieldNative setup =>
    let act' : Activity :=
      if setup then .info ⟨th.infos, (frames act).length, .block th.entries⟩ :: act else act
    .frame { isCCall := true, isYield := true } :: act'
  | .protect => .info ⟨th.infos, (frames act).length, .recursion⟩ :: act
  | .protectEnd => act.tail
  | .load isEval => .context isEval ⟨th.infos, (frames act).length + 1, .context⟩ :: act
  | .leave | .nativeReturn => leaveFrame act
  | .opReturn search =>
    if ((frames act).head?.map (·.isEval)) ≠ some true ∧ entries act ≠ [] then throw search act
    else leaveFrame act
  | .throw search => throw search act

/-- Each protection is in the frame of a native function, whose number it knows, or that of its
script. The closure of a block is called right behind `SETUP_BLOCK`. -/
def Wf : Activity → Prop
  | [] => True
  | .frame f :: rest =>
    f.isContext = false ∧ f.isEval = false ∧
      (f.isYield = true → f.isCCall = false → ∃ t rest' b, rest = .info t :: rest' ∧
        t.setjmp = .block b) ∧ Wf rest
  | .context _ t :: rest =>
    t.setjmp = .context ∧ t.frame = (frames rest).length + 1 ∧ Wf rest
  | .info t :: rest =>
    t.setjmp ≠ .context ∧ t.frame = (frames rest).length ∧
      ((frames rest).head?.map (·.isCCall)) = some true ∧ Wf rest

end Activity

/-! ## Runs -/

/-- The runs of a program, with what is active. -/
inductive Run (P : Thread → Op → Prop) : Thread → Activity → Prop
  | init : Run P { frames := [{}] } [.frame {}]
  | step {th th' : Thread} {act : Activity} (op : Op) (h : Run P th act) (hop : P th op)
      (hstep : th.step op = some th') : Run P th' (act.step th op)

/-- The lists of a thread are those of what is active. -/
structure Lists (th : Thread) (act : Activity) : Prop where
  frames : th.frames = act.frames
  errInfo : th.errInfo = act.infos
  blockStack : th.blockStack = act.entries

/-! ## Popping frames -/

section

variable {th : Thread} {act rest : Activity} {search : ℕ}

open Activity

theorem Activity.Wf.frame_le (wf : Wf act) : ∀ t ∈ infos act, t.frame ≤ (frames act).length := by
  induction act with
  | nil => simp [infos]
  | cons a rest ih =>
    intro t ht
    cases a with
    | frame f =>
      have hle := ih wf.2.2.2 t ht
      exact Nat.le_succ_of_le hle
    | context e t' =>
      rcases List.mem_cons.mp ht with rfl | ht
      · exact Nat.le_of_eq wf.2.1
      · exact Nat.le_succ_of_le (ih wf.2.2 t ht)
    | info t' =>
      rcases List.mem_cons.mp ht with rfl | ht
      · exact Nat.le_of_eq wf.2.1
      · exact ih wf.2.2.2 t ht

theorem Activity.Wf.tail (wf : Wf act) : Wf act.tail := by
  cases act with
  | nil => trivial
  | cons a rest =>
    cases a with
    | frame f => exact wf.2.2.2
    | context e t => exact wf.2.2
    | info t => exact wf.2.2.2

theorem Activity.Wf.drop (wf : Wf act) (n : ℕ) : Wf (act.drop n) := by
  induction n generalizing act with
  | zero => exact wf
  | succ n ih =>
    cases act with
    | nil => exact wf
    | cons a rest => exact ih wf.tail

theorem Activity.Wf.leaveFrame (wf : Wf act) : Wf act.leaveFrame := by
  induction act with
  | nil => trivial
  | cons a rest ih =>
    cases a with
    | frame f => exact wf.2.2.2
    | context e t => exact wf.2.2
    | info t => exact ih wf.2.2.2

/-- `unwindErrInfo` stops at a tag of another frame. -/
theorem unwindErrInfo_of_ne {depth : ℕ} {infos : List ErrTagInfo}
    (h : ∀ t, infos.head? = some t → t.frame ≠ depth) :
    Thread.unwindErrInfo depth infos th = th := by
  cases infos with
  | nil => rfl
  | cons t infos => rw [Thread.unwindErrInfo, if_neg (h t rfl)]

/-- The last tag is freed with its block entry. -/
theorem Lists.freeInfo {t : ErrTagInfo} (lists : Lists th (.info t :: rest)) :
    Lists (match t.bentry with
      | some b => th.popBlockEntry b
      | none => th).freeErrInfo rest := by
  obtain ⟨hframes, hinfos, hentries⟩ := lists
  have hinfos' : th.errInfo = t :: infos rest := hinfos
  cases hb : t.bentry with
  | none =>
    have hentries' : th.blockStack = entries rest := by
      rw [hentries]
      simp [entries, infos, Active.info?, hb]
    constructor <;> simp only [Thread.freeErrInfo, hinfos']
    · exact hframes
    · exact hentries'
  | some b =>
    have hentries' : th.blockStack = b :: entries rest := by
      rw [hentries]
      simp [entries, infos, Active.info?, hb]
    have hpop : (th.popBlockEntry b).errInfo = t :: infos rest := by
      simp [Thread.popBlockEntry, Thread.freeEntry, hentries', hinfos']
    constructor <;> simp only [Thread.freeErrInfo, hpop]
    · rw [Thread.popBlockEntry, hentries', List.head?_cons, if_pos rfl, Thread.freeEntry,
        hentries']
      exact hframes
    · simp only [Thread.popBlockEntry, hentries', List.head?_cons, if_pos, Thread.freeEntry]

theorem Activity.frames_leaveFrame : frames act.leaveFrame = (frames act).tail := by
  induction act with
  | nil => rfl
  | cons a rest ih =>
    cases a with
    | frame f => rfl
    | context e t => rfl
    | info t => exact ih

/-- `unwindErrInfo` frees the tags of the last frame. -/
theorem unwindErrInfo_leaveFrame (lists : Lists th act) (wf : Wf act) :
    let th' := Thread.unwindErrInfo (frames act).length th.errInfo th
    th'.frames = frames act ∧ th'.errInfo = infos (leaveFrame act) ∧
      th'.blockStack = entries (leaveFrame act) := by
  induction act generalizing th with
  | nil =>
    rw [lists.errInfo]
    exact ⟨lists.frames, lists.errInfo, lists.blockStack⟩
  | cons a rest ih =>
    -- The tags below a frame are those of other frames.
    have below : ∀ wf' : Wf rest, ∀ th' : Thread, th'.errInfo = infos rest →
        Thread.unwindErrInfo ((frames rest).length + 1) th'.errInfo th' = th' := by
      intro wf' th' h
      apply unwindErrInfo_of_ne
      intro t ht
      rw [h] at ht
      have := wf'.frame_le t (List.mem_of_mem_head? ht)
      omega
    cases a with
    | frame f =>
      have hu := below wf.2.2.2 th lists.errInfo
      have hlen : (frames (.frame f :: rest)).length = (frames rest).length + 1 := rfl
      simp only [hlen, hu]
      exact ⟨lists.frames, lists.errInfo, lists.blockStack⟩
    | context e t =>
      have hinfos : th.errInfo = t :: infos rest := lists.errInfo
      have hb : t.bentry = none := by simp [ErrTagInfo.bentry, wf.1]
      have hfree : th.freeErrInfo.errInfo = infos rest := by
        simp [Thread.freeErrInfo, hinfos]
      have hu := below wf.2.2 th.freeErrInfo hfree
      have hlen : (frames (.context e t :: rest)).length = (frames rest).length + 1 := rfl
      rw [hfree] at hu
      simp only [hlen, hinfos, Thread.unwindErrInfo, wf.2.1, if_pos, hb, hu]
      refine ⟨?_, hfree, ?_⟩
      · simp only [Thread.freeErrInfo, hinfos]
        exact lists.frames
      · simp only [Thread.freeErrInfo, hinfos, lists.blockStack]
        simp [entries, infos, Active.info?, hb, leaveFrame]
    | info t =>
      have lists' := lists.freeInfo
      have hinfos : th.errInfo = t :: infos rest := lists.errInfo
      have hlen : (frames (.info t :: rest)).length = (frames rest).length := rfl
      have := ih lists' wf.2.2.2
      rw [lists'.errInfo] at this
      simp only [hlen, hinfos, Thread.unwindErrInfo, wf.2.1, if_pos]
      exact this

/-- `popFrame` leaves the last frame with its protections. -/
theorem Lists.popFrame (lists : Lists th act) (wf : Wf act) : Lists th.popFrame act.leaveFrame := by
  obtain ⟨-, hinfos, hentries⟩ := unwindErrInfo_leaveFrame lists wf
  rw [← lists.frames] at hinfos hentries
  constructor
  · rw [frames_leaveFrame, ← lists.frames]
    rfl
  · exact hinfos
  · exact hentries

/-! ## Throwing -/

/-- Frames without protections in them. -/
def Activity.bare (fs : List CallFrame) : Activity := fs.map .frame

theorem Activity.frames_bare (fs : List CallFrame) (rest : Activity) :
    frames (bare fs ++ rest) = fs ++ frames rest := by
  induction fs with
  | nil => rfl
  | cons f fs ih => exact congrArg (f :: ·) ih

theorem Activity.infos_bare (fs : List CallFrame) (rest : Activity) :
    infos (bare fs ++ rest) = infos rest := by
  induction fs with
  | nil => rfl
  | cons f fs ih => exact ih

/-- Frames without protections are popped, and no tag is freed. -/
theorem popFrames_bare {fs : List CallFrame} (hframes : th.frames = fs ++ frames rest)
    (hinfos : th.errInfo = infos rest) (hle : ∀ t ∈ infos rest, t.frame ≤ (frames rest).length) :
    Thread.popFrames fs.length th = { th with frames := frames rest } := by
  induction fs generalizing th with
  | nil =>
    rw [List.nil_append] at hframes
    rw [← hframes]
    rfl
  | cons f fs ih =>
    have hpop : th.popFrame = { th with frames := fs ++ frames rest } := by
      rw [Thread.popFrame, unwindErrInfo_of_ne, hframes]
      · rfl
      · intro t ht
        rw [hinfos] at ht
        have := hle t (List.mem_of_mem_head? ht)
        rw [hframes, List.length_append, List.length_cons]
        omega
    rw [List.length_cons, Thread.popFrames, hpop]
    exact ih rfl hinfos

/-- The frames above a protection are popped, and no tag is freed. -/
theorem unwindJumpRecover_bare (fs : List CallFrame) {t : ErrTagInfo}
    (hframes : th.frames = fs ++ frames rest) (hinfos : th.errInfo = infos rest) (wf : Wf rest)
    (hframe : t.frame = (frames rest).length) (htop : (infos rest).head? = some t) :
    th.unwindJumpRecover t = { th with frames := frames rest } := by
  have hlen : th.frames.length - t.frame = fs.length := by
    rw [hframes, List.length_append, hframe]
    omega
  rw [Thread.unwindJumpRecover, Thread.popFramesTo, hlen, popFrames_bare hframes hinfos wf.frame_le]
  cases h : infos rest with
  | nil => simp [h] at htop
  | cons t' prev =>
    obtain rfl : t' = t := by simpa [h] using htop
    simp [hinfos, h, Thread.freeInfosUntil]

/-- A block's protection takes the error: its block entry and it are left. -/
theorem throwErr_block (fs : List CallFrame) {t : ErrTagInfo} {b : ℕ}
    (lists : Lists th (bare fs ++ .info t :: rest)) (wf : Wf (.info t :: rest))
    (hb : t.setjmp = .block b) :
    throwErr search (infos (.info t :: rest)) th =
      (.block b, { th with
        frames := frames rest
        errInfo := infos rest
        blockStack := entries rest
        freedEntries := b :: th.freedEntries }) := by
  have hentries : th.blockStack = b :: entries rest := by
    rw [lists.blockStack, entries, infos_bare]
    simp [entries, infos, Active.info?, ErrTagInfo.bentry, hb]
  have huntil : th.popBlockEntryUntil b =
      { th with blockStack := entries rest, freedEntries := b :: th.freedEntries } := by
    simp [Thread.popBlockEntryUntil, hentries]
  have hrecover : (th.popBlockEntryUntil b).unwindJumpRecover t =
      { th.popBlockEntryUntil b with frames := frames (.info t :: rest) } := by
    apply unwindJumpRecover_bare fs _ _ wf wf.2.1 rfl
    · rw [← frames_bare, ← lists.frames]
      rfl
    · rw [← infos_bare fs, ← lists.errInfo]
      rfl
  have hinfos : th.errInfo = t :: infos rest := by
    rw [lists.errInfo, infos_bare]
    rfl
  rw [show infos (.info t :: rest) = t :: infos rest from rfl, throwErr, hb]
  simp only [hrecover]
  simp only [huntil, Thread.popErrInfo, hinfos]
  rfl

theorem throwErr_recursion (fs : List CallFrame) {t : ErrTagInfo}
    (lists : Lists th (bare fs ++ .info t :: rest)) (wf : Wf (.info t :: rest))
    (ht : t.setjmp = .recursion) :
    throwErr search (infos (.info t :: rest)) th =
      (.recursion, { th with frames := frames rest, errInfo := infos rest }) := by
  have hinfos : th.errInfo = infos (.info t :: rest) := by
    rw [lists.errInfo, infos_bare]
  have hrecover : th.unwindJumpRecover t = { th with frames := frames (.info t :: rest) } := by
    apply unwindJumpRecover_bare fs _ hinfos wf wf.2.1 rfl
    rw [← frames_bare, ← lists.frames]
  rw [show infos (.info t :: rest) = t :: infos rest from rfl] at hinfos ⊢
  rw [throwErr, ht]
  simp only [hrecover, Thread.popErrInfo, hinfos]
  rfl

/-- The protection of a script or `eval` takes the error, and it is thrown again. -/
theorem throwErr_context (fs : List CallFrame) {e : Bool} {t : ErrTagInfo}
    (lists : Lists th (bare fs ++ .context e t :: rest)) (wf : Wf (.context e t :: rest)) :
    throwErr search (infos (.context e t :: rest)) th =
      throwErr search (infos rest) { th with frames := frames rest, errInfo := infos rest } := by
  have hinfos : th.errInfo = infos (.context e t :: rest) := by
    rw [lists.errInfo, infos_bare]
  have hrecover : th.unwindJumpRecover t = { th with frames := frames (.context e t :: rest) } := by
    apply unwindJumpRecover_bare fs _ hinfos wf wf.2.1 rfl
    rw [← frames_bare, ← lists.frames]
  rw [show infos (.context e t :: rest) = t :: infos rest from rfl] at hinfos ⊢
  rw [throwErr, wf.1]
  simp only [hrecover, Thread.popContext, Thread.popErrInfo, hinfos]
  rfl

/-- An error leaves what `throwFrom` leaves. -/
theorem Lists.throwErr (fs : List CallFrame) (lists : Lists th (bare fs ++ rest)) (wf : Wf rest) :
    Lists (throwErr search (infos rest) th).2 (throwFrom search (bare fs ++ rest) rest) := by
  induction rest generalizing th fs with
  | nil =>
    have hinfos : infos (bare (fs.drop (fs.length - search))) = [] := by
      simpa [infos] using infos_bare (fs.drop (fs.length - search)) []
    have hfs : Activity.frames (bare fs) = fs := by
      simpa [Activity.frames] using frames_bare fs []
    have herr : th.errInfo = [] := by
      rw [lists.errInfo, infos_bare]
      rfl
    rw [List.append_nil] at lists ⊢
    have hframes : th.frames = fs := by rw [lists.frames, hfs]
    have hpop : th.popFramesTo search =
        { th with frames := Activity.frames (bare (fs.drop (fs.length - search))) } := by
      have htake : (fs.take (fs.length - search)).length = fs.length - search := by
        rw [List.length_take]
        omega
      rw [Thread.popFramesTo, hframes, ← htake]
      apply popFrames_bare
      · rw [htake, ← frames_bare, hframes, bare, bare, ← List.map_append, List.take_append_drop]
        exact hfs.symm
      · rw [htake, herr, hinfos]
      · rw [htake, hinfos]
        simp
    have hdrop : throwFrom search (bare fs) [] = bare (fs.drop (fs.length - search)) := by
      rw [throwFrom, bare, List.length_map, ← List.map_drop]
      rfl
    rw [hdrop]
    have hthrow : (Blocks.throwErr search (infos []) th).2 = th.popFramesTo search := rfl
    rw [hthrow, hpop]
    constructor
    · rfl
    · rw [hinfos, ← herr]
    · rw [lists.blockStack, entries, entries, hinfos, ← lists.errInfo, herr]
  | cons a rest ih =>
    cases a with
    | frame f =>
      have happend : bare fs ++ .frame f :: rest = bare (fs ++ [f]) ++ rest := by
        simp [bare]
      rw [happend] at lists ⊢
      exact ih (fs ++ [f]) lists wf.2.2.2
    | context e t =>
      rw [throwErr_context fs lists wf]
      have lists' : Lists { th with frames := Activity.frames rest, errInfo := infos rest } rest := by
        refine ⟨rfl, rfl, ?_⟩
        rw [lists.blockStack, entries, infos_bare]
        simp [entries, infos, Active.info?, ErrTagInfo.bentry, wf.1]
      exact ih [] lists' wf.2.2
    | info t =>
      cases ht : t.setjmp with
      | block b =>
        rw [throwErr_block fs lists wf ht]
        exact ⟨rfl, rfl, rfl⟩
      | recursion =>
        rw [throwErr_recursion fs lists wf ht]
        refine ⟨rfl, rfl, ?_⟩
        change th.blockStack = entries rest
        rw [lists.blockStack, entries, infos_bare]
        simp [entries, infos, Active.info?, ErrTagInfo.bentry, ht]
      | context => exact absurd ht wf.1

theorem Activity.Wf.throwFrom (wf : Wf rest) : ∀ {cur}, Wf cur → Wf (throwFrom search cur rest) := by
  induction rest with
  | nil =>
    intro cur hcur
    exact hcur.drop _
  | cons a rest ih =>
    intro cur hcur
    cases a with
    | frame f => exact ih wf.2.2.2 hcur
    | context e t => exact ih wf.2.2 wf.2.2
    | info t => exact wf.2.2.2

/-! ## Steps -/

theorem Lists.setupBlock (lists : Lists th act) :
    Lists th.setupBlock
      (.info ⟨th.infos, (Activity.frames act).length, .block th.entries⟩ :: act) := by
  constructor
  · exact lists.frames
  · rw [← lists.frames]
    exact congrArg (_ :: ·) lists.errInfo
  · exact congrArg (_ :: ·) lists.blockStack

theorem Lists.enter (lists : Lists th act) (f : CallFrame) :
    Lists { th with frames := f :: th.frames } (.frame f :: act) := by
  constructor
  · exact congrArg (f :: ·) lists.frames
  · exact lists.errInfo
  · exact lists.blockStack

theorem Lists.head? (lists : Lists th act) {g : CallFrame → Bool}
    (h : (th.frames.head?.map g) = some true) :
    ((Activity.frames act).head?.map g) = some true := by
  rw [← lists.frames]
  exact h

theorem Activity.Wf.isCCall_of_isContext (wf : Wf act) {f : CallFrame}
    (hf : (frames act).head? = some f) (h : f.isContext = true) : f.isCCall = false := by
  induction act with
  | nil => simp [frames] at hf
  | cons a rest ih =>
    cases a with
    | frame g =>
      obtain rfl : g = f := by simpa [frames, Active.frame?] using hf
      simp [wf.1] at h
    | context e t =>
      obtain rfl : { isEval := e, isContext := true } = f := by
        simpa [frames, Active.frame?] using hf
      rfl
    | info t => exact ih wf.2.2.2 hf

/-- The frame of a script or `eval` is left with its protection, which is the last: a native function
has left its own. -/
theorem Lists.leave (lists : Lists th act) (wf : Wf act)
    (htop : (th.frames.head?.map (·.isContext)) = some true) :
    Lists th.freeErrInfo.popContext act.leaveFrame := by
  have htop' := lists.head? htop
  cases act with
  | nil => simp [Activity.frames] at htop'
  | cons a rest =>
    cases a with
    | frame f =>
      have : f.isContext = true := by simpa [Activity.frames, Active.frame?] using htop'
      simp [wf.1] at this
    | context e t =>
      have hinfos : th.errInfo = t :: infos rest := lists.errInfo
      have hb : t.bentry = none := by simp [ErrTagInfo.bentry, wf.1]
      have hpop : th.freeErrInfo.popContext =
          { th with
            frames := th.frames.tail
            errInfo := infos rest
            freedInfos := t.id :: th.freedInfos } := by
        simp [Thread.popContext, Thread.freeErrInfo, hinfos]
      rw [hpop]
      constructor
      · rw [lists.frames]
        rfl
      · rfl
      · change th.blockStack = entries rest
        rw [lists.blockStack]
        simp [entries, infos, Active.info?, hb]
    | info t =>
      -- A protection is that of a native function.
      obtain ⟨-, -, hnative, hrest⟩ := wf
      cases hframes : Activity.frames rest with
      | nil => simp [hframes] at hnative
      | cons f fs =>
        have hf : f.isCCall = true := by simpa [hframes] using hnative
        have hcontext : f.isContext = true := by
          have : Activity.frames (.info t :: rest) = f :: fs := hframes
          simpa [this] using htop'
        have := hrest.isCCall_of_isContext (by simp [hframes]) hcontext
        simp [hf] at this

/-- The protection of `execStopRecursion` is the last. -/
theorem Lists.protectEnd {t : ErrTagInfo} {prev : List ErrTagInfo} (lists : Lists th act)
    (wf : Wf act) (hinfos : th.errInfo = t :: prev) (ht : t.setjmp = .recursion)
    (hframe : t.frame = th.frames.length) : Lists th.freeErrInfo act.tail := by
  have hb : t.bentry = none := by simp [ErrTagInfo.bentry, ht]
  have hinfos' : infos act = t :: prev := by rw [← lists.errInfo, hinfos]
  cases act with
  | nil => simp [infos] at hinfos'
  | cons a rest =>
    cases a with
    | frame f =>
      -- It would be that of a frame below.
      have hmem : t ∈ infos rest := by
        have : infos rest = t :: prev := hinfos'
        rw [this]
        exact List.mem_cons_self
      have hle := wf.2.2.2.frame_le t hmem
      have hlen : th.frames.length = (Activity.frames rest).length + 1 := by
        rw [lists.frames]
        rfl
      omega
    | context e t' =>
      obtain ⟨rfl, -⟩ : t' = t ∧ infos rest = prev := by
        simpa [infos, Active.info?] using hinfos'
      have := wf.1
      simp [ht] at this
    | info t' =>
      obtain ⟨rfl, -⟩ : t' = t ∧ infos rest = prev := by
        simpa [infos, Active.info?] using hinfos'
      have := lists.freeInfo
      rw [hb] at this
      exact this

theorem Thread.step_opReturn {th' : Thread} (h : th.step (.opReturn search) = some th') :
    th' = (Blocks.opReturn search () th).thread := by
  simp only [Thread.step] at h
  split at h
  · split at h
    · cases h
    · exact (Option.some.inj h).symm
  · cases h

/-- What a step does to the lists of a thread. -/
theorem Lists.step (lists : Lists th act) (wf : Wf act) (op : Op) {th' : Thread}
    (h : th.step op = some th') : Lists th' (act.step th op) := by
  cases op with
  | call =>
    obtain ⟨-, rfl⟩ : _ ∧ _ = th' := by simpa [Thread.step] using h
    exact lists.enter _
  | callNative =>
    obtain ⟨-, rfl⟩ : _ ∧ _ = th' := by simpa [Thread.step] using h
    exact lists.enter _
  | yield =>
    simp only [Thread.step, Option.ite_none_right_eq_some, Option.some.injEq] at h
    obtain ⟨-, rfl⟩ := h
    exact lists.setupBlock.enter { isYield := true }
  | yieldNative setup =>
    simp only [Thread.step, Option.ite_none_right_eq_some, Option.some.injEq] at h
    obtain ⟨-, rfl⟩ := h
    cases setup with
    | true => exact lists.setupBlock.enter { isCCall := true, isYield := true }
    | false => exact lists.enter { isCCall := true, isYield := true }
  | protect =>
    simp only [Thread.step, Option.ite_none_right_eq_some, Option.some.injEq] at h
    obtain ⟨-, rfl⟩ := h
    constructor
    · exact lists.frames
    · rw [Thread.addErrInfo, lists.frames]
      exact congrArg (_ :: ·) lists.errInfo
    · exact lists.blockStack
  | protectEnd =>
    simp only [Thread.step] at h
    split at h
    · next t prev hinfos =>
      simp only [Option.ite_none_right_eq_some, Option.some.injEq] at h
      obtain ⟨⟨ht, hframe⟩, rfl⟩ := h
      exact lists.protectEnd wf hinfos ht hframe
    · cases h
  | load isEval =>
    simp only [Thread.step, Option.ite_none_right_eq_some, Option.some.injEq] at h
    obtain ⟨-, rfl⟩ := h
    constructor
    · exact congrArg (_ :: ·) lists.frames
    · simp only [Thread.addErrInfo, List.length_cons, lists.frames, lists.errInfo]
      rfl
    · exact lists.blockStack
  | leave =>
    simp only [Thread.step, Option.ite_none_right_eq_some, Option.some.injEq] at h
    obtain ⟨htop, rfl⟩ := h
    exact lists.leave wf htop
  | nativeReturn =>
    simp only [Thread.step, Option.ite_none_right_eq_some, Option.some.injEq] at h
    obtain ⟨-, rfl⟩ := h
    exact lists.popFrame wf
  | opReturn search =>
    rw [Thread.step_opReturn h, Blocks.opReturn, Activity.step, ← lists.frames, ← lists.blockStack]
    split
    · rw [Return.thread, lists.errInfo]
      exact lists.throwErr [] wf
    · exact lists.popFrame wf
  | throw search =>
    obtain rfl : _ = th' := by simpa [Thread.step] using h
    rw [lists.errInfo]
    exact lists.throwErr [] wf

/-- `.frame`s that `step` enters are not those of scripts. -/
theorem Activity.Wf.step (wf : Wf act) (lists : Lists th act) (op : Op) {th' : Thread}
    (h : th.step op = some th') : Wf (act.step th op) := by
  cases op with
  | call => exact ⟨rfl, rfl, by simp, wf⟩
  | callNative => exact ⟨rfl, rfl, by simp, wf⟩
  | yield =>
    simp only [Thread.step, Option.ite_none_right_eq_some] at h
    refine ⟨rfl, rfl, ?_, by simp, rfl, lists.head? h.1, wf⟩
    intro _ _
    exact ⟨_, act, th.entries, rfl, rfl⟩
  | yieldNative setup =>
    simp only [Thread.step, Option.ite_none_right_eq_some] at h
    cases setup with
    | true => exact ⟨rfl, rfl, by simp, by simp, rfl, lists.head? h.1, wf⟩
    | false => exact ⟨rfl, rfl, by simp, wf⟩
  | protect =>
    simp only [Thread.step, Option.ite_none_right_eq_some] at h
    exact ⟨by simp, rfl, lists.head? h.1, wf⟩
  | protectEnd => exact wf.tail
  | load isEval => exact ⟨rfl, rfl, wf⟩
  | leave => exact wf.leaveFrame
  | nativeReturn => exact wf.leaveFrame
  | opReturn search =>
    rw [Activity.step]
    split
    · exact wf.throwFrom wf
    · exact wf.leaveFrame
  | throw search => exact wf.throwFrom wf

/-- In all runs the lists of the thread are those of what is active. -/
theorem Run.lists {P : Thread → Op → Prop} (run : Run P th act) : Lists th act ∧ Wf act := by
  induction run with
  | init => exact ⟨⟨rfl, rfl, rfl⟩, rfl, rfl, by simp, trivial⟩
  | step op _ _ hstep ih => exact ⟨ih.1.step ih.2 op hstep, ih.2.step ih.1 op hstep⟩

end

end Clox.Blocks
