import Mathlib.Data.List.Forall2
import Clox.Vm.Ensure

/-! # Ensure blocks run once

On a run whose steps meet the condition of `Meets`, `isEnsureRunning` is set
for a row exactly while the innermost open entry of its try runs its block for
an error. This carries over every step; an error therefore starts only blocks
that are waiting, and `OP_RETHROW_IF_ERR` throws again what started the block.
-/

namespace Clox.Throw

open Relation (ReflTransGen)

/-! ## The invariant -/

/-- The entry is one of the try with the ensure row `i` of the chunk. -/
def OpenTry.isOf (c i : ℕ) (e : OpenTry) : Bool := e.chunk == c && e.row == i

/-- The flag of a try whose open entries are `l`: the innermost runs its block for an error, or
none does. -/
def Marked (flag : Bool) : List OpenTry → Prop
  | [] => flag = false
  | e :: rest => e.thrown = flag ∧ ∀ e' ∈ rest, e'.thrown = false

/-- The entries of a frame; a native frame has none. -/
def Owns (f : CallFrame) (E : List OpenTry) : Prop :=
  (∀ e ∈ E, e.chunk = f.chunk) ∧ (f.isCCall = true → E = [])

structure Inv (frames : List CallFrame) (th : Thread) (mon : Monitor) : Prop where
  owned : List.Forall₂ Owns frames mon.tries
  marked : ∀ c i, Marked (isEnsureRunning (th.tables c) i) (mon.tries.flatten.filter (·.isOf c i))
  runs : ∀ e ∈ mon.tries.flatten, (e.runs = 0 ∧ e.thrown = false) ∨ e.runs = 1
  closed : ∀ e ∈ mon.closed, e.runs = 1
  sound : mon.sound = true

section

variable {frames rest : List CallFrame} {f : CallFrame} {th th' : Thread} {mon mon' : Monitor}
  {flag : Bool} {pre l : List OpenTry} {c i j : ℕ}

/-! ## Leaving tries that are done -/

theorem Marked.of_append (h : Marked flag (pre ++ l)) (hpre : ∀ e ∈ pre, e.thrown = false) :
    Marked flag l := by
  cases pre with
  | nil => exact h
  | cons e pre =>
    have hflag : flag = false := h.1.symm.trans (hpre e List.mem_cons_self)
    have hl : ∀ e' ∈ l, e'.thrown = false := fun e' he' => h.2 e' (List.mem_append_right _ he')
    cases l with
    | nil => exact hflag
    | cons e' l =>
      exact ⟨(hl e' List.mem_cons_self).trans hflag.symm, fun x hx => hl x (List.mem_cons_of_mem _ hx)⟩

theorem Marked.of_false (h : Marked false l) : ∀ e ∈ l, e.thrown = false := by
  cases l with
  | nil => exact nofun
  | cons e l =>
    intro x hx
    rcases List.mem_cons.mp hx with rfl | hx
    · exact h.1
    · exact h.2 x hx

/-- The first entries are left, all of them done. -/
theorem Inv.close {frames' : List CallFrame} (inv : Inv frames th mon)
    (howned : List.Forall₂ Owns frames' mon'.tries)
    (htries : mon.tries.flatten = pre ++ mon'.tries.flatten)
    (hclosed : mon'.closed = mon.closed ++ pre) (hsound : mon'.sound = mon.sound)
    (hpre : ∀ e ∈ pre, e.Done) (htables : th'.tables = th.tables) : Inv frames' th' mon' where
  owned := howned
  marked c i := by
    have hmarked := inv.marked c i
    rw [htries, List.filter_append] at hmarked
    rw [htables]
    exact hmarked.of_append fun e he => (hpre e (List.mem_of_mem_filter he)).2
  runs e he := inv.runs e (by rw [htries]; exact List.mem_append_right _ he)
  closed e he := by
    rw [hclosed] at he
    rcases List.mem_append.mp he with he | he
    · exact inv.closed e he
    · exact (hpre e he).1
  sound := hsound.trans inv.sound

theorem Inv.closeFrames (inv : Inv frames th mon) (k : ℕ)
    (hdone : ∀ e ∈ (mon.tries.take k).flatten, e.Done) (htables : th'.tables = th.tables) :
    Inv (frames.drop k) th' (mon.closeFrames k) := by
  refine inv.close (List.forall₂_drop k inv.owned) ?_ rfl rfl hdone htables
  rw [Monitor.closeFrames, ← List.flatten_append, List.take_append_drop]

theorem Inv.closeTries (inv : Inv frames th mon) (n : ℕ)
    (hdone : ∀ e ∈ (mon.tries.headD []).take n, e.Done) (htables : th'.tables = th.tables) :
    Inv frames th' (mon.closeTries n) := by
  cases htries : mon.tries with
  | nil =>
    have hclose : mon.closeTries n = mon := by
      rw [Monitor.closeTries, htries]
    rw [hclose]
    exact ⟨inv.owned, htables ▸ inv.marked, inv.runs, inv.closed, inv.sound⟩
  | cons E rest =>
    have hclose : mon.closeTries n =
        { mon with tries := E.drop n :: rest, closed := mon.closed ++ E.take n } := by
      rw [Monitor.closeTries, htries]
    rw [htries] at hdone
    rw [hclose]
    have howned := inv.owned
    rw [htries] at howned
    cases howned with
    | cons hE hrest =>
      refine inv.close (.cons ⟨fun e he => hE.1 e (List.mem_of_mem_drop he), fun hf => ?_⟩ hrest)
        ?_ rfl rfl hdone htables
      · rw [hE.2 hf, List.drop_nil]
      · rw [htries]
        show E ++ rest.flatten = E.take n ++ (E.drop n ++ rest.flatten)
        rw [← List.append_assoc, List.take_append_drop]

theorem Monitor.closeTries_subset {n : ℕ} {e : OpenTry}
    (h : e ∈ (mon.closeTries n).tries.flatten) : e ∈ mon.tries.flatten := by
  cases htries : mon.tries with
  | nil => simp [Monitor.closeTries, htries] at h
  | cons E rest =>
    simp only [Monitor.closeTries, htries, List.flatten_cons, List.mem_append] at h ⊢
    rcases h with h | h
    · exact .inl (List.mem_of_mem_drop h)
    · exact .inr h

theorem Inv.sameTables (inv : Inv frames th mon) (htables : th'.tables = th.tables) :
    Inv frames th' mon :=
  ⟨inv.owned, fun c i => htables ▸ inv.marked c i, inv.runs, inv.closed, inv.sound⟩

/-- A frame is pushed. -/
theorem Inv.push {errInfo : List ErrTagInfo} {crefStack : List ClassId}
    (inv : Inv frames th mon) (f : CallFrame) :
    Inv (f :: frames) { th with errInfo, crefStack } { mon with tries := [] :: mon.tries } :=
  ⟨.cons ⟨nofun, fun _ => rfl⟩ inv.owned, inv.marked, inv.runs, inv.closed, inv.sound⟩

/-- The `ip` of the frame changes. -/
theorem Inv.setIp (inv : Inv (f :: rest) th mon) (ip : ℕ) : Inv ({ f with ip } :: rest) th mon := by
  refine ⟨?_, inv.marked, inv.runs, inv.closed, inv.sound⟩
  have howned := inv.owned
  generalize mon.tries = tries at howned
  cases howned with
  | cons hE hrest => exact .cons hE hrest

/-! ## The flags -/

theorem isEnsureRunning_modifyRow {g : CatchTable → CatchTable} {c' : ℕ} :
    isEnsureRunning ((th.modifyRow c i g).tables c') j =
      if c' = c ∧ j = i then ((th.tables c)[i]?).any fun row => (g row).isEnsureRunning
      else isEnsureRunning (th.tables c') j := by
  unfold isEnsureRunning
  by_cases hc : c' = c
  · subst hc
    rw [Thread.tables_modifyRow, List.getElem?_modify]
    by_cases hj : j = i
    · subst hj
      rw [if_pos ⟨rfl, rfl⟩]
      cases (th.tables c')[j]? <;> simp
    · rw [if_neg (by simp [hj])]
      cases (th.tables c')[j]? <;> simp [Ne.symm hj]
  · rw [Thread.tables_modifyRow_of_ne _ _ _ hc, if_neg (by simp [hc])]

/-- Setting the flag of a row of the table. -/
theorem isEnsureRunning_setEnsureRunning {c' : ℕ} {b : Bool}
    (hi : findEnsureRow (th.tables c) = some i) :
    isEnsureRunning ((th.setEnsureRunning c i b).tables c') j =
      if c' = c ∧ j = i then b else isEnsureRunning (th.tables c') j := by
  rcases findEnsureRow_spec hi with ⟨row, hrow, _⟩
  rw [Thread.setEnsureRunning, isEnsureRunning_modifyRow, hrow]
  rfl

/-- A flag other than `isEnsureRunning` is set. -/
theorem Inv.modifyRow (inv : Inv frames th mon) {g : CatchTable → CatchTable}
    (hg : ∀ row, (g row).isEnsureRunning = row.isEnsureRunning) :
    Inv frames (th.modifyRow c i g) mon := by
  refine ⟨inv.owned, fun c' j => ?_, inv.runs, inv.closed, inv.sound⟩
  have hflag : isEnsureRunning ((th.modifyRow c i g).tables c') j =
      isEnsureRunning (th.tables c') j := by
    rw [isEnsureRunning_modifyRow]
    split <;> rename_i h
    · rw [h.1, h.2]
      simp only [hg]
      rfl
    · rfl
  rw [hflag]
  exact inv.marked c' j

/-! ## Passing a frame -/

/-- The search passes a frame whose ensure block is running for the error before. -/
theorem Inv.passRunning (inv : Inv (f :: rest) th mon) (d : ℕ)
    (hi : findEnsureRow (th.tables f.chunk) = some i)
    (hdone : ∀ e ∈ mon.tries.headD [], e.Done ∨ (e.row = i ∧ e.runs = 1))
    (hrun : ∃ e ∈ mon.tries.headD [], e.row = i ∧ e.thrown = true) :
    Inv rest (th.pass f d) (mon.closeFrames 1) := by
  have howned := inv.owned
  cases htries : mon.tries with
  | nil =>
    rw [htries] at howned
    cases howned
  | cons E tries =>
    rw [htries] at howned hdone hrun
    cases howned with
    | cons hE hrest =>
      have hclose : mon.closeFrames 1 = { mon with tries, closed := mon.closed ++ E } := by
        simp [Monitor.closeFrames, htries]
      have htables : (th.pass f d).tables = (th.setEnsureRunning f.chunk i false).tables := by
        rw [Thread.pass, hi]
        rfl
      rw [hclose]
      refine ⟨hrest, fun c j => ?_, fun e he => ?_, fun e he => ?_, inv.sound⟩
      · have hmarked := inv.marked c j
        rw [htries, List.flatten_cons, List.filter_append] at hmarked
        rw [htables, isEnsureRunning_setEnsureRunning hi]
        split <;> rename_i hkey
        · -- the entry whose block is running is the innermost, no other is marked
          rcases hkey with ⟨rfl, rfl⟩
          rcases hrun with ⟨e, he, hrow, hthrown⟩
          have hmem : e ∈ E.filter (·.isOf f.chunk j) := by
            rw [List.mem_filter]
            exact ⟨he, by simp [OpenTry.isOf, hE.1 e he, hrow]⟩
          cases hfilter : E.filter (·.isOf f.chunk j) with
          | nil =>
            rw [hfilter] at hmem
            cases hmem
          | cons x xs =>
            rw [hfilter] at hmarked
            have hother : ∀ e' ∈ tries.flatten.filter (·.isOf f.chunk j), e'.thrown = false :=
              fun e' he' => hmarked.2 e' (List.mem_append_right _ he')
            cases hl : tries.flatten.filter (·.isOf f.chunk j) with
            | nil => rfl
            | cons y ys =>
              rw [hl] at hother
              exact ⟨hother y List.mem_cons_self,
                fun e' he' => hother e' (List.mem_cons_of_mem _ he')⟩
        · refine hmarked.of_append fun e he => ?_
          rcases List.mem_filter.mp he with ⟨heE, hkey'⟩
          rcases hdone e heE with hdone | ⟨hrow, _⟩
          · exact hdone.2
          · simp only [OpenTry.isOf, Bool.and_eq_true, beq_iff_eq, hE.1 e heE, hrow] at hkey'
            exact absurd ⟨hkey'.1.symm, hkey'.2.symm⟩ hkey
      · apply inv.runs
        rw [htries]
        exact List.mem_append_right _ he
      · rcases List.mem_append.mp he with he | he
        · exact inv.closed e he
        · exact (hdone e he).elim (·.1) (·.2)

/-- The search passes a frame with no ensure block in its function. -/
theorem Inv.passDone (inv : Inv (f :: rest) th mon) (d : ℕ)
    (hi : findEnsureRow (th.tables f.chunk) = none) (hdone : ∀ e ∈ mon.tries.headD [], e.Done) :
    Inv rest (th.pass f d) (mon.closeFrames 1) := by
  apply inv.closeFrames 1
  · intro e he
    apply hdone
    cases htries : mon.tries with
    | nil => simp [htries] at he
    | cons E tries => simpa [htries] using he
  · rw [Thread.pass, hi]
    rfl

/-- How many native frames there are on top. -/
def nativeCount (frames : List CallFrame) : ℕ :=
  frames.length - (frames.dropWhile (·.isCCall)).length

theorem nativeCount_cons_native (hf : f.isCCall = true) :
    nativeCount (f :: rest) = nativeCount rest + 1 := by
  have hle : (rest.dropWhile (·.isCCall)).length ≤ rest.length :=
    (List.dropWhile_sublist _).length_le
  rw [nativeCount, List.dropWhile_cons_of_pos hf, List.length_cons, Nat.succ_sub hle]
  rfl

theorem drop_nativeCount : frames.drop (nativeCount frames) = frames.dropWhile (·.isCCall) :=
  (List.suffix_iff_eq_drop.mp (List.dropWhile_suffix _)).symm

/-- Native frames have no tries. -/
theorem flatten_take_nativeCount {tries : List (List OpenTry)}
    (h : List.Forall₂ Owns frames tries) : (tries.take (nativeCount frames)).flatten = [] := by
  induction h with
  | nil => simp
  | @cons f E frames tries hE _ ih =>
    cases hf : f.isCCall with
    | true =>
      rw [nativeCount_cons_native hf, List.take_succ_cons, List.flatten_cons, hE.2 hf, ih]
      rfl
    | false =>
      rw [nativeCount, List.dropWhile_cons_of_neg (by simp [hf]), Nat.sub_self]
      rfl

theorem popCCalls_tables : (popCCalls frames th).2.tables = th.tables := by
  induction frames generalizing th with
  | nil => rfl
  | cons f rest ih =>
    rw [popCCalls]
    split
    · exact ih
    · rfl

/-- Native frames are popped. -/
theorem Inv.popNative (inv : Inv frames th mon) :
    Inv (frames.dropWhile (·.isCCall)) (popCCalls frames th).2
      (mon.closeFrames (nativeCount frames)) := by
  rw [← drop_nativeCount]
  apply inv.closeFrames
  · rw [flatten_take_nativeCount inv.owned]
    simp
  · exact popCCalls_tables

/-! ## Starting a block -/

/-- The block of the innermost try that is not done is started, for an error if `thrown`. -/
theorem Inv.startEnsure {E post : List OpenTry} {tries : List (List OpenTry)} {e : OpenTry}
    {thrown : Bool} (inv : Inv (f :: rest) th mon) (htries : mon.tries = E :: tries)
    (hbefore : ∀ e ∈ E.takeWhile (·.row != i), e.Done)
    (hsplit : E.dropWhile (·.row != i) = e :: post) (hpending : e.runs = 0)
    (hflags : ∀ c j, isEnsureRunning (th'.tables c) j =
      if c = f.chunk ∧ j = i ∧ thrown = true then true else isEnsureRunning (th.tables c) j) :
    Inv (f :: rest) th' (mon.startEnsure i thrown) := by
  have hE : E = E.takeWhile (·.row != i) ++ e :: post := by
    rw [← hsplit, List.takeWhile_append_dropWhile]
  have hrow : e.row = i := by
    have hne : E.dropWhile (·.row != i) ≠ [] := by
      rw [hsplit]
      exact List.cons_ne_nil _ _
    have hhead := List.head_dropWhile_not (fun x : OpenTry => x.row != i) hne
    simpa [hsplit] using hhead
  have hstart : mon.startEnsure i thrown =
      { mon with
        tries := ({ e with runs := e.runs + 1, thrown } :: post) :: tries
        closed := mon.closed ++ E.takeWhile (·.row != i) } := by
    rw [Monitor.startEnsure, htries]
    simp only [hsplit]
  have howned := inv.owned
  rw [htries] at howned
  have hflatten : mon.tries.flatten = E.takeWhile (·.row != i) ++ e :: (post ++ tries.flatten) := by
    rw [htries, List.flatten_cons, ← List.cons_append, ← List.append_assoc, ← hE]
  cases howned with
  | cons hEo hrest =>
    have hnative : f.isCCall = false := by
      cases hf : f.isCCall with
      | false => rfl
      | true =>
        rw [hEo.2 hf] at hsplit
        cases hsplit
    have hchunk : e.chunk = f.chunk := hEo.1 e (by rw [hE]; simp)
    have hthrown : e.thrown = false := by
      rcases inv.runs e (by rw [hflatten]; simp) with h | h
      · exact h.2
      · rw [hpending] at h
        cases h
    rw [hstart]
    refine ⟨.cons ⟨fun x hx => ?_, fun hf => ?_⟩ hrest, fun c j => ?_, fun x hx => ?_, fun x hx => ?_,
      inv.sound⟩
    · rcases List.mem_cons.mp hx with rfl | hx
      · exact hchunk
      · exact hEo.1 x (by rw [hE]; simp [hx])
    · rw [hnative] at hf
      cases hf
    · have hmarked := inv.marked c j
      rw [hflatten, List.filter_append] at hmarked
      have hmarked' := hmarked.of_append fun x hx => (hbefore x (List.mem_of_mem_filter hx)).2
      rw [hflags]
      show Marked _ (List.filter (·.isOf c j) ({ e with runs := e.runs + 1, thrown } ::
        (post ++ tries.flatten)))
      by_cases hkey : e.isOf c j = true
      · have hkey' : c = f.chunk ∧ j = i := by
          simp only [OpenTry.isOf, Bool.and_eq_true, beq_iff_eq] at hkey
          exact ⟨hkey.1.symm.trans hchunk, hkey.2.symm.trans hrow⟩
        rw [List.filter_cons_of_pos hkey] at hmarked'
        rw [List.filter_cons_of_pos (by exact hkey)]
        refine ⟨?_, hmarked'.2⟩
        show thrown = _
        cases thrown with
        | true => rw [if_pos ⟨hkey'.1, hkey'.2, rfl⟩]
        | false =>
          rw [if_neg (by simp), ← hmarked'.1, hthrown]
      · rw [List.filter_cons_of_neg hkey] at hmarked'
        rw [List.filter_cons_of_neg (by exact hkey)]
        rw [if_neg]
        · exact hmarked'
        · rintro ⟨rfl, rfl, _⟩
          exact hkey (by simp [OpenTry.isOf, hchunk, hrow])
    · rcases List.mem_cons.mp hx with rfl | hx
      · exact .inr (by simp [hpending])
      · exact inv.runs x (by rw [hflatten]; exact List.mem_append_right _ (List.mem_cons_of_mem _ hx))
    · rcases List.mem_append.mp hx with hx | hx
      · exact inv.closed x hx
      · exact (hbefore x hx).1

/-- A try is entered whose block is not running. -/
theorem Inv.enterTry {E : List OpenTry} {tries : List (List OpenTry)}
    (inv : Inv (f :: rest) th mon) (htries : mon.tries = E :: tries) (hf : f.isCCall = false)
    (hidle : isEnsureRunning (th.tables f.chunk) i = false) :
    Inv (f :: rest) th { mon with tries := ({ chunk := f.chunk, row := i } :: E) :: tries } := by
  have howned := inv.owned
  rw [htries] at howned
  cases howned with
  | cons hE hrest =>
    refine ⟨.cons ⟨fun e he => ?_, fun hf' => ?_⟩ hrest, fun c j => ?_, fun e he => ?_, inv.closed,
      inv.sound⟩
    · rcases List.mem_cons.mp he with rfl | he
      · rfl
      · exact hE.1 e he
    · rw [hf] at hf'
      cases hf'
    · have hmarked := inv.marked c j
      rw [htries] at hmarked
      show Marked _ (List.filter (·.isOf c j) ({ chunk := f.chunk, row := i } :: (E ++ _)))
      by_cases hkey : OpenTry.isOf c j { chunk := f.chunk, row := i } = true
      · rw [List.filter_cons_of_pos hkey]
        simp only [OpenTry.isOf, Bool.and_eq_true, beq_iff_eq] at hkey
        rcases hkey with ⟨rfl, rfl⟩
        rw [hidle] at hmarked ⊢
        exact ⟨rfl, hmarked.of_false⟩
      · rw [List.filter_cons_of_neg hkey]
        exact hmarked
    · rcases List.mem_cons.mp he with rfl | he
      · exact .inl ⟨rfl, rfl⟩
      · exact inv.runs e (by rw [htries]; exact he)

/-! ## The search -/

theorem closeFrames_closeFrames (k m : ℕ) :
    (mon.closeFrames k).closeFrames m = mon.closeFrames (k + m) := by
  simp only [Monitor.closeFrames, List.drop_drop, List.append_assoc, ← List.flatten_append,
    ← List.take_add]

/-- The frame below native frames has their chunk. -/
theorem chunk_of_dropWhile {g : CallFrame} {gs : List CallFrame} (hwf : NativeWf (f :: rest))
    (hg : (f :: rest).dropWhile (·.isCCall) = g :: gs) : g.chunk = f.chunk := by
  induction rest generalizing f with
  | nil =>
    cases hf : f.isCCall with
    | true =>
      rcases (hwf.1 hf).2 with ⟨x, xs, heq, _⟩
      cases heq
    | false =>
      rw [List.dropWhile_cons_of_neg (by simp [hf])] at hg
      cases hg
      rfl
  | cons x xs ih =>
    cases hf : f.isCCall with
    | true =>
      rcases (hwf.1 hf).2 with ⟨x', xs', heq, hchunk⟩
      cases heq
      rw [List.dropWhile_cons_of_pos hf] at hg
      exact (ih hwf.2 hg).trans hchunk
    | false =>
      rw [List.dropWhile_cons_of_neg (by simp [hf])] at hg
      cases hg
      rfl

/-- What the monitor does when the search has found row `i`. -/
def Monitor.land (mon : Monitor) (frames : List CallFrame) (th : Thread) (i n : ℕ) : Monitor :=
  match frames with
  | [] => mon
  | f :: _ =>
    if ((th.tables f.chunk)[i]?).any (·.isEnsure) then mon.startEnsure i true else mon.closeTries n

variable {cls : Classes} {klass : ClassId} {n off : ℕ}

/-- The search lands at a clause. -/
theorem Inv.landCatch (hwf : NativeWf (f :: rest)) (inv : Inv (f :: rest) th mon)
    (hi : ((th.tables f.chunk)[i]?).any (·.isEnsure) = false)
    (hdone : ∀ e ∈ ((mon.tries.drop (nativeCount (f :: rest))).headD []).take n, e.Done) :
    Inv (popCCalls (f :: rest) th).1 (popCCalls (f :: rest) th).2
      ((mon.closeFrames (nativeCount (f :: rest))).land (popCCalls (f :: rest) th).1
        (popCCalls (f :: rest) th).2 i n) := by
  rw [popCCalls_frames]
  cases hg : (f :: rest).dropWhile (·.isCCall) with
  | nil => exact absurd hg (dropWhile_isCCall_ne_nil hwf)
  | cons g gs =>
    have hpop := inv.popNative
    rw [hg] at hpop
    rw [Monitor.land, popCCalls_tables, chunk_of_dropWhile hwf hg, hi, if_neg Bool.false_ne_true]
    exact hpop.closeTries n hdone rfl

/-- The search lands at an ensure block. -/
theorem Inv.landEnsure (hwf : NativeWf (f :: rest)) (inv : Inv (f :: rest) th mon)
    (hi : findEnsureRow (th.tables f.chunk) = some i)
    (hbefore : ∀ e ∈ ((mon.tries.drop (nativeCount (f :: rest))).headD []).takeWhile (·.row != i),
      e.Done)
    (hpending : ∃ e post, ((mon.tries.drop (nativeCount (f :: rest))).headD []).dropWhile
      (·.row != i) = e :: post ∧ e.runs = 0) :
    Inv (popCCalls (f :: rest) th).1
      ((popCCalls (f :: rest) th).2.setEnsureRunning f.chunk i true)
      ((mon.closeFrames (nativeCount (f :: rest))).land (popCCalls (f :: rest) th).1
        ((popCCalls (f :: rest) th).2.setEnsureRunning f.chunk i true) i n) := by
  rw [popCCalls_frames]
  cases hg : (f :: rest).dropWhile (·.isCCall) with
  | nil => exact absurd hg (dropWhile_isCCall_ne_nil hwf)
  | cons g gs =>
    have hpop := inv.popNative
    rw [hg] at hpop
    have hchunk := chunk_of_dropWhile hwf hg
    rcases findEnsureRow_spec hi with ⟨row, hrow, hens⟩
    have hi' : findEnsureRow ((popCCalls (f :: rest) th).2.tables f.chunk) = some i := by
      rw [popCCalls_tables]
      exact hi
    have hrow' : ((((popCCalls (f :: rest) th).2.setEnsureRunning f.chunk i true).tables
        g.chunk)[i]?).any (·.isEnsure) = true := by
      rw [hchunk, Thread.setEnsureRunning, Thread.tables_modifyRow, popCCalls_tables]
      simp [hrow, hens]
    rw [Monitor.land, hrow', if_pos rfl]
    have howned := hpop.owned
    cases htries : (mon.closeFrames (nativeCount (f :: rest))).tries with
    | nil =>
      rw [htries] at howned
      cases howned
    | cons E tries =>
      have hE : (mon.tries.drop (nativeCount (f :: rest))).headD [] = E := by
        have hdrop : mon.tries.drop (nativeCount (f :: rest)) = E :: tries := htries
        rw [hdrop]
        rfl
      rw [hE] at hbefore hpending
      rcases hpending with ⟨e, post, hsplit, hruns⟩
      refine hpop.startEnsure htries hbefore hsplit hruns fun c j => ?_
      rw [isEnsureRunning_setEnsureRunning hi', hchunk]
      simp only [and_true]

/-- An error that finds what the open tries ask for keeps the invariant; without a handler every
open try is done. -/
theorem Inv.search (hwf : NativeWf frames) (inv : Inv frames th mon)
    (hmeets : SearchMeets cls klass n off frames th mon.tries)
    {r : Option ℕ × List CallFrame × Thread}
    (hr : findThrowJumpLoc cls klass off frames th = r) :
    match r.1 with
    | none => ∀ e ∈ mon.tries.flatten, e.runs = 1
    | some i =>
      Inv r.2.1 r.2.2 ((mon.closeFrames (frames.length - r.2.1.length)).land r.2.1 r.2.2 i n) := by
  induction frames generalizing off th mon r with
  | nil =>
    cases hr
    have howned := inv.owned
    intro e he
    cases htries : mon.tries with
    | nil => simp [htries] at he
    | cons E tries =>
      rw [htries] at howned
      cases howned
  | cons f rest ih =>
    -- the search passes the frame
    have hnext : ∀ th' : Thread, th'.popFrame f (rest.length + 1) = th.pass f (rest.length + 1) →
        Inv rest (th.pass f (rest.length + 1)) (mon.closeFrames 1) →
        (∀ e ∈ mon.tries.headD [], e.runs = 1) →
        SearchMeets cls klass n f.start rest (th.pass f (rest.length + 1)) mon.tries.tail →
        (if rest.isEmpty then (none, [f], th')
          else findThrowJumpLoc cls klass f.start rest (th'.popFrame f (rest.length + 1))) = r →
        match r.1 with
        | none => ∀ e ∈ mon.tries.flatten, e.runs = 1
        | some i =>
          Inv r.2.1 r.2.2
            ((mon.closeFrames ((f :: rest).length - r.2.1.length)).land r.2.1 r.2.2 i n) := by
      intro th' hth' inv' hhead hmeets' hr'
      have htail : (mon.closeFrames 1).tries = mon.tries.tail := List.drop_one
      have hflatten : ∀ e ∈ mon.tries.flatten, e ∈ mon.tries.headD [] ∨
          e ∈ mon.tries.tail.flatten := by
        intro e he
        cases htries : mon.tries with
        | nil => simp [htries] at he
        | cons E tries => simpa [htries] using he
      split at hr' <;> rename_i hrest
      · cases hr'
        have howned := inv'.owned
        rw [List.isEmpty_iff.mp hrest, htail] at howned
        intro e he
        rcases hflatten e he with he | he
        · exact hhead e he
        · cases htries : mon.tries.tail with
          | nil => simp [htries] at he
          | cons E tries =>
            rw [htries] at howned
            cases howned
      · rw [hth'] at hr'
        have hleft : r.2.1.length ≤ rest.length := by
          rw [← hr']
          exact (unwinds_spec findThrowJumpLoc_unwinds).1.length_le
        have hland := ih hwf.2 inv' (htail ▸ hmeets') hr'
        cases hfound : r.1 with
        | none =>
          rw [hfound] at hland
          intro e he
          rcases hflatten e he with he | he
          · exact hhead e he
          · exact hland e (by rw [htail]; exact he)
        | some i =>
          rw [hfound] at hland
          have hclose : 1 + (rest.length - r.2.1.length) = (f :: rest).length - r.2.1.length := by
            rw [List.length_cons]
            omega
          rw [closeFrames_closeFrames, hclose] at hland
          exact hland
    have hcount : (f :: rest).length - (popCCalls (f :: rest) th).1.length =
        nativeCount (f :: rest) := by
      rw [popCCalls_frames, nativeCount]
    rw [findThrowJumpLoc] at hr
    rw [SearchMeets] at hmeets
    dsimp only at hmeets
    cases hcaught : findCatchRow cls th.crefStack.head? klass off (th.tables f.chunk) with
    | some i =>
      rw [hcaught] at hr hmeets
      cases hr
      dsimp only
      rw [hcount]
      exact inv.landCatch hwf (findCatchRow_spec hcaught) hmeets
    | none =>
      rw [hcaught] at hr hmeets
      cases hens : findEnsureRow (th.tables f.chunk) with
      | some i =>
        rw [hens] at hr hmeets
        dsimp only at hr hmeets
        cases hrun : isEnsureRunning (th.tables f.chunk) i with
        | false =>
          rw [hrun, if_neg Bool.false_ne_true] at hr hmeets
          cases hr
          dsimp only
          rw [hcount]
          exact inv.landEnsure hwf hens hmeets.1 hmeets.2
        | true =>
          rw [hrun, if_pos rfl] at hr hmeets
          rcases hmeets with ⟨_, hdone, hrunning, hrest⟩
          refine hnext _ ?_ (inv.passRunning _ hens hdone hrunning)
            (fun e he => (hdone e he).elim (·.1) (·.2)) hrest hr
          rw [Thread.pass, hens]
      | none =>
        rw [hens] at hr hmeets
        refine hnext _ ?_ (inv.passDone _ hens hmeets.1) (fun e he => (hmeets.1 e he).1) hmeets.2 hr
        rw [Thread.pass, hens]

/-! ## Throwing -/

theorem Monitor.checkEnd_true : mon.checkEnd true = mon := by
  rw [Monitor.checkEnd, Bool.and_true]

theorem unwindTo_tables {depth : ℕ} : (unwindTo depth frames th).2.tables = th.tables := by
  induction frames generalizing th with
  | nil => rfl
  | cons f rest ih =>
    rw [unwindTo]
    split
    · rfl
    · exact ih

/-- Going on at a row moves the frame and stores the error. -/
theorem Inv.resumeAt {err : Err} (inv : Inv frames th mon) :
    Inv (resumeAt err i frames th).frames (resumeAt err i frames th).thread mon := by
  cases frames with
  | nil => exact inv
  | cons f rest =>
    have inv' : Inv (f :: rest) (resumeAt err i (f :: rest) th).thread mon :=
      inv.modifyRow fun _ => rfl
    exact inv'.setIp _

/-- The row that is gone on at is an ensure row, or not, before as after. -/
theorem land_eq (err : Err) (hframes : frames ≠ []) : mon.land frames th i n =
    if TryState.State.isEnsureRow (Throw.resumeAt err i frames th) i then mon.startEnsure i true
    else mon.closeTries n := by
  cases frames with
  | nil => exact absurd rfl hframes
  | cons f rest =>
    rw [Monitor.land]
    simp only [Throw.resumeAt, TryState.State.isEnsureRow, Thread.tables_modifyRow,
      List.getElem?_modify]
    cases (th.tables f.chunk)[i]? <;> simp

end

/-! ## Every run -/

/-- The program has ended with an error. -/
structure Ended (s : TryState) : Prop where
  frames : s.vm.frames = []
  tries : s.mon.tries = []
  closed : ∀ e ∈ s.mon.closed, e.runs = 1
  sound : s.mon.sound = true

/-- The program goes on. -/
structure Live (cls : Classes) (s : TryState) : Prop where
  built : Built cls s.vm
  inv : Inv s.vm.frames s.vm.thread s.mon
  /-- The error a block runs for can be thrown again. -/
  last : ∀ e ∈ s.mon.tries.flatten, e.thrown = true → s.vm.lastErrorThrown.isSome

section

variable {cls : Classes} {s s' : TryState} {op : TryOp} {err : Err} {n : ℕ}

/-- An error that finds its way keeps the invariant. -/
theorem Live.throw (live : Live cls s) (hmeets : ThrowMeets cls err n s) :
    Live cls (s.throw cls err n) ∨ Ended (s.throw cls err n) := by
  have hwf := live.built.wf
  have hbuilt : (throwErr cls err s.vm).handler ≠ none → Built cls (throwErr cls err s.vm).state :=
    fun hhandler => .throw err hhandler live.built
  unfold ThrowMeets at hmeets
  unfold TryState.throw
  unfold throwErr at hbuilt ⊢
  cases htag : findErrTag cls err.klass s.vm.thread.errInfo with
  | some p =>
    rw [htag] at hmeets hbuilt
    have hbound := hwf.errInfo.bounded p.1 (findErrTag_mem htag).1
    refine .inl ⟨hbuilt nofun, ?_, fun _ _ _ => rfl⟩
    show Inv (unwindTo p.1.frame s.vm.frames s.vm.thread).1 _ _
    rw [unwindTo_frames hbound.1 hbound.2]
    exact live.inv.closeFrames _ hmeets unwindTo_tables
  | none =>
    rw [htag] at hmeets hbuilt
    dsimp only at hmeets hbuilt ⊢
    cases hr : findThrowJumpLoc cls err.klass ((s.vm.frames.head?.map (·.ip)).getD 0) s.vm.frames
      s.vm.thread with
    | mk found left =>
      rcases left with ⟨left, th⟩
      have hsearch := live.inv.search hwf.native hmeets hr
      rw [hr] at hbuilt
      cases found with
      | none =>
        have hlength : s.mon.tries.length = s.vm.frames.length := live.inv.owned.length_eq.symm
        refine .inr ⟨rfl, ?_, fun e he => ?_, live.inv.sound⟩
        · show s.mon.tries.drop s.vm.frames.length = []
          rw [← hlength, List.drop_length]
        · rcases List.mem_append.mp he with he | he
          · exact live.inv.closed e he
          · rw [← hlength, List.take_length] at he
            exact hsearch e he
      | some i =>
        dsimp only at hsearch hbuilt ⊢
        have hbuilt' := hbuilt nofun
        have hframes : left ≠ [] := by
          intro hnil
          rw [hnil] at hbuilt'
          exact hbuilt'.wf.nonempty rfl
        rw [land_eq err hframes] at hsearch
        exact .inl ⟨hbuilt', hsearch.resumeAt, fun _ _ _ => by cases left <;> rfl⟩

/-- The flag of the innermost try that was entered tells how its block was started. -/
theorem Inv.flag_eq {f : CallFrame} {rest : List CallFrame} {th : Thread} {mon : Monitor}
    {e : OpenTry} {E : List OpenTry} {tries : List (List OpenTry)} (inv : Inv (f :: rest) th mon)
    (htries : mon.tries = (e :: E) :: tries) :
    isEnsureRunning (th.tables f.chunk) e.row = e.thrown := by
  have howned := inv.owned
  have hmarked := inv.marked f.chunk e.row
  rw [htries] at howned hmarked
  cases howned with
  | cons hE _ =>
    have hkey : e.isOf f.chunk e.row = true := by
      simp [OpenTry.isOf, hE.1 e List.mem_cons_self]
    rw [List.flatten_cons, List.cons_append, List.filter_cons_of_pos hkey] at hmarked
    exact hmarked.1.symm

/-- The block of a try is reached, or ends, only where a try was entered. -/
theorem exists_try {op : TryOp} (hop : op = .reachEnsure ∨ op = .rethrowIfErr n)
    (h : s.step cls op = some s') : ∃ e E tries, s.mon.tries = (e :: E) :: tries := by
  rcases htries : s.mon.tries with _ | ⟨E, tries⟩
  · rcases hop with rfl | rfl
    · simp [TryState.step, htries] at h
    · simp [TryState.step, htries] at h
  rcases E with _ | ⟨e, E⟩
  · rcases hop with rfl | rfl
    · simp [TryState.step, htries] at h
    · simp [TryState.step, htries] at h
  · exact ⟨e, E, tries, rfl⟩

/-- The flow gets to the block of the innermost try. -/
theorem Live.reachEnsure (live : Live cls s) (h : s.step cls .reachEnsure = some s') :
    Live cls s' := by
  obtain ⟨e, E, tries, htries⟩ := exists_try (n := 0) (.inl rfl) h
  rcases s with ⟨⟨frames, th, last⟩, mon⟩
  rcases live with ⟨hbuilt, inv, hlast⟩
  cases frames with
  | nil => exact absurd rfl hbuilt.wf.nonempty
  | cons f rest =>
    dsimp only at htries
    simp only [TryState.step, htries] at h
    split at h <;> rename_i hruns
    · cases h
      have hstart : mon.startEnsure e.row false =
          { mon with
            tries := ({ e with runs := e.runs + 1, thrown := false } :: E) :: tries
            closed := mon.closed ++ [] } := by
        simp [Monitor.startEnsure, htries]
      refine ⟨hbuilt, ?_, fun e' he' hthrown => ?_⟩
      · refine inv.startEnsure htries (by simp) (List.dropWhile_cons_of_neg (by simp)) hruns fun c j => ?_
        rw [if_neg (by simp)]
      · rw [hstart] at he'
        rcases List.mem_cons.mp he' with rfl | he'
        · cases hthrown
        · exact hlast e' (by rw [htries]; exact List.mem_cons_of_mem _ he') hthrown
    · cases h

/-- A block ends. It was started by an error exactly when one is thrown again. -/
theorem Live.rethrowIfErr (live : Live cls s) (hop : Meets cls s (.rethrowIfErr n))
    (h : s.step cls (.rethrowIfErr n) = some s') : Live cls s' ∨ Ended s' := by
  obtain ⟨e, E, tries, htries⟩ := exists_try (.inr rfl) h
  rcases s with ⟨⟨frames, th, last⟩, mon⟩
  rcases live with ⟨hbuilt, inv, hlast⟩
  cases frames with
  | nil => exact absurd rfl hbuilt.wf.nonempty
  | cons f rest =>
    dsimp only at htries
    simp only [TryState.step, htries] at h
    split at h <;> rename_i hruns
    · cases h
    · have hmem : e ∈ mon.tries.flatten := by
        rw [htries]
        exact List.mem_cons_self
      have hrethrown : TryState.rethrown ⟨f :: rest, th, last⟩ e.row =
          if e.thrown then last else none := by
        rw [TryState.rethrown, ← inv.flag_eq htries]
      cases hthrown : e.thrown with
      | true =>
        rcases Option.isSome_iff_exists.mp (hlast e hmem hthrown) with ⟨err, rfl⟩
        rw [hthrown, if_pos rfl] at hrethrown
        simp only [hrethrown] at h
        cases h
        rw [hthrown, Monitor.checkEnd_true]
        exact Live.throw ⟨hbuilt, inv, hlast⟩ (hop e E tries err htries hrethrown)
      | false =>
        rw [hthrown, if_neg Bool.false_ne_true] at hrethrown
        simp only [hrethrown] at h
        cases h
        rw [hthrown]
        have hdone : ∀ x ∈ (mon.tries.headD []).take 1, x.Done := by
          intro x hx
          rw [htries] at hx
          rcases List.mem_singleton.mp hx with rfl
          exact ⟨(inv.runs x hmem).resolve_left fun hzero => hruns hzero.1, hthrown⟩
        show Live cls ⟨_, (mon.checkEnd true).closeTries 1⟩ ∨ _
        rw [Monitor.checkEnd_true]
        exact .inl ⟨hbuilt, inv.closeTries 1 hdone rfl, fun x hx =>
          hlast x (Monitor.closeTries_subset hx)⟩

/-- One step that meets the condition keeps the invariant. -/
theorem Live.step (live : Live cls s) (hop : Meets cls s op) (h : s.step cls op = some s') :
    Live cls s' ∨ Ended s' := by
  rcases s with ⟨⟨frames, th, last⟩, mon⟩
  rcases live with ⟨hbuilt, inv, hlast⟩
  cases frames with
  | nil => exact absurd rfl hbuilt.wf.nonempty
  | cons f rest =>
    cases op with
    | run ip =>
      rw [TryState.step] at h
      dsimp only at h
      split at h <;> rename_i hnative
      · cases h
      · cases h
        exact .inl ⟨hbuilt.run ip (by simpa using hnative), inv.setIp ip, hlast⟩
    | call chunk ip klass =>
      rw [TryState.step] at h
      dsimp only at h
      split at h <;> rename_i hip
      · cases h
        exact .inl ⟨hbuilt.call chunk ip klass hip, inv.push _, hlast⟩
      · cases h
    | callNative klass =>
      cases h
      exact .inl ⟨hbuilt.callNative klass, inv.push _, hlast⟩
    | load chunk =>
      cases h
      exact .inl ⟨hbuilt.load chunk, inv.push _, hlast⟩
    | «return» =>
      cases rest with
      | nil => cases h
      | cons g rest =>
        cases h
        refine .inl ⟨hbuilt.popFrame, inv.closeFrames 1 (fun e he => hop e ?_) rfl, ?_⟩
        · cases htries : mon.tries with
          | nil => simp [htries] at he
          | cons E tries => simpa [htries] using he
        · intro e he
          apply hlast
          rw [← List.take_append_drop 1 mon.tries, List.flatten_append]
          exact List.mem_append_right _ he
    | addErrInfo errClass =>
      cases h
      exact .inl ⟨hbuilt.addErrInfo errClass, inv.sameTables rfl, hlast⟩
    | popErrInfo =>
      cases h
      exact .inl ⟨hbuilt.popErrInfo, inv.sameTables rfl, hlast⟩
    | unsetErrInfo =>
      cases h
      refine .inl ⟨hbuilt.unsetErrInfo, inv.sameTables rfl, fun e he hthrown => ?_⟩
      rw [hop e he] at hthrown
      cases hthrown
    | cref crefStack =>
      cases h
      exact .inl ⟨hbuilt.cref crefStack, inv.sameTables rfl, hlast⟩
    | enterTry i =>
      cases htries : mon.tries with
      | nil =>
        simp only [TryState.step, htries] at h
        cases h
      | cons E tries =>
        simp only [TryState.step, htries] at h
        split at h <;> rename_i hrow
        · cases h
          exact .inl ⟨hbuilt, inv.enterTry htries hrow.1 (hop f rfl), fun e he hthrown => by
            rcases List.mem_cons.mp he with rfl | he
            · cases hthrown
            · exact hlast e (by rw [htries]; exact he) hthrown⟩
        · cases h
    | reachEnsure => exact .inl (Live.reachEnsure ⟨hbuilt, inv, hlast⟩ h)
    | rethrowIfErr n => exact Live.rethrowIfErr ⟨hbuilt, inv, hlast⟩ hop h
    | leaveTries n =>
      cases htries : mon.tries with
      | nil =>
        simp only [TryState.step, htries] at h
        cases h
      | cons E tries =>
        simp only [TryState.step, htries] at h
        split at h
        · cases h
          exact .inl ⟨hbuilt, inv.closeTries n hop rfl, fun e he =>
            hlast e (Monitor.closeTries_subset he)⟩
        · cases h
    | throw err n =>
      cases h
      exact Live.throw ⟨hbuilt, inv, hlast⟩ hop

theorem Ended.step (ended : Ended s) (h : s.step cls op = some s') : Ended s' := by
  rcases s with ⟨⟨frames, th, last⟩, mon⟩
  rcases ended with ⟨hframes, htries, hclosed, hsound⟩
  dsimp only at hframes htries hclosed hsound
  subst hframes
  have hclose : ∀ k, Ended ⟨⟨[], th, last⟩, mon.closeFrames k⟩ := fun k => by
    refine ⟨rfl, ?_, ?_, hsound⟩
    · rw [Monitor.closeFrames, htries, List.drop_nil]
    · rw [Monitor.closeFrames, htries, List.take_nil, List.flatten_nil, List.append_nil]
      exact hclosed
  cases op with
  | addErrInfo | popErrInfo | unsetErrInfo | cref =>
    cases h
    exact ⟨rfl, htries, hclosed, hsound⟩
  | throw err n =>
    cases h
    unfold TryState.throw throwErr
    cases findErrTag cls err.klass th.errInfo with
    | some p => exact ⟨rfl, (hclose _).tries, (hclose _).closed, hsound⟩
    | none => exact ⟨rfl, (hclose _).tries, (hclose _).closed, hsound⟩
  | enterTry | reachEnsure | rethrowIfErr | leaveTries =>
    simp only [TryState.step, htries] at h
    cases h
  | run | call | callNative | load | «return» => cases h

/-- The run lemma. -/
theorem Run.live_or_ended (h : Run cls (Meets cls) s) : Live cls s ∨ Ended s := by
  induction h with
  | init chunk tables hidle =>
    refine .inl ⟨.main chunk tables, ⟨.cons ⟨nofun, fun _ => rfl⟩ .nil, ?_, nofun, nofun, rfl⟩, nofun⟩
    exact hidle
  | step _ _ hop h ih =>
    rcases ih with live | ended
    · exact live.step hop h
    · exact .inr (ended.step h)

/-- On a run whose steps all meet the condition every entry of a try that was left had its ensure
block run once, and no block was affected by another entry. -/
theorem Run.ensureOnce (h : Run cls (Meets cls) s) : EnsureOnce s := by
  rcases h.live_or_ended with live | ended
  · exact ⟨live.inv.closed, fun e he => by rcases live.inv.runs e he with h | h <;> omega,
      live.inv.sound⟩
  · refine ⟨ended.closed, fun e he => ?_, ended.sound⟩
    rw [ended.tries] at he
    cases he

end

/-- The table of `try { .. } ensure { .. }`. -/
def ensureTable : List CatchTable := [{ ifrom := 0, ito := 10, itarget := 11, isEnsure := true }]

/-- An error in the try runs the block, and is thrown again at its end. -/
theorem throwInTry_ensureOnce : ∃ s : TryState,
    s.mon.closed = [{ chunk := 0, row := 0, runs := 1, thrown := true }] ∧ EnsureOnce s := by
  have hinit : Run errorClass (Meets errorClass) _ :=
    .init 0 (fun _ => ensureTable) fun _ i => by cases i <;> rfl
  have hrun := hinit.step (.run 5) trivial rfl
  have henter := hrun.step (.enterTry 0) (fun _ h => by cases h; rfl) rfl
  have hthrow := henter.step (.throw ⟨0, 1⟩ 0) ⟨nofun, _, _, rfl, rfl⟩ rfl
  have hend := hthrow.step (.rethrowIfErr 0) (fun e E rest err htries herr => by
    cases htries
    cases herr
    exact ⟨rfl, fun e he => .inr (by rcases List.mem_singleton.mp he with rfl; exact ⟨rfl, rfl⟩), ⟨_, List.mem_cons_self, rfl, rfl⟩, trivial⟩) rfl
  exact ⟨_, rfl, hend.ensureOnce⟩

/-- `return` leaves the try without its ensure block. -/
theorem returnInTry_skips : ∃ s, Run errorClass (fun _ _ => True) s ∧
    s.mon.closed = [{ chunk := 1, row := 0, runs := 0 }] ∧ ¬ EnsureOnce s := by
  have hinit : Run errorClass (fun _ _ => True) _ :=
    .init 0 (fun chunk => if chunk = 1 then ensureTable else []) fun c i => by
      by_cases hc : c = 1 <;> cases i <;> simp [hc, isEnsureRunning, ensureTable]
  have hrun := hinit.step (.run 5) trivial rfl
  have hcall := hrun.step (.call 1 0 none) trivial rfl
  have henter := hcall.step (.enterTry 0) trivial rfl
  have hreturn := henter.step (.return) trivial rfl
  refine ⟨_, hreturn, rfl, fun h => ?_⟩
  have hruns := h.closed { chunk := 1, row := 0, runs := 0 } List.mem_cons_self
  cases hruns

end Clox.Throw
