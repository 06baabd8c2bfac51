import Mathlib.Data.List.Nodup
import Clox.Compiler.EvalOrder

/-! # Operands run once, in order

The code of an expression runs its operands as they are written if and only if
no array or map literal that is evaluated has two children that are no literals,
and no `obj.name op= rval` an object that is no literal. Where it does not, the
traces part at the first operand that is out of order, whatever happens later.
-/

namespace Clox.EvalOrder

variable {S V : Type}

/-! ## Outcomes -/

namespace Outcome

variable {α β γ : Type}

theorem andThen_assoc (r : Outcome S α) (f : S → α → Outcome S β) (g : S → β → Outcome S γ) :
    (r.andThen f).andThen g = r.andThen fun s a => (f s a).andThen g := by
  obtain ⟨t, _ | ⟨s, a⟩⟩ := r
  · rfl
  · simp only [andThen]
    rcases f s a with ⟨t', _ | ⟨s', b⟩⟩
    · rfl
    · simp

@[simp] theorem value_andThen (s : S) (a : α) (f : S → α → Outcome S β) :
    (value s a).andThen f = f s a := rfl

theorem andThen_congr {r : Outcome S α} {f g : S → α → Outcome S β}
    (h : ∀ s a, r.2 = some (s, a) → f s a = g s a) : r.andThen f = r.andThen g := by
  obtain ⟨t, _ | ⟨s, a⟩⟩ := r
  · rfl
  · simp [andThen, h s a rfl]

/-- A trace goes on. -/
theorem andThen_fst (r : Outcome S α) (f : S → α → Outcome S β) :
    ∃ t, (r.andThen f).1 = r.1 ++ t := by
  obtain ⟨t, _ | ⟨s, a⟩⟩ := r
  · exact ⟨[], by simp [andThen]⟩
  · exact ⟨(f s a).1, rfl⟩

theorem andThen_some {r : Outcome S α} {s : S} {a : α} (h : r.2 = some (s, a))
    (f : S → α → Outcome S β) : (r.andThen f).1 = r.1 ++ (f s a).1 := by
  obtain ⟨t, r⟩ := r
  cases h
  rfl

end Outcome

/-! ## Traces that part -/

/-- Two traces that have different labels somewhere. -/
def Forked (t₁ t₂ : List Label) : Prop :=
  ∃ p a b x y, a ≠ b ∧ t₁ = p ++ a :: x ∧ t₂ = p ++ b :: y

namespace Forked

variable {t₁ t₂ : List Label}

theorem ne (h : Forked t₁ t₂) : t₁ ≠ t₂ := by
  obtain ⟨p, a, b, x, y, hne, rfl, rfl⟩ := h
  intro heq
  exact hne (List.cons.inj (List.append_cancel_left heq)).1

theorem append_left (h : Forked t₁ t₂) (p : List Label) : Forked (p ++ t₁) (p ++ t₂) := by
  obtain ⟨q, a, b, x, y, hne, rfl, rfl⟩ := h
  exact ⟨p ++ q, a, b, x, y, hne, by simp, by simp⟩

theorem append_right (h : Forked t₁ t₂) (t : List Label) : Forked t₁ (t₂ ++ t) := by
  obtain ⟨p, a, b, x, y, hne, rfl, rfl⟩ := h
  exact ⟨p, a, b, x, y ++ t, hne, rfl, by simp⟩

theorem cons (h : Forked t₁ t₂) (l : Label) : Forked (l :: t₁) (l :: t₂) := h.append_left [l]

/-- Both go on after the same outcome. -/
theorem andThen {α β γ : Type} {r : Outcome S α} {s : S} {a : α} (hr : r.2 = some (s, a))
    {f : S → α → Outcome S β} {g : S → α → Outcome S γ} (h : Forked (f s a).1 (g s a).1) :
    Forked (r.andThen f).1 (r.andThen g).1 := by
  rw [Outcome.andThen_some hr, Outcome.andThen_some hr]
  exact h.append_left r.1

/-- The second trace parted before its outcome. -/
theorem andThen_right {α β : Type} {r : Outcome S α} (h : Forked t₁ r.1)
    (f : S → α → Outcome S β) : Forked t₁ (r.andThen f).1 := by
  obtain ⟨t, ht⟩ := r.andThen_fst f
  rw [ht]
  exact h.append_right t

end Forked

/-! ## The labels of an expression -/

mutual

def Expr.labels : Expr V → List Label
  | .literal _ _ => []
  | .operation l operands => l :: operands.labels
  | .logical _ l lhs rhs => l :: (lhs.labels ++ rhs.labels)
  | .collection l children => l :: children.labels
  | .binaryAssign get op set rhs => get :: op :: set :: rhs.labels
  | .propSetBinop get op set obj rval => get :: op :: set :: (obj.labels ++ rval.labels)

def Args.labels : Args V → List Label
  | .nil => []
  | .cons arg rest => arg.labels ++ rest.labels

end

/-- The trace begins with one of the labels. -/
def Starts (ls t : List Label) : Prop := ∃ a ∈ ls, ∃ t', t = a :: t'

namespace Starts

variable {ls ls' t : List Label}

theorem mono (h : Starts ls t) (hsub : ls ⊆ ls') : Starts ls' t := by
  obtain ⟨a, ha, ht⟩ := h
  exact ⟨a, hsub ha, ht⟩

theorem append (h : Starts ls t) (t' : List Label) : Starts ls (t ++ t') := by
  obtain ⟨a, ha, x, rfl⟩ := h
  exact ⟨a, ha, x ++ t', rfl⟩

theorem andThen {α β : Type} {r : Outcome S α} (h : Starts ls r.1) (f : S → α → Outcome S β) :
    Starts ls (r.andThen f).1 := by
  obtain ⟨t, ht⟩ := r.andThen_fst f
  rw [ht]
  exact h.append t

theorem perform {vm : Vm S V} {l : Label} (hl : l ∈ ls) (s : S) (vs : List V) :
    Starts ls (vm.perform l s vs).1 := ⟨l, hl, [], rfl⟩

/-- Traces that begin with labels of different expressions. -/
theorem forked {t₂ : List Label} (h : Starts ls t) (h₂ : Starts ls' t₂) (hd : ls.Disjoint ls') :
    Forked t t₂ := by
  obtain ⟨a, ha, x, rfl⟩ := h
  obtain ⟨b, hb, y, rfl⟩ := h₂
  refine ⟨[], a, b, x, y, ?_, rfl, rfl⟩
  intro hab
  exact hd ha (hab ▸ hb)

end Starts

/-! ## The condition -/

namespace Vm

variable (vm : Vm S V)

mutual

/-- Of all that is evaluated, no array or map literal has more than one child that is no literal, and
no `obj.name op= rval` has an object that is no literal and does not throw. -/
def InOrder : Expr V → S → Prop
  | .literal _ _, _ => True
  | .operation _ operands, s => InOrderArgs operands s
  | .logical tok _ lhs rhs, s =>
    InOrder lhs s ∧ ∀ s' v, (vm.eval lhs s).2 = some (s', v) → vm.decides tok v = false →
      InOrder rhs s'
  | .collection _ children, s => children.nonLiterals ≤ 1 ∧ InOrderArgs children s
  | .binaryAssign get _ _ rhs, s => ∀ s' v, vm.apply get s [] = some (s', v) → InOrder rhs s'
  | .propSetBinop get _ _ obj rval, s =>
    InOrder obj s ∧ ∀ s' o, (vm.eval obj s).2 = some (s', o) → obj.isLiteral = true ∧
      ∀ s'' v, vm.apply get s' [o] = some (s'', v) → InOrder rval s''

def InOrderArgs : Args V → S → Prop
  | .nil, _ => True
  | .cons arg rest, s =>
    InOrder arg s ∧ ∀ s' v, (vm.eval arg s).2 = some (s', v) → InOrderArgs rest s'

end

end Vm

/-! ## Running code -/

section

variable {vm : Vm S V}

theorem exec_skip (code rest : List (Insn V)) (s : S) (st : List V) :
    vm.exec code.length (code ++ rest) s st = vm.exec 0 rest s st := by
  induction code with
  | nil => rfl
  | cons i code ih =>
    rw [List.length_cons, List.cons_append, Vm.exec]
    exact ih

/-- An opcode takes the operands that are on top of the stack, the last one first. -/
theorem exec_operation (l : Label) (vs : List V) (code : List (Insn V)) (s : S) (st : List V) :
    vm.exec 0 (.operation l vs.length :: code) s (vs.reverse ++ st) =
      (vm.perform l s vs).andThen fun s v => vm.exec 0 code s (v :: st) := by
  rw [Vm.exec, List.take_left' (by simp), List.drop_left' (by simp), List.reverse_reverse]

theorem exec_collection (l : Label) (vs : List V) (code : List (Insn V)) (s : S) (st : List V) :
    vm.exec 0 (.collection l vs.length :: code) s (vs ++ st) =
      (vm.perform l s vs).andThen fun s v => vm.exec 0 code s (v :: st) := by
  rw [Vm.exec, List.take_left' rfl, List.drop_left' rfl]

/-! ## Literals -/

theorem isLiteral_iff {e : Expr V} : e.isLiteral = true ↔ ∃ c v, e = .literal c v := by
  cases e <;> simp [Expr.isLiteral]

theorem evalArgs_constants {args : Args V} {vs : List V} (h : args.constants? = some vs) (s : S) :
    vm.evalArgs args s = .value s vs := by
  fun_induction Args.constants? args generalizing vs with
  | case1 =>
    cases h
    rfl
  | case2 v rest ih =>
    obtain ⟨ws, hws, rfl⟩ := Option.map_eq_some_iff.mp h
    rw [Vm.evalArgs, Vm.eval, Outcome.value_andThen, ih hws, Outcome.value_andThen]
  | case3 => cases h

/-- Literals leave nothing in the trace, and the state alone. -/
theorem exec_literals {args : Args V} (h : args.nonLiterals = 0) :
    ∃ vs : List V, (∀ s, vm.evalArgs args s = .value s vs) ∧
      (∀ flipped code s st, vm.exec 0 (emitChildren flipped args ++ code) s st =
        vm.exec 0 code s (vs.reverse ++ st)) ∧
      ∀ flipped code s st, vm.exec 0 (emitChildrenRev flipped args ++ code) s st =
        vm.exec 0 code s (vs ++ st) := by
  fun_induction Args.nonLiterals args with
  | case1 => exact ⟨[], fun _ => rfl, fun _ _ _ _ => rfl, fun _ _ _ _ => rfl⟩
  | case2 arg rest ih =>
    have hlit : arg.isLiteral = true := by
      by_contra hlit
      simp [hlit] at h
    obtain ⟨c, v, rfl⟩ := isLiteral_iff.mp hlit
    obtain ⟨vs, heval, hexec, hrev⟩ := ih (by omega)
    refine ⟨v :: vs, fun s => ?_, fun flipped code s st => ?_, fun flipped code s st => ?_⟩
    · rw [Vm.evalArgs, Vm.eval, Outcome.value_andThen, heval, Outcome.value_andThen]
    · rw [emitChildren, emitNode, List.singleton_append, List.cons_append, Vm.exec, hexec]
      simp
    · rw [emitChildrenRev, emitNode, List.append_assoc, hrev, List.singleton_append, Vm.exec]
      rfl

theorem inOrderArgs_literals {args : Args V} (h : args.nonLiterals = 0) (s : S) :
    vm.InOrderArgs args s := by
  fun_induction Args.nonLiterals args with
  | case1 => trivial
  | case2 arg rest ih =>
    have hlit : arg.isLiteral = true := by
      by_contra hlit
      simp [hlit] at h
    obtain ⟨c, v, rfl⟩ := isLiteral_iff.mp hlit
    refine ⟨trivial, fun s' w hw => ?_⟩
    obtain ⟨rfl, -⟩ : s = s' ∧ v = w := by simpa [Vm.eval, Outcome.value] using hw
    exact ih (by omega)

theorem nonLiterals_constants {args : Args V} {vs : List V} (h : args.constants? = some vs) :
    args.nonLiterals = 0 := by
  fun_induction Args.constants? args generalizing vs with
  | case1 => rfl
  | case2 v rest ih =>
    obtain ⟨ws, hws, -⟩ := Option.map_eq_some_iff.mp h
    simp [Args.nonLiterals, Expr.isLiteral, ih hws]
  | case3 => cases h

theorem inOrder_constants {l : Label} {args : Args V} {vs : List V}
    (h : args.constants? = some vs) (s : S) : vm.InOrder (.collection l args) s := by
  have hnone := nonLiterals_constants h
  exact ⟨by omega, inOrderArgs_literals hnone s⟩

/-! ## Code whose operands are in order -/

theorem evalArgs_length {args : Args V} {s s' : S} {vs : List V}
    (h : (vm.evalArgs args s).2 = some (s', vs)) : vs.length = args.length := by
  fun_induction Args.length args generalizing s s' vs with
  | case1 =>
    cases h
    rfl
  | case2 arg rest ih =>
    rw [Vm.evalArgs] at h
    rcases harg : vm.eval arg s with ⟨t, _ | ⟨s₁, v⟩⟩
    · simp [harg, Outcome.andThen] at h
    · rcases hrest : vm.evalArgs rest s₁ with ⟨t', _ | ⟨s₂, ws⟩⟩
      · simp [harg, hrest, Outcome.andThen] at h
      · simp only [harg, hrest, Outcome.andThen, Outcome.value, Option.some.injEq,
          Prod.mk.injEq] at h
        obtain ⟨-, rfl⟩ := h
        rw [List.length_cons, ih (by rw [hrest])]

mutual

/-- The code pushes the value of the expression. -/
theorem exec_emitNode (e : Expr V) (code : List (Insn V)) (s : S) (st : List V)
    (h : vm.InOrder e s) : vm.exec 0 (emitNode false e ++ code) s st =
      (vm.eval e s).andThen fun s v => vm.exec 0 code s (v :: st) := by
  cases e with
  | literal c v => rfl
  | operation l operands =>
    rw [emitNode, List.append_assoc, exec_emitChildren operands _ s st h, Vm.eval,
      Outcome.andThen_assoc]
    apply Outcome.andThen_congr
    intro s' vs hvs
    rw [← evalArgs_length hvs]
    exact exec_operation l vs code s' st
  | logical tok l lhs rhs =>
    simp only [emitNode]
    rw [List.append_assoc, exec_emitNode lhs _ s st h.1, Vm.eval, Outcome.andThen_assoc]
    apply Outcome.andThen_congr
    intro s' v hv
    rw [List.cons_append, Vm.exec, Outcome.andThen_assoc]
    apply Outcome.andThen_congr
    intro s'' v' hv'
    obtain ⟨rfl, rfl⟩ : s' = s'' ∧ v = v' := by simpa using hv'
    by_cases hdec : vm.decides tok v = true
    · -- the jump goes behind the opcode
      rw [if_pos hdec, if_pos hdec, exec_skip]
      rfl
    · rw [if_neg hdec, if_neg hdec, List.append_assoc,
        exec_emitNode rhs _ s' _ (h.2 s' v hv (by simpa using hdec)), Outcome.andThen_assoc]
      rfl
  | collection l children =>
    rw [emitNode, Vm.eval]
    cases hconst : children.constants? with
    | some vs =>
      rw [evalArgs_constants hconst]
      rfl
    | none =>
      simp only [Bool.false_eq_true, if_false]
      rw [List.append_assoc, exec_emitChildrenRev children _ s st h.2 h.1, Outcome.andThen_assoc]
      apply Outcome.andThen_congr
      intro s' vs hvs
      rw [← evalArgs_length hvs]
      exact exec_collection l vs code s' st
  | binaryAssign get op set rhs =>
    rw [emitNode, List.cons_append, List.append_assoc]
    have hget := @exec_operation S V vm get [] (emitNode false rhs ++
      ([.operation op 2, .operation set 1] ++ code)) s st
    refine hget.trans ?_
    rw [Vm.eval, Outcome.andThen_assoc]
    apply Outcome.andThen_congr
    intro s₁ v hv
    rw [exec_emitNode rhs _ s₁ _ (h s₁ v hv), Outcome.andThen_assoc]
    apply Outcome.andThen_congr
    intro s₂ w _
    rw [Outcome.andThen_assoc]
    refine (exec_operation op [v, w] (.operation set 1 :: code) s₂ st).trans ?_
    apply Outcome.andThen_congr
    intro s₃ x _
    exact exec_operation set [x] code s₃ st
  | propSetBinop get op set obj rval =>
    rw [emitNode, List.append_assoc, exec_emitNode obj _ s st h.1, Vm.eval, Outcome.andThen_assoc]
    apply Outcome.andThen_congr
    intro s₁ o ho
    obtain ⟨hlit, hrval⟩ := h.2 s₁ o ho
    obtain ⟨c, v, rfl⟩ := isLiteral_iff.mp hlit
    obtain ⟨rfl, rfl⟩ : s = s₁ ∧ v = o := by simpa [Vm.eval, Outcome.value] using ho
    rw [emitNode, List.singleton_append, List.cons_append, Vm.exec, List.cons_append,
      Outcome.andThen_assoc]
    refine (exec_operation get [v] _ s (v :: st)).trans ?_
    apply Outcome.andThen_congr
    intro s₂ w hw
    rw [List.append_assoc, exec_emitNode rval _ s₂ _ (hrval s₂ w hw), Outcome.andThen_assoc]
    apply Outcome.andThen_congr
    intro s₃ x _
    rw [Outcome.andThen_assoc]
    refine (exec_operation op [w, x] (.operation set 2 :: code) s₃ (v :: st)).trans ?_
    apply Outcome.andThen_congr
    intro s₄ y _
    exact exec_operation set [v, y] code s₄ st

theorem exec_emitChildren (args : Args V) (code : List (Insn V)) (s : S) (st : List V)
    (h : vm.InOrderArgs args s) : vm.exec 0 (emitChildren false args ++ code) s st =
      (vm.evalArgs args s).andThen fun s vs => vm.exec 0 code s (vs.reverse ++ st) := by
  cases args with
  | nil => rfl
  | cons arg rest =>
    rw [emitChildren, List.append_assoc, exec_emitNode arg _ s st h.1, Vm.evalArgs,
      Outcome.andThen_assoc]
    apply Outcome.andThen_congr
    intro s₁ v hv
    rw [exec_emitChildren rest _ s₁ _ (h.2 s₁ v hv), Outcome.andThen_assoc]
    apply Outcome.andThen_congr
    intro s₂ vs _
    simp

/-- At most one child does anything, so the order of the others does not matter. -/
theorem exec_emitChildrenRev (args : Args V) (code : List (Insn V)) (s : S) (st : List V)
    (h : vm.InOrderArgs args s) (hone : args.nonLiterals ≤ 1) :
    vm.exec 0 (emitChildrenRev false args ++ code) s st =
      (vm.evalArgs args s).andThen fun s vs => vm.exec 0 code s (vs ++ st) := by
  cases args with
  | nil => rfl
  | cons arg rest =>
    rw [emitChildrenRev, List.append_assoc, Vm.evalArgs]
    by_cases hlit : arg.isLiteral = true
    · obtain ⟨c, v, rfl⟩ := isLiteral_iff.mp hlit
      have hrest : rest.nonLiterals ≤ 1 := by simpa [Args.nonLiterals, hlit] using hone
      rw [exec_emitChildrenRev rest _ s st (h.2 s v rfl) hrest, Vm.eval, Outcome.value_andThen,
        Outcome.andThen_assoc]
      rfl
    · have hrest : rest.nonLiterals = 0 := by
        simp only [Args.nonLiterals, hlit] at hone
        simp at hone
        omega
      obtain ⟨vs, heval, -, hrev⟩ := @exec_literals S V vm _ hrest
      rw [hrev, exec_emitNode arg code s _ h.1, Outcome.andThen_assoc]
      apply Outcome.andThen_congr
      intro s₁ v _
      rw [heval]
      rfl

end

/-! ## What is evaluated first -/

mutual

theorem eval_starts (e : Expr V) (h : e.isLiteral = false) (s : S) :
    Starts e.labels (vm.eval e s).1 := by
  cases e with
  | literal c v => simp [Expr.isLiteral] at h
  | operation l operands =>
    rw [Vm.eval, Expr.labels]
    by_cases hlit : operands.nonLiterals = 0
    · obtain ⟨vs, heval, -, -⟩ := @exec_literals S V vm _ hlit
      rw [heval]
      exact Starts.perform List.mem_cons_self s vs
    · exact ((evalArgs_starts operands (by omega) s).mono (List.subset_cons_self _ _)).andThen _
  | logical tok l lhs rhs =>
    rw [Vm.eval, Expr.labels]
    by_cases hlit : lhs.isLiteral = true
    · obtain ⟨c, v, rfl⟩ := isLiteral_iff.mp hlit
      exact ⟨l, List.mem_cons_self, _, rfl⟩
    · have hlhs := eval_starts lhs (by simpa using hlit) s
      exact (hlhs.mono (by intro a ha; simp [ha])).andThen _
  | collection l children =>
    rw [Vm.eval, Expr.labels]
    by_cases hlit : children.nonLiterals = 0
    · obtain ⟨vs, heval, -, -⟩ := @exec_literals S V vm _ hlit
      rw [heval]
      exact Starts.perform List.mem_cons_self s vs
    · exact ((evalArgs_starts children (by omega) s).mono (List.subset_cons_self _ _)).andThen _
  | binaryAssign get op set rhs =>
    rw [Vm.eval, Expr.labels]
    exact (Starts.perform List.mem_cons_self s []).andThen _
  | propSetBinop get op set obj rval =>
    rw [Vm.eval, Expr.labels]
    by_cases hlit : obj.isLiteral = true
    · obtain ⟨c, v, rfl⟩ := isLiteral_iff.mp hlit
      exact (Starts.perform List.mem_cons_self s [v]).andThen _
    · have hobj := eval_starts obj (by simpa using hlit) s
      exact (hobj.mono (by intro a ha; simp [ha])).andThen _

theorem evalArgs_starts (args : Args V) (h : 0 < args.nonLiterals) (s : S) :
    Starts args.labels (vm.evalArgs args s).1 := by
  cases args with
  | nil => simp [Args.nonLiterals] at h
  | cons arg rest =>
    rw [Vm.evalArgs, Args.labels]
    by_cases hlit : arg.isLiteral = true
    · obtain ⟨c, v, rfl⟩ := isLiteral_iff.mp hlit
      have hrest := evalArgs_starts rest (by simpa [Args.nonLiterals, hlit] using h) s
      exact (hrest.mono (List.subset_append_right _ _)).andThen _
    · have harg := eval_starts arg (by simpa using hlit) s
      exact (harg.mono (List.subset_append_left _ _)).andThen _

end

mutual

/-- Also when the literals of the expression have been reversed. -/
theorem exec_starts (e : Expr V) (h : e.isLiteral = false) (flipped : Bool) (code : List (Insn V))
    (s : S) (st : List V) : Starts e.labels (vm.exec 0 (emitNode flipped e ++ code) s st).1 := by
  cases e with
  | literal c v => simp [Expr.isLiteral] at h
  | operation l operands =>
    rw [emitNode, Expr.labels, List.append_assoc]
    by_cases hlit : operands.nonLiterals = 0
    · obtain ⟨vs, -, hexec, -⟩ := @exec_literals S V vm _ hlit
      rw [hexec]
      exact (Starts.perform List.mem_cons_self s _).andThen _
    · exact (exec_starts_children operands (by omega) flipped _ s st).mono
        (List.subset_cons_self _ _)
  | logical tok l lhs rhs =>
    simp only [emitNode]
    rw [Expr.labels, List.append_assoc]
    by_cases hlit : lhs.isLiteral = true
    · obtain ⟨c, v, rfl⟩ := isLiteral_iff.mp hlit
      exact ⟨l, List.mem_cons_self, _, rfl⟩
    · exact (exec_starts lhs (by simpa using hlit) flipped _ s st).mono
        (by intro a ha; simp [ha])
  | collection l children =>
    rw [emitNode, Expr.labels]
    cases hconst : children.constants? with
    | some vs => exact (Starts.perform List.mem_cons_self s vs).andThen _
    | none =>
      dsimp only
      rw [List.append_assoc]
      by_cases hlit : children.nonLiterals = 0
      · obtain ⟨vs, -, hexec, hrev⟩ := @exec_literals S V vm _ hlit
        cases flipped with
        | true =>
          rw [if_pos rfl, hexec]
          exact (Starts.perform List.mem_cons_self s _).andThen _
        | false =>
          rw [if_neg (by simp), hrev]
          exact (Starts.perform List.mem_cons_self s _).andThen _
      · cases flipped with
        | true =>
          exact (exec_starts_children children (by omega) true _ s st).mono
            (List.subset_cons_self _ _)
        | false =>
          exact (exec_starts_childrenRev children (by omega) false _ s st).mono
            (List.subset_cons_self _ _)
  | binaryAssign get op set rhs =>
    rw [emitNode, Expr.labels, List.cons_append, Vm.exec]
    exact (Starts.perform List.mem_cons_self s _).andThen _
  | propSetBinop get op set obj rval =>
    rw [emitNode, Expr.labels, List.append_assoc]
    by_cases hlit : obj.isLiteral = true
    · obtain ⟨c, v, rfl⟩ := isLiteral_iff.mp hlit
      exact (Starts.perform List.mem_cons_self s _).andThen _
    · exact (exec_starts obj (by simpa using hlit) false _ s st).mono (by intro a ha; simp [ha])

theorem exec_starts_children (args : Args V) (h : 0 < args.nonLiterals) (flipped : Bool)
    (code : List (Insn V)) (s : S) (st : List V) :
    Starts args.labels (vm.exec 0 (emitChildren flipped args ++ code) s st).1 := by
  cases args with
  | nil => simp [Args.nonLiterals] at h
  | cons arg rest =>
    rw [emitChildren, Args.labels, List.append_assoc]
    by_cases hlit : arg.isLiteral = true
    · obtain ⟨c, v, rfl⟩ := isLiteral_iff.mp hlit
      have hrest := exec_starts_children rest (by simpa [Args.nonLiterals, hlit] using h) flipped
        code s (v :: st)
      exact hrest.mono (List.subset_append_right _ _)
    · exact (exec_starts arg (by simpa using hlit) flipped _ s st).mono
        (List.subset_append_left _ _)

theorem exec_starts_childrenRev (args : Args V) (h : 0 < args.nonLiterals) (flipped : Bool)
    (code : List (Insn V)) (s : S) (st : List V) :
    Starts args.labels (vm.exec 0 (emitChildrenRev flipped args ++ code) s st).1 := by
  cases args with
  | nil => simp [Args.nonLiterals] at h
  | cons arg rest =>
    rw [emitChildrenRev, Args.labels, List.append_assoc]
    by_cases hrest : rest.nonLiterals = 0
    · obtain ⟨vs, -, -, hrev⟩ := @exec_literals S V vm _ hrest
      have hlit : arg.isLiteral = false := by
        by_contra hlit
        simp [Args.nonLiterals, Bool.not_eq_false _ ▸ hlit, hrest] at h
      rw [hrev]
      exact (exec_starts arg hlit flipped code s _).mono (List.subset_append_left _ _)
    · exact (exec_starts_childrenRev rest (by omega) flipped _ s st).mono
        (List.subset_append_right _ _)

end

/-! ## Code whose operands are out of order -/

/-- Two children that are no literals: the last one is evaluated first. -/
theorem exec_childrenRev_forked (args : Args V) (h : 1 < args.nonLiterals)
    (hnd : args.labels.Nodup) (code : List (Insn V)) (s : S) (st : List V) :
    Forked (vm.exec 0 (emitChildrenRev false args ++ code) s st).1 (vm.evalArgs args s).1 := by
  cases args with
  | nil => simp [Args.nonLiterals] at h
  | cons arg rest =>
    rw [Args.labels, List.nodup_append'] at hnd
    rw [emitChildrenRev, List.append_assoc, Vm.evalArgs]
    by_cases hlit : arg.isLiteral = true
    · obtain ⟨c, v, rfl⟩ := isLiteral_iff.mp hlit
      have hrest : 1 < rest.nonLiterals := by simpa [Args.nonLiterals, hlit] using h
      exact (exec_childrenRev_forked rest hrest hnd.2.1 _ s st).andThen_right _
    · have hrest : 0 < rest.nonLiterals := by
        simp only [Args.nonLiterals, hlit] at h
        simp at h
        omega
      have hlast := @exec_starts_childrenRev S V vm rest hrest false
        (emitNode false arg ++ code) s st
      have hfirst := @eval_starts S V vm arg (by simpa using hlit) s
      exact (hlast.forked hfirst (List.disjoint_symm hnd.2.2)).andThen_right _

mutual

theorem exec_emitNode_forked (e : Expr V) (hnd : e.labels.Nodup) (code : List (Insn V)) (s : S)
    (st : List V) (h : ¬ vm.InOrder e s) :
    Forked (vm.exec 0 (emitNode false e ++ code) s st).1 (vm.eval e s).1 := by
  cases e with
  | literal c v => exact absurd trivial h
  | operation l operands =>
    rw [Expr.labels, List.nodup_cons] at hnd
    rw [emitNode, List.append_assoc, Vm.eval]
    exact (exec_emitChildren_forked operands hnd.2 _ s st h).andThen_right _
  | logical tok l lhs rhs =>
    rw [Expr.labels, List.nodup_cons, List.nodup_append'] at hnd
    simp only [emitNode]
    rw [List.append_assoc, Vm.eval]
    by_cases hlhs : vm.InOrder lhs s
    · obtain ⟨s', v, hv, hdec, hrhs⟩ : ∃ s' v, (vm.eval lhs s).2 = some (s', v) ∧
          vm.decides tok v = false ∧ ¬ vm.InOrder rhs s' := by
        simpa [Vm.InOrder, hlhs] using h
      rw [exec_emitNode lhs _ s st hlhs]
      apply Forked.andThen hv
      rw [List.cons_append, Vm.exec]
      apply Forked.andThen (s := s') (a := v) rfl
      rw [hdec, List.append_assoc]
      exact (exec_emitNode_forked rhs hnd.2.2.1 _ s' _ hrhs).andThen_right _
    · exact (exec_emitNode_forked lhs hnd.2.1 _ s st hlhs).andThen_right _
  | collection l children =>
    rw [Expr.labels, List.nodup_cons] at hnd
    rw [emitNode, Vm.eval]
    cases hconst : children.constants? with
    | some vs => exact absurd (inOrder_constants hconst s) h
    | none =>
      simp only [Bool.false_eq_true, if_false]
      rw [List.append_assoc]
      by_cases hone : children.nonLiterals ≤ 1
      · have hargs : ¬ vm.InOrderArgs children s := fun hargs => h ⟨hone, hargs⟩
        exact (exec_emitChildrenRev_forked children hnd.2 _ s st hargs hone).andThen_right _
      · exact (exec_childrenRev_forked children (by omega) hnd.2 _ s st).andThen_right _
  | binaryAssign get op set rhs =>
    obtain ⟨s', v, hv, hrhs⟩ : ∃ s' v, vm.apply get s [] = some (s', v) ∧ ¬ vm.InOrder rhs s' := by
      simpa [Vm.InOrder] using h
    have hnd' : rhs.labels.Nodup := by
      simp only [Expr.labels, List.nodup_cons] at hnd
      exact hnd.2.2.2
    rw [emitNode, List.cons_append, List.append_assoc, Vm.exec, Vm.eval]
    apply Forked.andThen (s := s') (a := v) hv
    exact (exec_emitNode_forked rhs hnd' _ s' _ hrhs).andThen_right _
  | propSetBinop get op set obj rval =>
    simp only [Expr.labels, List.nodup_cons, List.nodup_append'] at hnd
    rw [emitNode, List.append_assoc, Vm.eval]
    by_cases hobj : vm.InOrder obj s
    · obtain ⟨s', o, ho, hagain⟩ : ∃ s' o, (vm.eval obj s).2 = some (s', o) ∧
          ¬ (obj.isLiteral = true ∧
            ∀ s'' v, vm.apply get s' [o] = some (s'', v) → vm.InOrder rval s'') := by
        by_contra hall
        refine h ⟨hobj, fun s' o ho => ?_⟩
        by_contra hnot
        exact hall ⟨s', o, ho, hnot⟩
      rw [exec_emitNode obj _ s st hobj]
      apply Forked.andThen ho
      by_cases hlit : obj.isLiteral = true
      · obtain ⟨c, v, rfl⟩ := isLiteral_iff.mp hlit
        obtain ⟨s'', w, hw, hrval⟩ : ∃ s'' w, vm.apply get s' [o] = some (s'', w) ∧
            ¬ vm.InOrder rval s'' := by
          simpa [hlit] using hagain
        obtain ⟨rfl, rfl⟩ : s = s' ∧ v = o := by simpa [Vm.eval, Outcome.value] using ho
        rw [emitNode, List.singleton_append, List.cons_append, Vm.exec, List.cons_append, Vm.exec]
        apply Forked.andThen (s := s'') (a := w) hw
        rw [List.append_assoc]
        exact (exec_emitNode_forked rval hnd.2.2.2.2.1 _ s'' _ hrval).andThen_right _
      · -- the object is evaluated again, where the property should be read
        rw [List.append_assoc]
        have hsecond := @exec_starts S V vm obj (by simpa using hlit) true
          ((.operation get 1 :: (emitNode false rval ++ [.operation op 2, .operation set 2])) ++
            code) s' (o :: st)
        have hget : Starts [get] (vm.perform get s' [o]).1 := Starts.perform (by simp) s' [o]
        refine Forked.andThen_right (hsecond.forked hget ?_) _
        intro a ha hmem
        rw [List.mem_singleton] at hmem
        subst hmem
        exact hnd.1 (by simp [ha])
    · exact (exec_emitNode_forked obj hnd.2.2.2.1 _ s st hobj).andThen_right _

theorem exec_emitChildren_forked (args : Args V) (hnd : args.labels.Nodup) (code : List (Insn V))
    (s : S) (st : List V) (h : ¬ vm.InOrderArgs args s) :
    Forked (vm.exec 0 (emitChildren false args ++ code) s st).1 (vm.evalArgs args s).1 := by
  cases args with
  | nil => exact absurd trivial h
  | cons arg rest =>
    rw [Args.labels, List.nodup_append'] at hnd
    rw [emitChildren, List.append_assoc, Vm.evalArgs]
    by_cases harg : vm.InOrder arg s
    · obtain ⟨s', v, hv, hrest⟩ : ∃ s' v, (vm.eval arg s).2 = some (s', v) ∧
          ¬ vm.InOrderArgs rest s' := by
        simpa [Vm.InOrderArgs, harg] using h
      rw [exec_emitNode arg _ s st harg]
      apply Forked.andThen hv
      exact (exec_emitChildren_forked rest hnd.2.1 _ s' _ hrest).andThen_right _
    · exact (exec_emitNode_forked arg hnd.1 _ s st harg).andThen_right _

theorem exec_emitChildrenRev_forked (args : Args V) (hnd : args.labels.Nodup)
    (code : List (Insn V)) (s : S) (st : List V) (h : ¬ vm.InOrderArgs args s)
    (hone : args.nonLiterals ≤ 1) :
    Forked (vm.exec 0 (emitChildrenRev false args ++ code) s st).1 (vm.evalArgs args s).1 := by
  cases args with
  | nil => exact absurd trivial h
  | cons arg rest =>
    rw [Args.labels, List.nodup_append'] at hnd
    rw [emitChildrenRev, List.append_assoc, Vm.evalArgs]
    by_cases hlit : arg.isLiteral = true
    · obtain ⟨c, v, rfl⟩ := isLiteral_iff.mp hlit
      have hrest : rest.nonLiterals ≤ 1 := by simpa [Args.nonLiterals, hlit] using hone
      have hnot : ¬ vm.InOrderArgs rest s := by
        intro hargs
        refine h ⟨trivial, fun s' w hw => ?_⟩
        obtain ⟨rfl, -⟩ : s = s' ∧ v = w := by simpa [Vm.eval, Outcome.value] using hw
        exact hargs
      exact (exec_emitChildrenRev_forked rest hnd.2.1 _ s st hnot hrest).andThen_right _
    · have hrest : rest.nonLiterals = 0 := by
        simp only [Args.nonLiterals, hlit] at hone
        simp at hone
        omega
      obtain ⟨vs, -, -, hrev⟩ := @exec_literals S V vm _ hrest
      have harg : ¬ vm.InOrder arg s := by
        intro harg
        exact h ⟨harg, fun s' w _ => inOrderArgs_literals hrest s'⟩
      rw [hrev]
      exact (exec_emitNode_forked arg hnd.1 code s _ harg).andThen_right _

end

/-- The code of an expression evaluates its operands as they are written, each once and from left to
right, if and only if the condition holds. -/
theorem exec_trace_iff (e : Expr V) (hnd : e.labels.Nodup) (s : S) (st : List V) :
    (vm.exec 0 (emitNode false e) s st).1 = (vm.eval e s).1 ↔ vm.InOrder e s := by
  have hnil : emitNode false e = emitNode false e ++ [] := (List.append_nil _).symm
  rw [hnil]
  constructor
  · intro heq
    by_contra h
    exact (exec_emitNode_forked e hnd [] s st h).ne heq
  · intro h
    rw [exec_emitNode e [] s st h]
    rcases vm.eval e s with ⟨t, _ | ⟨s', v⟩⟩
    · rfl
    · simp [Outcome.andThen, Vm.exec, Outcome.value]

end

/-- Operations give the number of their place, and all but 9 is true. -/
def numbered : Vm Unit ℕ where
  isTruthy v := v != 9
  falseValue := 9
  apply l _ _ := some ((), l)

/-- `f(x or g(), [h(), 1]) + y` -/
def callInOperands : Expr ℕ :=
  .binaryExpr 0
    (.callExpr 1 (.variableExpr 2)
      (.cons
        (.logical .or 3 (.variableExpr 9) (.callExpr 4 (.variableExpr 5) .nil))
        (.cons
          (.collection 6 (.cons (.callExpr 7 (.variableExpr 8) .nil) (.cons (.literal true 1) .nil)))
          .nil)))
    (.variableExpr 10)

theorem callInOperands_trace :
    (numbered.exec 0 (emitNode false callInOperands) () []).1 = [2, 9, 3, 5, 4, 8, 7, 6, 1, 10, 0] := by
  have hnd : callInOperands.labels.Nodup := by decide
  have horder : numbered.InOrder callInOperands () := by
    refine ⟨⟨trivial, fun _ _ _ => ⟨⟨trivial, fun _ _ _ _ => ⟨trivial, fun _ _ _ => trivial⟩⟩,
      fun _ _ _ => ⟨⟨?_, ⟨trivial, fun _ _ _ => trivial⟩, ?_⟩, fun _ _ _ => trivial⟩⟩⟩,
      fun _ _ _ => ⟨trivial, fun _ _ _ => trivial⟩⟩
    · decide
    · intro _ _ _
      exact ⟨trivial, fun _ _ _ => trivial⟩
  rw [(exec_trace_iff callInOperands hnd () []).mpr horder]
  rfl

/-- `f().n += [g(), h()]`: `f` is called twice, and `h` before `g`. -/
def calledTwice : Expr ℕ :=
  .propSetBinop 0 1 2 (.callExpr 3 (.variableExpr 4) .nil)
    (.collection 5
      (.cons (.callExpr 6 (.variableExpr 7) .nil) (.cons (.callExpr 8 (.variableExpr 10) .nil) .nil)))

theorem calledTwice_trace :
    calledTwice.labels.Nodup ∧
      (numbered.exec 0 (emitNode false calledTwice) () []).1 = [4, 3, 4, 3, 0, 10, 8, 7, 6, 5, 1, 2] ∧
      (numbered.exec 0 (emitNode false calledTwice) () []).1 ≠ (numbered.eval calledTwice ()).1 := by
  refine ⟨by decide, rfl, ?_⟩
  have hwritten : (numbered.eval calledTwice ()).1 = [4, 3, 0, 7, 6, 10, 8, 5, 1, 2] := rfl
  rw [hwritten]
  decide

end Clox.EvalOrder
