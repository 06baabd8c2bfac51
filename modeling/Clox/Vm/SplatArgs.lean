import Clox.Vm.Splat

/-! # What a call receives

An expression is evaluated with the code of `Splat`, and each call in it tells
what is written in the source: its callable and the concatenation of its
arguments. That is what it receives if and only if `lastSplatNumArgs` counts
right at each call opcode.
-/

namespace Clox.Splat

variable {V : Type}

/-! ## Evaluation -/

/-- A call that is made. -/
structure Call (V : Type) where
  /-- The callable or receiver, and the arguments, as they are written. -/
  written : Option (Received V)
  /-- How many arguments are written, with one for each array. -/
  numArgs : ℕ
  /-- At the opcode. -/
  lastSplatNumArgs : NumArgs
  received : Option (Received V)

/-- What an argument with the value on top of the stack gives to its call. -/
def ArgKind.given (p : Program V) (th : Thread V) : ArgKind → List V
  | plain | kwarg _ => th.stack.take 1
  | splat => (th.stack.head?.bind p.asArray).elim [] (·.val)

def ArgKind.run (p : Program V) (th : Thread V) : ArgKind → Option (Thread V)
  | plain | kwarg _ => some th
  | splat => opSplatArray p th

mutual

/-- The calls that an expression makes, and the thread with its value, none after an error. -/
def eval (p : Program V) : Expr V → Thread V → List (Call V) × Option (Thread V)
  | .op apply operands, th =>
    match evalArgs p operands th with
    | (calls, none) => (calls, none)
    | (calls, some (_, th')) => (calls, opApply apply operands.length th')
  | .call _ lhs args, th =>
    match eval p lhs th with
    | (calls, none) => (calls, none)
    | (calls, some th₁) =>
      match evalArgs p args th₁ with
      | (calls', none) => (calls ++ calls', none)
      | (calls', some (given, th₂)) =>
        let call : Call V :=
          { written := th₁.stack.head?.map fun callable => (callable, given)
            numArgs := args.length
            lastSplatNumArgs := th₂.lastSplatNumArgs
            received := (opCall p args.length th₂).1 }
        (calls ++ (calls' ++ [call]), (opCall p args.length th₂).2)

/-- What the arguments give. -/
def evalArgs (p : Program V) : Args V → Thread V → List (Call V) × Option (List V × Thread V)
  | .nil, th => ([], some ([], th))
  | .cons kind arg rest, th =>
    match eval p arg th with
    | (calls, none) => (calls, none)
    | (calls, some th₁) =>
      match kind.run p th₁ with
      | none => (calls, none)
      | some th₂ =>
        match evalArgs p rest th₂ with
        | (calls', none) => (calls ++ calls', none)
        | (calls', some (given, th₃)) => (calls ++ calls', some (kind.given p th₁ ++ given, th₃))

end

/-- The code of a call receives what the evaluation says, and goes on with its thread. -/
def continued (p : Program V) (calls : List (Call V)) (th : Option (Thread V))
    (code : List (Instr V)) : List (Option (Received V)) × Option (Thread V) :=
  match th with
  | none => (calls.map (·.received), none)
  | some th => (calls.map (·.received) ++ (exec p code th).1, (exec p code th).2)

section

variable {p : Program V}

/-- The code goes on with what its first part does. -/
theorem continued_some {calls calls' : List (Call V)} {th : Thread V} {th' : Option (Thread V)}
    {code code' : List (Instr V)} (h : exec p code th = continued p calls' th' code') :
    continued p calls (some th) code = continued p (calls ++ calls') th' code' := by
  rw [continued, h]
  cases th' with
  | none => simp [continued]
  | some th' => simp [continued]

theorem exec_op (apply : List V → NumArgs → Option V × NumArgs) (n : ℕ) (code : List (Instr V))
    (th : Thread V) :
    exec p (.op apply n :: code) th = continued p [] (opApply apply n th) code := by
  rw [exec]
  cases opApply apply n th with
  | none => rfl
  | some th' => rfl

theorem exec_kind (kind : ArgKind) (code : List (Instr V)) (th : Thread V) :
    exec p (kind.code ++ code) th = continued p [] (kind.run p th) code := by
  cases kind with
  | plain => rfl
  | kwarg name => rfl
  | splat =>
    rw [ArgKind.code, List.singleton_append, exec, ArgKind.run]
    cases opSplatArray p th with
    | none => rfl
    | some th' => rfl

theorem exec_call (isMethod : Bool) (numArgs : ℕ) (code : List (Instr V)) (th : Thread V)
    (call : Call V) (h : call.received = (opCall p numArgs th).1) :
    exec p ((if isMethod then Instr.invoke numArgs else .call numArgs) :: code) th =
      continued p [call] (opCall p numArgs th).2 code := by
  have hexec : exec p (.call numArgs :: code) th =
      continued p [call] (opCall p numArgs th).2 code := by
    rw [exec]
    rcases hcall : opCall p numArgs th with ⟨r, _ | th'⟩ <;> simp [continued, h, hcall]
  cases isMethod with
  | true => exact hexec
  | false => exact hexec

mutual

theorem exec_emitNode (e : Expr V) (code : List (Instr V)) (th : Thread V) :
    exec p (emitNode e ++ code) th = continued p (eval p e th).1 (eval p e th).2 code := by
  cases e with
  | op apply operands =>
    rw [emitNode, List.append_assoc, List.singleton_append, exec_emitChildren operands, eval]
    rcases evalArgs p operands th with ⟨calls, _ | ⟨given, th'⟩⟩
    · rfl
    · refine (continued_some (exec_op apply operands.length code th')).trans ?_
      rw [List.append_nil]
  | call isMethod lhs args =>
    rw [emitNode, List.append_assoc, exec_emitNode lhs, eval]
    rcases eval p lhs th with ⟨calls, _ | th₁⟩
    · rfl
    · have hargs := exec_emitChildren args
        ((if isMethod then Instr.invoke args.length else .call args.length) :: code) th₁
      rw [List.append_assoc, List.singleton_append]
      rw [continued_some hargs]
      dsimp only
      rcases evalArgs p args th₁ with ⟨calls', _ | ⟨given, th₂⟩⟩
      · rfl
      · dsimp only [Option.map_some]
        rw [← List.append_assoc]
        exact continued_some (exec_call isMethod args.length code th₂ _ rfl)

theorem exec_emitChildren (args : Args V) (code : List (Instr V)) (th : Thread V) :
    exec p (emitChildren args ++ code) th =
      continued p (evalArgs p args th).1 ((evalArgs p args th).2.map (·.2)) code := by
  cases args with
  | nil => simp [emitChildren, evalArgs, continued]
  | cons kind arg rest =>
    rw [emitChildren, List.append_assoc, exec_emitNode arg, evalArgs]
    rcases eval p arg th with ⟨calls, _ | th₁⟩
    · rfl
    · rw [List.append_assoc, continued_some (exec_kind kind _ th₁), List.append_nil]
      dsimp only
      cases kind.run p th₁ with
      | none => rfl
      | some th₂ =>
        rw [continued_some (exec_emitChildren rest code th₂)]
        dsimp only
        rcases evalArgs p rest th₂ with ⟨calls', _ | ⟨given, th₃⟩⟩
        · rfl
        · rfl

end

/-! ## What is received -/

/-- It receives what is written. -/
def Call.Right (c : Call V) : Prop := c.received = c.written

/-- `lastSplatNumArgs` at the opcode is one more than the arguments that are given on top of those
that are written, or they are as many and it is -1. -/
def Call.Counted (c : Call V) : Prop :=
  match c.written, c.lastSplatNumArgs with
  | none, _ => False
  | some r, some n => n.val + c.numArgs = r.2.length + 1
  | some r, none => r.2.length = c.numArgs

instance (c : Call V) : Decidable c.Counted :=
  match h : c.written, h' : c.lastSplatNumArgs with
  | none, _ => .isFalse (by simp [Call.Counted, h])
  | some r, some n =>
    decidable_of_iff (n.val + c.numArgs = r.2.length + 1) (by simp [Call.Counted, h, h'])
  | some r, none => decidable_of_iff (r.2.length = c.numArgs) (by simp [Call.Counted, h, h'])

/-- The operands of a call are its callable and arguments if their number is right. -/
theorem peekCall_eq_some_iff {n : ℕ} {callable : V} {args stack : List V} :
    peekCall n (args.reverse ++ callable :: stack) = some (callable, args) ↔ n = args.length := by
  constructor
  · intro h
    rw [peekCall, Option.map_eq_some_iff] at h
    obtain ⟨v, hv, heq⟩ := h
    have hlt := (List.getElem?_eq_some_iff.mp hv).1
    have hargs := congrArg List.length (Prod.mk.inj heq).2
    rw [List.length_reverse, List.length_take] at hargs
    omega
  · rintro rfl
    have hget : (args.reverse ++ callable :: stack)[args.length]? = some callable := by
      rw [List.getElem?_append_right (by simp)]
      simp
    have htake : (args.reverse ++ callable :: stack).take args.length = args.reverse :=
      List.take_left' (List.length_reverse ..)
    rw [peekCall, hget, htake]
    simp

theorem addSplatNumArgs_eq_iff {numArgs len : ℕ} {last : NumArgs} (hle : numArgs ≤ 8)
    (hzero : numArgs = 0 → len = 0) :
    addSplatNumArgs numArgs last = len ↔
      match last with
      | some n => n.val + numArgs = len + 1
      | none => len = numArgs := by
  cases last with
  | none => exact eq_comm
  | some n =>
    have hn := n.isLt
    rw [addSplatNumArgs]
    rcases Nat.eq_zero_or_pos (numArgs + n) with h | h
    · have := hzero (by omega)
      rw [Nat.mod_eq_of_lt (by omega)]
      omega
    · have hsplit : numArgs + n + (2 ^ 32 - 1) = numArgs + n - 1 + 2 ^ 32 := by omega
      rw [hsplit, Nat.add_mod_right, Nat.mod_eq_of_lt (by omega)]
      omega

theorem opCall_fst (numArgs : ℕ) (th : Thread V) :
    (opCall p numArgs th).1 = peekCall (addSplatNumArgs numArgs th.lastSplatNumArgs) th.stack := by
  rw [opCall]
  cases peekCall (addSplatNumArgs numArgs th.lastSplatNumArgs) th.stack with
  | none => rfl
  | some r => rfl

/-- The callable and its operands are popped, and the value is pushed. -/
theorem opCall_stack {numArgs : ℕ} {th th' : Thread V} (h : (opCall p numArgs th).2 = some th') :
    ∃ v, th'.stack = v :: th.stack.drop (addSplatNumArgs numArgs th.lastSplatNumArgs + 1) := by
  rw [opCall] at h
  cases hpeek : peekCall (addSplatNumArgs numArgs th.lastSplatNumArgs) th.stack with
  | none => simp [hpeek] at h
  | some r =>
    simp only [hpeek, Option.map_eq_some_iff] at h
    obtain ⟨v, -, rfl⟩ := h
    exact ⟨v, rfl⟩

/-- An argument is replaced by what it gives. -/
theorem ArgKind.run_stack {kind : ArgKind} {th th' : Thread V} {v : V} {stack : List V}
    (hstack : th.stack = v :: stack) (h : kind.run p th = some th') :
    th'.stack = (kind.given p th).reverse ++ stack := by
  cases kind with
  | plain =>
    obtain rfl := Option.some.inj h
    simp [ArgKind.given, hstack]
  | kwarg name =>
    obtain rfl := Option.some.inj h
    simp [ArgKind.given, hstack]
  | splat =>
    simp only [ArgKind.run, opSplatArray, hstack, Option.map_eq_some_iff] at h
    obtain ⟨els, hels, rfl⟩ := h
    simp [ArgKind.given, hstack, hels]

theorem ArgKind.length_given {kind : ArgKind} {th : Thread V} {v : V} {stack : List V}
    (hstack : th.stack = v :: stack) (hkind : kind ≠ .splat) : (kind.given p th).length = 1 := by
  cases kind with
  | plain => simp [ArgKind.given, hstack]
  | kwarg name => simp [ArgKind.given, hstack]
  | splat => exact absurd rfl hkind

mutual

/-- An expression whose calls receive what is written leaves one value more on the stack. -/
theorem eval_stack (e : Expr V) (th : Thread V) (hacc : e.accepted = true)
    (hright : ∀ c ∈ (eval p e th).1, c.Right) {th' : Thread V} (h : (eval p e th).2 = some th') :
    ∃ v, th'.stack = v :: th.stack := by
  cases e with
  | op apply operands =>
    rw [Expr.accepted, Bool.and_eq_true, Bool.not_eq_true'] at hacc
    rw [eval] at hright h
    rcases hargs : evalArgs p operands th with ⟨calls, _ | ⟨given, th₁⟩⟩
    · simp [hargs] at h
    · simp only [hargs] at hright h
      have hstack := evalArgs_stack operands th hacc.2 (by simpa [hargs] using hright)
        (by rw [hargs])
      simp only [opApply, Option.map_eq_some_iff] at h
      obtain ⟨v, -, rfl⟩ := h
      refine ⟨v, ?_⟩
      rw [hstack.1, ← hstack.2.2 hacc.1, ← List.length_reverse, List.drop_left]
  | call isMethod lhs args =>
    simp only [Expr.accepted, Bool.and_eq_true] at hacc
    rw [eval] at hright h
    rcases hlhs : eval p lhs th with ⟨calls, _ | th₁⟩
    · simp [hlhs] at h
    · simp only [hlhs] at hright h
      rcases hargs : evalArgs p args th₁ with ⟨calls', _ | ⟨given, th₂⟩⟩
      · simp [hargs] at h
      · simp only [hargs, List.mem_append, List.mem_singleton] at hright h
        obtain ⟨f, hf⟩ := eval_stack lhs th hacc.1.2
          (fun c hc => hright c (.inl (by simpa [hlhs] using hc))) (by rw [hlhs])
        have hstack := evalArgs_stack args th₁ hacc.2
          (fun c hc => hright c (.inr (.inl (by simpa [hargs] using hc)))) (by rw [hargs])
        have hcall := hright _ (.inr (.inr rfl))
        rw [hf] at hstack
        simp only [Call.Right, opCall_fst, hf, List.head?_cons, Option.map_some, hstack.1,
          peekCall_eq_some_iff] at hcall
        obtain ⟨v, hv⟩ := opCall_stack h
        refine ⟨v, ?_⟩
        rw [hv, hcall, hstack.1, ← List.length_reverse, List.drop_append]
        simp

/-- Arguments leave what they give on the stack. -/
theorem evalArgs_stack (args : Args V) (th : Thread V) (hacc : args.accepted = true)
    (hright : ∀ c ∈ (evalArgs p args th).1, c.Right) {given : List V} {th' : Thread V}
    (h : (evalArgs p args th).2 = some (given, th')) :
    th'.stack = given.reverse ++ th.stack ∧ (args.length = 0 → given = []) ∧
      (args.hasSplat = false → given.length = args.length) := by
  cases args with
  | nil =>
    simp only [evalArgs, Option.some.injEq, Prod.mk.injEq] at h
    obtain ⟨rfl, rfl⟩ := h
    exact ⟨rfl, fun _ => rfl, fun _ => rfl⟩
  | cons kind arg rest =>
    simp only [Args.accepted, Bool.and_eq_true] at hacc
    rw [evalArgs] at hright h
    rcases harg : eval p arg th with ⟨calls, _ | th₁⟩
    · simp [harg] at h
    · simp only [harg] at hright h
      cases hkind : kind.run p th₁ with
      | none => simp [hkind] at h
      | some th₂ =>
        simp only [hkind] at hright h
        rcases hrest : evalArgs p rest th₂ with ⟨calls', _ | ⟨given', th₃⟩⟩
        · simp [hrest] at h
        · simp only [hrest, List.mem_append, Option.some.injEq, Prod.mk.injEq] at hright h
          obtain ⟨rfl, rfl⟩ := h
          obtain ⟨v, hv⟩ := eval_stack arg th hacc.1
            (fun c hc => hright c (.inl (by simpa [harg] using hc))) (by rw [harg])
          have hstack := evalArgs_stack rest th₂ hacc.2
            (fun c hc => hright c (.inr (by simpa [hrest] using hc))) (by rw [hrest])
          refine ⟨?_, by simp [Args.length], ?_⟩
          · rw [hstack.1, ArgKind.run_stack hv hkind]
            simp
          · intro hsplat
            rw [Args.hasSplat, Bool.or_eq_false_iff, beq_eq_false_iff_ne] at hsplat
            rw [List.length_append, ArgKind.length_given hv hsplat.1, hstack.2.2 hsplat.2,
              Args.length, Nat.add_comm]

end

/-- With the right operands on the stack a call receives them if they are counted right. -/
theorem Call.right_iff {numArgs : ℕ} {f : V} {given stack : List V} {th : Thread V}
    (hstack : th.stack = given.reverse ++ f :: stack) (hle : numArgs ≤ 8)
    (hzero : numArgs = 0 → given = []) {c : Call V} (hwritten : c.written = some (f, given))
    (hnum : c.numArgs = numArgs) (hlast : c.lastSplatNumArgs = th.lastSplatNumArgs)
    (hreceived : c.received = (opCall p numArgs th).1) : c.Right ↔ c.Counted := by
  rw [Call.Right, hreceived, hwritten, opCall_fst, hstack, peekCall_eq_some_iff,
    addSplatNumArgs_eq_iff hle (fun h => by rw [hzero h]; rfl), Call.Counted, hlast, hnum, hwritten]
  cases th.lastSplatNumArgs with
  | none => exact Iff.rfl
  | some n => exact Iff.rfl

mutual

theorem eval_right_iff (e : Expr V) (th : Thread V) (hacc : e.accepted = true) :
    (∀ c ∈ (eval p e th).1, c.Right) ↔ ∀ c ∈ (eval p e th).1, c.Counted := by
  cases e with
  | op apply operands =>
    rw [Expr.accepted, Bool.and_eq_true] at hacc
    have ih := evalArgs_right_iff operands th hacc.2
    rw [eval]
    rcases hargs : evalArgs p operands th with ⟨calls, _ | ⟨given, th₁⟩⟩
    · simpa [hargs] using ih
    · simpa [hargs] using ih
  | call isMethod lhs args =>
    simp only [Expr.accepted, Bool.and_eq_true, decide_eq_true_eq] at hacc
    have ih := eval_right_iff lhs th hacc.1.2
    rw [eval]
    rcases hlhs : eval p lhs th with ⟨calls, _ | th₁⟩
    · simpa [hlhs] using ih
    · have ih' := evalArgs_right_iff args th₁ hacc.2
      dsimp only
      rcases hargs : evalArgs p args th₁ with ⟨calls', _ | ⟨given, th₂⟩⟩
      · rw [hlhs] at ih
        rw [hargs] at ih'
        dsimp only
        rw [List.forall_mem_append, List.forall_mem_append, ih, ih']
      · rw [hlhs] at ih
        rw [hargs] at ih'
        dsimp only
        rw [List.forall_mem_append, List.forall_mem_append, List.forall_mem_append,
          List.forall_mem_append, ← ih, ← ih', List.forall_mem_singleton, List.forall_mem_singleton]
        -- The calls before have left the right operands.
        apply and_congr_right
        intro hright
        apply and_congr_right
        intro hright'
        obtain ⟨f, hf⟩ := eval_stack (p := p) lhs th hacc.1.2 (by simpa [hlhs] using hright) (by rw [hlhs])
        have hstack := evalArgs_stack (p := p) args th₁ hacc.2 (by simpa [hargs] using hright')
          (by rw [hargs])
        rw [hf] at hstack
        exact Call.right_iff hstack.1 hacc.1.1 hstack.2.1 (by simp [hf]) rfl rfl rfl

theorem evalArgs_right_iff (args : Args V) (th : Thread V) (hacc : args.accepted = true) :
    (∀ c ∈ (evalArgs p args th).1, c.Right) ↔ ∀ c ∈ (evalArgs p args th).1, c.Counted := by
  cases args with
  | nil => simp [evalArgs]
  | cons kind arg rest =>
    simp only [Args.accepted, Bool.and_eq_true] at hacc
    have ih := eval_right_iff arg th hacc.1
    rw [evalArgs]
    rcases harg : eval p arg th with ⟨calls, _ | th₁⟩
    · simpa [harg] using ih
    · dsimp only
      rw [harg] at ih
      cases kind.run p th₁ with
      | none => exact ih
      | some th₂ =>
        have ih' := evalArgs_right_iff rest th₂ hacc.2
        dsimp only
        rcases hrest : evalArgs p rest th₂ with ⟨calls', _ | ⟨given, th₃⟩⟩
        · rw [hrest] at ih'
          dsimp only
          rw [List.forall_mem_append, List.forall_mem_append, ih, ih']
        · rw [hrest] at ih'
          dsimp only
          rw [List.forall_mem_append, List.forall_mem_append, ih, ih']

end

end

def literal (v : ℕ) : Expr ℕ := .op (fun _ last => (some v, last)) .nil

end Clox.Splat
