import Clox.Vm.Foreach

/-! # The opcodes of variable declarations

`OP_DEFINE_GLOBAL`, `OP_SET_LOCAL` and the two opcodes that take a value out of an array, on the
cells of a frame, its locals table and the globals.
-/

namespace Clox

/-- What `isUnredefinableGlobal` refuses. -/
def unredefinableGlobals : List String :=
  ["clock", "typeof", "classof", "debugger", "loadScript", "requireScript", "eval", "yield",
    "blockGiven", "sleep"]

/-- The cells from `frame->slots` up to `stackTop`, the frame's `localsTable` and the globals. -/
structure VarState (ν : Type) where
  stack : List (Value ν)
  localsTable : List (Value ν)
  globals : String → Option (Value ν)

namespace VarState

variable {ν : Type} {vm vm' : VarState ν} {base : List (Value ν)} {v : Value ν} {name : String}
  {slot idx n : ℕ}

/-! ## The opcodes -/

/-- `OP_DEFINE_GLOBAL`; `none` where an error is thrown. -/
def defineGlobal (name : String) (vm : VarState ν) : Option (VarState ν) :=
  vm.stack.getLast?.bind fun val =>
    if name ∈ unredefinableGlobals then none
    else some { vm with
      stack := vm.stack.dropLast
      globals := Function.update vm.globals name (some val) }

/-- `OP_UNPACK_DEFINE_GLOBAL`; the array stays. -/
def unpackDefineGlobal (name : String) (unpackIdx : ℕ) (vm : VarState ν) : Option (VarState ν) :=
  vm.stack.getLast?.bind fun top =>
    ((Cell.value top).unpackValue unpackIdx).map fun val =>
      { vm with globals := Function.update vm.globals name (some val) }

/-- `OP_SET_LOCAL`; the table is grown where it is too short. -/
def setLocal (slot : ℕ) (vm : VarState ν) : Option (VarState ν) :=
  vm.stack.getLast?.map fun val =>
    { vm with
      stack := vm.stack.set slot val
      localsTable := (vm.localsTable.rightpad (slot + 1) .nil).set slot val }

/-- `OP_UNPACK_SET_LOCAL`; the table is not grown: a slot behind it is out of bounds. -/
def unpackSetLocal (slot unpackIdx : ℕ) (vm : VarState ν) : Option (VarState ν) :=
  let stack := vm.stack.rightpad (slot + 1) .nil
  let peekIdx := stack.length - vm.stack.length
  (stack.reverse[peekIdx + unpackIdx]?.bind fun top => (Cell.value top).unpackValue unpackIdx).bind
    fun val =>
      if slot < vm.localsTable.length then
        some { vm with
          stack := stack.set slot val
          localsTable := vm.localsTable.set slot val }
      else none

/-- One instruction; `none` where the VM throws or aborts. -/
def exec (constants : List (Value ν)) (i : Insn) (vm : VarState ν) : Option (VarState ν) :=
  match OpCode.ofNat? i.code, i.operands with
  | some .opNil, [] => some { vm with stack := vm.stack ++ [.nil] }
  | some .opDefineGlobal, [arg] =>
    match constants[arg]? with
    | some (.string name) => vm.defineGlobal name
    | _ => none
  | some .opUnpackDefineGlobal, [arg, unpackIdx] =>
    match constants[arg]? with
    | some (.string name) => vm.unpackDefineGlobal name unpackIdx
    | _ => none
  | some .opSetLocal, [slot, _] => vm.setLocal slot
  | some .opUnpackSetLocal, [slot, unpackIdx, _] => vm.unpackSetLocal slot unpackIdx
  | _, _ => none

def run (constants : List (Value ν)) (insns : List Insn) (vm : VarState ν) : Option (VarState ν) :=
  insns.foldlM (fun vm i => exec constants i vm) vm

/-! ## Reading -/

/-- `OP_GET_LOCAL` -/
def readLocal (vm : VarState ν) (slot : ℕ) : Option (Value ν) :=
  vm.localsTable[slot]?.or vm.stack[slot]?

/-- `OP_GET_GLOBAL` -/
def readGlobal (roGlobals : String → Option (Value ν)) (vm : VarState ν) (name : String) :
    Option (Value ν) := (roGlobals name).or (vm.globals name)

/-! ## Several variables -/

/-- The opcode for a global; with an index it is taken out of the array on the top. -/
def declGlobal (name : String) : Option ℕ → VarState ν → Option (VarState ν)
  | none => defineGlobal name
  | some idx => unpackDefineGlobal name idx

/-- The opcode for the local at `slot`. -/
def declLocal (slot : ℕ) : Option ℕ → VarState ν → Option (VarState ν)
  | none => setLocal slot
  | some idx => unpackSetLocal slot idx

def declGlobals : List String → Option ℕ → VarState ν → Option (VarState ν)
  | [], _, vm => some vm
  | name :: names, idx, vm => (declGlobal name idx vm).bind (declGlobals names (idx.map (· + 1)))

/-- The locals at the slots from `slot` on. -/
def declLocals : ℕ → ℕ → Option ℕ → VarState ν → Option (VarState ν)
  | 0, _, _, vm => some vm
  | n + 1, slot, idx, vm =>
    (declLocal slot idx vm).bind (declLocals n (slot + 1) (idx.map (· + 1)))

/-! ## What they do -/

theorem defineGlobal_concat : defineGlobal name { vm with stack := base ++ [v] } =
    if name ∈ unredefinableGlobals then none
    else some { vm with stack := base, globals := Function.update vm.globals name (some v) } := by
  unfold defineGlobal
  rw [List.getLast?_concat, Option.bind_some, List.dropLast_concat]

/-- Taking values out of an array leaves it on the stack. -/
theorem stack_declGlobals {names : List String} {idx : ℕ}
    (h : declGlobals names (some idx) vm = some vm') : vm'.stack = vm.stack := by
  induction names generalizing vm idx with
  | nil =>
    cases h
    rfl
  | cons name names ih =>
    rcases Option.bind_eq_some_iff.mp h with ⟨vm₁, hfirst, hrest⟩
    rcases Option.bind_eq_some_iff.mp hfirst with ⟨top, -, hmap⟩
    rcases Option.map_eq_some_iff.mp hmap with ⟨val, -, rfl⟩
    have hrest' : declGlobals names (some (idx + 1))
        { vm with globals := Function.update vm.globals name (some val) } = some vm' := hrest
    exact (ih hrest').trans rfl

/-- A value on the top is the local in its slot. -/
theorem setLocal_concat (hroom : base.length < vm.localsTable.length) :
    setLocal base.length { vm with stack := base ++ [v] } = some { vm with
      stack := base ++ [v]
      localsTable := vm.localsTable.set base.length v } := by
  have hpad : vm.localsTable.rightpad (base.length + 1) .nil = vm.localsTable := by
    rw [List.rightpad, Nat.sub_eq_zero_of_le hroom, List.replicate_zero, List.append_nil]
  unfold setLocal
  rw [List.getLast?_concat, Option.map_some, hpad, List.set_append_right _ _ (Nat.le_refl _),
    Nat.sub_self]
  rfl

/-- The next value out of the array at `base.length`, behind those that were taken out. -/
theorem unpackSetLocal_next {taken : List (Value ν)}
    (hroom : base.length + 1 + taken.length < vm.localsTable.length) :
    unpackSetLocal (base.length + 1 + taken.length) taken.length
        { vm with stack := base ++ [v] ++ taken } =
      ((Cell.value v).unpackValue taken.length).map fun val => { vm with
        stack := base ++ [v] ++ (taken ++ [val])
        localsTable := vm.localsTable.set (base.length + 1 + taken.length) val } := by
  have hlen : (base ++ [v] ++ taken).length = base.length + 1 + taken.length := by
    rw [List.length_append, List.length_append, List.length_singleton]
  have hpad : (base ++ [v] ++ taken).rightpad (base.length + 1 + taken.length + 1) .nil =
      base ++ [v] ++ taken ++ [.nil] := by
    rw [List.rightpad, hlen, Nat.add_sub_cancel_left]
    rfl
  have hpeek : (base ++ [v] ++ taken ++ [Value.nil]).length - (base ++ [v] ++ taken).length = 1 := by
    rw [List.length_append, List.length_singleton, Nat.add_sub_cancel_left]
  have htop : (base ++ [v] ++ taken ++ [Value.nil]).reverse[1 + taken.length]? = some v := by
    simp [Nat.add_comm]
  unfold unpackSetLocal
  simp only [hpad, hpeek, htop, Option.bind_some, if_pos hroom]
  cases (Cell.value v).unpackValue taken.length with
  | none => rfl
  | some val =>
    rw [Option.bind_some, Option.map_some, ← hlen, List.set_append_right _ _ (Nat.le_refl _),
      Nat.sub_self]
    simp

/-- All values out of the array. -/
theorem declLocals_unpack {els : List (Value ν)} (vm : VarState ν) (taken : List (Value ν)) {top : ℕ}
    (htop : top = base.length + 1 + taken.length) (hroom : top + n ≤ vm.localsTable.length) :
    ∃ vm', declLocals n top (some taken.length)
        { vm with stack := base ++ [.array els] ++ taken } = some vm' ∧
      vm'.stack = base ++ [.array els] ++
        (taken ++ (List.range' taken.length n).map fun i => els[i]?.getD .nil) ∧
      vm'.globals = vm.globals ∧
      ∀ slot, vm'.localsTable[slot]? = if top ≤ slot ∧ slot < top + n then
        some (els[slot - (base.length + 1)]?.getD .nil) else vm.localsTable[slot]? := by
  induction n generalizing vm taken top with
  | zero =>
    refine ⟨_, rfl, by simp, rfl, fun slot => ?_⟩
    rw [if_neg (by omega)]
  | succ n ih =>
    subst htop
    have hfirst : declLocal (base.length + 1 + taken.length) (some taken.length)
        { vm with stack := base ++ [.array els] ++ taken } = some { vm with
          stack := base ++ [.array els] ++ (taken ++ [els[taken.length]?.getD .nil])
          localsTable := vm.localsTable.set (base.length + 1 + taken.length)
            (els[taken.length]?.getD .nil) } :=
      unpackSetLocal_next (by omega)
    have hlen : (taken ++ [els[taken.length]?.getD .nil]).length = taken.length + 1 := by
      rw [List.length_append, List.length_singleton]
    rcases ih { vm with
        localsTable := vm.localsTable.set (base.length + 1 + taken.length)
          (els[taken.length]?.getD .nil) }
      (taken ++ [els[taken.length]?.getD .nil])
      (show base.length + 1 + taken.length + 1 = _ by rw [hlen, Nat.add_assoc])
      (by rw [List.length_set]; omega) with ⟨vm', hrest, hstack, hglobals, htable⟩
    refine ⟨vm', ?_, ?_, hglobals, fun slot => ?_⟩
    · rw [declLocals, hfirst, Option.bind_some]
      rwa [hlen] at hrest
    · rw [hstack, hlen, List.range'_succ, List.map_cons]
      simp
    · rw [htable]
      by_cases hslot : slot = base.length + 1 + taken.length
      · subst hslot
        rw [if_neg (by omega), if_pos (by omega), List.getElem?_set_self (by omega),
          Nat.add_sub_cancel_left]
      · rw [List.getElem?_set_ne (Ne.symm hslot)]
        by_cases hin : base.length + 1 + taken.length ≤ slot ∧
            slot < base.length + 1 + taken.length + (n + 1)
        · rw [if_pos (by omega), if_pos hin]
        · rw [if_neg (by omega), if_neg hin]

/-- What is no array makes the first of them abort. -/
theorem declLocals_not_array (vm : VarState ν) (hv : ∀ els, v ≠ .array els) :
    declLocals (n + 1) (base.length + 1) (some 0) { vm with stack := base ++ [v] } = none := by
  rcases vm with ⟨stack, table, globals⟩
  have hnone : (Cell.value v).unpackValue 0 = none := by
    cases v with
    | array els => exact absurd rfl (hv els)
    | _ => rfl
  have htop : ((base ++ [v]).rightpad (base.length + 1 + 1) Value.nil).reverse[
      ((base ++ [v]).rightpad (base.length + 1 + 1) Value.nil).length - (base ++ [v]).length + 0]? =
      some v := by
    simp [List.rightpad]
  unfold declLocals declLocal unpackSetLocal
  simp only [htop, Option.bind_some, hnone, Option.bind_none]

end VarState

end Clox
