import Clox.Compiler.Emit
import Clox.Runtime.Table
import Mathlib.Computability.StateTransition
import Mathlib.Data.List.ReduceOption

/-! # `foreach` loops in the VM

The iterators of arrays and maps, and the opcodes of a `foreach` statement on the words of a chunk.
The body of the loop is a parameter: it is run where its code begins, may change the stack and the
rest of the world, and gets to where its code ends. Stacks are those of the frame, the cell pushed
last at the end. Instances with `iter` or `iterNext` are left out, and the locals tables, which the
opcodes write beside the slots.
-/

namespace Clox

open StateTransition Probing

/-! ## Iterators -/

/-- What an iterator goes through. -/
inductive Iterable (ν : Type) where
  | array (els : List (Value ν))
  | map (table : Table (Value ν) (Value ν))

/-- `struct Iterator` -/
structure Iterator (ν : Type) where
  index : ℤ := -1
  iterable : Iterable ν

/-- The loop of `tableNthEntry` over the slots. -/
def nthEntry {κ ν : Type} (n : ℕ) : (validEntryIdx : ℕ) → List (Option (κ × ν)) → Option (κ × ν)
  | _, [] => none
  | validEntryIdx, none :: slots => nthEntry n validEntryIdx slots
  | validEntryIdx, some e :: slots =>
    if n = validEntryIdx then some e else nthEntry n (validEntryIdx + 1) slots

/-- `tableNthEntry`; an index of `-1` is `none`. -/
def tableNthEntry {κ ν : Type} (table : Table κ ν) (n : ℕ) : Option (κ × ν) :=
  if 0 < table.count then nthEntry n 0 table.entries else none

section

variable {ν : Type}

/-- `lxIteratorNext`; `none` is a failed assertion. -/
def lxIteratorNext (iter : Iterator ν) : Option (Value ν × Iterator ν) :=
  let nextIdx := iter.index + 1
  let iter := { iter with index := nextIdx }
  match iter.iterable with
  | .array els =>
    if els.length ≤ nextIdx then some (.nil, iter)
    else
      match els[nextIdx.toNat]? with
      | some ret => if ret.isUndef then none else some (ret, iter)
      | none => none
  | .map table =>
    if table.count ≤ nextIdx then some (.nil, iter)
    else
      match tableNthEntry table nextIdx.toNat with
      | some e => some (.array [e.1, e.2], iter)
      | none => none

/-- The elements of an array, and an array of key and value for each entry of a map. -/
def Iterable.elements : Iterable ν → List (Value ν)
  | .array els => els
  | .map table => table.entries.reduceOption.map fun e => .array [e.1, e.2]

/-- The table of a map counts its entries. -/
def Iterable.Counted : Iterable ν → Prop
  | .array _ => True
  | .map table => table.count = items table.entries

end

/-! ## The machine -/

/-- A cell of the operand stack. An iterator stands in the one cell that refers to it. -/
inductive Cell (ν : Type) where
  | value (v : Value ν)
  | map (table : Table (Value ν) (Value ν))
  | iterator (iter : Iterator ν)

namespace Cell

variable {ν : Type}

def isTruthy : Cell ν → Bool
  | value v => v.isTruthy
  | map _ => true
  | iterator _ => true

/-- `createIterator` -/
def createIterator : Cell ν → Option (Iterator ν)
  | value (.array els) => some { iterable := .array els }
  | map table => some { iterable := .map table }
  | _ => none

/-- `unpackValue` -/
def unpackValue : Cell ν → ℕ → Option (Value ν)
  | value (.array els), idx => some (els[idx]?.getD .nil)
  | _, _ => none

end Cell

def Iterable.cell {ν : Type} : Iterable ν → Cell ν
  | .array els => .value (.array els)
  | .map table => .map table

/-- Where the parts of a `foreach` statement stand in the chunk: `OP_ITER`, the body, and the two
pops at the end. -/
structure ForeachLoop where
  start : ℕ
  bodyStart : ℕ
  bodyEnd : ℕ
  done : ℕ

/-- Behind the statement. -/
def ForeachLoop.fin (loop : ForeachLoop) : ℕ := loop.done + 2

/-- The frame in a `foreach` statement. `visits` notes what the slots of the variables hold each time
the body is entered. -/
structure ForeachState (ν σ : Type) where
  ip : ℕ
  stack : List (Cell ν)
  world : σ
  visits : List (List (Option (Cell ν))) := []

section

variable {ν σ : Type}

/-- One opcode of the statement; `none` where the VM throws or aborts. -/
def execInsn (code : List ℕ) (vm : ForeachState ν σ) : Option (ForeachState ν σ) :=
  match code.drop vm.ip with
  | [] => none
  | word :: operands =>
    match OpCode.ofNat? word, operands with
    | some .opIter, _ =>
      (vm.stack.getLast?.bind Cell.createIterator).map fun iterator =>
        { vm with ip := vm.ip + 1, stack := vm.stack.dropLast ++ [.iterator iterator] }
    | some .opIterNext, _ =>
      match vm.stack.getLast? with
      | some (.iterator iterator) =>
        (lxIteratorNext iterator).map fun r =>
          { vm with
            ip := vm.ip + 1
            stack := vm.stack.dropLast ++ [.iterator r.2] ++ [.value r.1] }
      | _ => none
    | some .opJumpIfFalsePeek, ipOffset :: _ =>
      vm.stack.getLast?.map fun cond =>
        { vm with ip := if cond.isTruthy then vm.ip + 2 else vm.ip + 2 + (ipOffset - 1) }
    | some .opSetLocal, slot :: _ :: _ =>
      vm.stack.getLast?.map fun v => { vm with ip := vm.ip + 3, stack := vm.stack.set slot v }
    | some .opUnpackSetLocal, slot :: unpackIdx :: _ :: _ =>
      -- `nil` is pushed up to the slot
      let stack := vm.stack.rightpad (slot + 1) (.value .nil)
      let peekIdx := stack.length - vm.stack.length
      (stack.reverse[peekIdx + unpackIdx]?.bind fun c => c.unpackValue unpackIdx).map fun val =>
        { vm with ip := vm.ip + 4, stack := stack.set slot (.value val) }
    | some .opPop, _ =>
      if vm.stack.isEmpty then none
      else some { vm with ip := vm.ip + 1, stack := vm.stack.dropLast }
    | some .opLoop, ipOffset :: _ =>
      if 0 < ipOffset ∧ ipOffset ≤ vm.ip then some { vm with ip := vm.ip + 2 - (ipOffset + 2) }
      else none
    | _, _ => none

/-- What the body does to the world and the stack. -/
abbrev Body (ν σ : Type) := σ → List (Cell ν) → σ × List (Cell ν)

/-- An opcode of the statement, or the body with the opcode behind it; the statement ends at
`loop.fin`. -/
def foreachStep (code : List ℕ) (loop : ForeachLoop) (slots : List ℕ) (body : Body ν σ)
    (vm : ForeachState ν σ) : Option (ForeachState ν σ) :=
  if vm.ip = loop.fin then none
  else if vm.ip = loop.bodyStart then
    let after := body vm.world vm.stack
    execInsn code
      { ip := loop.bodyEnd
        stack := after.2
        world := after.1
        visits := vm.visits ++ [slots.map fun slot => vm.stack[slot]?] }
  else execInsn code vm

/-! ## What is asked for -/

/-- What the variables of the loop are set to. -/
def varValues (numVars : ℕ) (v : Value ν) : List (Value ν) :=
  if numVars = 1 then [v]
  else (List.range numVars).map fun idx => ((Cell.value v).unpackValue idx).getD .nil

/-- The statement is left at its end with the stack as high as it was, the iterable taken off, and
the body has been executed once for each of the elements, in this order. -/
def VisitsAll (code : List ℕ) (loop : ForeachLoop) (slots : List ℕ) (body : Body ν σ)
    (elements : List (Value ν)) (vm : ForeachState ν σ) : Prop :=
  ∃ r ∈ eval (foreachStep code loop slots body) vm, r.ip = loop.fin ∧
    r.visits = vm.visits ++ elements.map (fun v =>
      (varValues slots.length v).map fun x => some (.value x)) ∧
    r.stack.length + 1 = vm.stack.length

/-- The body leaves the iterator, which is in the slot `base`, as it is, with what it goes through,
and nothing on the stack. -/
def BodyKeeps (body : Body ν σ) (base height : ℕ) : Prop :=
  ∀ world stack, stack.length = height →
    (body world stack).2.length = height ∧ (body world stack).2[base]? = stack[base]?

/-- The element goes on with the loop, and the variables can be set from it. -/
def Taken (numVars : ℕ) (v : Value ν) : Prop :=
  v.isTruthy = true ∧ v.isUndef = false ∧
    (1 < numVars → ∃ els, v = .array els)

end

/-! ## The next element -/

section

variable {κ ν : Type}

theorem nthEntry_eq (slots : List (Option (κ × ν))) {n i : ℕ} (hi : i ≤ n) :
    nthEntry n i slots = slots.reduceOption[n - i]? := by
  induction slots generalizing i with
  | nil => rfl
  | cons slot slots ih =>
    cases slot with
    | none => exact ih hi
    | some e =>
      rw [nthEntry, List.reduceOption_cons_of_some]
      split
      · rename_i heq
        rw [heq, Nat.sub_self]
        rfl
      · rename_i hne
        have hnext : n - i = n - (i + 1) + 1 := by omega
        rw [ih (by omega), hnext, List.getElem?_cons_succ]

theorem items_eq_length (slots : List (Option (κ × ν))) : items slots = slots.reduceOption.length := by
  induction slots with
  | nil => rfl
  | cons slot slots ih =>
    rw [items] at ih ⊢
    cases slot with
    | none => simpa using ih
    | some e => simp [ih]

theorem tableNthEntry_eq {table : Table κ ν} (hcount : table.count = items table.entries) (n : ℕ) :
    tableNthEntry table n = table.entries.reduceOption[n]? := by
  rw [tableNthEntry, nthEntry_eq _ (Nat.zero_le n), Nat.sub_zero]
  split
  · rfl
  · rename_i hzero
    rw [items_eq_length] at hcount
    rw [List.getElem?_eq_none (by omega)]

/-- An iterator gives the elements in turn, and `nil` at the end. -/
theorem lxIteratorNext_eq {it : Iterable ν} (hcount : it.Counted) (i : ℕ) :
    lxIteratorNext ⟨(i : ℤ) - 1, it⟩ =
      match it.elements[i]? with
      | none => some (.nil, ⟨i, it⟩)
      | some v => if v.isUndef then none else some (v, ⟨i, it⟩) := by
  have hidx : ((i : ℤ) - 1) + 1 = i := by omega
  cases it with
  | array els =>
    simp only [lxIteratorNext, hidx, Iterable.elements, Int.toNat_natCast, Nat.cast_le]
    cases hget : els[i]? with
    | none => rw [if_pos (List.getElem?_eq_none_iff.mp hget)]
    | some v =>
      have hlt := (List.getElem?_eq_some_iff.mp hget).1
      rw [if_neg (by omega)]
  | map table =>
    have hnth := tableNthEntry_eq hcount i
    have hlen := hcount.trans (items_eq_length table.entries)
    simp only [lxIteratorNext, hidx, Iterable.elements, Int.toNat_natCast, Nat.cast_le, hnth,
      List.getElem?_map]
    cases hget : table.entries.reduceOption[i]? with
    | none =>
      have hle := List.getElem?_eq_none_iff.mp hget
      rw [if_pos (by omega)]
      rfl
    | some e =>
      have hlt := (List.getElem?_eq_some_iff.mp hget).1
      rw [if_neg (by omega)]
      rfl

/-- Entries of a map are given as arrays. -/
theorem taken_of_map {table : Table (Value ν) (Value ν)} {v : Value ν} (numVars : ℕ)
    (hv : v ∈ (Iterable.map table).elements) : Taken numVars v := by
  rcases List.mem_map.mp hv with ⟨e, -, rfl⟩
  exact ⟨rfl, rfl, fun _ => ⟨_, rfl⟩⟩

end

/-! ## The code -/

/-- The words stand in the chunk from `offset` on. -/
def CodeAt (code : List ℕ) (offset : ℕ) (words : List ℕ) : Prop := words <+: code.drop offset

namespace CodeAt

variable {code words words' : List ℕ} {offset : ℕ}

theorem append_iff : CodeAt code offset (words ++ words') ↔
    CodeAt code offset words ∧ CodeAt code (offset + words.length) words' := by
  constructor
  · rintro ⟨rest, hrest⟩
    have hdrop : code.drop (offset + words.length) = words' ++ rest := by
      rw [← List.drop_drop, ← hrest, List.append_assoc, List.drop_left]
    exact ⟨⟨words' ++ rest, by rw [← hrest, List.append_assoc]⟩, ⟨rest, hdrop.symm⟩⟩
  · rintro ⟨⟨rest, hrest⟩, ⟨rest', hrest'⟩⟩
    refine ⟨rest', ?_⟩
    rw [← List.drop_drop, ← hrest, List.drop_left] at hrest'
    rw [← hrest, ← hrest', List.append_assoc]

theorem drop_eq (h : CodeAt code offset words) : ∃ rest, code.drop offset = words ++ rest := by
  rcases h with ⟨rest, hrest⟩
  exact ⟨rest, hrest.symm⟩

end CodeAt

/-- The words that unpack an array into the variables, from variable `slotIdx` on. -/
def unpackWords (base : ℕ) : (slotIdx : ℕ) → (nameIdxs : List ℕ) → List ℕ
  | _, [] => []
  | slotIdx, nameIdx :: nameIdxs =>
    [OpCode.opUnpackSetLocal.toNat, base + 2 + slotIdx, slotIdx, nameIdx] ++
      unpackWords base (slotIdx + 1) nameIdxs

/-- The words that set the variables. `base` is the slot of the iterator. -/
def setWords (base : ℕ) : (nameIdxs : List ℕ) → List ℕ
  | [nameIdx] => [OpCode.opSetLocal.toNat, base + 1, nameIdx]
  | nameIdxs => unpackWords base 0 nameIdxs

/-- How many values an iteration leaves on the stack. -/
def numPops (numVars : ℕ) : ℕ := if numVars = 1 then 1 else numVars + 1

/-- The slots of the variables. -/
def varSlots (base numVars : ℕ) : List ℕ :=
  List.range' (if numVars = 1 then base + 1 else base + 2) numVars

/-- The statement stands in the chunk. -/
structure ForeachLoop.Stands (loop : ForeachLoop) (code : List ℕ) (base : ℕ) (nameIdxs : List ℕ) :
    Prop where
  vars : nameIdxs ≠ []
  iter : CodeAt code loop.start [OpCode.opIter.toNat]
  next : CodeAt code (loop.start + 1) [OpCode.opIterNext.toNat]
  test : CodeAt code (loop.start + 2) [OpCode.opJumpIfFalsePeek.toNat, loop.done - (loop.start + 3)]
  sets : CodeAt code (loop.start + 4) (setWords base nameIdxs)
  entry : loop.bodyStart = loop.start + 4 + (setWords base nameIdxs).length
  body : loop.bodyStart ≤ loop.bodyEnd
  pops : CodeAt code loop.bodyEnd (List.replicate (numPops nameIdxs.length) OpCode.opPop.toNat)
  back : CodeAt code (loop.bodyEnd + numPops nameIdxs.length)
    [OpCode.opLoop.toNat, loop.bodyEnd + numPops nameIdxs.length - (loop.start + 1)]
  exit : loop.bodyEnd + numPops nameIdxs.length + 2 ≤ loop.done
  done : CodeAt code loop.done [OpCode.opPop.toNat, OpCode.opPop.toNat]

/-! ## Opcodes -/

section

variable {ν σ : Type} {code : List ℕ} (vm : ForeachState ν σ) {below : List (Cell ν)}

theorem execInsn_iter {it : Iterable ν} (hcode : CodeAt code vm.ip [OpCode.opIter.toNat])
    (hstack : vm.stack = below ++ [it.cell]) :
    execInsn code vm = some { vm with
      ip := vm.ip + 1, stack := below ++ [.iterator { iterable := it }] } := by
  rcases hcode.drop_eq with ⟨rest, hdrop⟩
  have hcreate : it.cell.createIterator = some { iterable := it } := by
    cases it <;> rfl
  simp [execInsn, hdrop, hstack, hcreate]

theorem execInsn_iterNext {iter iter' : Iterator ν} {v : Value ν}
    (hcode : CodeAt code vm.ip [OpCode.opIterNext.toNat])
    (hstack : vm.stack = below ++ [.iterator iter]) (hnext : lxIteratorNext iter = some (v, iter')) :
    execInsn code vm =
      some { vm with ip := vm.ip + 1, stack := below ++ [.iterator iter'] ++ [.value v] } := by
  rcases hcode.drop_eq with ⟨rest, hdrop⟩
  simp [execInsn, hdrop, hstack, hnext]

theorem execInsn_iterNext_none {iter : Iterator ν}
    (hcode : CodeAt code vm.ip [OpCode.opIterNext.toNat])
    (hstack : vm.stack = below ++ [.iterator iter]) (hnext : lxIteratorNext iter = none) :
    execInsn code vm = none := by
  rcases hcode.drop_eq with ⟨rest, hdrop⟩
  simp [execInsn, hdrop, hstack, hnext]

theorem execInsn_jumpIfFalsePeek {ipOffset : ℕ} {cond : Cell ν}
    (hcode : CodeAt code vm.ip [OpCode.opJumpIfFalsePeek.toNat, ipOffset])
    (hstack : vm.stack = below ++ [cond]) :
    execInsn code vm = some { vm with
      ip := if cond.isTruthy then vm.ip + 2 else vm.ip + 2 + (ipOffset - 1) } := by
  rcases hcode.drop_eq with ⟨rest, hdrop⟩
  simp [execInsn, hdrop, hstack]

theorem execInsn_setLocal {slot nameIdx : ℕ} {v : Cell ν}
    (hcode : CodeAt code vm.ip [OpCode.opSetLocal.toNat, slot, nameIdx])
    (hstack : vm.stack = below ++ [v]) :
    execInsn code vm = some { vm with ip := vm.ip + 3, stack := vm.stack.set slot v } := by
  rcases hcode.drop_eq with ⟨rest, hdrop⟩
  simp [execInsn, hdrop, hstack]

theorem execInsn_pop {c : Cell ν} (hcode : CodeAt code vm.ip [OpCode.opPop.toNat])
    (hstack : vm.stack = below ++ [c]) :
    execInsn code vm = some { vm with ip := vm.ip + 1, stack := below } := by
  rcases hcode.drop_eq with ⟨rest, hdrop⟩
  simp [execInsn, hdrop, hstack]

theorem execInsn_loop {ipOffset : ℕ} (hcode : CodeAt code vm.ip [OpCode.opLoop.toNat, ipOffset])
    (hpos : 0 < ipOffset) (hle : ipOffset ≤ vm.ip) :
    execInsn code vm = some { vm with ip := vm.ip - ipOffset } := by
  rcases hcode.drop_eq with ⟨rest, hdrop⟩
  simp only [execInsn, hdrop, List.cons_append, OpCode.ofNat?_toNat, hpos, hle, and_self, if_true]
  rw [Nat.add_sub_add_right]

/-- A variable is unpacked: the slot is the next one above the stack, and the array lies below the
variables that are set. -/
theorem execInsn_unpackSetLocal {base nameIdx : ℕ} {vals : List (Value ν)} {v : Value ν}
    (hcode : CodeAt code vm.ip
      [OpCode.opUnpackSetLocal.toNat, base + 2 + vals.length, vals.length, nameIdx])
    (hstack : vm.stack = below ++ [.value v] ++ vals.map Cell.value) (hbelow : below.length = base + 1) :
    execInsn code vm = ((Cell.value v).unpackValue vals.length).map fun val => { vm with
      ip := vm.ip + 4, stack := below ++ [.value v] ++ (vals ++ [val]).map Cell.value } := by
  rcases hcode.drop_eq with ⟨rest, hdrop⟩
  have hlen : vm.stack.length = base + 2 + vals.length := by
    simp only [hstack, List.length_append, List.length_map, List.length_singleton, hbelow]
  have hpad : vm.stack.rightpad (base + 2 + vals.length + 1) (.value .nil) =
      below ++ [.value v] ++ vals.map Cell.value ++ [.value .nil] := by
    rw [List.rightpad, hlen, Nat.add_sub_cancel_left, hstack]
    rfl
  have hpeek : (below ++ [Cell.value v] ++ vals.map Cell.value ++ [Cell.value .nil]).reverse[
      1 + vals.length]? = some (.value v) := by
    simp [Nat.add_comm 1]
  have hset : ∀ val, (below ++ [Cell.value v] ++ vals.map Cell.value ++ [Cell.value .nil]).set
      (base + 2 + vals.length) (.value val) =
        below ++ [.value v] ++ (vals ++ [val]).map Cell.value := by
    intro val
    have hinit : (below ++ [Cell.value v] ++ vals.map Cell.value).length =
        base + 2 + vals.length := by
      rw [← hstack, hlen]
    rw [List.set_append_right _ _ (by omega), hinit, Nat.sub_self]
    simp
  simp only [execInsn, hdrop, List.cons_append, OpCode.ofNat?_toNat, hpad, hset]
  rw [List.length_append, ← hstack, List.length_singleton, Nat.add_sub_cancel_left, hstack, hpeek]
  rfl

end

/-! ## One round -/

theorem length_unpackWords (base slotIdx : ℕ) (nameIdxs : List ℕ) :
    (unpackWords base slotIdx nameIdxs).length = 4 * nameIdxs.length := by
  induction nameIdxs generalizing slotIdx with
  | nil => rfl
  | cons nameIdx nameIdxs ih =>
    rw [unpackWords, List.length_append, ih, List.length_cons]
    simp only [List.length_cons, List.length_nil]
    omega

theorem setWords_of_two {base : ℕ} {nameIdxs : List ℕ} (h : 1 < nameIdxs.length) :
    setWords base nameIdxs = unpackWords base 0 nameIdxs := by
  rcases nameIdxs with _ | ⟨x, _ | ⟨y, rest⟩⟩
  · cases h
  · exact absurd h (Nat.lt_irrefl 1)
  · rfl

/-- What a round has on the stack behind the iterator: the element, and for several variables what
it is unpacked into. -/
def roundCells {ν : Type} (numVars : ℕ) (v : Value ν) : List (Cell ν) :=
  if numVars = 1 then [.value v] else .value v :: (varValues numVars v).map .value

section

variable {ν σ : Type} {code : List ℕ} {loop : ForeachLoop} {base : ℕ} {nameIdxs : List ℕ}
  {below : List (Cell ν)}

theorem varValues_length (numVars : ℕ) (v : Value ν) : (varValues numVars v).length = numVars := by
  unfold varValues
  split
  · rename_i hone
    rw [hone]
    rfl
  · rw [List.length_map, List.length_range]

theorem numPops_pos (numVars : ℕ) : 0 < numPops numVars := by
  unfold numPops
  split <;> omega

theorem roundCells_length {numVars : ℕ} (v : Value ν) :
    (roundCells numVars v).length = numPops numVars := by
  unfold roundCells numPops
  split
  · rfl
  · rw [List.length_cons, List.length_map, varValues_length]

/-- The slots of the variables hold them. -/
theorem varSlots_eq {numVars : ℕ} {c : Cell ν} (v : Value ν) (hbelow : below.length = base) :
    (varSlots base numVars).map (fun slot => (below ++ [c] ++ roundCells numVars v)[slot]?) =
      (varValues numVars v).map fun x => some (.value x) := by
  refine List.ext_getElem (by simp [varSlots, varValues_length]) fun i hi hi' => ?_
  rw [List.length_map, varSlots, List.length_range'] at hi
  have hinit : (below ++ [c]).length = base + 1 := by
    rw [List.length_append, hbelow, List.length_singleton]
  simp only [List.getElem_map, varSlots, List.getElem_range', Nat.one_mul]
  by_cases hone : numVars = 1
  · subst hone
    have hzero : i = 0 := by omega
    subst hzero
    rw [if_pos rfl, List.getElem?_append_right (by omega), hinit]
    simp [roundCells, varValues]
  · rw [if_neg hone, List.getElem?_append_right (by omega), hinit, roundCells, if_neg hone]
    have hidx : base + 2 + i - (base + 1) = i + 1 := by omega
    rw [hidx, List.getElem?_cons_succ, List.getElem?_map, List.getElem?_eq_getElem]
    rfl

variable (slots : List ℕ) (body : Body ν σ)

theorem foreachStep_of_ne {vm : ForeachState ν σ} (hfin : vm.ip ≠ loop.fin) (hbody : vm.ip ≠ loop.bodyStart) :
    foreachStep code loop slots body vm = execInsn code vm := by
  rw [foreachStep, if_neg hfin, if_neg hbody]

theorem reaches_insn (loop : ForeachLoop) {vm vm' : ForeachState ν σ} (h : execInsn code vm = some vm')
    (hbody : vm.ip ≠ loop.bodyStart) (hfin : vm.ip ≠ loop.fin) :
    Reaches (foreachStep code loop slots body) vm vm' :=
  Relation.ReflTransGen.single ((foreachStep_of_ne slots body hfin hbody).trans h)

variable (world : σ) (visits : List (List (Option (Cell ν))))

theorem reaches_unpacks (els vals : List (Value ν)) {ip : ℕ} (hbelow : below.length = base + 1)
    (hcode : CodeAt code ip (unpackWords base vals.length nameIdxs))
    (hentry : ip + 4 * nameIdxs.length = loop.bodyStart) (hfin : loop.bodyStart < loop.fin) :
    Reaches (foreachStep code loop slots body)
      ⟨ip, below ++ [.value (.array els)] ++ vals.map .value, world, visits⟩
      ⟨loop.bodyStart, below ++ [.value (.array els)] ++
        (vals ++ (List.range' vals.length nameIdxs.length).map fun idx =>
          els[idx]?.getD .nil).map .value, world, visits⟩ := by
  induction nameIdxs generalizing ip vals with
  | nil =>
    rw [List.length_nil, Nat.mul_zero, Nat.add_zero] at hentry
    rw [List.length_nil, List.range'_zero, List.map_nil, List.append_nil, hentry]
    exact Relation.ReflTransGen.refl
  | cons nameIdx rest ih =>
    rw [List.length_cons] at hentry
    rw [unpackWords, CodeAt.append_iff] at hcode
    have hstep := execInsn_unpackSetLocal
      ⟨ip, below ++ [.value (.array els)] ++ vals.map .value, world, visits⟩ hcode.1 rfl hbelow
    have hfirst := reaches_insn slots body loop hstep (by simp only; omega)
      (by simp only; omega)
    have hlen : (vals ++ [els[vals.length]?.getD .nil]).length = vals.length + 1 := by
      rw [List.length_append, List.length_singleton]
    have hcode' : CodeAt code (ip + 4)
        (unpackWords base (vals ++ [els[vals.length]?.getD .nil]).length rest) := by
      rw [hlen]
      exact hcode.2
    have hrest := ih (vals ++ [els[vals.length]?.getD .nil]) hcode' (by omega)
    rw [hlen, List.append_assoc vals] at hrest
    exact hfirst.trans hrest

namespace ForeachLoop.Stands

variable (hstands : loop.Stands code base nameIdxs)

include hstands

theorem length_setWords_pos : 0 < (setWords base nameIdxs).length := by
  have hvars := hstands.vars
  rcases nameIdxs with _ | ⟨x, _ | ⟨y, rest⟩⟩
  · exact absurd rfl hvars
  · exact Nat.zero_lt_succ 2
  · rw [setWords_of_two (by simp), length_unpackWords]
    exact Nat.mul_pos (by decide) (Nat.zero_lt_succ _)

theorem one_lt_of_ne (hone : nameIdxs.length ≠ 1) : 1 < nameIdxs.length := by
  have hpos := List.length_pos_iff.mpr hstands.vars
  omega

/-- The parts stand in their order. -/
theorem order : loop.start + 4 < loop.bodyStart ∧ loop.bodyStart ≤ loop.bodyEnd ∧
    loop.bodyEnd + numPops nameIdxs.length + 2 ≤ loop.done ∧ loop.fin = loop.done + 2 := by
  have hlen := hstands.length_setWords_pos
  have hentry := hstands.entry
  exact ⟨by omega, hstands.body, hstands.exit, rfl⟩

/-- The variables are set. -/
theorem reaches_sets (c : Cell ν) {v : Value ν} (hbelow : below.length = base)
    (hv : 1 < nameIdxs.length → ∃ els, v = .array els) :
    Reaches (foreachStep code loop slots body)
      ⟨loop.start + 4, below ++ [c] ++ [.value v], world, visits⟩
      ⟨loop.bodyStart, below ++ [c] ++ roundCells nameIdxs.length v, world, visits⟩ := by
  rcases hstands.order with ⟨hstart, hbody, hexit, hfin⟩
  have hsets := hstands.sets
  have hentry := hstands.entry
  have hinit : (below ++ [c]).length = base + 1 := by
    rw [List.length_append, hbelow, List.length_singleton]
  by_cases hone : nameIdxs.length = 1
  · rcases List.length_eq_one_iff.mp hone with ⟨nameIdx, rfl⟩
    have hstep := execInsn_setLocal ⟨loop.start + 4, below ++ [c] ++ [.value v], world, visits⟩
      hsets rfl
    have hsame : (below ++ [c] ++ [Cell.value v]).set (base + 1) (.value v) =
        below ++ [c] ++ roundCells [nameIdx].length v := by
      rw [List.set_append_right _ _ (by omega), hinit, Nat.sub_self]
      rfl
    simp only [hsame] at hstep
    have hlast : loop.bodyStart = loop.start + 4 + 3 := hentry
    rw [hlast]
    exact reaches_insn slots body loop hstep (by simp only; omega) (by simp only; omega)
  · have htwo := hstands.one_lt_of_ne hone
    rcases hv htwo with ⟨els, rfl⟩
    rw [setWords_of_two htwo] at hsets hentry
    rw [length_unpackWords] at hentry
    have hrun := reaches_unpacks slots body world visits els [] hinit hsets hentry.symm (by omega)
    have hcells : roundCells nameIdxs.length (.array els) = [.value (.array els)] ++
        ((List.range nameIdxs.length).map fun idx => els[idx]?.getD .nil).map .value := by
      rw [roundCells, if_neg hone, varValues, if_neg hone]
      rfl
    rw [List.map_nil, List.append_nil, List.nil_append, List.length_nil, ← List.range_eq_range'] at hrun
    rw [hcells, ← List.append_assoc (below ++ [c])]
    exact hrun

theorem reaches_pops {ip count : ℕ} (height : ℕ) (stack : List (Cell ν))
    (hcode : CodeAt code ip (List.replicate count OpCode.opPop.toNat)) (hip : loop.bodyEnd < ip)
    (hlast : ip + count ≤ loop.bodyEnd + numPops nameIdxs.length)
    (hheight : stack.length = height + count) :
    Reaches (foreachStep code loop slots body) ⟨ip, stack, world, visits⟩
      ⟨ip + count, stack.take height, world, visits⟩ := by
  rcases hstands.order with ⟨hstart, hbody, hexit, hfin⟩
  induction count generalizing ip stack with
  | zero =>
    rw [Nat.add_zero] at hheight ⊢
    rw [← hheight, List.take_length]
    exact Relation.ReflTransGen.refl
  | succ count ih =>
    rw [List.replicate_succ, ← List.singleton_append, CodeAt.append_iff] at hcode
    have hne : stack ≠ [] := by
      rintro rfl
      rw [List.length_nil] at hheight
      omega
    have hstep := execInsn_pop ⟨ip, stack, world, visits⟩ hcode.1
      (List.dropLast_append_getLast hne).symm
    have hfirst := reaches_insn slots body loop hstep (by simp only; omega)
      (by simp only; omega)
    have hshort : stack.dropLast.length = height + count := by
      rw [List.length_dropLast]
      omega
    rw [List.length_singleton] at hcode
    have hrest := ih stack.dropLast hcode.2 (by omega) (by omega) hshort
    have htake : stack.dropLast.take height = stack.take height := by
      rw [List.dropLast_eq_take, List.take_take, Nat.min_eq_left (by omega)]
    rw [htake, Nat.add_assoc, Nat.add_comm 1] at hrest
    exact hfirst.trans hrest

/-- The body, and back to the next element. -/
theorem reaches_next (stack : List (Cell ν)) {iter : Iterator ν}
    (hkeeps : BodyKeeps body base (base + 1 + numPops nameIdxs.length))
    (hheight : stack.length = base + 1 + numPops nameIdxs.length)
    (hiter : stack[base]? = some (.iterator iter)) :
    ∃ below' world', below'.length = base ∧
      Reaches (foreachStep code loop slots body) ⟨loop.bodyStart, stack, world, visits⟩
        ⟨loop.start + 1, below' ++ [.iterator iter], world',
          visits ++ [slots.map fun slot => stack[slot]?]⟩ := by
  rcases hstands.order with ⟨hstart, hbody, hexit, hfin⟩
  rcases hkeeps world stack hheight with ⟨hheight', hiter'⟩
  rw [hiter] at hiter'
  have hpos := numPops_pos nameIdxs.length
  obtain ⟨count, hcount⟩ := Nat.exists_eq_add_of_lt hpos
  rw [Nat.zero_add] at hcount
  have hpops := hstands.pops
  rw [hcount, List.replicate_succ, ← List.singleton_append, CodeAt.append_iff] at hpops
  -- the body is executed with the first pop
  have hne : (body world stack).2 ≠ [] := by
    intro hnil
    rw [hnil] at hiter'
    cases hiter'
  have hpop := execInsn_pop ⟨loop.bodyEnd, (body world stack).2,
    (body world stack).1, visits ++ [slots.map fun slot => stack[slot]?]⟩ hpops.1
    (List.dropLast_append_getLast hne).symm
  have hfirst : foreachStep code loop slots body ⟨loop.bodyStart, stack, world, visits⟩ =
      some ⟨loop.bodyEnd + 1, (body world stack).2.dropLast, (body world stack).1,
        visits ++ [slots.map fun slot => stack[slot]?]⟩ := by
    rw [foreachStep, if_neg (by simp only; omega), if_pos rfl]
    exact hpop
  have hshort : (body world stack).2.dropLast.length = base + 1 + count := by
    rw [List.length_dropLast]
    omega
  rw [List.length_singleton] at hpops
  have hrest := hstands.reaches_pops slots body (body world stack).1
    (visits ++ [slots.map fun slot => stack[slot]?]) (base + 1) (body world stack).2.dropLast
    hpops.2 (by omega) (by omega) hshort
  have hloopAt : loop.bodyEnd + 1 + count = loop.bodyEnd + numPops nameIdxs.length := by omega
  have hloopCode := hstands.back
  rw [← hloopAt] at hloopCode
  have hback := execInsn_loop ⟨loop.bodyEnd + 1 + count,
    (body world stack).2.dropLast.take (base + 1), (body world stack).1,
    visits ++ [slots.map fun slot => stack[slot]?]⟩ hloopCode (by omega) (by simp only; omega)
  have hlast := reaches_insn slots body loop hback (by simp only; omega)
    (by simp only; omega)
  have htarget : loop.bodyEnd + 1 + count - (loop.bodyEnd + 1 + count - (loop.start + 1)) =
      loop.start + 1 := by omega
  have hcells : (body world stack).2.dropLast.take (base + 1) =
      (body world stack).2.take base ++ [.iterator iter] := by
    rw [List.dropLast_eq_take, List.take_take, Nat.min_eq_left (by omega), List.take_add_one, hiter']
    rfl
  simp only [htarget, hcells] at hlast hrest
  refine ⟨(body world stack).2.take base, (body world stack).1, ?_, ?_⟩
  · rw [List.length_take]
    omega
  · exact Relation.ReflTransGen.head hfirst (hrest.trans hlast)

/-- The next element is read and tested. -/
theorem reaches_test (below : List (Cell ν)) {iter iter' : Iterator ν} {v : Value ν}
    (hnext : lxIteratorNext iter = some (v, iter')) :
    Reaches (foreachStep code loop slots body)
      ⟨loop.start + 1, below ++ [.iterator iter], world, visits⟩
      ⟨if v.isTruthy = true then loop.start + 4 else loop.done,
        below ++ [.iterator iter'] ++ [.value v], world, visits⟩ := by
  rcases hstands.order with ⟨hstart, hbody, hexit, hfin⟩
  have hiterNext := execInsn_iterNext
    ⟨loop.start + 1, below ++ [.iterator iter], world, visits⟩ hstands.next rfl hnext
  have htest := execInsn_jumpIfFalsePeek
    ⟨loop.start + 2, below ++ [.iterator iter'] ++ [.value v], world, visits⟩ hstands.test rfl
  have htarget : loop.start + 2 + 2 + (loop.done - (loop.start + 3) - 1) = loop.done := by omega
  simp only [htarget] at htest
  have hfirst := reaches_insn slots body loop hiterNext (by simp only; omega)
    (by simp only; omega)
  have hsecond := reaches_insn slots body loop htest (by simp only; omega)
    (by simp only; omega)
  exact hfirst.trans hsecond

/-- An element that is taken: the body is executed for it. -/
theorem reaches_round {iter iter' : Iterator ν} {v : Value ν}
    (hkeeps : BodyKeeps body base (base + 1 + numPops nameIdxs.length))
    (hbelow : below.length = base) (hnext : lxIteratorNext iter = some (v, iter'))
    (htaken : Taken nameIdxs.length v) :
    ∃ below' world', below'.length = base ∧
      Reaches (foreachStep code loop (varSlots base nameIdxs.length) body)
        ⟨loop.start + 1, below ++ [.iterator iter], world, visits⟩
        ⟨loop.start + 1, below' ++ [.iterator iter'], world', visits ++
          [(varValues nameIdxs.length v).map fun x => some (.value x)]⟩ := by
  have htest := hstands.reaches_test (varSlots base nameIdxs.length) body world visits below hnext
  rw [if_pos htaken.1] at htest
  have hsets := hstands.reaches_sets (varSlots base nameIdxs.length) body world visits
    (.iterator iter') hbelow htaken.2.2
  have hinit : (below ++ [Cell.iterator iter']).length = base + 1 := by
    rw [List.length_append, hbelow, List.length_singleton]
  have hheight : (below ++ [Cell.iterator iter'] ++ roundCells nameIdxs.length v).length =
      base + 1 + numPops nameIdxs.length := by
    rw [List.length_append, hinit, roundCells_length]
  have hiter : (below ++ [Cell.iterator iter'] ++ roundCells nameIdxs.length v)[base]? =
      some (.iterator iter') := by
    rw [List.append_assoc, List.getElem?_append_right (by omega), hbelow, Nat.sub_self]
    rfl
  rcases hstands.reaches_next (varSlots base nameIdxs.length) body world visits _ hkeeps hheight
    hiter with ⟨below', world', hbelow', hback⟩
  rw [varSlots_eq v hbelow] at hback
  exact ⟨below', world', hbelow', htest.trans (hsets.trans hback)⟩

/-- A value that ends the loop. -/
theorem reaches_fin (below : List (Cell ν)) {iter iter' : Iterator ν} {v : Value ν}
    (hnext : lxIteratorNext iter = some (v, iter')) (hfalsy : v.isTruthy = false) :
    Reaches (foreachStep code loop slots body)
      ⟨loop.start + 1, below ++ [.iterator iter], world, visits⟩
      ⟨loop.fin, below, world, visits⟩ := by
  rcases hstands.order with ⟨hstart, hbody, hexit, hfin⟩
  have htest := hstands.reaches_test slots body world visits below hnext
  rw [hfalsy, if_neg Bool.false_ne_true] at htest
  have hdone := hstands.done
  rw [show [OpCode.opPop.toNat, OpCode.opPop.toNat] = [OpCode.opPop.toNat] ++ [OpCode.opPop.toNat]
    from rfl, CodeAt.append_iff] at hdone
  have hpop := execInsn_pop
    ⟨loop.done, below ++ [.iterator iter'] ++ [.value v], world, visits⟩ hdone.1 rfl
  have hpop' := execInsn_pop
    ⟨loop.done + 1, below ++ [.iterator iter'], world, visits⟩ hdone.2 rfl
  have hfirst := reaches_insn slots body loop hpop (by simp only; omega)
    (by simp only; omega)
  have hsecond := reaches_insn slots body loop hpop' (by simp only; omega)
    (by simp only; omega)
  exact htest.trans (hfirst.trans hsecond)

/-- A value that cannot be unpacked. -/
theorem reaches_stuck {iter iter' : Iterator ν} {v : Value ν}
    (hnext : lxIteratorNext iter = some (v, iter')) (htruthy : v.isTruthy = true)
    (htwo : 1 < nameIdxs.length) (hv : ¬ ∃ els, v = .array els) (hbelow : below.length = base) :
    ∃ vm, Reaches (foreachStep code loop slots body)
        ⟨loop.start + 1, below ++ [.iterator iter], world, visits⟩ vm ∧
      foreachStep code loop slots body vm = none ∧ vm.ip ≠ loop.fin := by
  rcases hstands.order with ⟨hstart, hbody, hexit, hfin⟩
  have htest := hstands.reaches_test slots body world visits below hnext
  rw [if_pos htruthy] at htest
  have hinit : (below ++ [Cell.iterator iter']).length = base + 1 := by
    rw [List.length_append, hbelow, List.length_singleton]
  have hsets := hstands.sets
  rw [setWords_of_two htwo] at hsets
  rcases nameIdxs with _ | ⟨nameIdx, rest⟩
  · cases htwo
  · rw [unpackWords, CodeAt.append_iff] at hsets
    have hstack : below ++ [Cell.iterator iter'] ++ [.value v] =
        below ++ [.iterator iter'] ++ [.value v] ++ ([] : List (Value ν)).map .value :=
      (List.append_nil _).symm
    have hunpack := execInsn_unpackSetLocal
      ⟨loop.start + 4, below ++ [.iterator iter'] ++ [.value v], world, visits⟩ hsets.1 hstack hinit
    have hnone : (Cell.value v).unpackValue ([] : List (Value ν)).length = none := by
      cases v with
      | array els => exact absurd ⟨els, rfl⟩ hv
      | _ => rfl
    rw [hnone, Option.map_none] at hunpack
    refine ⟨_, htest, ?_, ?_⟩
    · exact (foreachStep_of_ne slots body (by simp only; omega) (by simp only; omega)).trans hunpack
    · simp only
      omega

/-- From the iterator on, with the elements that are left. -/
theorem next_visits_iff {it : Iterable ν} {i : ℕ} {rest : List (Value ν)}
    (hkeeps : BodyKeeps body base (base + 1 + numPops nameIdxs.length)) (hcount : it.Counted)
    (hrest : it.elements.drop i = rest) (hbelow : below.length = base) :
    (∃ r ∈ eval (foreachStep code loop (varSlots base nameIdxs.length) body)
        ⟨loop.start + 1, below ++ [.iterator ⟨(i : ℤ) - 1, it⟩], world, visits⟩,
      r.ip = loop.fin ∧ r.visits = visits ++ rest.map (fun v =>
        (varValues nameIdxs.length v).map fun x => some (.value x)) ∧ r.stack.length = base) ↔
      ∀ v ∈ rest, Taken nameIdxs.length v := by
  have hfin : ∀ {w : σ} {b : List (Cell ν)} {vs : List (List (Option (Cell ν)))},
      foreachStep code loop (varSlots base nameIdxs.length) body ⟨loop.fin, b, w, vs⟩ = none := by
    intro w b vs
    exact if_pos rfl
  have hnext := lxIteratorNext_eq hcount i
  induction rest generalizing i below world visits with
  | nil =>
    have hnone : it.elements[i]? = none := by
      rw [← List.head?_drop, hrest]
      rfl
    rw [hnone] at hnext
    have hend := hstands.reaches_fin (varSlots base nameIdxs.length) body world visits below hnext rfl
    refine iff_of_true ⟨_, mem_eval.mpr ⟨hend, hfin⟩, rfl, ?_, hbelow⟩ ?_
    · rw [List.map_nil, List.append_nil]
    · intro v hv
      cases hv
  | cons v rest ih =>
    have hsome : it.elements[i]? = some v := by
      rw [← List.head?_drop, hrest]
      rfl
    have hdrop : it.elements.drop (i + 1) = rest := by
      rw [← List.tail_drop, hrest]
      rfl
    rw [hsome] at hnext
    rw [List.forall_mem_cons]
    by_cases htaken : Taken nameIdxs.length v
    · -- one round, and the elements behind it
      simp only [htaken.2.1, Bool.false_eq_true, if_false] at hnext
      rcases hstands.reaches_round body world visits hkeeps hbelow hnext htaken with
        ⟨below', world', hbelow', hround⟩
      have hstep := ih world'
        (visits ++ [(varValues nameIdxs.length v).map fun x => some (.value x)]) hdrop hbelow'
        (lxIteratorNext_eq hcount (i + 1))
      have hidx : ((i + 1 : ℕ) : ℤ) - 1 = i := by omega
      rw [hidx, List.append_assoc] at hstep
      rw [reaches_eval hround, List.map_cons, ← List.singleton_append, and_iff_right htaken]
      exact hstep
    · refine iff_of_false ?_ fun h => htaken h.1
      rintro ⟨r, hr, hip, hvisits, -⟩
      have hshort : visits ≠ visits ++ (v :: rest).map (fun v =>
          (varValues nameIdxs.length v).map fun x => some (.value x)) := by
        intro heq
        have := congrArg List.length heq
        rw [List.length_append, List.length_map, List.length_cons] at this
        omega
      cases hundef : v.isUndef with
      | true =>
        simp only [hundef, if_true] at hnext
        have hstuck : foreachStep code loop (varSlots base nameIdxs.length) body
            ⟨loop.start + 1, below ++ [.iterator ⟨(i : ℤ) - 1, it⟩], world, visits⟩ = none := by
          rcases hstands.order with ⟨hstart, hbody, hexit, hfinEq⟩
          rw [foreachStep_of_ne _ body (by simp only; omega) (by simp only; omega)]
          exact execInsn_iterNext_none _ hstands.next rfl hnext
        rcases Relation.ReflTransGen.cases_head (mem_eval.mp hr).1 with rfl | ⟨vm, hvm, -⟩
        · exact hshort hvisits
        · rw [hstuck] at hvm
          cases hvm
      | false =>
        simp only [hundef, Bool.false_eq_true, if_false] at hnext
        cases htruthy : v.isTruthy with
        | false =>
          have hend := hstands.reaches_fin (varSlots base nameIdxs.length) body world visits below
            hnext htruthy
          have hlast := Part.mem_unique hr (mem_eval.mpr ⟨hend, hfin⟩)
          rw [hlast] at hvisits
          exact hshort hvisits
        | true =>
          -- it is no array, but there are several variables
          have hmany : 1 < nameIdxs.length ∧ ¬ ∃ els, v = .array els := by
            by_contra hnot
            refine htaken ⟨htruthy, hundef, fun htwo => ?_⟩
            by_contra hno
            exact hnot ⟨htwo, hno⟩
          rcases hstands.reaches_stuck (varSlots base nameIdxs.length) body world visits hnext
            htruthy hmany.1 hmany.2 hbelow with ⟨vm, hreach, hstuck, hne⟩
          rw [Part.mem_unique hr (mem_eval.mpr ⟨hreach, hstuck⟩)] at hip
          exact hne hip

/-- A `foreach` statement visits all elements if and only if each of them is taken. -/
theorem visitsAll_iff (below : List (Cell ν)) (it : Iterable ν)
    (hkeeps : BodyKeeps body base (base + 1 + numPops nameIdxs.length)) (hcount : it.Counted)
    (hbelow : below.length = base) :
    VisitsAll code loop (varSlots base nameIdxs.length) body it.elements
        ⟨loop.start, below ++ [it.cell], world, visits⟩ ↔
      ∀ v ∈ it.elements, Taken nameIdxs.length v := by
  rcases hstands.order with ⟨hstart, hbody, hexit, hfin⟩
  have hiter := execInsn_iter ⟨loop.start, below ++ [it.cell], world, visits⟩ hstands.iter rfl
  have hfirst := reaches_insn (varSlots base nameIdxs.length) body loop hiter
    (by simp only; omega) (by simp only; omega)
  have hall := hstands.next_visits_iff body world visits hkeeps hcount
    (List.drop_zero : it.elements.drop 0 = it.elements) hbelow
  rw [← hall, VisitsAll, reaches_eval hfirst]
  simp only [varSlots, List.length_range', List.length_append, List.length_singleton, hbelow,
    Nat.add_right_cancel_iff, Nat.cast_zero, Int.zero_sub]

end ForeachLoop.Stands

end

end Clox
