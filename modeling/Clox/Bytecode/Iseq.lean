import Clox.Bytecode.OpCode
import Clox.Vm.Value
import Clox.Lib.Layout
import Clox.Lib.Except

/-! # Instruction sequences

`chunk.h` and `chunk.c`: instructions, the per-function instruction sequence
the compiler builds and the optimizer rewrites, and the catch table they share
with the chunk. An instruction is named by the address `xcalloc` gave it; the
doubly linked list is the list of instructions in order, whose addresses are
pairwise different by construction (`Iseq.nodup`). Line numbers and node
levels, which only the debugger reads, are left out.
-/

namespace Clox

/-- The ways a run of the compiler stops the process or leaves defined behaviour. -/
inductive Abort where
  | assertFailed
  | unreachable
  | nullDeref
  | useAfterFree
  | intDivisionTrap
  | undefinedBehaviour
deriving DecidableEq, Repr

/-- Address of a heap-allocated instruction. -/
abbrev Addr := ℕ

/-- `struct Insn`. `operands` are the first `numOperands` entries of the C array. -/
structure Insn where
  addr : Addr
  code : ℕ
  operands : List ℕ := []
  /-- `INSN_FL_NUMBER` -/
  flNumber : Bool := false
  /-- `INSN_FL_CONTINUE` -/
  flContinue : Bool := false
  jumpTo : Option Addr := none
  jumpToPrev : Option Addr := none
  extra : ℕ := 0
  isLabel : Bool := false
deriving DecidableEq, Repr

namespace Insn

def numOperands (i : Insn) : ℕ := i.operands.length

/-- Words the instruction takes in the chunk. -/
def size (i : Insn) : ℕ := i.numOperands + 1

/-- `operands[0]` (zero where the array has not been written). -/
def operand0 (i : Insn) : ℕ := i.operands.headD 0

def is (i : Insn) (op : OpCode) : Bool := i.code == op.toNat

/-- Words `copyIseqToChunk` writes for the instruction. -/
def words (i : Insn) : List ℕ := i.code :: i.operands

/-- Store into `operands[0]`. -/
def setOperand0 (i : Insn) (v : ℕ) : Insn :=
  { i with operands := i.operands.set 0 v }

theorem size_pos (i : Insn) : 0 < i.size := Nat.succ_pos _

@[simp] theorem length_words (i : Insn) : i.words.length = i.size := by
  simp [words, size, numOperands]

end Insn

/-- `struct CatchTable`: one row; the table is the list of its rows. -/
structure CatchRow (ν : Type) where
  ifrom : ℕ
  ito : ℕ
  itarget : ℕ
  catchVal : Value ν := .nil
  isEnsure : Bool := false

/-- `struct Iseq` -/
structure Iseq (ν : Type) where
  count : ℕ := 0
  wordCount : ℕ := 0
  constants : List (Value ν) := []
  catchTbl : List (CatchRow ν) := []
  insns : List Insn := []
  /-- The next address `xcalloc` hands out. -/
  nextAddr : Addr := 0
  nodup : (insns.map (·.addr)).Nodup := by simp
  fresh : ∀ i ∈ insns, i.addr < nextAddr := by simp

namespace Iseq

variable {ν : Type}

/-- `iseqInsnIndex`, `-1` being `none`. -/
def iseqInsnIndex (seq : Iseq ν) (a : Addr) : Option ℕ :=
  if a ∈ seq.insns.map (·.addr) then some (Layout.index (·.addr) seq.insns a) else none

/-- The instruction at an address that is linked into the sequence. -/
def insn? (seq : Iseq ν) (a : Addr) : Option Insn :=
  seq.insns.find? (·.addr == a)

/-- `insn->next` of a linked instruction. -/
def next (seq : Iseq ν) (a : Addr) : Option Insn :=
  seq.insns[Layout.index (·.addr) seq.insns a + 1]?

/-- `insn->prev` of a linked instruction. -/
def prev (seq : Iseq ν) (a : Addr) : Option Insn :=
  match Layout.index (·.addr) seq.insns a with
  | 0 => none
  | n + 1 => seq.insns[n]?

/-- `seq->tail` -/
def tail (seq : Iseq ν) : Option Insn := seq.insns.getLast?

/-- Apply `f` to every instruction in place. -/
def mapInsns (seq : Iseq ν) (f : Insn → Insn) (hf : ∀ i, (f i).addr = i.addr) : Iseq ν :=
  { seq with
    insns := seq.insns.map f
    nodup := by
      have h : (seq.insns.map f).map (·.addr) = seq.insns.map (·.addr) := by
        simp [List.map_map, Function.comp_def, hf]
      rw [h]
      exact seq.nodup
    fresh := by
      intro i hi
      obtain ⟨i₀, hi₀, rfl⟩ := List.mem_map.mp hi
      rw [hf]
      exact seq.fresh i₀ hi₀ }

/-- Walk the sequence with a step that may abort, updating each instruction in place. -/
def mapInsnsM (seq : Iseq ν) (f : Insn → Except Abort Insn)
    (hf : ∀ i i', f i = .ok i' → i'.addr = i.addr) : Except Abort (Iseq ν) := do
  forM seq.insns fun i => (f i).map fun _ => ()
  return seq.mapInsns (fun i => (f i).toOption.getD i) (by
    intro i
    cases h : f i with
    | error e => rfl
    | ok i' => exact hf i i' h)

/-- Update the instruction at one address in place. -/
def modify (seq : Iseq ν) (a : Addr) (f : Insn → Insn) (hf : ∀ i, (f i).addr = i.addr) :
    Iseq ν :=
  seq.mapInsns (fun i => if i.addr = a then f i else i) (by
    intro i
    by_cases h : i.addr = a <;> simp [h, hf])

@[simp] theorem insns_mapInsns (seq : Iseq ν) (f : Insn → Insn) (hf) :
    (seq.mapInsns f hf).insns = seq.insns.map f := rfl

theorem index_mapInsns (seq : Iseq ν) {f : Insn → Insn} (hf : ∀ i, (f i).addr = i.addr) (a : Addr) :
    Layout.index (·.addr) (seq.mapInsns f hf).insns a = Layout.index (·.addr) seq.insns a := by
  simp [Layout.index, Function.comp_def, hf]

theorem insn?_mapInsns (seq : Iseq ν) {f : Insn → Insn} (hf : ∀ i, (f i).addr = i.addr)
    (a : Addr) : (seq.mapInsns f hf).insn? a = (seq.insn? a).map f := by
  simp [insn?, List.find?_map, Function.comp_def, hf]

theorem next_mapInsns (seq : Iseq ν) {f : Insn → Insn} (hf : ∀ i, (f i).addr = i.addr)
    (a : Addr) : (seq.mapInsns f hf).next a = (seq.next a).map f := by
  simp only [next, index_mapInsns]
  simp

theorem mem_of_insn? {seq : Iseq ν} {a : Addr} {i : Insn} (h : seq.insn? a = some i) :
    i ∈ seq.insns ∧ i.addr = a := by
  unfold insn? at h
  exact ⟨List.mem_of_find?_eq_some h, by simpa using List.find?_some h⟩

/-- An instruction is determined by its address. -/
theorem eq_of_addr_eq (seq : Iseq ν) {i j : Insn} (hi : i ∈ seq.insns) (hj : j ∈ seq.insns)
    (h : i.addr = j.addr) : i = j :=
  List.inj_on_of_nodup_map seq.nodup hi hj h

theorem insn?_eq_some (seq : Iseq ν) {i : Insn} (hi : i ∈ seq.insns) :
    seq.insn? i.addr = some i := by
  cases h : seq.insn? i.addr with
  | none =>
    have := List.find?_eq_none.mp h i hi
    simp at this
  | some j =>
    obtain ⟨hj, haddr⟩ := mem_of_insn? h
    rw [seq.eq_of_addr_eq hj hi haddr]

/-- A walk that does not abort updates every instruction. -/
theorem mapInsnsM_eq_ok {seq seq' : Iseq ν} {f : Insn → Except Abort Insn} {hf}
    (h : seq.mapInsnsM f hf = .ok seq') :
    (∀ i ∈ seq.insns, ∃ i', f i = .ok i') ∧
      seq'.insns = (seq.insns.map fun i => (f i).toOption.getD i) ∧
      seq'.catchTbl = seq.catchTbl := by
  obtain ⟨u, hu, h⟩ := Except.bind_eq_ok.mp h
  rw [Except.pure_eq_ok] at h
  subst h
  refine ⟨fun i hi => ?_, rfl, rfl⟩
  obtain ⟨i', hi', -⟩ := Except.map_eq_ok.mp (Except.forM_eq_ok hu i hi)
  exact ⟨i', hi'⟩

/-- `iseqAddInsn`; the instruction gets the next free address. -/
def iseqAddInsn (seq : Iseq ν) (toAdd : Insn) : Iseq ν :=
  { seq with
    insns := seq.insns ++ [{ toAdd with addr := seq.nextAddr }]
    nextAddr := seq.nextAddr + 1
    count := seq.count + 1
    wordCount := seq.wordCount + (toAdd.numOperands + 1)
    nodup := by
      rw [List.map_append, List.nodup_append]
      refine ⟨seq.nodup, by simp, ?_⟩
      intro a ha b hb hab
      obtain ⟨i, hi, rfl⟩ := List.mem_map.mp ha
      have hlt : i.addr < seq.nextAddr := seq.fresh i hi
      have hb' : b = seq.nextAddr := by simpa using hb
      rw [hab, hb'] at hlt
      exact absurd hlt (Nat.lt_irrefl _)
    fresh := by
      intro i hi
      rcases List.mem_append.mp hi with h | h
      · exact Nat.lt_succ_of_lt (seq.fresh i h)
      · simp at h
        simp [h] }

/-- `iseqRmInsn` of a linked instruction. -/
def iseqRmInsn (seq : Iseq ν) (toRm : Insn) : Iseq ν :=
  { seq with
    insns := seq.insns.filter fun i => i.addr ≠ toRm.addr
    count := seq.count - 1
    wordCount := seq.wordCount - (toRm.numOperands + 1)
    nodup := (List.Sublist.map _ List.filter_sublist).nodup seq.nodup
    fresh := fun i hi => seq.fresh i (List.mem_of_mem_filter hi) }

/-- `iseqAddConstant` -/
def iseqAddConstant (seq : Iseq ν) (value : Value ν) : Iseq ν × ℕ :=
  ({ seq with constants := seq.constants ++ [value] }, seq.constants.length)

/-- `insnAtOffset`; the end of the sequence is `none`. -/
def insnAtOffset (seq : Iseq ν) (wordOffset : ℕ) : Option Insn :=
  go seq.insns 0
where
  go : List Insn → ℕ → Option Insn
    | [], _ => none
    | cur :: rest, i =>
      if i < wordOffset then go rest (i + cur.size)
      else if i = wordOffset then some cur else none

/-- `iseqInsnWordDiff`: words of the instructions after `prev`, up to and with `after`. -/
def iseqInsnWordDiff (seq : Iseq ν) (prev : Option Addr) (after : Addr) : ℕ :=
  if prev = some after then 0
  else
    let upto := seq.insns.take (Layout.index (·.addr) seq.insns after + 1)
    let behind := match prev with
      | some p => upto.drop (Layout.index (·.addr) seq.insns p + 1)
      | none => upto
    Layout.width Insn.size behind

/-- `iseqAddCatchRow`, and `iseqAddEnsureRow` for an ensure row: append, return the row's index. -/
def iseqAddCatchRow (seq : Iseq ν) (row : CatchRow ν) : Iseq ν × ℕ :=
  ({ seq with catchTbl := seq.catchTbl ++ [row] }, seq.catchTbl.length)

end Iseq

end Clox
