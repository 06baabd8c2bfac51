import Clox.Bytecode.Iseq
import Clox.Lib.DoublyLinked
import Mathlib.Logic.Function.Basic

/-! # Instruction lists in memory

`struct Iseq` with the pointers of its doubly linked list and with its two
counters, and what the compiler and the optimizer do to it: `emitInsn`,
`iseqRmInsn`, `addInsnOperand`, `replaceJumpInsn` and plain stores into an
instruction. In every run of these the links describe one list and `count` is
its length. `wordCount` is its width unless `replaceJumpInsn` dropped an
operand in place.
-/

namespace Clox

/-- An instruction in memory, with its links. -/
structure InsnCell where
  insn : Insn
  prev : Option Addr := none
  next : Option Addr := none
deriving DecidableEq, Repr

/-- `struct Iseq`, without the tables it shares with the chunk, and the memory of its
instructions. -/
structure LinkedIseq where
  count : ℤ := 0
  wordCount : ℤ := 0
  tail : Option Addr := none
  insns : Option Addr := none
  memory : Addr → Option InsnCell := fun _ => none
  /-- The next address `xcalloc` hands out. -/
  nextAddr : Addr := 0

namespace LinkedIseq

variable (seq : LinkedIseq)

/-- `insn->next`, null where nothing is allocated. -/
def next (a : Addr) : Option Addr := (seq.memory a).bind (·.next)

/-- `insn->prev`, null where nothing is allocated. -/
def prev (a : Addr) : Option Addr := (seq.memory a).bind (·.prev)

/-- A store into an instruction; `none` where it is not allocated. -/
def write (a : Addr) (f : InsnCell → InsnCell) : Option LinkedIseq :=
  (seq.memory a).map fun c => { seq with memory := Function.update seq.memory a (some (f c)) }

/-- `if (prev) { prev->next = a; } else { seq->insns = a; }` -/
def setNext (prev a : Option Addr) : Option LinkedIseq :=
  match prev with
  | some p => seq.write p ({ · with next := a })
  | none => some { seq with insns := a }

/-- `if (next) { next->prev = a; } else { seq->tail = a; }` -/
def setPrev (next a : Option Addr) : Option LinkedIseq :=
  match next with
  | some n => seq.write n ({ · with prev := a })
  | none => some { seq with tail := a }

/-- `iseqAddInsn` -/
def iseqAddInsn (toAdd : Addr) : Option LinkedIseq := do
  let prev := seq.tail
  let seq ← seq.setNext prev (some toAdd)
  let seq ← seq.write toAdd ({ · with prev := prev, next := none })
  let c ← seq.memory toAdd
  return { seq with
    tail := some toAdd
    count := seq.count + 1
    wordCount := seq.wordCount + (c.insn.numOperands + 1) }

/-- `emitInsn` -/
def emitInsn (insn : Insn) : Option LinkedIseq :=
  let inHeap := seq.nextAddr
  let cell : InsnCell := { insn := { insn with addr := inHeap } }
  iseqAddInsn { seq with
    memory := Function.update seq.memory inHeap (some cell)
    nextAddr := seq.nextAddr + 1 } inHeap

/-- The walk from `seq->insns` on that looks for an instruction: whether it is met; `none` when the
walk does not end within the instructions that were ever allocated. -/
def finds (a : Addr) : Option Bool :=
  (Linked.search seq.next (fun b => if b = a then some () else none) seq.nextAddr seq.insns).map
    Option.isSome

/-- What `iseqRmInsn` does with the instruction it found. -/
def unlink (toRm : Addr) : Option LinkedIseq := do
  let c ← seq.memory toRm
  let seq ← seq.setNext c.prev c.next
  let c ← seq.memory toRm
  let seq ← seq.setPrev c.next c.prev
  return { seq with
    insns := if seq.tail = none then none else seq.insns
    count := seq.count - 1
    wordCount := seq.wordCount - (c.insn.numOperands + 1)
    memory := Function.update seq.memory toRm none }

/-- `iseqRmInsn`; whether the instruction was there. -/
def iseqRmInsn (toRm : Addr) : Option (LinkedIseq × Bool) :=
  match seq.finds toRm with
  | some true => (seq.unlink toRm).map (·, true)
  | some false => some (seq, false)
  | none => none

/-- An instruction of the sequence, which is what the compiler and the optimizer edit. -/
def linked (a : Addr) : Option InsnCell := do
  if ← seq.finds a then seq.memory a else none

/-- Stores into the fields of an instruction, its links and `numOperands` apart: patched operands,
jump targets, labels, flags and codes. -/
def store (a : Addr) (insn : Insn) : Option LinkedIseq := do
  let c ← seq.linked a
  if insn.addr = a ∧ insn.numOperands = c.insn.numOperands then
    seq.write a ({ · with insn := insn })
  else none

/-- `MAX_INSN_OPERANDS` -/
def maxOperands : ℕ := 3

/-- What `addInsnOperand` does to the instruction itself. -/
def addInsnOperand (a : Addr) (operand : ℕ) : Option LinkedIseq := do
  let c ← seq.linked a
  if c.insn.numOperands = maxOperands then none
  else
    let seq ← seq.write a fun c =>
      { c with insn := { c.insn with operands := c.insn.operands ++ [operand] } }
    return { seq with wordCount := seq.wordCount + 1 }

/-- An unlabelled `OP_JUMP_IF_FALSE`, which `replaceJumpInsn` turns into `OP_POP` in place. -/
def replaceable (insn : Insn) : Bool := insn.is .opJumpIfFalse && !insn.isLabel

/-- `replaceJumpInsn` for an `OP_JUMP_IF_FALSE`. -/
def replaceJumpInsn (a : Addr) : Option LinkedIseq := do
  let c ← seq.linked a
  if replaceable c.insn then
    seq.write a ({ · with insn := { c.insn with code := OpCode.opPop.toNat, operands := [] } })
  else return seq

end LinkedIseq

/-- What the compiler and the optimizer do to an instruction list. -/
inductive IseqOp where
  | emit (insn : Insn)
  | remove (toRm : Addr)
  | store (a : Addr) (insn : Insn)
  | addOperand (a : Addr) (operand : ℕ)
  | replaceJump (a : Addr)
deriving DecidableEq, Repr

namespace LinkedIseq

def step (seq : LinkedIseq) : IseqOp → Option LinkedIseq
  | .emit insn => seq.emitInsn insn
  | .remove toRm => (seq.iseqRmInsn toRm).map Prod.fst
  | .store a insn => seq.store a insn
  | .addOperand a operand => seq.addInsnOperand a operand
  | .replaceJump a => seq.replaceJumpInsn a

/-- The operands a step drops without taking them from `wordCount`. -/
def drops (seq : LinkedIseq) : IseqOp → ℕ
  | .replaceJump a =>
    match seq.linked a with
    | some c => if replaceable c.insn then c.insn.numOperands else 0
    | none => 0
  | _ => 0

def run (seq : LinkedIseq) (ops : List IseqOp) : Option LinkedIseq := ops.foldlM step seq

/-- What all steps of a run drop together. -/
def dropped : LinkedIseq → List IseqOp → ℕ
  | _, [] => 0
  | seq, op :: ops => seq.drops op + (seq.step op).elim 0 fun seq' => dropped seq' ops

/-! ## The list -/

/-- The links describe the list `l`, both ways, and every instruction of it is where it says. -/
structure Lists (seq : LinkedIseq) (l : List Insn) : Prop where
  links : DoublyLinked seq.prev seq.next seq.insns seq.tail (l.map (·.addr))
  cell : ∀ i ∈ l, ∃ c, seq.memory i.addr = some c ∧ c.insn = i
  below : ∀ a, seq.memory a ≠ none → a < seq.nextAddr

/-- `count` and `wordCount` are what they say of the one list that the links describe. -/
def Consistent (seq : LinkedIseq) : Prop :=
  ∃ l, seq.Lists l ∧ seq.count = l.length ∧ seq.wordCount = Layout.width Insn.size l

/-- The same with a `wordCount` that is too great. -/
structure Off (seq : LinkedIseq) (l : List Insn) (d : ℕ) : Prop where
  lists : seq.Lists l
  count : seq.count = l.length
  wordCount : seq.wordCount = Layout.width Insn.size l + d

variable {seq seq' : LinkedIseq} {l l' : List Insn} {a b : Addr} {c : InsnCell} {d : ℕ} {i : Insn}

theorem Lists.empty : Lists {} [] :=
  ⟨.nil, fun _ hi => absurd hi List.not_mem_nil, fun _ ha => absurd rfl ha⟩

theorem Lists.unique (h : seq.Lists l) (h' : seq.Lists l') : l = l' := by
  have haddrs := h.links.unique h'.links
  have hlen : l.length = l'.length := by
    have := congrArg List.length haddrs
    rwa [List.length_map, List.length_map] at this
  refine List.ext_getElem hlen fun k hk hk' => ?_
  have haddr : (l[k]).addr = (l'[k]).addr := by
    have := List.getElem_of_eq haddrs (by rwa [List.length_map])
    simpa using this
  rcases h.cell _ (List.getElem_mem hk) with ⟨c, hc, hinsn⟩
  rcases h'.cell _ (List.getElem_mem hk') with ⟨c', hc', hinsn'⟩
  rw [← haddr, hc] at hc'
  cases hc'
  exact hinsn.symm.trans hinsn'

theorem write_eq_some {f : InsnCell → InsnCell} (h : seq.write a f = some seq') :
    ∃ c, seq.memory a = some c ∧
      seq' = { seq with memory := Function.update seq.memory a (some (f c)) } := by
  rcases Option.map_eq_some_iff.mp h with ⟨c, hc, rfl⟩
  exact ⟨c, hc, rfl⟩

theorem Lists.length_le (h : seq.Lists l) : (l.map (·.addr)).length ≤ seq.nextAddr := by
  have hsub : l.map (·.addr) ⊆ List.range seq.nextAddr := by
    intro a ha
    rcases List.mem_map.mp ha with ⟨i, hi, rfl⟩
    rcases h.cell i hi with ⟨c, hc, -⟩
    exact List.mem_range.mpr (h.below _ (by simp [hc]))
  have := (h.links.nodup.subperm hsub).length_le
  rwa [List.length_range] at this

/-- The walk meets the instructions of the list. -/
theorem Lists.finds_eq (h : seq.Lists l) (a : Addr) :
    seq.finds a = some (decide (a ∈ l.map (·.addr))) := by
  have hsearch : Linked.search seq.next (fun b => if b = a then some () else none) seq.nextAddr
      seq.insns = _ := h.links.linked.search_eq h.length_le
  unfold finds
  rw [hsearch, Option.map_some]
  congr 1
  rw [Bool.eq_iff_iff, List.findSome?_isSome_iff, decide_eq_true_iff]
  constructor
  · rintro ⟨b, hb, hsome⟩
    split at hsome
    · rename_i hba
      rwa [← hba]
    · cases hsome
  · intro ha
    exact ⟨a, ha, by rw [if_pos rfl]; rfl⟩

theorem Lists.linked_eq_some (h : seq.Lists l) (hc : seq.linked a = some c) :
    ∃ i ∈ l, i.addr = a ∧ c.insn = i ∧ seq.memory a = some c := by
  unfold linked at hc
  rw [h.finds_eq] at hc
  simp only [Option.bind_eq_bind, Option.bind_some, decide_eq_true_eq] at hc
  split at hc
  · rename_i ha
    rcases List.mem_map.mp ha with ⟨i, hi, rfl⟩
    rcases h.cell i hi with ⟨c', hc', hinsn⟩
    rw [hc] at hc'
    cases hc'
    exact ⟨i, hi, rfl, hinsn, hc⟩
  · cases hc

/-! ## One step -/

theorem next_update (seq : LinkedIseq) {m : Option InsnCell}
    (h : seq'.memory = Function.update seq.memory a m) (b : Addr) :
    seq'.next b = if b = a then m.bind (·.next) else seq.next b := by
  unfold next
  rw [h, Function.update_apply]
  split <;> rfl

theorem prev_update (seq : LinkedIseq) {m : Option InsnCell}
    (h : seq'.memory = Function.update seq.memory a m) (b : Addr) :
    seq'.prev b = if b = a then m.bind (·.prev) else seq.prev b := by
  unfold prev
  rw [h, Function.update_apply]
  split <;> rfl

/-- A store that leaves links and address of an instruction alone changes it where it stands. -/
theorem Lists.write (h : seq.Lists l) {f : Insn → Insn}
    (hf : ∀ i, i.addr = a → (f i).addr = i.addr)
    (hw : seq.write a (fun c => { c with insn := f c.insn }) = some seq') :
    seq'.Lists (l.map fun i => if i.addr = a then f i else i) ∧
      seq'.count = seq.count ∧ seq'.wordCount = seq.wordCount := by
  rcases write_eq_some hw with ⟨c, hc, rfl⟩
  have haddrs : (l.map fun i => if i.addr = a then f i else i).map (·.addr) = l.map (·.addr) := by
    rw [List.map_map]
    refine List.map_congr_left fun i _ => ?_
    show (if i.addr = a then f i else i).addr = i.addr
    split
    · rename_i hi
      exact hf i hi
    · rfl
  refine ⟨⟨?_, ?_, ?_⟩, rfl, rfl⟩
  · rw [haddrs]
    refine h.links.congr (fun b _ => ?_) fun b _ => ?_
    · rw [prev_update seq rfl b]
      split
      · rename_i hb
        rw [hb]
        unfold prev
        rw [hc]
        rfl
      · rfl
    · rw [next_update seq rfl b]
      split
      · rename_i hb
        rw [hb]
        unfold next
        rw [hc]
        rfl
      · rfl
  · intro i hi
    rcases List.mem_map.mp hi with ⟨i₀, hi₀, rfl⟩
    rcases h.cell i₀ hi₀ with ⟨c₀, hc₀, hinsn⟩
    show ∃ c', Function.update seq.memory a _ _ = some c' ∧ _
    by_cases ha : i₀.addr = a
    · rw [if_pos ha, hf i₀ ha, ha, Function.update_self]
      rw [ha, hc] at hc₀
      cases hc₀
      exact ⟨_, rfl, congrArg f hinsn⟩
    · rw [if_neg ha, Function.update_of_ne ha]
      exact ⟨c₀, hc₀, hinsn⟩
  · intro b hb
    refine h.below b fun hnone => hb ?_
    have hba : b ≠ a := by
      rintro rfl
      rw [hc] at hnone
      cases hnone
    show Function.update seq.memory a _ b = none
    rw [Function.update_of_ne hba]
    exact hnone

/-- What a store of a `next` pointer, or of the pointer to the first instruction, changes. -/
theorem setNext_spec {p q : Option Addr} (h : seq.setNext p q = some seq') :
    seq'.insns = (if p = none then q else seq.insns) ∧ seq'.tail = seq.tail ∧
      seq'.count = seq.count ∧ seq'.wordCount = seq.wordCount ∧ seq'.nextAddr = seq.nextAddr ∧
      (∀ b, seq'.prev b = seq.prev b) ∧ (∀ b, p = some b → seq'.next b = q) ∧
      (∀ b, p ≠ some b → seq'.next b = seq.next b) ∧
      (∀ b, (seq'.memory b).map (·.insn) = (seq.memory b).map (·.insn)) ∧
      ∀ b, p ≠ some b → seq'.memory b = seq.memory b := by
  rcases p with _ | p
  · cases h
    exact ⟨rfl, rfl, rfl, rfl, rfl, fun _ => rfl, (fun _ hb => by cases hb), fun _ _ => rfl,
      fun _ => rfl, fun _ _ => rfl⟩
  · rcases write_eq_some h with ⟨c, hc, rfl⟩
    refine ⟨rfl, rfl, rfl, rfl, rfl, fun b => ?_, fun b hb => ?_, fun b hb => ?_, fun b => ?_,
      fun b hb => ?_⟩
    · rw [prev_update seq rfl]
      split
      · rename_i hbp
        unfold prev
        rw [hbp, hc]
        rfl
      · rfl
    · cases hb
      rw [next_update seq rfl, if_pos rfl]
      rfl
    · rw [next_update seq rfl, if_neg]
      rintro rfl
      exact hb rfl
    · show (Function.update seq.memory p _ b).map _ = _
      rw [Function.update_apply]
      split
      · rename_i hbp
        rw [hbp, hc]
        rfl
      · rfl
    · refine Function.update_of_ne ?_ ..
      rintro rfl
      exact hb rfl

/-- What a store of a `prev` pointer, or of the pointer to the last instruction, changes. -/
theorem setPrev_spec {p q : Option Addr} (h : seq.setPrev p q = some seq') :
    seq'.insns = seq.insns ∧ seq'.tail = (if p = none then q else seq.tail) ∧
      seq'.count = seq.count ∧ seq'.wordCount = seq.wordCount ∧ seq'.nextAddr = seq.nextAddr ∧
      (∀ b, seq'.next b = seq.next b) ∧ (∀ b, p = some b → seq'.prev b = q) ∧
      (∀ b, p ≠ some b → seq'.prev b = seq.prev b) ∧
      (∀ b, (seq'.memory b).map (·.insn) = (seq.memory b).map (·.insn)) ∧
      ∀ b, p ≠ some b → seq'.memory b = seq.memory b := by
  rcases p with _ | p
  · cases h
    exact ⟨rfl, rfl, rfl, rfl, rfl, fun _ => rfl, (fun _ hb => by cases hb), fun _ _ => rfl,
      fun _ => rfl, fun _ _ => rfl⟩
  · rcases write_eq_some h with ⟨c, hc, rfl⟩
    refine ⟨rfl, rfl, rfl, rfl, rfl, fun b => ?_, fun b hb => ?_, fun b hb => ?_, fun b => ?_,
      fun b hb => ?_⟩
    · rw [next_update seq rfl]
      split
      · rename_i hbp
        unfold next
        rw [hbp, hc]
        rfl
      · rfl
    · cases hb
      rw [prev_update seq rfl, if_pos rfl]
      rfl
    · rw [prev_update seq rfl, if_neg]
      rintro rfl
      exact hb rfl
    · show (Function.update seq.memory p _ b).map _ = _
      rw [Function.update_apply]
      split
      · rename_i hbp
        rw [hbp, hc]
        rfl
      · rfl
    · refine Function.update_of_ne ?_ ..
      rintro rfl
      exact hb rfl

theorem Lists.iseqAddInsn (h : seq.Lists l) (hnew : a ∉ l.map (·.addr))
    (hc : seq.memory a = some c) (haddr : c.insn.addr = a)
    (hadd : seq.iseqAddInsn a = some seq') :
    seq'.Lists (l ++ [c.insn]) ∧ seq'.count = seq.count + 1 ∧
      seq'.wordCount = seq.wordCount + c.insn.size := by
  unfold LinkedIseq.iseqAddInsn at hadd
  rcases Option.bind_eq_some_iff.mp hadd with ⟨seq₁, hlink, hrest⟩
  rcases Option.bind_eq_some_iff.mp hrest with ⟨seq₂, hwrite, hlast⟩
  rcases Option.bind_eq_some_iff.mp hlast with ⟨c₂, hc₂, hseq'⟩
  cases hseq'
  rcases setNext_spec hlink with
    ⟨hinsns, -, hcount, hwords, haddrs, hprev, hnexttail, hnext, hinsn, hsame⟩
  have htail : seq.tail ≠ some a := by
    intro htail
    rw [h.links.tail] at htail
    exact hnew (List.mem_of_getLast? htail)
  rcases write_eq_some hwrite with ⟨c₁, hc₁, rfl⟩
  rw [hsame a htail, hc] at hc₁
  cases hc₁
  have hc₂' : Function.update seq₁.memory a (some { c with prev := seq.tail, next := none }) a =
      some c₂ := hc₂
  rw [Function.update_self] at hc₂'
  cases hc₂'
  refine ⟨⟨?_, ?_, ?_⟩, ?_, ?_⟩
  · rw [List.map_append, List.map_singleton, haddr]
    show DoublyLinked _ _ seq₁.insns (some a) _
    rw [hinsns]
    refine h.links.append hnew ?_ ?_ ?_ ?_ ?_
    · rw [next_update seq₁ rfl, if_pos rfl]
      rfl
    · rw [prev_update seq₁ rfl, if_pos rfl]
      rfl
    · intro b hb
      have hba : b ≠ a := by
        rintro rfl
        exact htail hb
      rw [next_update seq₁ rfl, if_neg hba]
      exact hnexttail b hb
    · intro b hba
      rw [prev_update seq₁ rfl, if_neg hba]
      exact hprev b
    · intro b hba hb
      rw [next_update seq₁ rfl, if_neg hba]
      exact hnext b hb
  · intro i hi
    show ∃ c', Function.update seq₁.memory a _ _ = some c' ∧ _
    rcases List.mem_append.mp hi with hi | hi
    · have hne : i.addr ≠ a := fun hia => hnew (hia ▸ List.mem_map_of_mem hi)
      rcases h.cell i hi with ⟨c₀, hc₀, hinsn₀⟩
      have hmap := hinsn i.addr
      rw [hc₀] at hmap
      rcases Option.map_eq_some_iff.mp hmap with ⟨c₁, hc₁, hinsn₁⟩
      rw [Function.update_of_ne hne]
      exact ⟨c₁, hc₁, hinsn₁.trans hinsn₀⟩
    · rw [List.mem_singleton.mp hi, haddr, Function.update_self]
      exact ⟨_, rfl, rfl⟩
  · intro b hb
    show b < seq₁.nextAddr
    rw [haddrs]
    refine h.below b fun hnone => hb ?_
    have hba : b ≠ a := by
      rintro rfl
      rw [hc] at hnone
      cases hnone
    have hmap := hinsn b
    rw [hnone] at hmap
    show Function.update seq₁.memory a _ b = none
    rw [Function.update_of_ne hba]
    exact Option.map_eq_none_iff.mp hmap
  · show seq₁.count + 1 = _
    rw [hcount]
  · show seq₁.wordCount + _ = _
    rw [hwords]
    rfl

theorem Lists.emitInsn (h : seq.Lists l) (insn : Insn) (he : seq.emitInsn insn = some seq') :
    seq'.Lists (l ++ [{ insn with addr := seq.nextAddr }]) ∧ seq'.count = seq.count + 1 ∧
      seq'.wordCount = seq.wordCount + insn.size := by
  have hfree : seq.memory seq.nextAddr = none := by
    by_contra hne
    exact Nat.lt_irrefl _ (h.below _ hne)
  have hnew : seq.nextAddr ∉ l.map (·.addr) := by
    intro hmem
    rcases List.mem_map.mp hmem with ⟨i, hi, hia⟩
    rcases h.cell i hi with ⟨c, hc, -⟩
    rw [hia, hfree] at hc
    cases hc
  have hother : ∀ b, b ∈ l.map (·.addr) → b ≠ seq.nextAddr := by
    rintro b hb rfl
    exact hnew hb
  unfold LinkedIseq.emitInsn at he
  refine Lists.iseqAddInsn (l := l) ⟨?_, ?_, ?_⟩ hnew (Function.update_self ..) rfl he
  · refine h.links.congr (fun b hb => ?_) fun b hb => ?_
    · rw [prev_update seq rfl, if_neg (hother b hb)]
    · rw [next_update seq rfl, if_neg (hother b hb)]
  · intro i hi
    rcases h.cell i hi with ⟨c, hc, hinsn⟩
    refine ⟨c, ?_, hinsn⟩
    show Function.update seq.memory seq.nextAddr _ i.addr = some c
    rw [Function.update_of_ne (hother _ (List.mem_map_of_mem hi))]
    exact hc
  · intro b hb
    show b < seq.nextAddr + 1
    by_cases hba : b = seq.nextAddr
    · exact hba ▸ Nat.lt_succ_self _
    · refine Nat.lt_succ_of_lt (h.below b fun hnone => hb ?_)
      show Function.update seq.memory seq.nextAddr _ b = none
      rw [Function.update_of_ne hba]
      exact hnone

theorem Lists.unlink {l₁ l₂ : List Insn} (h : seq.Lists (l₁ ++ i :: l₂))
    (hu : seq.unlink i.addr = some seq') :
    seq'.Lists (l₁ ++ l₂) ∧ seq'.count = seq.count - 1 ∧
      seq'.wordCount = seq.wordCount - i.size := by
  have hlinks := h.links
  rw [List.map_append, List.map_cons] at hlinks
  have hparts := List.nodup_append.mp hlinks.nodup
  have hback := List.nodup_cons.mp hparts.2.1
  rcases h.cell i (by simp) with ⟨c, hc, hinsn⟩
  -- the neighbours of the instruction
  have hcprev : c.prev = (l₁.map (·.addr)).getLast? := by
    rw [← hlinks.prev _ _ _ rfl]
    unfold LinkedIseq.prev
    rw [hc]
    rfl
  have hcnext : c.next = (l₂.map (·.addr)).head? := by
    rw [← hlinks.next _ _ _ rfl]
    unfold LinkedIseq.next
    rw [hc]
    rfl
  have hprevne : c.prev ≠ some i.addr := by
    rw [hcprev]
    intro hlast
    exact hparts.2.2 _ (List.mem_of_getLast? hlast) _ List.mem_cons_self rfl
  have hnextne : c.next ≠ some i.addr := by
    rw [hcnext]
    intro hhead
    exact hback.1 (List.mem_of_head? hhead)
  unfold LinkedIseq.unlink at hu
  rcases Option.bind_eq_some_iff.mp hu with ⟨c₀, hc₀, hrest⟩
  rw [hc] at hc₀
  cases hc₀
  rcases Option.bind_eq_some_iff.mp hrest with ⟨seq₁, hnext, hrest⟩
  rcases Option.bind_eq_some_iff.mp hrest with ⟨c₁, hc₁, hrest⟩
  rcases setNext_spec hnext with
    ⟨hinsns₁, htail₁, hcount₁, hwords₁, haddr₁, hprev₁, hat₁, hother₁, hinsn₁, hsame₁⟩
  rw [hsame₁ _ hprevne, hc] at hc₁
  cases hc₁
  rcases Option.bind_eq_some_iff.mp hrest with ⟨seq₂, hprev, hseq'⟩
  rcases setPrev_spec hprev with
    ⟨hinsns₂, htail₂, hcount₂, hwords₂, haddr₂, hnext₂, hat₂, hother₂, hinsn₂, -⟩
  cases hseq'
  refine ⟨⟨?_, ?_, ?_⟩, ?_, ?_⟩
  · rw [List.map_append]
    have hremoved : DoublyLinked seq₂.prev seq₂.next _ _ _ := hlinks.remove
      (fun b hb => by rw [hnext₂, hat₁ b (hcprev.trans hb), hcnext])
      (fun b hb => by rw [hat₂ b (hcnext.trans hb), hcprev])
      (fun b _ hb => by rw [hnext₂, hother₁ b (by rwa [hcprev])])
      (fun b _ hb => by rw [hother₂ b (by rwa [hcnext]), hprev₁])
    have hgone : ∀ b ∈ l₁.map (·.addr) ++ l₂.map (·.addr), b ≠ i.addr := by
      rintro b hb rfl
      rcases List.mem_append.mp hb with hb | hb
      · exact hparts.2.2 _ hb _ List.mem_cons_self rfl
      · exact hback.1 hb
    have hfinal : DoublyLinked
        (LinkedIseq.prev { seq₂ with memory := Function.update seq₂.memory i.addr none })
        (LinkedIseq.next { seq₂ with memory := Function.update seq₂.memory i.addr none })
        _ _ _ := hremoved.congr
      (fun b hb => by rw [prev_update seq₂ rfl, if_neg (hgone b hb)])
      (fun b hb => by rw [next_update seq₂ rfl, if_neg (hgone b hb)])
    have htail : seq₂.tail = (l₁.map (·.addr) ++ l₂.map (·.addr)).getLast? := by
      rw [htail₂, htail₁, hcnext, hcprev, hlinks.tail]
      cases l₂ with
      | nil => simp
      | cons j l₂ => simp [List.getLast?_append, List.getLast?_cons]
    have hhead : (if seq₂.tail = none then none else seq₂.insns) =
        (l₁.map (·.addr) ++ l₂.map (·.addr)).head? := by
      rw [htail, hinsns₂, hinsns₁, hcprev, hcnext, hlinks.head]
      cases l₁ with
      | nil =>
        cases l₂ with
        | nil => rfl
        | cons j l₂ => simp
      | cons j l₁ => simp
    show DoublyLinked _ _ (if seq₂.tail = none then none else seq₂.insns) seq₂.tail _
    rw [hhead, htail]
    exact hfinal
  · intro j hj
    have hmem : j ∈ l₁ ++ i :: l₂ := by
      rcases List.mem_append.mp hj with hj | hj
      · exact List.mem_append_left _ hj
      · exact List.mem_append_right _ (List.mem_cons_of_mem _ hj)
    have hne : j.addr ≠ i.addr := by
      intro heq
      rcases List.mem_append.mp hj with hj | hj
      · exact hparts.2.2 _ (List.mem_map_of_mem hj) _ List.mem_cons_self heq
      · exact hback.1 (heq ▸ List.mem_map_of_mem hj)
    rcases h.cell j hmem with ⟨cj, hcj, hinsnj⟩
    have hmap := (hinsn₂ j.addr).trans (hinsn₁ j.addr)
    rw [hcj] at hmap
    rcases Option.map_eq_some_iff.mp hmap with ⟨c', hc', hinsn'⟩
    refine ⟨c', ?_, hinsn'.trans hinsnj⟩
    show Function.update seq₂.memory i.addr none j.addr = some c'
    rw [Function.update_of_ne hne]
    exact hc'
  · intro b hb
    show b < seq₂.nextAddr
    rw [haddr₂, haddr₁]
    refine h.below b fun hnone => hb ?_
    show Function.update seq₂.memory i.addr none b = none
    rw [Function.update_apply]
    split
    · rfl
    · have hmap := (hinsn₂ b).trans (hinsn₁ b)
      rw [hnone] at hmap
      exact Option.map_eq_none_iff.mp hmap
  · show seq₂.count - 1 = _
    rw [hcount₂, hcount₁]
  · show seq₂.wordCount - _ = _
    rw [hwords₂, hwords₁, hinsn]
    rfl

/-- Only the instruction at the address is another one. -/
theorem map_write {l₁ l₂ : List Insn} {f : Insn → Insn}
    (hnodup : ((l₁ ++ i :: l₂).map (·.addr)).Nodup) :
    ((l₁ ++ i :: l₂).map fun j => if j.addr = i.addr then f j else j) = l₁ ++ f i :: l₂ := by
  rw [List.map_append, List.map_cons, List.nodup_append, List.nodup_cons] at hnodup
  have hkeep : ∀ l : List Insn, (∀ j ∈ l, j.addr ≠ i.addr) →
      (l.map fun j => if j.addr = i.addr then f j else j) = l := by
    intro l hl
    refine (List.map_congr_left fun j hj => ?_).trans (List.map_id l)
    rw [if_neg (hl j hj)]
    rfl
  rw [List.map_append, List.map_cons, if_pos rfl, hkeep l₁, hkeep l₂]
  · intro j hj heq
    exact hnodup.2.1.1 (heq ▸ List.mem_map_of_mem hj)
  · intro j hj heq
    exact hnodup.2.2 _ (List.mem_map_of_mem hj) _ List.mem_cons_self heq

/-- A store into a linked instruction, which keeps its place. -/
theorem Off.write {f : Insn → Insn} (h : seq.Off l d) (hc : seq.linked a = some c)
    (hf : ∀ i, i.addr = a → (f i).addr = i.addr)
    (hw : seq.write a (fun c => { c with insn := f c.insn }) = some seq') :
    ∃ l₁ l₂, l = l₁ ++ c.insn :: l₂ ∧ seq'.Lists (l₁ ++ f c.insn :: l₂) ∧
      seq'.count = (l₁ ++ f c.insn :: l₂).length ∧
      seq'.wordCount = (Layout.width Insn.size (l₁ ++ f c.insn :: l₂) : ℤ) +
        (c.insn.size - (f c.insn).size) + d := by
  rcases h.lists.linked_eq_some hc with ⟨i, hi, rfl, rfl, -⟩
  rcases List.append_of_mem hi with ⟨l₁, l₂, rfl⟩
  rcases h.lists.write hf hw with ⟨hlists, hcount, hwords⟩
  have hmap := map_write (f := f) h.lists.links.nodup
  rw [hmap] at hlists
  refine ⟨l₁, l₂, rfl, hlists, ?_, ?_⟩
  · rw [hcount, h.count, List.length_append, List.length_append, List.length_cons, List.length_cons]
  · have hwidth := h.wordCount
    rw [Layout.width_append, Layout.width_cons] at hwidth
    rw [hwords, Layout.width_append, Layout.width_cons]
    push_cast at hwidth ⊢
    omega

/-- One step keeps the links and `count`, and puts `wordCount` off by the operands it drops. -/
theorem Off.step {op : IseqOp} (h : seq.Off l d) (hs : seq.step op = some seq') :
    ∃ l', seq'.Off l' (d + seq.drops op) := by
  cases op with
  | emit insn =>
    have hdrops : seq.drops (.emit insn) = 0 := rfl
    rcases h.lists.emitInsn insn hs with ⟨hlists, hcount, hwords⟩
    refine ⟨_, hlists, ?_, ?_⟩
    · rw [hcount, h.count, List.length_append]
      rfl
    · have hsize : Insn.size { insn with addr := seq.nextAddr } = insn.size := rfl
      have hwidth := h.wordCount
      rw [hwords, hwidth, Layout.width_append, Layout.width_cons, Layout.width_nil, hsize, hdrops]
      push_cast
      omega
  | remove toRm =>
    have hdrops : seq.drops (.remove toRm) = 0 := rfl
    rw [hdrops]
    rcases Option.map_eq_some_iff.mp hs with ⟨⟨seq₁, found⟩, hrm, rfl⟩
    unfold LinkedIseq.iseqRmInsn at hrm
    rw [h.lists.finds_eq] at hrm
    by_cases hmem : toRm ∈ l.map (·.addr)
    · rw [decide_eq_true hmem] at hrm
      rcases Option.map_eq_some_iff.mp hrm with ⟨seq₂, hunlink, heq⟩
      cases heq
      rcases List.mem_map.mp hmem with ⟨i, hi, rfl⟩
      rcases List.append_of_mem hi with ⟨l₁, l₂, rfl⟩
      rcases h.lists.unlink hunlink with ⟨hlists, hcount, hwords⟩
      refine ⟨_, hlists, ?_, ?_⟩
      · have hlen := h.count
        rw [List.length_append, List.length_cons] at hlen
        rw [hcount, hlen, List.length_append]
        push_cast
        omega
      · have hwidth := h.wordCount
        rw [Layout.width_append, Layout.width_cons] at hwidth
        rw [hwords, hwidth, Layout.width_append]
        push_cast
        omega
    · rw [decide_eq_false hmem] at hrm
      cases hrm
      exact ⟨l, h⟩
  | store a insn =>
    have hdrops : seq.drops (.store a insn) = 0 := rfl
    rw [hdrops]
    rcases Option.bind_eq_some_iff.mp hs with ⟨c, hc, hstore⟩
    split at hstore
    · rename_i hsame
      rcases h.write (f := fun _ => insn) hc (fun i hi => by rw [hi, hsame.1]) hstore with
        ⟨l₁, l₂, -, hlists, hcount, hwords⟩
      refine ⟨_, hlists, hcount, ?_⟩
      have hsize : insn.size = c.insn.size := congrArg (· + 1) hsame.2
      rw [hwords, hsize]
      push_cast
      omega
    · cases hstore
  | addOperand a operand =>
    have hdrops : seq.drops (.addOperand a operand) = 0 := rfl
    rw [hdrops]
    rcases Option.bind_eq_some_iff.mp hs with ⟨c, hc, hadd⟩
    split at hadd
    · cases hadd
    · rcases Option.bind_eq_some_iff.mp hadd with ⟨seq₁, hwrite, hseq'⟩
      cases hseq'
      rcases h.write (f := fun i => { i with operands := i.operands ++ [operand] }) hc
        (fun _ _ => rfl) hwrite with ⟨l₁, l₂, -, hlists, hcount, hwords⟩
      refine ⟨_, ⟨hlists.links, hlists.cell, hlists.below⟩, hcount, ?_⟩
      have hsize : Insn.size { c.insn with operands := c.insn.operands ++ [operand] } =
          c.insn.size + 1 := by
        unfold Insn.size Insn.numOperands
        rw [List.length_append]
        rfl
      dsimp only at hwords ⊢
      rw [hwords, hsize]
      push_cast
      omega
  | replaceJump a =>
    rcases Option.bind_eq_some_iff.mp hs with ⟨c, hc, hreplace⟩
    have hdrops : seq.drops (.replaceJump a) =
        if replaceable c.insn then c.insn.numOperands else 0 := by
      simp only [drops, hc]
    rw [hdrops]
    split at hreplace
    · rename_i hjump
      rcases h.write (f := fun _ => { c.insn with code := OpCode.opPop.toNat, operands := [] }) hc
        (fun i hi => by
          rcases h.lists.linked_eq_some hc with ⟨j, -, hj, rfl, -⟩
          rw [hi]
          exact hj) hreplace with ⟨l₁, l₂, -, hlists, hcount, hwords⟩
      refine ⟨_, hlists, hcount, ?_⟩
      have hsize : Insn.size { c.insn with code := OpCode.opPop.toNat, operands := [] } = 1 := rfl
      have hold : c.insn.size = c.insn.numOperands + 1 := rfl
      rw [hwords, hsize, hold, if_pos hjump]
      push_cast
      omega
    · rename_i hjump
      cases hreplace
      rw [if_neg hjump]
      exact ⟨l, h⟩

/-! ## Runs -/

/-- By induction on the run, each step by `Off.step`. -/
theorem Off.run {ops : List IseqOp} (h : seq.Off l d) (hr : seq.run ops = some seq') :
    ∃ l', seq'.Off l' (d + seq.dropped ops) := by
  induction ops generalizing seq l d with
  | nil =>
    cases hr
    exact ⟨l, h⟩
  | cons op ops ih =>
    rw [LinkedIseq.run, List.foldlM_cons] at hr
    rcases Option.bind_eq_some_iff.mp hr with ⟨seq₁, hstep, hrest⟩
    rcases h.step hstep with ⟨l₁, h₁⟩
    rcases ih h₁ hrest with ⟨l', h'⟩
    refine ⟨l', ?_⟩
    unfold dropped
    rw [hstep, ← Nat.add_assoc]
    exact h'

/-- No step of the run drops an operand: no `OP_JUMP_IF_FALSE` that has one is turned into a pop in
place. -/
def Keeps : LinkedIseq → List IseqOp → Prop
  | _, [] => True
  | seq, op :: ops => seq.drops op = 0 ∧ ∀ seq', seq.step op = some seq' → Keeps seq' ops

theorem dropped_eq_zero_iff {ops : List IseqOp} : seq.dropped ops = 0 ↔ seq.Keeps ops := by
  induction ops generalizing seq with
  | nil => exact ⟨fun _ => trivial, fun _ => rfl⟩
  | cons op ops ih =>
    unfold dropped Keeps
    rw [Nat.add_eq_zero_iff]
    refine and_congr_right fun _ => ?_
    cases hstep : seq.step op with
    | none => exact ⟨fun _ _ h => (by cases h), fun _ => rfl⟩
    | some seq₁ =>
      rw [Option.elim_some, ih]
      constructor
      · intro h seq' heq
        cases heq
        exact h
      · intro h
        exact h seq₁ rfl

theorem Off.iff_zero (h : seq.Off l d) : seq.Consistent ↔ d = 0 := by
  have hwords := h.wordCount
  constructor
  · rintro ⟨l', hlists, -, hwidth⟩
    rw [h.lists.unique hlists] at hwords
    omega
  · rintro rfl
    exact ⟨l, h.lists, h.count, by simpa using hwords⟩

theorem Off.empty : Off {} [] 0 := ⟨.empty, rfl, rfl⟩

/-- In every state of every run the links describe one list and `count` is its length; both counters
are right exactly if no step so far dropped an operand. -/
theorem consistent_iff {ops : List IseqOp} {seq : LinkedIseq} (h : run {} ops = some seq) :
    (∃ l, seq.Lists l ∧ seq.count = l.length) ∧ (seq.Consistent ↔ Keeps {} ops) := by
  rcases Off.empty.run h with ⟨l, hoff⟩
  refine ⟨⟨l, hoff.lists, hoff.count⟩, ?_⟩
  rw [hoff.iff_zero, Nat.zero_add, dropped_eq_zero_iff]

/-- Two pops that are merged. -/
def mergedPops : List IseqOp :=
  [.emit { addr := 0, code := OpCode.opPop.toNat }, .emit { addr := 0, code := OpCode.opPop.toNat },
    .remove 0, .addOperand 1 2]

theorem mergedPops_consistent : ∃ seq, run {} mergedPops = some seq ∧
    (∃ l, seq.Lists l ∧ seq.count = l.length) ∧ (seq.Consistent ↔ Keeps {} mergedPops) := by
  have hrun : (run {} mergedPops).isSome = true := by decide +kernel
  rcases Option.isSome_iff_exists.mp hrun with ⟨seq, hseq⟩
  exact ⟨seq, hseq, consistent_iff hseq⟩

/-- A condition that is always true, up to the pop in place of its jump. -/
def trueCondition : List IseqOp :=
  [.emit { addr := 0, code := OpCode.opTrue.toNat },
    .emit { addr := 0, code := OpCode.opJumpIfFalse.toNat, operands := [1] },
    .emit { addr := 0, code := OpCode.opNil.toNat },
    .replaceJump 1]

/-- The pop in place of the jump leaves `wordCount` one too great. -/
theorem wordCount_off : ¬ ∀ ops seq, run {} ops = some seq → seq.Consistent := by
  intro h
  have hrun : (run {} trueCondition).isSome = true := by decide +kernel
  rcases Option.isSome_iff_exists.mp hrun with ⟨seq, hseq⟩
  rcases Off.empty.run hseq with ⟨l, hoff⟩
  have hdropped : dropped {} trueCondition = 1 := by decide +kernel
  rw [hdropped] at hoff
  exact absurd (hoff.iff_zero.mp (h _ _ hseq)) (by decide)

end LinkedIseq

end Clox
