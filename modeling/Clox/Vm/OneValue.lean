import Mathlib.Data.List.TakeWhile
import Clox.Vm.Locals

/-! # One value for each local variable

The ledger is the meaning of local variables: each has one value, every stack
cell holds a variable, and an upvalue stands for the variable it captured. A
run keeps a ledger next to the state. While no step writes an open upvalue
past the locals table of the frame that declares the variable, and none pops
a captured variable without closing it, every access path reads the value in
the ledger.
-/

namespace Clox

/-- A local variable, from the push of its stack cell on. -/
abbrev VarId := ℕ

structure Ledger (V : Type) where
  /-- The value last written to each variable. -/
  vals : VarId → V
  next : VarId := 0
  /-- The variable in a stack cell. -/
  cell : ℕ → VarId := fun _ => 0
  /-- The variable of each upvalue. -/
  upv : List VarId := []
  /-- The variable is an argument, or has been assigned by its own function. -/
  assigned : VarId → Bool := fun _ => false

namespace Ledger

variable {V : Type} (led : Ledger V)

def push (top : ℕ) (v : V) : Ledger V :=
  { led with
    vals := Function.update led.vals led.next v
    next := led.next + 1
    cell := Function.update led.cell top led.next
    assigned := Function.update led.assigned led.next false }

def pushN (top : ℕ) : ℕ → V → Ledger V
  | 0, _ => led
  | n + 1, v => (pushN top n v).push (top + n) v

def write (x : VarId) (v : V) : Ledger V := { led with vals := Function.update led.vals x v }

@[simp] theorem push_vals (top : ℕ) (v : V) :
    (led.push top v).vals = Function.update led.vals led.next v := rfl

@[simp] theorem push_assigned (top : ℕ) (v : V) :
    (led.push top v).assigned = Function.update led.assigned led.next false := rfl

@[simp] theorem write_vals (x : VarId) (v : V) :
    (led.write x v).vals = Function.update led.vals x v := rfl

@[simp] theorem write_cell (x : VarId) (v : V) : (led.write x v).cell = led.cell := rfl

/-- The variable in the cell `a`, if it is below `top`, gets `v` from its own function. -/
def assign (a top : ℕ) (v : V) : Ledger V :=
  if a < top then
    { led with
      vals := Function.update led.vals (led.cell a) v
      assigned := Function.update led.assigned (led.cell a) true }
  else led

def capture (a : ℕ) : Ledger V := { led with upv := led.upv ++ [led.cell a] }

/-- The cells from `slots` to `top` become the arguments of a call. -/
def enter (slots top : ℕ) : Ledger V :=
  { led with
    assigned := fun x =>
      led.assigned x || (List.range top).any fun a => decide (slots ≤ a) && led.cell a == x }

/-- Only an upvalue that is not open yet is a new one. -/
def captureAll [Inhabited V] (frame : CallFrame V) :
    List Upvalue → LocalsState V → Ledger V → Ledger V
  | [], _, led => led
  | d :: ds, st, led =>
    if d.isLocal then
      let a := frame.slots + d.index
      let (st', u) := st.captureUpvalue a
      captureAll frame ds st' (if u = st.upvalues.length then led.capture a else led)
    else captureAll frame ds st led

/-- The ledger behind an opcode executed in the state `st`. -/
def step [Inhabited V] (unpackValue : V → ℕ → V) (st : LocalsState V) : LocalsOp V → Ledger V
  | .push v => led.push st.stackTop v
  | .getLocal slot =>
    match st.frames with
    | frame :: _ => led.push st.stackTop (st.readLocal frame slot)
    | [] => led
  | .setLocal slot =>
    match st.frames with
    | frame :: _ => led.assign (frame.slots + slot) st.stackTop (st.peek 0)
    | [] => led
  | .unpackSetLocal slot unpackIdx =>
    match st.frames with
    | frame :: _ =>
      let peekIdx := frame.slots + slot + 1 - st.stackTop
      let st' := st.pushN peekIdx default
      let val := unpackValue (st'.peek (peekIdx + unpackIdx)) unpackIdx
      (led.pushN st.stackTop peekIdx default).assign (frame.slots + slot) st'.stackTop val
    | [] => led
  | .getUpvalue slot =>
    match st.frames with
    | frame :: _ =>
      match (frame.upvalues[slot]?).bind st.readUpvalue with
      | some v => led.push st.stackTop v
      | none => led
    | [] => led
  | .setUpvalue slot =>
    match st.frames with
    | frame :: _ =>
      match (frame.upvalues[slot]?).bind fun u => led.upv[u]? with
      | some x => led.write x (st.peek 0)
      | none => led
    | [] => led
  | .closure v descriptors =>
    match st.frames with
    | frame :: _ => captureAll frame descriptors (st.push v) (led.push st.stackTop v)
    | [] => led
  | .call _ numSlots _ => led.enter (st.stackTop - numSlots) st.stackTop
  | .return =>
    match st.frames with
    | frame :: _ => led.push frame.slots (st.peek 0)
    | [] => led
  | .drop _ | .closeUpvalue | .unwind => led

end Ledger

namespace LocalsState

variable {V : Type}

/-- The frame whose slot the stack cell `a` is. -/
def owner (st : LocalsState V) (a : ℕ) : Option (CallFrame V) :=
  st.frames.find? fun f => decide (f.slots ≤ a)

/-- Every live access path to a variable reads its value: the upvalues that captured it, open or
closed, and `OP_GET_LOCAL` in the frame that declares it. -/
structure OneValue (st : LocalsState V) (led : Ledger V) : Prop where
  upvalues : ∀ (u : UpvalueId) (x : VarId), led.upv[u]? = some x → st.readUpvalue u = some (led.vals x)
  locals : ∀ a frame, st.owner a = some frame → a < st.stackTop →
    led.assigned (led.cell a) = true → st.readLocal frame (a - frame.slots) = led.vals (led.cell a)

/-! ## The invariant -/

/-- How the state stands for the ledger. -/
structure Agrees (st : LocalsState V) (led : Ledger V) : Prop where
  openUpv : ∀ u ∈ st.openUpvalues, ∃ a, st.upvalueAddr u = some a ∧ a < st.stackTop ∧
    led.upv[u]? = some (led.cell a)
  sorted : st.openUpvalues.Pairwise fun u v =>
    ∀ a b, st.upvalueAddr u = some a → st.upvalueAddr v = some b → b < a
  mem_open : ∀ u a, st.upvalueAddr u = some a → u ∈ st.openUpvalues
  closedUpv : ∀ (u : UpvalueId) (o : ObjUpvalue V), st.upvalues[u]? = some o → o.value = none →
    ∃ x : VarId, led.upv[u]? = some x ∧ o.closed = led.vals x ∧ ∀ a, a < st.stackTop → led.cell a ≠ x
  stack : ∀ a, a < st.stackTop → st.stack a = led.vals (led.cell a)
  cell_inj : ∀ a b, a < st.stackTop → b < st.stackTop → led.cell a = led.cell b → a = b
  cell_lt : ∀ a, a < st.stackTop → led.cell a < led.next
  upv_inj : ∀ (u v : UpvalueId) (x : VarId), led.upv[u]? = some x → led.upv[v]? = some x → u = v
  upv_lt : ∀ (u : UpvalueId) (x : VarId), led.upv[u]? = some x → x < led.next
  length_eq : led.upv.length = st.upvalues.length
  table : ∀ a frame, st.owner a = some frame → a < st.stackTop →
    led.assigned (led.cell a) = true →
    frame.localsTable[a - frame.slots]? = some (led.vals (led.cell a))

theorem upvalueAddr_eq_some {st : LocalsState V} {u a : ℕ} :
    st.upvalueAddr u = some a ↔ ∃ o, st.upvalues[u]? = some o ∧ o.value = some a := by
  simp [upvalueAddr, Option.bind_eq_some_iff]

theorem Agrees.sameValue {st : LocalsState V} {led : Ledger V} (ag : Agrees st led) :
    OneValue st led := by
  constructor
  · intro u x hx
    have hlt : u < st.upvalues.length := by
      rw [← ag.length_eq]
      exact (List.getElem?_eq_some_iff.mp hx).1
    have ho : st.upvalues[u]? = some st.upvalues[u] := List.getElem?_eq_getElem hlt
    rw [readUpvalue, ho, Option.map_some]
    cases hv : st.upvalues[u].value with
    | some a =>
      have haddr : st.upvalueAddr u = some a := upvalueAddr_eq_some.mpr ⟨_, ho, hv⟩
      rcases ag.openUpv u (ag.mem_open u a haddr) with ⟨b, hb, hlt, hcell⟩
      rw [haddr] at hb
      cases hb
      rw [hx] at hcell
      cases hcell
      exact congrArg some (ag.stack a hlt)
    | none =>
      rcases ag.closedUpv u _ ho hv with ⟨y, hy, hclosed, _⟩
      rw [hx] at hy
      cases hy
      exact congrArg some hclosed
  · intro a frame hown hlt hass
    rw [readLocal, ag.table a frame hown hlt hass]
    rfl

/-! ## What one step does to it -/

section

variable {st : LocalsState V} {led : Ledger V}

theorem Agrees.push (ag : Agrees st led) (v : V) :
    Agrees (st.push v) (led.push st.stackTop v) := by
  have hcell : ∀ a, a < st.stackTop → (led.push st.stackTop v).cell a = led.cell a := by
    intro a ha
    exact Function.update_of_ne (Nat.ne_of_lt ha) ..
  have hvals : ∀ x, x < led.next → (led.push st.stackTop v).vals x = led.vals x := by
    intro x hx
    exact Function.update_of_ne (Nat.ne_of_lt hx) ..
  have hnew : (led.push st.stackTop v).cell st.stackTop = led.next := Function.update_self ..
  have hcases : ∀ a, a < (st.push v).stackTop → a < st.stackTop ∨ a = st.stackTop := by
    intro a ha
    exact Nat.lt_succ_iff_lt_or_eq.mp ha
  constructor
  · intro u hu
    rcases ag.openUpv u hu with ⟨a, ha, hlt, hx⟩
    exact ⟨a, ha, Nat.lt_succ_of_lt hlt, by rw [hcell a hlt]; exact hx⟩
  · exact ag.sorted
  · exact ag.mem_open
  · intro u o ho hv
    rcases ag.closedUpv u o ho hv with ⟨x, hx, hclosed, hne⟩
    have hlt := ag.upv_lt u x hx
    refine ⟨x, hx, by rw [hvals x hlt]; exact hclosed, fun a ha => ?_⟩
    rcases hcases a ha with ha | rfl
    · rw [hcell a ha]
      exact hne a ha
    · rw [hnew]
      exact Ne.symm (Nat.ne_of_lt hlt)
  · intro a ha
    rcases hcases a ha with ha | rfl
    · rw [hcell a ha, hvals _ (ag.cell_lt a ha)]
      exact (Function.update_of_ne (Nat.ne_of_lt ha) ..).trans (ag.stack a ha)
    · rw [hnew, Ledger.push_vals, Function.update_self]
      exact Function.update_self ..
  · intro a b ha hb heq
    rcases hcases a ha with ha | rfl <;> rcases hcases b hb with hb | rfl
    · rw [hcell a ha, hcell b hb] at heq
      exact ag.cell_inj a b ha hb heq
    · rw [hcell a ha, hnew] at heq
      exact absurd heq (Nat.ne_of_lt (ag.cell_lt a ha))
    · rw [hcell b hb, hnew] at heq
      exact absurd heq.symm (Nat.ne_of_lt (ag.cell_lt b hb))
    · rfl
  · intro a ha
    rcases hcases a ha with ha | rfl
    · rw [hcell a ha]
      exact Nat.lt_succ_of_lt (ag.cell_lt a ha)
    · rw [hnew]
      exact Nat.lt_succ_self _
  · exact ag.upv_inj
  · intro u x hx
    exact Nat.lt_succ_of_lt (ag.upv_lt u x hx)
  · exact ag.length_eq
  · intro a frame hown ha hass
    rcases hcases a ha with ha | rfl
    · have hlt := ag.cell_lt a ha
      rw [hcell a ha] at hass ⊢
      rw [hvals _ hlt]
      have hass' : led.assigned (led.cell a) = true := by
        rwa [Ledger.push_assigned, Function.update_of_ne (Nat.ne_of_lt hlt)] at hass
      exact ag.table a frame hown ha hass'
    · rw [hnew, Ledger.push_assigned, Function.update_self] at hass
      cases hass

theorem Agrees.pushN (ag : Agrees st led) (n : ℕ) (v : V) :
    Agrees (st.pushN n v) (led.pushN st.stackTop n v) ∧
      (st.pushN n v).stackTop = st.stackTop + n ∧ (st.pushN n v).frames = st.frames := by
  induction n with
  | zero => exact ⟨ag, rfl, rfl⟩
  | succ n ih =>
    rcases ih with ⟨ag', htop, hframes⟩
    have hpush := ag'.push v
    rw [htop] at hpush
    refine ⟨hpush, ?_, hframes⟩
    show (st.pushN n v).stackTop + 1 = st.stackTop + (n + 1)
    omega

/-- The stack shrinks to `top`, above every open upvalue. -/
theorem Agrees.drop (ag : Agrees st led) {n : ℕ}
    (hopen : ∀ u ∈ st.openUpvalues, ∀ a, st.upvalueAddr u = some a → a < st.stackTop - n) :
    Agrees (st.drop n) led := by
  have hle : ∀ a, a < (st.drop n).stackTop → a < st.stackTop := by
    intro a ha
    exact Nat.lt_of_lt_of_le ha (Nat.sub_le ..)
  constructor
  · intro u hu
    rcases ag.openUpv u hu with ⟨a, ha, _, hx⟩
    exact ⟨a, ha, hopen u hu a ha, hx⟩
  · exact ag.sorted
  · exact ag.mem_open
  · intro u o ho hv
    rcases ag.closedUpv u o ho hv with ⟨x, hx, hclosed, hne⟩
    exact ⟨x, hx, hclosed, fun a ha => hne a (hle a ha)⟩
  · intro a ha
    exact ag.stack a (hle a ha)
  · intro a b ha hb
    exact ag.cell_inj a b (hle a ha) (hle b hb)
  · intro a ha
    exact ag.cell_lt a (hle a ha)
  · exact ag.upv_inj
  · exact ag.upv_lt
  · exact ag.length_eq
  · intro a frame hown ha
    exact ag.table a frame hown (hle a ha)

theorem growLocalsTable_getElem? [Inhabited V] {tbl : List V} {size i : ℕ} {w : V}
    (hw : tbl[i]? = some w) : (growLocalsTable tbl size)[i]? = some w := by
  have hlt := (List.getElem?_eq_some_iff.mp hw).1
  rw [growLocalsTable, List.getElem?_append_left hlt]
  exact hw

/-- A write of the declaring function goes to the stack and to its table. -/
theorem Agrees.storeLocal (ag : Agrees st led) {frame : CallFrame V} {rest : List (CallFrame V)}
    {slot : ℕ} {v : V} {tbl : List V} (hframes : st.frames = frame :: rest)
    (hslot : slot < tbl.length)
    (htbl : ∀ (i : ℕ) w, frame.localsTable[i]? = some w → tbl[i]? = some w) :
    Agrees (st.storeLocal frame rest slot v tbl)
      (led.assign (frame.slots + slot) st.stackTop v) := by
  have hown : ∀ a f, (st.storeLocal frame rest slot v tbl).owner a = some f →
      (frame.slots ≤ a ∧ f = { frame with localsTable := tbl.set slot v }) ∨
        (¬ frame.slots ≤ a ∧ st.owner a = some f) := by
    intro a f hf
    by_cases hle : frame.slots ≤ a
    · left
      rw [owner, LocalsState.storeLocal, List.find?_cons_of_pos (by simpa using hle)] at hf
      cases hf
      exact ⟨hle, rfl⟩
    · right
      rw [owner, LocalsState.storeLocal, List.find?_cons_of_neg (by simpa using hle)] at hf
      rw [owner, hframes, List.find?_cons_of_neg (by simpa using hle)]
      exact ⟨hle, hf⟩
  have hownOld : ∀ a, frame.slots ≤ a → st.owner a = some frame := by
    intro a hle
    rw [owner, hframes, List.find?_cons_of_pos (by simpa using hle)]
  have hcell : (led.assign (frame.slots + slot) st.stackTop v).cell = led.cell := by
    unfold Ledger.assign
    split <;> rfl
  have hupv : (led.assign (frame.slots + slot) st.stackTop v).upv = led.upv := by
    unfold Ledger.assign
    split <;> rfl
  have hnext : (led.assign (frame.slots + slot) st.stackTop v).next = led.next := by
    unfold Ledger.assign
    split <;> rfl
  have hself : frame.slots + slot < st.stackTop →
      (led.assign (frame.slots + slot) st.stackTop v).vals (led.cell (frame.slots + slot)) = v := by
    intro hlt
    rw [Ledger.assign, if_pos hlt]
    exact Function.update_self ..
  -- a variable that is not the one in the cell keeps its value
  have hother : ∀ x, (frame.slots + slot < st.stackTop → led.cell (frame.slots + slot) ≠ x) →
      (led.assign (frame.slots + slot) st.stackTop v).vals x = led.vals x ∧
      (led.assign (frame.slots + slot) st.stackTop v).assigned x = led.assigned x := by
    intro x hx
    unfold Ledger.assign
    split <;> rename_i hlt
    · exact ⟨Function.update_of_ne (Ne.symm (hx hlt)) .., Function.update_of_ne (Ne.symm (hx hlt)) ..⟩
    · exact ⟨rfl, rfl⟩
  have hne : ∀ a, a < st.stackTop → a ≠ frame.slots + slot →
      frame.slots + slot < st.stackTop → led.cell (frame.slots + slot) ≠ led.cell a := by
    intro a ha hane hlt heq
    exact hane (ag.cell_inj _ _ hlt ha heq).symm
  constructor
  · intro u hu
    rw [hcell, hupv]
    exact ag.openUpv u hu
  · exact ag.sorted
  · exact ag.mem_open
  · intro u o ho hv
    rcases ag.closedUpv u o ho hv with ⟨x, hx, hclosed, hxne⟩
    refine ⟨x, hupv ▸ hx, ?_, fun a ha => hcell ▸ hxne a ha⟩
    rw [(hother x fun hlt => hxne _ hlt).1]
    exact hclosed
  · intro a ha
    rw [hcell]
    by_cases heq : a = frame.slots + slot
    · subst heq
      rw [hself ha]
      exact Function.update_self ..
    · rw [(hother _ (hne a ha heq)).1, ← ag.stack a ha]
      exact Function.update_of_ne heq ..
  · rw [hcell]
    exact ag.cell_inj
  · rw [hcell, hnext]
    exact ag.cell_lt
  · rw [hupv]
    exact ag.upv_inj
  · rw [hupv, hnext]
    exact ag.upv_lt
  · rw [hupv]
    exact ag.length_eq
  · intro a f hf ha hass
    rw [hcell] at hass ⊢
    rcases hown a f hf with ⟨hle, rfl⟩ | ⟨hnle, hf'⟩
    · by_cases heq : a = frame.slots + slot
      · subst heq
        rw [hself ha, Nat.add_sub_cancel_left]
        exact List.getElem?_set_self hslot
      · rw [(hother _ (hne a ha heq)).2] at hass
        rw [(hother _ (hne a ha heq)).1]
        have hi : slot ≠ a - frame.slots := by omega
        rw [List.getElem?_set_ne hi]
        exact htbl _ _ (ag.table a frame (hownOld a hle) ha hass)
    · have heq : a ≠ frame.slots + slot := by omega
      rw [(hother _ (hne a ha heq)).2] at hass
      rw [(hother _ (hne a ha heq)).1]
      exact ag.table a f hf' ha hass

/-- A write through an upvalue, when the table of the declaring frame already holds the value. -/
theorem Agrees.writeUpvalue (ag : Agrees st led) {u x : ℕ} {v : V} (hu : led.upv[u]? = some x)
    (htable : ∀ a frame, st.upvalueAddr u = some a → st.owner a = some frame →
      led.assigned (led.cell a) = true → frame.localsTable[a - frame.slots]? = some v) :
    Agrees (st.writeUpvalue u v) (led.write x v) := by
  cases haddr : st.upvalueAddr u with
  | some b =>
    rw [LocalsState.writeUpvalue, haddr]
    rcases ag.openUpv u (ag.mem_open u b haddr) with ⟨b', hb', hblt, hbx⟩
    rw [haddr] at hb'
    cases hb'
    rw [hu] at hbx
    cases hbx
    have hother : ∀ a, a < st.stackTop → a ≠ b →
        (led.write (led.cell b) v).vals (led.cell a) = led.vals (led.cell a) := by
      intro a ha hne
      apply Function.update_of_ne
      intro heq
      exact hne (ag.cell_inj a b ha hblt heq)
    constructor
    · exact ag.openUpv
    · exact ag.sorted
    · exact ag.mem_open
    · intro w o ho hv
      rcases ag.closedUpv w o ho hv with ⟨y, hy, hclosed, hne⟩
      refine ⟨y, hy, ?_, hne⟩
      rw [Ledger.write_vals, Function.update_of_ne (Ne.symm (hne b hblt))]
      exact hclosed
    · intro a ha
      by_cases hab : a = b
      · subst hab
        rw [Ledger.write_cell, Ledger.write_vals, Function.update_self]
        exact Function.update_self ..
      · rw [Ledger.write_cell, hother a ha hab]
        exact (Function.update_of_ne hab ..).trans (ag.stack a ha)
    · exact ag.cell_inj
    · exact ag.cell_lt
    · exact ag.upv_inj
    · exact ag.upv_lt
    · exact ag.length_eq
    · intro a frame hown ha hass
      by_cases hab : a = b
      · subst hab
        rw [Ledger.write_cell, Ledger.write_vals, Function.update_self]
        exact htable a frame haddr hown hass
      · rw [Ledger.write_cell, hother a ha hab]
        exact ag.table a frame hown ha hass
  | none =>
    rw [LocalsState.writeUpvalue, haddr]
    have hlt : u < st.upvalues.length := by
      rw [← ag.length_eq]
      exact (List.getElem?_eq_some_iff.mp hu).1
    have ho : st.upvalues[u]? = some st.upvalues[u] := List.getElem?_eq_getElem hlt
    have hval : st.upvalues[u].value = none := by
      rw [upvalueAddr, ho] at haddr
      exact haddr
    rcases ag.closedUpv u _ ho hval with ⟨y, hy, _, hyne⟩
    rw [hu] at hy
    cases hy
    have hget : ∀ w, (st.upvalues.modify u fun o => { o with closed := v })[w]? =
        (st.upvalues[w]?).map fun o => if u = w then { o with closed := v } else o := by
      intro w
      rw [List.getElem?_modify]
      rfl
    have hsame : ∀ w, LocalsState.upvalueAddr
        { st with upvalues := st.upvalues.modify u fun o => { o with closed := v } } w =
        st.upvalueAddr w := by
      intro w
      rw [upvalueAddr, upvalueAddr, hget]
      cases st.upvalues[w]? with
      | none => rfl
      | some o =>
        simp only [Option.map_some, Option.bind_some]
        split <;> rfl
    constructor
    · intro w hw
      rw [hsame]
      exact ag.openUpv w hw
    · simp only [hsame]
      exact ag.sorted
    · intro w a hw
      exact ag.mem_open w a (hsame w ▸ hw)
    · intro w o ho' hv
      rw [hget] at ho'
      rcases Option.map_eq_some_iff.mp ho' with ⟨o', hw, rfl⟩
      by_cases huw : u = w
      · subst huw
        refine ⟨x, hu, ?_, hyne⟩
        rw [if_pos rfl, Ledger.write_vals, Function.update_self]
      · rw [if_neg huw] at hv ⊢
        rcases ag.closedUpv w o' hw hv with ⟨y, hy, hclosed, hne⟩
        refine ⟨y, hy, ?_, hne⟩
        have hyx : y ≠ x := by
          rintro rfl
          exact huw (ag.upv_inj u w y hu hy)
        rw [Ledger.write_vals, Function.update_of_ne hyx]
        exact hclosed
    · intro a ha
      rw [Ledger.write_cell, Ledger.write_vals, Function.update_of_ne (hyne a ha)]
      exact ag.stack a ha
    · exact ag.cell_inj
    · exact ag.cell_lt
    · exact ag.upv_inj
    · exact ag.upv_lt
    · exact ag.length_eq.trans (List.length_modify ..).symm
    · intro a frame hown ha hass
      rw [Ledger.write_cell, Ledger.write_vals, Function.update_of_ne (hyne a ha)]
      exact ag.table a frame hown ha hass

/-- Behind a condition that only gets false along the list, no element meets it. -/
theorem not_of_mem_dropWhile {α : Type} {p : α → Bool} {l : List α}
    (hl : l.Pairwise fun u v => p v = true → p u = true) {v : α} (hv : v ∈ l.dropWhile p) :
    p v = false := by
  induction l with
  | nil => cases hv
  | cons u l ih =>
    rcases List.pairwise_cons.mp hl with ⟨hu, hl'⟩
    cases hp : p u with
    | true =>
      rw [List.dropWhile_cons_of_pos hp] at hv
      exact ih hl' hv
    | false =>
      rw [List.dropWhile_cons_of_neg (by simp [hp])] at hv
      rcases List.mem_cons.mp hv with rfl | hv
      · exact hp
      · by_contra hne
        have hpv : p v = true := by simpa using hne
        rw [hu v hv hpv] at hp
        cases hp

theorem pointsAbove_eq_true {loc u : ℕ} :
    st.pointsAbove loc u = true ↔ ∃ a, st.upvalueAddr u = some a ∧ loc < a := by
  unfold pointsAbove
  cases st.upvalueAddr u <;> simp

theorem pointsFrom_eq_true {last u : ℕ} :
    st.pointsFrom last u = true ↔ ∃ a, st.upvalueAddr u = some a ∧ last ≤ a := by
  unfold pointsFrom
  cases st.upvalueAddr u <;> simp

/-! ## A new upvalue -/

section NewUpvalue

variable {loc : ℕ} {above rest : List UpvalueId} {u : UpvalueId}

theorem Agrees.lt_of_mem (ag : Agrees st led) (hu : u ∈ st.openUpvalues) :
    u < st.upvalues.length := by
  rcases ag.openUpv u hu with ⟨a, ha, _, _⟩
  rcases upvalueAddr_eq_some.mp ha with ⟨o, ho, _⟩
  exact (List.getElem?_eq_some_iff.mp ho).1

theorem capture_upv_of_some {x : ℕ} (hx : led.upv[u]? = some x) :
    (led.capture loc).upv[u]? = some x := by
  show (led.upv ++ [_])[u]? = some x
  rw [List.getElem?_append_left (List.getElem?_eq_some_iff.mp hx).1]
  exact hx

theorem Agrees.capture_upv_length (ag : Agrees st led) :
    (led.capture loc).upv[st.upvalues.length]? = some (led.cell loc) := by
  show (led.upv ++ [_])[st.upvalues.length]? = _
  rw [List.getElem?_append_right (by rw [ag.length_eq]), ag.length_eq, Nat.sub_self]
  rfl

theorem Agrees.capture_upv (ag : Agrees st led) {x : ℕ}
    (hx : (led.capture loc).upv[u]? = some x) :
    led.upv[u]? = some x ∨ (u = st.upvalues.length ∧ x = led.cell loc) := by
  by_cases hu : u < led.upv.length
  · left
    have hx' : (led.upv ++ [led.cell loc])[u]? = some x := hx
    rwa [List.getElem?_append_left hu] at hx'
  · right
    have hlen := (List.getElem?_eq_some_iff.mp hx).1
    have hu' : u = st.upvalues.length := by
      have hlen' : u < led.upv.length + 1 := by
        simpa [Ledger.capture] using hlen
      rw [ag.length_eq] at hlen' hu
      exact Nat.le_antisymm (Nat.lt_succ_iff.mp hlen') (Nat.le_of_not_lt hu)
    subst hu'
    rw [ag.capture_upv_length] at hx
    cases hx
    exact ⟨rfl, rfl⟩

/-- No upvalue stands for a variable that no open one points at. -/
theorem Agrees.upv_ne_cell (ag : Agrees st led) (hloc : loc < st.stackTop)
    (hnone : ∀ v ∈ st.openUpvalues, st.upvalueAddr v ≠ some loc) :
    led.upv[u]? ≠ some (led.cell loc) := by
  intro hu
  have hul : u < st.upvalues.length := by
    rw [← ag.length_eq]
    exact (List.getElem?_eq_some_iff.mp hu).1
  have ho : st.upvalues[u]? = some st.upvalues[u] := List.getElem?_eq_getElem hul
  cases hv : st.upvalues[u].value with
  | some a =>
    have haddr := upvalueAddr_eq_some.mpr ⟨_, ho, hv⟩
    have huo := ag.mem_open u a haddr
    rcases ag.openUpv u huo with ⟨b, hb, hblt, hbx⟩
    rw [haddr] at hb
    cases hb
    rw [hu] at hbx
    have heq := ag.cell_inj loc a hloc hblt (Option.some.inj hbx)
    rw [← heq] at haddr
    exact hnone u huo haddr
  | none =>
    rcases ag.closedUpv u _ ho hv with ⟨x, hx, _, hne⟩
    rw [hu] at hx
    cases hx
    exact hne loc hloc rfl

variable [Inhabited V]

theorem linkUpvalue_get {o : ObjUpvalue V}
    (ho : (st.linkUpvalue loc above rest).upvalues[u]? = some o) :
    st.upvalues[u]? = some o ∨ (u = st.upvalues.length ∧ o = ⟨some loc, default⟩) := by
  have ho' : (st.upvalues ++ [⟨some loc, default⟩])[u]? = some o := ho
  rw [List.getElem?_append] at ho'
  split at ho' <;> rename_i hu
  · exact .inl ho'
  · have hidx := (List.getElem?_eq_some_iff.mp ho').1
    have hu' : u - st.upvalues.length = 0 := by
      simpa using hidx
    rw [hu'] at ho'
    cases ho'
    exact .inr ⟨Nat.le_antisymm (Nat.sub_eq_zero_iff_le.mp hu') (Nat.le_of_not_lt hu), rfl⟩

theorem linkUpvalue_addr_of_lt (hu : u < st.upvalues.length) :
    (st.linkUpvalue loc above rest).upvalueAddr u = st.upvalueAddr u := by
  show ((st.upvalues ++ [_])[u]?).bind _ = _
  rw [List.getElem?_append_left hu]
  rfl

theorem linkUpvalue_addr_length :
    (st.linkUpvalue loc above rest).upvalueAddr st.upvalues.length = some loc := by
  show ((st.upvalues ++ [_])[st.upvalues.length]?).bind _ = _
  rw [List.getElem?_append_right (Nat.le_refl _), Nat.sub_self]
  rfl

theorem mem_linkUpvalue (hopen : st.openUpvalues = above ++ rest) :
    u ∈ (st.linkUpvalue loc above rest).openUpvalues ↔
      u ∈ st.openUpvalues ∨ u = st.upvalues.length := by
  have hmem : u ∈ above ++ st.upvalues.length :: rest ↔
      u ∈ above ++ rest ∨ u = st.upvalues.length := by
    simp only [List.mem_append, List.mem_cons]
    tauto
  rw [hopen]
  exact hmem

/-- The open upvalues stay sorted. -/
theorem Agrees.sorted_linkUpvalue (ag : Agrees st led)
    (hopen : st.openUpvalues = above ++ rest)
    (habove : ∀ u ∈ above, ∀ a, st.upvalueAddr u = some a → loc < a)
    (hrest : ∀ u ∈ rest, ∀ a, st.upvalueAddr u = some a → a < loc) :
    (st.linkUpvalue loc above rest).openUpvalues.Pairwise fun u v =>
      ∀ a b, (st.linkUpvalue loc above rest).upvalueAddr u = some a →
        (st.linkUpvalue loc above rest).upvalueAddr v = some b → b < a := by
  have hsorted := ag.sorted
  rw [hopen] at hsorted
  rcases List.pairwise_append.mp hsorted with ⟨h₁, h₂, h₃⟩
  have hlt₁ : ∀ u ∈ above, u < st.upvalues.length := fun u hu =>
    ag.lt_of_mem (by rw [hopen]; exact List.mem_append_left _ hu)
  have hlt₂ : ∀ u ∈ rest, u < st.upvalues.length := fun u hu =>
    ag.lt_of_mem (by rw [hopen]; exact List.mem_append_right _ hu)
  refine List.pairwise_append.mpr ⟨?_, List.pairwise_cons.mpr ⟨?_, ?_⟩, ?_⟩
  · apply h₁.imp_of_mem
    intro u v hu hv huv
    rw [linkUpvalue_addr_of_lt (hlt₁ u hu), linkUpvalue_addr_of_lt (hlt₁ v hv)]
    exact huv
  · intro v hv a b ha hb
    rw [linkUpvalue_addr_length] at ha
    cases ha
    rw [linkUpvalue_addr_of_lt (hlt₂ v hv)] at hb
    exact hrest v hv b hb
  · apply h₂.imp_of_mem
    intro u v hu hv huv
    rw [linkUpvalue_addr_of_lt (hlt₂ u hu), linkUpvalue_addr_of_lt (hlt₂ v hv)]
    exact huv
  · intro u hu v hv a b ha hb
    rw [linkUpvalue_addr_of_lt (hlt₁ u hu)] at ha
    rcases List.mem_cons.mp hv with rfl | hv
    · rw [linkUpvalue_addr_length] at hb
      cases hb
      exact habove u hu a ha
    · rw [linkUpvalue_addr_of_lt (hlt₂ v hv)] at hb
      exact h₃ u hu v hv a b ha hb

/-- A new upvalue goes to its place in the list. -/
theorem Agrees.linkUpvalue (ag : Agrees st led) (hloc : loc < st.stackTop)
    (hopen : st.openUpvalues = above ++ rest)
    (habove : ∀ u ∈ above, ∀ a, st.upvalueAddr u = some a → loc < a)
    (hrest : ∀ u ∈ rest, ∀ a, st.upvalueAddr u = some a → a < loc) :
    Agrees (st.linkUpvalue loc above rest) (led.capture loc) := by
  have hmem : ∀ u, u ∈ (st.linkUpvalue loc above rest).openUpvalues ↔
      u ∈ st.openUpvalues ∨ u = st.upvalues.length := fun _ => mem_linkUpvalue hopen
  have hfresh : ∀ u : UpvalueId, led.upv[u]? ≠ some (led.cell loc) := by
    intro u
    apply ag.upv_ne_cell hloc
    intro v hv haddr
    rw [hopen] at hv
    rcases List.mem_append.mp hv with hm | hm
    · exact absurd (habove v hm loc haddr) (Nat.lt_irrefl _)
    · exact absurd (hrest v hm loc haddr) (Nat.lt_irrefl _)
  constructor
  · intro u hu
    rcases (hmem u).mp hu with hu | rfl
    · rcases ag.openUpv u hu with ⟨a, ha, hlta, hx⟩
      refine ⟨a, ?_, hlta, capture_upv_of_some hx⟩
      rw [linkUpvalue_addr_of_lt (ag.lt_of_mem hu)]
      exact ha
    · exact ⟨loc, linkUpvalue_addr_length, hloc, ag.capture_upv_length⟩
  · exact ag.sorted_linkUpvalue hopen habove hrest
  · intro u a ha
    rcases upvalueAddr_eq_some.mp ha with ⟨o, ho, hv⟩
    rcases linkUpvalue_get ho with ho | ⟨rfl, _⟩
    · exact (hmem u).mpr (.inl (ag.mem_open u a (upvalueAddr_eq_some.mpr ⟨o, ho, hv⟩)))
    · exact (hmem _).mpr (.inr rfl)
  · intro u o ho hv
    rcases linkUpvalue_get ho with ho | ⟨_, rfl⟩
    · rcases ag.closedUpv u o ho hv with ⟨x, hx, hclosed, hne⟩
      exact ⟨x, capture_upv_of_some hx, hclosed, hne⟩
    · cases hv
  · exact ag.stack
  · exact ag.cell_inj
  · exact ag.cell_lt
  · intro u v x hu hv
    rcases ag.capture_upv hu with hu | ⟨rfl, rfl⟩ <;> rcases ag.capture_upv hv with hv | ⟨rfl, hx⟩
    · exact ag.upv_inj u v x hu hv
    · exact absurd (hx ▸ hu) (hfresh u)
    · exact absurd hv (hfresh v)
    · rfl
  · intro u x hx
    rcases ag.capture_upv hx with hx | ⟨_, rfl⟩
    · exact ag.upv_lt u x hx
    · exact ag.cell_lt loc hloc
  · show (led.upv ++ [_]).length = (st.upvalues ++ [_]).length
    simp [ag.length_eq]
  · exact ag.table

end NewUpvalue

/-- `captureUpvalue` keeps to one upvalue for each variable. -/
theorem Agrees.captureUpvalue [Inhabited V] (ag : Agrees st led) {loc : ℕ}
    (hloc : loc < st.stackTop) :
    Agrees (st.captureUpvalue loc).1
      (if (st.captureUpvalue loc).2 = st.upvalues.length then led.capture loc else led) := by
  have hsplit := List.takeWhile_append_dropWhile (p := st.pointsAbove loc) (l := st.openUpvalues)
  have habove : ∀ u ∈ st.openUpvalues.takeWhile (st.pointsAbove loc), ∀ a,
      st.upvalueAddr u = some a → loc < a := by
    intro u hu a ha
    rcases pointsAbove_eq_true.mp (List.mem_takeWhile_imp hu) with ⟨b, hb, hlt⟩
    rw [ha] at hb
    cases hb
    exact hlt
  have hsortedRest := ag.sorted
  rw [← hsplit] at hsortedRest
  have hsortedRest := (List.pairwise_append.mp hsortedRest).2.1
  unfold LocalsState.captureUpvalue
  simp only
  cases hrest : st.openUpvalues.dropWhile (st.pointsAbove loc) with
  | nil =>
    simp only [List.head?_nil, if_true]
    exact ag.linkUpvalue hloc (by rw [← hrest, hsplit]) habove fun u hu => by cases hu
  | cons u rest =>
    rw [hrest] at hsortedRest
    have huo : u ∈ st.openUpvalues := by
      rw [← hsplit, hrest]
      simp
    rcases ag.openUpv u huo with ⟨b, hb, _, _⟩
    have hble : ¬ loc < b := by
      intro hlt
      have hneg := List.head_dropWhile_not (st.pointsAbove loc) (l := st.openUpvalues) (by simp [hrest])
      simp only [hrest, List.head_cons] at hneg
      have hpos := pointsAbove_eq_true.mpr ⟨b, hb, hlt⟩
      simp [hpos] at hneg
    simp only [List.head?_cons]
    split <;> rename_i heq
    · -- the variable is captured already
      have hlt : u ≠ st.upvalues.length := by
        rcases upvalueAddr_eq_some.mp hb with ⟨o, ho, _⟩
        exact Nat.ne_of_lt (List.getElem?_eq_some_iff.mp ho).1
      rw [if_neg hlt]
      exact ag
    · have hne : b ≠ loc := by
        rintro rfl
        exact heq hb
      have hlt : b < loc := by omega
      simp only [if_true]
      apply ag.linkUpvalue hloc (by rw [← hrest, hsplit]) habove
      intro v hv a ha
      rcases List.mem_cons.mp hv with rfl | hv
      · rw [hb] at ha
        cases ha
        exact hlt
      · have := (List.pairwise_cons.mp hsortedRest).1 v hv b a hb ha
        omega

/-- The stack goes back to `last`, with the upvalues from there on closed. -/
theorem Agrees.closeUpvalues (ag : Agrees st led) {last : ℕ} (hlast : last ≤ st.stackTop)
    {frames : List (CallFrame V)}
    (howner : ∀ a, a < last → ∀ f, frames.find? (fun f => decide (f.slots ≤ a)) = some f →
      st.owner a = some f) :
    Agrees { st.closeUpvalues last with stackTop := last, frames := frames } led := by
  have hsplit := List.takeWhile_append_dropWhile (p := st.pointsFrom last) (l := st.openUpvalues)
  have hget : ∀ (u : UpvalueId), (st.closeUpvalues last).upvalues[u]? = (st.upvalues[u]?).map
      fun o => if u ∈ st.openUpvalues.takeWhile (st.pointsFrom last) then st.close o else o := by
    intro u
    exact List.getElem?_mapIdx ..
  have hrest : ∀ u ∈ st.openUpvalues.dropWhile (st.pointsFrom last), ∀ a,
      st.upvalueAddr u = some a → a < last := by
    intro u hu a ha
    have hp : st.pointsFrom last u = false := by
      apply not_of_mem_dropWhile _ hu
      apply ag.sorted.imp_of_mem
      intro u v hu hv huv hpv
      rcases pointsFrom_eq_true.mp hpv with ⟨b, hb, hle⟩
      rcases ag.openUpv u hu with ⟨c, hc, _, _⟩
      have := huv c b hc hb
      exact pointsFrom_eq_true.mpr ⟨c, hc, by omega⟩
    by_contra hge
    have := pointsFrom_eq_true.mpr ⟨a, ha, Nat.le_of_not_lt hge⟩
    rw [hp] at this
    cases this
  have hnot : ∀ u ∈ st.openUpvalues.dropWhile (st.pointsFrom last),
      u ∉ st.openUpvalues.takeWhile (st.pointsFrom last) := by
    intro u hu hu'
    rcases pointsFrom_eq_true.mp (List.mem_takeWhile_imp hu') with ⟨a, ha, hle⟩
    exact absurd (hrest u hu a ha) (by omega)
  have haddr : ∀ u, LocalsState.upvalueAddr
      { st.closeUpvalues last with stackTop := last, frames := frames } u =
      if u ∈ st.openUpvalues.takeWhile (st.pointsFrom last) then none else st.upvalueAddr u := by
    intro u
    show ((st.closeUpvalues last).upvalues[u]?).bind _ = _
    rw [hget, upvalueAddr]
    cases st.upvalues[u]? with
    | none => simp
    | some o =>
      simp only [Option.map_some, Option.bind_some]
      split
      · unfold close
        split
        · rfl
        · assumption
      · rfl
  have hmemDrop : ∀ u, u ∈ st.openUpvalues.dropWhile (st.pointsFrom last) →
      u ∈ st.openUpvalues := by
    intro u hu
    rw [← hsplit]
    exact List.mem_append_right _ hu
  constructor
  · intro u hu
    rcases ag.openUpv u (hmemDrop u hu) with ⟨a, ha, _, hx⟩
    exact ⟨a, by rw [haddr, if_neg (hnot u hu)]; exact ha, hrest u hu a ha, hx⟩
  · have hsorted := ag.sorted
    rw [← hsplit] at hsorted
    apply (List.pairwise_append.mp hsorted).2.1.imp_of_mem
    intro u v hu hv huv
    rw [haddr, if_neg (hnot u hu), haddr, if_neg (hnot v hv)]
    exact huv
  · intro u a ha
    rw [haddr] at ha
    split at ha <;> rename_i hu
    · cases ha
    · have huo := ag.mem_open u a ha
      rw [← hsplit] at huo
      exact (List.mem_append.mp huo).resolve_left hu
  · intro u o ho hv
    have ho' := (hget u).symm.trans ho
    rcases Option.map_eq_some_iff.mp ho' with ⟨o', hu, heq⟩
    split at heq <;> rename_i hpop
    · -- closed just now
      rcases pointsFrom_eq_true.mp (List.mem_takeWhile_imp hpop) with ⟨a, ha, hle⟩
      rcases ag.openUpv u (ag.mem_open u a ha) with ⟨b, hb, hblt, hx⟩
      rw [ha] at hb
      cases hb
      rcases upvalueAddr_eq_some.mp ha with ⟨o'', ho'', hval⟩
      rw [hu] at ho''
      cases ho''
      have hclose : o = ⟨none, st.stack a⟩ := by
        rw [← heq, close, hval]
      refine ⟨_, hx, by rw [hclose]; exact ag.stack a hblt, fun b hb hbx => ?_⟩
      have hb' : b < last := hb
      have := ag.cell_inj b a (by omega) hblt hbx
      omega
    · subst heq
      rcases ag.closedUpv u o' hu hv with ⟨x, hx, hclosed, hne⟩
      exact ⟨x, hx, hclosed, fun a ha => hne a (Nat.lt_of_lt_of_le ha hlast)⟩
  · intro a ha
    exact ag.stack a (Nat.lt_of_lt_of_le ha hlast)
  · intro a b ha hb
    exact ag.cell_inj a b (Nat.lt_of_lt_of_le ha hlast) (Nat.lt_of_lt_of_le hb hlast)
  · intro a ha
    exact ag.cell_lt a (Nat.lt_of_lt_of_le ha hlast)
  · exact ag.upv_inj
  · exact ag.upv_lt
  · exact ag.length_eq.trans (List.length_mapIdx ..).symm
  · intro a f hown ha
    exact ag.table a f (howner a ha f hown) (Nat.lt_of_lt_of_le ha hlast)

theorem Agrees.popFrame (ag : Agrees st led) {frame : CallFrame V} {rest : List (CallFrame V)}
    (hframes : st.frames = frame :: rest) (hslots : frame.slots ≤ st.stackTop) :
    Agrees (st.popFrame frame rest) led := by
  apply ag.closeUpvalues hslots
  intro a ha f hf
  rw [owner, hframes, List.find?_cons_of_neg (by simpa using ha)]
  exact hf

/-- A call: the cells of the callee and its arguments get a locals table of their own. -/
theorem Agrees.call [Inhabited V] (ag : Agrees st led) {numSlots localCount : ℕ}
    {upvalues : List UpvalueId} (hnum : numSlots ≤ st.stackTop) :
    Agrees { st with frames :=
        { slots := st.stackTop - numSlots
          localsTable := st.newTable (st.stackTop - numSlots) numSlots localCount
          upvalues } :: st.frames }
      (led.enter (st.stackTop - numSlots) st.stackTop) := by
  refine ⟨ag.openUpv, ag.sorted, ag.mem_open, ag.closedUpv, ag.stack, ag.cell_inj, ag.cell_lt,
    ag.upv_inj, ag.upv_lt, ag.length_eq, ?_⟩
  intro a f hown ha hass
  have ha' : a < st.stackTop := ha
  by_cases hle : st.stackTop - numSlots ≤ a
  · rw [owner, List.find?_cons_of_pos (by simpa using hle)] at hown
    cases hown
    have hi : a - (st.stackTop - numSlots) < numSlots := by omega
    have hsum : st.stackTop - numSlots + (a - (st.stackTop - numSlots)) = a := by omega
    show (st.newTable _ numSlots localCount)[a - (st.stackTop - numSlots)]? = _
    rw [newTable, List.getElem?_append_left (by simpa using hi), List.getElem?_map,
      List.getElem?_range hi, Option.map_some, hsum]
    exact congrArg some (ag.stack a ha')
  · rw [owner, List.find?_cons_of_neg (by simpa using hle)] at hown
    apply ag.table a f hown ha'
    have hass' := hass
    rw [Ledger.enter, Bool.or_eq_true, List.any_eq_true] at hass'
    rcases hass' with h | ⟨b, hb, hbx⟩
    · exact h
    · simp only [Bool.and_eq_true, decide_eq_true_eq, beq_iff_eq] at hbx
      have hblt : b < st.stackTop := List.mem_range.mp hb
      have := ag.cell_inj b a hblt ha' hbx.2
      omega

theorem captureUpvalue_same [Inhabited V] (st : LocalsState V) (loc : ℕ) :
    (st.captureUpvalue loc).1.stackTop = st.stackTop ∧
      (st.captureUpvalue loc).1.frames = st.frames := by
  unfold captureUpvalue
  simp only
  split
  · split <;> exact ⟨rfl, rfl⟩
  · exact ⟨rfl, rfl⟩

/-- The loop of `OP_CLOSURE`. -/
theorem Agrees.captureAll [Inhabited V] {frame : CallFrame V} {ds : List Upvalue}
    {st' : LocalsState V} {us : List UpvalueId} (ag : Agrees st led)
    (hds : ∀ d ∈ ds, d.isLocal = true → frame.slots + d.index < st.stackTop)
    (h : LocalsState.captureAll frame ds st = some (st', us)) :
    Agrees st' (led.captureAll frame ds st) := by
  induction ds generalizing st led us with
  | nil =>
    cases h
    exact ag
  | cons d ds ih =>
    have hds' : ∀ d' ∈ ds, d'.isLocal = true → frame.slots + d'.index < st.stackTop :=
      fun d' hd' => hds d' (List.mem_cons_of_mem _ hd')
    rw [LocalsState.captureAll] at h
    rw [Ledger.captureAll]
    split at h <;> rename_i hl
    · rw [if_pos hl]
      have hag := ag.captureUpvalue (hds d (by simp) hl)
      rcases Option.map_eq_some_iff.mp h with ⟨⟨st₁, us₁⟩, h₁, heq⟩
      cases heq
      have htop := (captureUpvalue_same st (frame.slots + d.index)).1
      exact ih hag (fun d' hd' hl' => htop ▸ hds' d' hd' hl') h₁
    · rw [if_neg hl]
      split at h
      · rcases Option.map_eq_some_iff.mp h with ⟨⟨st₁, us₁⟩, h₁, heq⟩
        cases heq
        exact ih ag hds' h₁
      · cases h

end

/-! ## Runs -/

/-- The condition on a step, in the state before it: no captured cell is dropped without being
closed; a write to an open upvalue leaves the entry of the variable in the locals table of its
own frame right, if there is one; a captured slot is on the stack; a frame's slots are on the
stack when it is left. -/
def Meets (st : LocalsState V) : LocalsOp V → Prop
  | .drop n => ∀ u ∈ st.openUpvalues, ∀ a, st.upvalueAddr u = some a → a < st.stackTop - n
  | .setUpvalue slot => ∀ frame, st.frames.head? = some frame →
      ∀ u, frame.upvalues[slot]? = some u → ∀ a f, st.upvalueAddr u = some a →
        st.owner a = some f → ∀ w, f.localsTable[a - f.slots]? = some w → w = st.peek 0
  | .closure _ descriptors => ∀ frame, st.frames.head? = some frame →
      ∀ d ∈ descriptors, d.isLocal = true → frame.slots + d.index ≤ st.stackTop
  | .unwind | .return => ∀ frame, st.frames.head? = some frame → frame.slots ≤ st.stackTop
  | .push _ | .getLocal _ | .setLocal _ | .unpackSetLocal .. | .getUpvalue _ | .closeUpvalue
  | .call .. => True

/-- A run from the start of a script, each step of which meets `P`, and its ledger. -/
inductive Run [Inhabited V] (unpackValue : V → ℕ → V) (localCount : ℕ)
    (P : LocalsState V → LocalsOp V → Prop) : LocalsState V → Ledger V → Prop where
  | init : Run unpackValue localCount P (initial localCount) { vals := fun _ => default }
  | step {st led op st'} : Run unpackValue localCount P st led → P st op →
      st.step unpackValue op = some st' → Run unpackValue localCount P st' (led.step unpackValue st op)

section

variable [Inhabited V] {unpackValue : V → ℕ → V} {st st' : LocalsState V} {led : Ledger V}

theorem Agrees.initial (localCount : ℕ) :
    Agrees (initial localCount : LocalsState V) { vals := fun _ => default } where
  openUpv := by
    intro u hu
    cases hu
  sorted := List.Pairwise.nil
  mem_open := by
    intro u a ha
    cases ha
  closedUpv := by
    intro u o ho
    cases ho
  stack := by
    intro a ha
    cases ha
  cell_inj := by
    intro a b ha
    cases ha
  cell_lt := by
    intro a ha
    cases ha
  upv_inj := by
    intro u v x hu
    cases hu
  upv_lt := by
    intro u x hu
    cases hu
  length_eq := rfl
  table := by
    intro a f _ ha
    cases ha

/-- What one step preserves. -/
theorem Agrees.step (ag : Agrees st led) {op : LocalsOp V} (hop : Meets st op)
    (h : st.step unpackValue op = some st') : Agrees st' (led.step unpackValue st op) := by
  cases op with
  | push v =>
    cases h
    exact ag.push v
  | drop n =>
    rw [LocalsState.step] at h
    split at h
    · cases h
      exact ag.drop hop
    · cases h
  | closeUpvalue =>
    rw [LocalsState.step] at h
    split at h
    · cases h
      exact ag.closeUpvalues (Nat.sub_le ..) fun a _ f hf => hf
    · cases h
  | call closure numSlots localCount =>
    rw [LocalsState.step] at h
    split at h
    · split at h <;> rename_i hnum
      · cases h
        exact ag.call hnum
      · cases h
    · cases h
  | getLocal slot =>
    cases hframes : st.frames with
    | nil => simp [LocalsState.step, hframes] at h
    | cons frame rest =>
      simp only [LocalsState.step, Ledger.step, hframes] at h ⊢
      cases h
      exact ag.push _
  | setLocal slot =>
    cases hframes : st.frames with
    | nil => simp [LocalsState.step, hframes] at h
    | cons frame rest =>
      simp only [LocalsState.step, Ledger.step, hframes] at h ⊢
      cases h
      apply ag.storeLocal hframes
      · simp only [growLocalsTable, List.length_append, List.length_replicate]
        omega
      · intro i w hw
        exact growLocalsTable_getElem? hw
  | unpackSetLocal slot unpackIdx =>
    cases hframes : st.frames with
    | nil => simp [LocalsState.step, hframes] at h
    | cons frame rest =>
      simp only [LocalsState.step, Ledger.step, hframes] at h ⊢
      split at h <;> rename_i hslot
      · cases h
        rcases ag.pushN (frame.slots + slot + 1 - st.stackTop) default with ⟨ag', _, hframes'⟩
        exact ag'.storeLocal (hframes'.trans hframes) hslot fun _ _ hw => hw
      · cases h
  | getUpvalue slot =>
    cases hframes : st.frames with
    | nil => simp [LocalsState.step, hframes] at h
    | cons frame rest =>
      simp only [LocalsState.step, Ledger.step, hframes] at h ⊢
      rcases Option.map_eq_some_iff.mp h with ⟨v, hv, rfl⟩
      simp only [hv]
      exact ag.push v
  | setUpvalue slot =>
    cases hframes : st.frames with
    | nil => simp [LocalsState.step, hframes] at h
    | cons frame rest =>
      simp only [LocalsState.step, Ledger.step, hframes] at h ⊢
      rcases Option.map_eq_some_iff.mp h with ⟨u, hu, rfl⟩
      simp only [hu, Option.bind_some]
      cases hx : led.upv[u]? with
      | some x =>
        apply ag.writeUpvalue hx
        intro a f haddr hown hass
        rcases ag.openUpv u (ag.mem_open u a haddr) with ⟨b, hb, hlt, _⟩
        rw [haddr] at hb
        cases hb
        have hentry := ag.table a f hown hlt hass
        have hv := hop frame (by rw [hframes]; rfl) u hu a f haddr hown _ hentry
        rw [hentry, hv]
      | none =>
        -- the closure holds an upvalue that was never created
        have hnone : st.upvalues[u]? = none := by
          apply List.getElem?_eq_none
          rw [← ag.length_eq]
          exact List.getElem?_eq_none_iff.mp hx
        have haddr : st.upvalueAddr u = none := by
          rw [upvalueAddr, hnone]
          rfl
        have hsame : st.writeUpvalue u (st.peek 0) = st := by
          rw [LocalsState.writeUpvalue, haddr]
          simp only
          rw [List.modify_eq_self (List.getElem?_eq_none_iff.mp hnone)]
        rw [hsame]
        exact ag
  | closure v descriptors =>
    cases hframes : st.frames with
    | nil => simp [LocalsState.step, hframes] at h
    | cons frame rest =>
      simp only [LocalsState.step, Ledger.step, hframes] at h ⊢
      rcases Option.map_eq_some_iff.mp h with ⟨⟨st₁, us⟩, h₁, heq⟩
      have ag' := (ag.push v).captureAll (fun d hd hl => Nat.lt_succ_of_le
        (hop frame (by rw [hframes]; rfl) d hd hl)) h₁
      subst heq
      exact ⟨ag'.openUpv, ag'.sorted, ag'.mem_open, ag'.closedUpv, ag'.stack, ag'.cell_inj,
        ag'.cell_lt, ag'.upv_inj, ag'.upv_lt, ag'.length_eq, ag'.table⟩
  | unwind =>
    cases hframes : st.frames with
    | nil => simp [LocalsState.step, hframes] at h
    | cons frame rest =>
      simp only [LocalsState.step, Ledger.step, hframes] at h ⊢
      cases h
      exact ag.popFrame hframes (hop _ (by rw [hframes]; rfl))
  | «return» =>
    cases hframes : st.frames with
    | nil => simp [LocalsState.step, hframes] at h
    | cons frame rest =>
      simp only [LocalsState.step, Ledger.step, hframes] at h ⊢
      cases h
      exact (ag.popFrame hframes (hop _ (by rw [hframes]; rfl))).push _

theorem Run.agrees {localCount : ℕ} (r : Run unpackValue localCount Meets st led) :
    Agrees st led := by
  induction r with
  | init => exact .initial localCount
  | step _ hop h ih => exact ih.step hop h

/-- The condition on `OP_SET_UPVALUE` cannot be left out: a write that leaves the locals table of
the declaring frame behind is not read there. -/
theorem Agrees.setUpvalue_stale (ag : Agrees st led) {frame f : CallFrame V} {slot u a : ℕ}
    (hframe : st.frames.head? = some frame) (hu : frame.upvalues[slot]? = some u)
    (haddr : st.upvalueAddr u = some a) (hown : st.owner a = some f)
    (hass : led.assigned (led.cell a) = true)
    (hne : f.localsTable[a - f.slots]? ≠ some (st.peek 0))
    (h : st.step unpackValue (.setUpvalue slot) = some st') :
    ¬ OneValue st' (led.step unpackValue st (.setUpvalue slot)) := by
  intro hone
  rcases ag.openUpv u (ag.mem_open u a haddr) with ⟨b, hb, hlt, hx⟩
  rw [haddr] at hb
  cases hb
  have hentry := ag.table a f hown hlt hass
  simp only [LocalsState.step, Ledger.step] at h hone
  cases hframes : st.frames with
  | nil =>
    rw [hframes] at hframe
    cases hframe
  | cons g rest =>
    rw [hframes] at hframe
    cases hframe
    simp only [hframes, hu, Option.map_some, Option.bind_some, hx] at h hone
    cases h
    rw [LocalsState.writeUpvalue, haddr] at hone
    have hread := hone.locals a f hown hlt hass
    rw [readLocal, hentry, Option.getD_some, Ledger.write_cell, Ledger.write_vals,
      Function.update_self] at hread
    exact hne (hentry.trans (congrArg some hread))

/-- In a run whose steps meet the condition every live access path to a local variable reads the
value last written to it. -/
theorem Run.oneValue {localCount : ℕ} (r : Run unpackValue localCount Meets st led) :
    OneValue st led :=
  r.agrees.sameValue

end

/-- Execute the opcodes, keeping the ledger. -/
def exec [Inhabited V] (unpackValue : V → ℕ → V) :
    List (LocalsOp V) → LocalsState V × Ledger V → Option (LocalsState V × Ledger V)
  | [], s => some s
  | op :: ops, s =>
    match s.1.step unpackValue op with
    | some st => exec unpackValue ops (st, s.2.step unpackValue s.1 op)
    | none => none

theorem Run.exec [Inhabited V] {unpackValue : V → ℕ → V} {localCount : ℕ} {ops : List (LocalsOp V)}
    {s s' : LocalsState V × Ledger V} (r : Run unpackValue localCount (fun _ _ => True) s.1 s.2)
    (h : LocalsState.exec unpackValue ops s = some s') :
    Run unpackValue localCount (fun _ _ => True) s'.1 s'.2 := by
  induction ops generalizing s with
  | nil =>
    cases h
    exact r
  | cons op ops ih =>
    rw [LocalsState.exec] at h
    cases hs : s.1.step unpackValue op with
    | none => simp [hs] at h
    | some st =>
      simp only [hs] at h
      exact ih (r.step trivial hs) h

/-- A local with the value `7` that a closure has captured. -/
theorem captured_oneValue : ∃ (st : LocalsState ℕ) (led : Ledger ℕ),
    st.readUpvalue 0 = some 7 ∧ OneValue st led := by
  have r₀ : Run (fun v _ => v) 2 Meets (initial 2 : LocalsState ℕ) _ := .init
  have r₁ := r₀.step (show Meets _ (.push 7) from trivial) rfl
  have r₂ := r₁.step (show Meets _ (.setLocal 0) from trivial) rfl
  have r₃ := r₂.step (show Meets _ (.closure 9 [⟨0, true⟩]) from by
    intro frame hframe d hd _
    cases hframe
    cases List.mem_singleton.mp hd
    decide) rfl
  exact ⟨_, _, rfl, r₃.oneValue⟩

/-- `fun f() { var a = 1; var g = fun() { a = 2; }; g(); print a; }`, with closures as `8` and `9`,
up to the `print`. -/
def assignedInClosure : List (LocalsOp ℕ) :=
  [.closure 8 [], .call 0 1 3, .push 1, .setLocal 1, .closure 9 [⟨1, true⟩], .setLocal 2,
    .getLocal 2, .call 1 1 1, .push 2, .setUpvalue 0, .drop 1, .push 0, .return, .drop 1]

/-- The function goes on reading `1`. -/
theorem assignedInClosure_stale : ∃ (st : LocalsState ℕ) (led : Ledger ℕ),
    Run (fun v _ => v) 1 (fun _ _ => True) st led ∧ ¬ OneValue st led := by
  have hsome : ((exec (fun v _ => v) assignedInClosure
      (initial 1, { vals := fun _ => default })).isSome) = true := rfl
  rcases Option.isSome_iff_exists.mp hsome with ⟨s', hs'⟩
  refine ⟨s'.1, s'.2, Run.exec .init hs', ?_⟩
  cases hs'
  intro hone
  have hread := hone.locals 1 _ rfl (by decide) rfl
  exact absurd hread (by decide)

end LocalsState

end Clox
