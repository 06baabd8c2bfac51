import Clox.Lib.Commands
import Clox.Lib.Questions
import Clox.Runtime.Printing
import Clox.Vm.Activity
import Mathlib.Data.Fintype.Card
import Mathlib.Data.Fintype.Prod
import Mathlib.Data.Set.Finite.Range

/-! # Cyclic data

`hashKey`, `==`, `toString` and `inspect` on arrays and maps that contain one another in any way.
`toString` and `hashKey` test the elements for the container itself, and only `valHash` has a guard
against longer cycles: `execStopRecursion`, with the objects it is at in `recurseSet` and a
protected call. What contains nothing is a leaf, and how leaves are hashed, compared and written is given.

The native methods are written for any monad: run with a bound on the depth they work on the thread,
and as questions they show what they come to.
-/

namespace Clox.Cycles

open Commands Questions Questions.Ask
open Clox.Printing (Bytes bytes cstr)
open Clox.Blocks (Thread)

/-! ## The data -/

inductive Value (L : Type) (n : ℕ)
  | leaf (l : L)
  /-- An array or a map. -/
  | obj (r : Fin n)
  deriving DecidableEq

/-- `resize` ensures that there are empty slots. -/
structure Table (L : Type) (n : ℕ) where
  count : ℕ
  entries : List (Option (Value L n × Value L n))
  capacity : entries = [] ∨ ∃ k, entries.length = 2 ^ k
  free : entries = [] ∨ none ∈ entries

inductive Object (L : Type) (n : ℕ)
  | array (els : List (Value L n))
  | map (table : Table L n)

/-- Arrays and maps, with any references between them. -/
structure Graph (L : Type) (n : ℕ) where
  objs : Fin n → Object L n
  /-- The object at the address that `AS_OBJ` makes of the bits of a leaf. -/
  leafObj : L → Option (Fin n)
  leafHash : L → UInt32
  leafEqual : L → L → Bool
  leafText : L → Bytes
  leafInspect : L → Bytes

variable {L : Type} {n : ℕ}

/-- `AS_OBJ` -/
def Graph.asObj (w : Graph L n) : Value L n → Option (Fin n)
  | .leaf l => w.leafObj l
  | .obj r => some r

/-- `IS_OBJ(el) && (AS_OBJ(el) == selfObj)` -/
def Value.isObj (self : Fin n) : Value L n → Bool
  | .leaf _ => false
  | .obj r => r = self

/-- The entries in the order of their slots, as `TABLE_FOREACH` finds them. -/
def Table.each (t : Table L n) : List (Value L n × Value L n) :=
  if t.count > 0 then t.entries.filterMap id else []

/-! ## The native methods

The recursive calls are parameters.
-/

section Natives

variable {m : Type → Type} [Monad m] (w : Graph L n)

/-- The elements in `lxArrayToString`. -/
def arrayElements (text : Value L n → m Bytes) (self : Fin n) : List (Value L n) → m Bytes
  | [] => pure []
  | el :: rest =>
    if el.isObj self then do
      let after ← arrayElements text self rest
      return bytes "[...]" ++ after
    else do
      let buf ← text el
      let after ← arrayElements text self rest
      return cstr buf ++ (if rest.isEmpty then [] else bytes ",") ++ after

def lxArrayToString (text : Value L n → m Bytes) (self : Fin n) (els : List (Value L n)) :
    m Bytes := do
  let elements ← arrayElements text self els
  return bytes "[" ++ elements ++ bytes "]"

/-- A key or a value in `lxMapToString`. -/
def entryText (text : Value L n → m Bytes) (self : Fin n) (v : Value L n) : m Bytes :=
  if v.isObj self then pure (bytes "\x7b...\x7d")
  else do
    let buf ← text v
    return cstr buf

/-- The entries in `lxMapToString`, from number `i` on. -/
def mapEntries (text : Value L n → m Bytes) (self : Fin n) (sz : ℕ) :
    (i : ℕ) → List (Value L n × Value L n) → m Bytes
  | _, [] => pure []
  | i, e :: rest => do
    let keyS ← entryText text self e.1
    let valS ← entryText text self e.2
    let after ← mapEntries text self sz (i + 1) rest
    return keyS ++ bytes " => " ++ valS ++ (if i + 1 < sz then bytes ", " else []) ++ after

def lxMapToString (text : Value L n → m Bytes) (self : Fin n) (map : Table L n) : m Bytes := do
  let entries ← mapEntries text self map.count 0 map.each
  return bytes "\x7b" ++ entries ++ bytes "\x7d"

/-- The elements in `lxArrayInspect`: there is no test for the array itself. -/
def inspectElements (inspect : Value L n → m Bytes) : List (Value L n) → m Bytes
  | [] => pure []
  | el :: rest => do
    let res ← inspect el
    let after ← inspectElements inspect rest
    return cstr res ++ (if rest.isEmpty then [] else bytes ",") ++ after

def lxArrayInspect (inspect : Value L n → m Bytes) (els : List (Value L n)) : m Bytes := do
  let elements ← inspectElements inspect els
  return bytes "[" ++ elements ++ bytes "]"

/-- The entries in `lxMapInspect`, from number `idx` on. -/
def inspectEntries (inspect : Value L n → m Bytes) (count : ℕ) :
    (idx : ℕ) → List (Value L n × Value L n) → m Bytes
  | _, [] => pure []
  | idx, e :: rest => do
    let inspectKey ← inspect e.1
    let inspectVal ← inspect e.2
    let after ← inspectEntries inspect count (idx + 1) rest
    return inspectKey ++ bytes ":" ++ inspectVal ++ (if idx + 1 < count then bytes "," else []) ++
      after

def lxMapInspect (inspect : Value L n → m Bytes) (map : Table L n) : m Bytes := do
  let entries ← inspectEntries inspect map.count 0 map.each
  return bytes "%\x7b" ++ entries ++ bytes "\x7d"

/-- The elements in `lxArrayHashKey`. -/
def hashElements (valHash : Value L n → m UInt32) (self : Fin n) :
    UInt32 → List (Value L n) → m UInt32
  | hash, [] => pure hash
  | hash, el :: rest =>
    if w.asObj el = some self then hashElements valHash self (hash ^^^ 1667) rest
    else do
      let elHash ← valHash el
      hashElements valHash self (hash ^^^ elHash) rest

def lxArrayHashKey (valHash : Value L n → m UInt32) (self : Fin n) (els : List (Value L n)) :
    m UInt32 :=
  hashElements w valHash self 16679 els

/-- The entries in `lxMapHashKey`. -/
def hashEntries (valHash : Value L n → m UInt32) (self : Fin n) :
    UInt32 → List (Value L n × Value L n) → m UInt32
  | hash, [] => pure hash
  | hash, e :: rest =>
    if w.asObj e.1 = some self ∨ w.asObj e.2 = some self then
      hashEntries valHash self (hash ^^^ 16667) rest
    else do
      let keyHash ← valHash e.1
      let valueHash ← valHash e.2
      hashEntries valHash self (hash ^^^ (keyHash ^^^ valueHash)) rest

def lxMapHashKey (valHash : Value L n → m UInt32) (self : Fin n) (map : Table L n) : m UInt32 :=
  hashEntries w valHash self 166779 map.each

/-- The loop of `arrayEquals`. -/
def equalElements (valEqual : Value L n → Value L n → m Bool) :
    List (Value L n) → List (Value L n) → m Bool
  | x :: xs, y :: ys => do
    let same ← valEqual x y
    if same then equalElements valEqual xs ys else return false
  | _, _ => pure true

/-- The loop of `findEntry`, which ends at an empty slot at the latest; for `tableGet` the entry in
the slot. -/
def probe (valEqual : Value L n → Value L n → m Bool)
    (entries : List (Option (Value L n × Value L n))) (key : Value L n) :
    (slots index : ℕ) → m (Option (Value L n × Value L n))
  | 0, _ => pure none
  | slots + 1, index =>
    match entries[index]?.join with
    | none => pure none
    | some entry => do
      let same ← valEqual entry.1 key
      if same then return some entry
      else probe valEqual entries key slots ((index + 1) &&& (entries.length - 1))

def tableGet (valEqual : Value L n → Value L n → m Bool) (valHash : Value L n → m UInt32)
    (table : Table L n) (key : Value L n) : m (Option (Value L n)) :=
  if table.entries.isEmpty then pure none
  else do
    let hash ← valHash key
    let entry ← probe valEqual table.entries key table.entries.length
      (hash.toNat &&& (table.entries.length - 1))
    return entry.map Prod.snd

/-- The loop of `mapEquals`. -/
def equalEntries (valEqual : Value L n → Value L n → m Bool) (valHash : Value L n → m UInt32)
    (map2 : Table L n) : List (Value L n × Value L n) → m Bool
  | [] => pure true
  | e :: rest => do
    let val2 ← tableGet valEqual valHash map2 e.1
    match val2 with
    | none => return false
    | some val2 =>
      let same ← valEqual e.2 val2
      if same then equalEntries valEqual valHash map2 rest else return false

def Graph.toString (text : Value L n → m Bytes) (self : Fin n) : m Bytes :=
  match w.objs self with
  | .array els => lxArrayToString text self els
  | .map table => lxMapToString text self table

def Graph.inspect (inspect : Value L n → m Bytes) (self : Fin n) : m Bytes :=
  match w.objs self with
  | .array els => lxArrayInspect inspect els
  | .map table => lxMapInspect inspect table

def Graph.hashKey (valHash : Value L n → m UInt32) (self : Fin n) : m UInt32 :=
  match w.objs self with
  | .array els => lxArrayHashKey w valHash self els
  | .map table => lxMapHashKey w valHash self table

/-- `arrayEquals` and `mapEquals` -/
def Graph.opEquals (valEqual : Value L n → Value L n → m Bool) (valHash : Value L n → m UInt32)
    (self : Fin n) : Value L n → m Bool
  | .leaf _ => pure false
  | .obj other =>
    match w.objs self, w.objs other with
    | .array buf1, .array buf2 =>
      if self = other then pure true
      else if buf1.length ≠ buf2.length then pure false
      else equalElements valEqual buf1 buf2
    | .map map1, .map map2 =>
      if self = other then pure true
      else if map1.count ≠ map2.count then pure false
      else equalEntries valEqual valHash map2 map1.each
    | _, _ => pure false

end Natives

/-! ## On the thread -/

structure State (n : ℕ) where
  th : Thread
  recurseSet : List (Fin n)

/-- `lxRecursionErrClass` -/
inductive Thrown
  | recursionErr
  deriving DecidableEq

inductive Stop
  /-- More levels than there is fuel for. -/
  | fuel
  | thrown (err : Thrown)
  deriving DecidableEq

abbrev Exec (n : ℕ) := Command (State n) Stop

def onThread (f : Thread → Thread) : Exec n Unit := Command.modify fun s => { s with th := f s.th }

/-- `callMethod` of a native method: it has a frame while it runs. -/
def callMethod {α : Type} (method : Exec n α) : Exec n α := do
  onThread fun th => { th with frames := { isCCall := true } :: th.frames }
  let value ← method
  onThread Thread.popFrame
  return value

/-- `vm_protect` without a class: the result, or none if an error was taken. -/
def vmProtect {α : Type} (func : Exec n α) : Exec n (Option α) := fun s =>
  let th := s.th.addErrInfo .recursion
  match func { s with th } with
  | (.ok value, s') =>
    -- the frame was not popped
    if s'.th.frames.length = s.th.frames.length then
      (.ok (some value), { s' with th := s'.th.freeErrInfo })
    else (.ok (some value), s')
  | (.error (.thrown _), s') =>
    (.ok none, { s' with
      th := s'.th.unwindJumpRecover ⟨s.th.infos, s.th.frames.length, .recursion⟩ })
  | (.error .fuel, s') => (.error .fuel, s')

/-- `execStopRecursion`, behind `addSeenSet`; the `NULL` of `vm_protect` is the number 0. -/
def execGuarded (fn : Exec n UInt32) (obj : Fin n) : Exec n UInt32 := do
  let result ← vmProtect fn
  Command.modify fun s => { s with recurseSet := s.recurseSet.erase obj }
  match result with
  | some hash => return hash
  | none => do
    onThread Thread.popErrInfo
    return 0

def execStopRecursion (fn : Exec n UInt32) (obj : Fin n) : Exec n UInt32 := do
  let s ← Command.get
  if obj ∈ s.recurseSet then Command.stop (.thrown .recursionErr)
  else do
    Command.modify fun s => { s with recurseSet := s.recurseSet ++ [obj] }
    execGuarded fn obj

section Exec

variable (w : Graph L n)

def valHash : ℕ → Value L n → Exec n UInt32
  | 0, _ => Command.stop .fuel
  | _ + 1, .leaf l => pure (w.leafHash l)
  | fuel + 1, .obj r => execStopRecursion (callMethod (w.hashKey (valHash fuel) r)) r

/-- `a.hashKey()` -/
def hashKey (fuel : ℕ) (self : Fin n) : Exec n UInt32 :=
  callMethod (w.hashKey (valHash w fuel) self)

def valueToString : ℕ → Value L n → Exec n Bytes
  | 0, _ => Command.stop .fuel
  | _ + 1, .leaf l => pure (w.leafText l)
  | fuel + 1, .obj r => callMethod (w.toString (valueToString fuel) r)

/-- `valEqual`; the hashes of keys need no more than `n + 1` levels. -/
def valEqual : ℕ → Value L n → Value L n → Exec n Bool
  | 0, _, _ => Command.stop .fuel
  | _ + 1, .leaf a, .leaf b => pure (w.leafEqual a b)
  | _ + 1, .leaf _, .obj _ => pure false
  | fuel + 1, .obj r, b => callMethod (w.opEquals (valEqual fuel) (valHash w (n + 1)) r b)

end Exec

/-! ## As questions -/

section Bodies

variable (w : Graph L n)

/-- An error becomes the number 0. -/
def caught : Option (Except Thrown UInt32) → Option (Except Thrown UInt32)
  | some (.error _) => some (.ok 0)
  | r => r

end Bodies

/-! ## The lists are left as they are -/

/-- The last tag is of a frame that is there. -/
def Framed (s : State n) : Prop := ∀ info ∈ s.th.errInfo.head?, info.frame ≤ s.th.frames.length

/-- The state after a method: when it threw, its frames are still there. -/
def Left {α : Type} (s s' : State n) : Option (Except Thrown α) → Prop
  | some (.ok _) => s'.recurseSet = s.recurseSet ∧ s'.th.errInfo = s.th.errInfo ∧
      s'.th.frames = s.th.frames
  | some (.error _) => s'.recurseSet = s.recurseSet ∧ s'.th.errInfo = s.th.errInfo ∧
      ∃ above, s'.th.frames = above ++ s.th.frames
  | none => True

def ending {α : Type} : Option (Except Thrown α) → Except Stop α
  | some (.ok a) => .ok a
  | some (.error e) => .error (.thrown e)
  | none => .error .fuel

/-- With these objects in `recurseSet` the command gives this, and leaves the lists as they are. -/
def Gives {α : Type} (seen : List (Fin n)) (c : Exec n α) (r : Option (Except Thrown α)) : Prop :=
  ∀ s, Framed s → s.recurseSet = seen → ∃ s', c s = (ending r, s') ∧ Left s s' r

section Gives

variable {α β : Type} {seen : List (Fin n)} {c : Exec n α} {r : Option (Except Thrown α)}

theorem Gives.pure (a : α) : Gives seen (pure a : Exec n α) (some (.ok a)) := by
  intro s _ _
  exact ⟨s, rfl, rfl, rfl, rfl⟩

theorem Gives.bind {g : α → Exec n β} {k : α → Option (Except Thrown β)} (h : Gives seen c r)
    (hg : ∀ a, Gives seen (g a) (k a)) : Gives seen (c >>= g) (andThen r k) := by
  intro s hframed hseen
  rcases h s hframed hseen with ⟨s₁, hc, hleft⟩
  rcases r with _ | _ | a
  · exact ⟨s₁, Command.bind_of_error hc, trivial⟩
  · exact ⟨s₁, Command.bind_of_error hc, hleft⟩
  · rcases hleft with ⟨hset, hinfo, hframes⟩
    have hframed₁ : Framed s₁ := by
      intro info h
      rw [hinfo] at h
      rw [hframes]
      exact hframed info h
    rcases hg a s₁ hframed₁ (hset.trans hseen) with ⟨s₂, hg₂, hleft₂⟩
    refine ⟨s₂, (Command.bind_of_ok hc).trans hg₂, ?_⟩
    show Left s s₂ (k a)
    rcases hk : k a with _ | _ | b
    · trivial
    · rw [hk] at hleft₂
      rcases hleft₂ with ⟨hset₂, hinfo₂, above, habove⟩
      exact ⟨hset₂.trans hset, hinfo₂.trans hinfo, above, habove.trans (by rw [hframes])⟩
    · rw [hk] at hleft₂
      rcases hleft₂ with ⟨hset₂, hinfo₂, hframes₂⟩
      exact ⟨hset₂.trans hset, hinfo₂.trans hinfo, hframes₂.trans hframes⟩

end Gives

/-! ### Frames -/

theorem unwindErrInfo_of_head {depth : ℕ} {th : Thread}
    (h : ∀ info ∈ th.errInfo.head?, info.frame < depth) :
    Thread.unwindErrInfo depth th.errInfo th = th := by
  cases hinfo : th.errInfo with
  | nil => rfl
  | cons info prev =>
    rw [hinfo] at h
    have hlt := h info rfl
    rw [Thread.unwindErrInfo, if_neg (by omega)]

theorem popFrame_of_head {th : Thread}
    (h : ∀ info ∈ th.errInfo.head?, info.frame < th.frames.length) :
    th.popFrame = { th with frames := th.frames.tail } := by
  unfold Thread.popFrame
  rw [unwindErrInfo_of_head h]

theorem popFramesTo_of_head {th : Thread} {above base : List Blocks.CallFrame}
    (hframes : th.frames = above ++ base)
    (h : ∀ info ∈ th.errInfo.head?, info.frame ≤ base.length) :
    th.popFramesTo base.length = { th with frames := base } := by
  unfold Thread.popFramesTo
  rw [hframes, List.length_append, Nat.add_sub_cancel]
  induction above generalizing th with
  | nil =>
    rw [List.length_nil, Thread.popFrames]
    rw [List.nil_append] at hframes
    rw [← hframes]
  | cons f above ih =>
    rw [List.length_cons, Thread.popFrames, popFrame_of_head]
    · exact ih (by rw [hframes]; rfl) h
    · intro info hinfo
      have := h info hinfo
      rw [hframes, List.length_append, List.length_cons]
      omega

section Calls

variable {α : Type} {seen : List (Fin n)} {r : Option (Except Thrown α)}

theorem Gives.callMethod {c : Exec n α} (h : Gives seen c r) : Gives seen (callMethod c) r := by
  intro s hframed hseen
  have hframed₁ :
      Framed { s with th := { s.th with frames := { isCCall := true } :: s.th.frames } } := by
    intro info hinfo
    have := hframed info hinfo
    show info.frame ≤ s.th.frames.length + 1
    omega
  rcases h _ hframed₁ hseen with ⟨s₁, hc, hleft⟩
  have hcall : Cycles.callMethod c s = (do
      let value ← c
      onThread Thread.popFrame
      return value)
        { s with th := { s.th with frames := { isCCall := true } :: s.th.frames } } := rfl
  rw [hcall]
  rcases r with _ | _ | a
  · exact ⟨s₁, Command.bind_of_error hc, trivial⟩
  · rcases hleft with ⟨hset, hinfo, above, habove⟩
    refine ⟨s₁, Command.bind_of_error hc, hset, hinfo, above ++ [{ isCCall := true }], ?_⟩
    rw [habove, List.append_assoc]
    rfl
  · rcases hleft with ⟨hset, hinfo, hframes⟩
    have hpop : s₁.th.popFrame = { s₁.th with frames := s.th.frames } := by
      rw [popFrame_of_head, hframes]
      · rfl
      · intro info h
        rw [hinfo] at h
        have := hframed info h
        rw [hframes, List.length_cons]
        omega
    refine ⟨{ s₁ with th := s₁.th.popFrame }, Command.bind_of_ok hc, hset, ?_, ?_⟩
    · rw [hpop]
      exact hinfo
    · rw [hpop]

theorem vmProtect_of_error {func : Exec n α} {s s₁ : State n} {e : Thrown}
    (hfunc : func { s with th := s.th.addErrInfo .recursion } = (.error (.thrown e), s₁))
    (hinfo : s₁.th.errInfo = (s.th.addErrInfo .recursion).errInfo)
    (hframes : ∃ above, s₁.th.frames = above ++ s.th.frames) :
    vmProtect func s = (.ok none, { s₁ with th := { s₁.th with frames := s.th.frames } }) := by
  rcases hframes with ⟨above, habove⟩
  have hpop := popFramesTo_of_head habove (by
    intro info h
    rw [hinfo] at h
    cases h
    exact Nat.le_refl _)
  have hrecover : s₁.th.unwindJumpRecover ⟨s.th.infos, s.th.frames.length, .recursion⟩ =
      { s₁.th with frames := s.th.frames } := by
    unfold Thread.unwindJumpRecover
    rw [hpop]
    show Thread.freeInfosUntil _ s₁.th.errInfo _ = _
    rw [hinfo]
    show (if _ then _ else _ : Thread) = _
    rw [if_pos rfl, ← hinfo]
  unfold vmProtect
  dsimp only
  rw [hfunc, ← hrecover]

theorem vmProtect_of_ok {func : Exec n α} {s s₁ : State n} {a : α}
    (hfunc : func { s with th := s.th.addErrInfo .recursion } = (.ok a, s₁))
    (hframes : s₁.th.frames = s.th.frames) :
    vmProtect func s = (.ok (some a), { s₁ with th := s₁.th.freeErrInfo }) := by
  unfold vmProtect
  dsimp only
  rw [hfunc]
  exact if_pos (congrArg List.length hframes)

theorem Gives.execStopRecursion {fn : Exec n UInt32} {obj : Fin n}
    {r : Option (Except Thrown UInt32)}
    (h : Gives (seen ++ [obj]) fn r) :
    Gives seen (execStopRecursion fn obj)
      (if obj ∈ seen then some (.error .recursionErr) else caught r) := by
  intro s hframed hseen
  by_cases hmem : obj ∈ seen
  · rw [if_pos hmem]
    refine ⟨s, ?_, rfl, rfl, [], rfl⟩
    show (if obj ∈ s.recurseSet then _ else _ : Exec n UInt32) s = _
    rw [hseen, if_pos hmem]
    rfl
  · rw [if_neg hmem]
    have hexec : Cycles.execStopRecursion fn obj s =
        execGuarded fn obj { s with recurseSet := s.recurseSet ++ [obj] } := by
      show (if obj ∈ s.recurseSet then _ else _ : Exec n UInt32) s = _
      rw [hseen, if_neg hmem, ← hseen]
      rfl
    have herase : (s.recurseSet ++ [obj]).erase obj = s.recurseSet := by
      rw [hseen, List.erase_append_right _ hmem, List.erase_cons_head, List.append_nil]
    have hframed₁ : Framed (⟨s.th.addErrInfo .recursion, s.recurseSet ++ [obj]⟩ : State n) := by
      intro info hinfo
      cases hinfo
      exact Nat.le_refl _
    rcases h _ hframed₁ (by rw [hseen]) with ⟨s₁, hfn, hleft⟩
    rw [hexec]
    rcases r with _ | e | hash
    · have hprotect : vmProtect fn { s with recurseSet := s.recurseSet ++ [obj] } =
          (.error .fuel, s₁) := by
        unfold vmProtect
        dsimp only
        rw [hfn]
        rfl
      exact ⟨s₁, Command.bind_of_error hprotect, trivial⟩
    · rcases hleft with ⟨hset, hinfo, hframes⟩
      have hprotect := vmProtect_of_error (s := { s with recurseSet := s.recurseSet ++ [obj] }) hfn
        hinfo hframes
      refine ⟨_, Command.bind_of_ok hprotect, ?_, ?_, rfl⟩
      · exact (congrArg (List.erase · obj) hset).trans herase
      · exact congrArg List.tail hinfo
    · rcases hleft with ⟨hset, hinfo, hframes⟩
      have hprotect := vmProtect_of_ok (s := { s with recurseSet := s.recurseSet ++ [obj] }) hfn
        hframes
      refine ⟨_, Command.bind_of_ok hprotect, ?_, ?_, ?_⟩
      · exact (congrArg (List.erase · obj) hset).trans herase
      · show s₁.th.freeErrInfo.errInfo = _
        unfold Thread.freeErrInfo
        rw [hinfo]
        rfl
      · show s₁.th.freeErrInfo.frames = _
        unfold Thread.freeErrInfo
        rw [hinfo]
        exact hframes

end Calls

/-! ### The native methods do what their questions say -/

section Natives

variable {seen : List (Fin n)} {self : Fin n}

section Texts

variable {text : Value L n → Exec n Bytes} {f : Value L n → Option (Except Thrown Bytes)}
  (h : ∀ v, Gives seen (text v) (f v))

include h

end Texts

section Hashes

variable {valHash : Value L n → Exec n UInt32} {f : Value L n → Option (Except Thrown UInt32)}
  (h : ∀ v, Gives seen (valHash v) (f v)) (w : Graph L n)

include h

end Hashes

section Equality

variable {valEqual : Value L n → Value L n → Exec n Bool} {valHash : Value L n → Exec n UInt32}
  {f : Value L n × Value L n → Option (Except Thrown Bool)}
  {hash : Value L n → Ask (Value L n × Value L n) Bool Thrown UInt32}
  (h : ∀ x y, Gives seen (valEqual x y) (f (x, y)))

include h

theorem probe_gives (entries : List (Option (Value L n × Value L n))) (key : Value L n)
    (slots index : ℕ) :
    Gives seen (probe valEqual entries key slots index)
      ((probe (fun x y => question (x, y)) entries key slots index).run f) := by
  induction slots generalizing index with
  | zero => exact .pure _
  | succ slots ih =>
    unfold probe
    cases entries[index]?.join with
    | none => exact .pure _
    | some entry =>
      dsimp only
      rw [run_bind, run_question]
      refine (h entry.1 key).bind fun same => ?_
      cases same with
      | true => exact .pure _
      | false => exact ih _

variable (hhash : ∀ v, Gives seen (valHash v) ((hash v).run f))

include hhash

theorem tableGet_gives (table : Table L n) (key : Value L n) :
    Gives seen (tableGet valEqual valHash table key)
      ((tableGet (fun x y => question (x, y)) hash table key).run f) := by
  unfold tableGet
  by_cases hempty : table.entries.isEmpty = true
  · rw [if_pos hempty, if_pos hempty]
    exact .pure _
  · rw [if_neg hempty, if_neg hempty, run_bind]
    refine (hhash key).bind fun hash => ?_
    rw [run_bind]
    exact (probe_gives h _ _ _ _).bind fun entry => .pure _

end Equality

end Natives

/-! ## The recursive functions -/

section Recursion

variable (w : Graph L n) (seen : List (Fin n)) (fuel : ℕ)

end Recursion

/-! ### Hashes always come to an end -/

section Edges

variable (w : Graph L n)

/-- The elements of an array, the keys and values of a map. -/
def Graph.contents (r : Fin n) : List (Value L n) :=
  match w.objs r with
  | .array els => els
  | .map table => table.each.flatMap fun e => [e.1, e.2]

variable {s : State n} (hs : Framed s)

include hs

end Edges

/-- Arrays that contain the next one each. -/
def ring (n : ℕ) [NeZero n] : Graph Unit n where
  objs r := .array [.obj (r + 1)]
  leafObj _ := none
  leafHash _ := 2
  leafEqual _ _ := true
  leafText _ := bytes "nil"
  leafInspect _ := bytes "nil"

/-- At the start of a program. -/
def start (n : ℕ) : State n := ⟨{ frames := [{}] }, []⟩

end Clox.Cycles
