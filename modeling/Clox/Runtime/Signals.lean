import Clox.Lib.Commands
import Clox.Lib.Linked
import Mathlib.Data.Finmap

/-! # Signal handlers

`Signal.trap` keeps its handlers in a list in C memory that `sigHandlers` points at. A handler is
linked in before `sigaction` is called, and taken out again when that fails. What `malloc` and
`sigaction` answer is part of the call.
-/

namespace Clox.Signals

open Commands Commands.Command

variable {O : Type}

/-! ## The code -/

structure SigHandler (O : Type) where
  signum : ℤ
  callable : O
  next : Option ℕ

structure State (O : Type) where
  /-- The handlers in memory, by their addresses. -/
  nodes : Finmap fun _ : ℕ => SigHandler O
  sigHandlers : Option ℕ
  /-- The calls of `sigaction` so far, and whether they succeeded. -/
  sigactions : List (ℤ × Bool)

/-- Why a call does not return. -/
inductive Stop
  /-- `CHECK_ARITY` -/
  | arity (actual : ℕ)
  /-- "Expected argument 1 to be a number, got: %s" -/
  | notNumber
  /-- "Argument 2 must be a callable" -/
  | notCallable
  /-- "Error adding signal handler: %s" -/
  | notAdded (strerror : String)
  /-- A null or freed pointer was followed. -/
  | undefined
  /-- The loop over the list goes round. -/
  | endless
  deriving DecidableEq

inductive Value (O : Type)
  /-- A number, converted to `int`. -/
  | number (n : ℤ)
  /-- A class, a native function, a bound method or a closure. -/
  | callable (c : O)
  | other

/-- A call of `Signal.trap`. -/
structure Call (O : Type) where
  args : List (Value O)
  /-- What `ALLOCATE` returns. -/
  address : ℕ
  /-- The `errno` message if `sigaction` fails. -/
  sigaction : Option String

abbrev Exec (O : Type) := Command (State O) Stop

/-- The node that `p` points at. -/
def node (p : Option ℕ) : Exec O (ℕ × SigHandler O) :=
  look (fun s => p.bind fun a => (s.nodes.lookup a).map fun h => (a, h)) .undefined

def setNode (a : ℕ) (h : SigHandler O) : Exec O Unit :=
  modify fun s => { s with nodes := s.nodes.insert a h }

/-- `p->next = next` -/
def setNext (p next : Option ℕ) : Exec O Unit := do
  let (a, h) ← node p
  setNode a { h with next := next }

/-- `FREE` -/
def free (a : ℕ) : Exec O Unit := modify fun s => { s with nodes := s.nodes.erase a }

def sigaction (signum : ℤ) (failure : Option String) : Exec O ℤ := do
  modify fun s => { s with sigactions := s.sigactions ++ [(signum, failure.isNone)] }
  return if failure.isNone then 0 else -1

/-- `while (cur->next)` in `addSigHandler`: the last handler, and whether one before it has the
number. A walk that takes more rounds than there are nodes never ends. -/
def findLast (signum : ℤ) : ℕ → Option ℕ → Bool → Exec O (Option ℕ × Bool)
  | 0, _, _ => stop .endless
  | rounds + 1, cur, processHandlerExistsForSig => do
    let (_, h) ← node cur
    if h.next.isNone then
      return (cur, processHandlerExistsForSig)
    else
      findLast signum rounds h.next (processHandlerExistsForSig || h.signum = signum)

def addSigHandler (signum : ℤ) (callable : O) (handler : ℕ) (failure : Option String) :
    Exec O ℤ := do
  setNode handler { signum := signum, callable := callable, next := none }
  let s ← get
  let (prev, processHandlerExistsForSig) ←
    if s.sigHandlers.isNone then do
      modify fun s => { s with sigHandlers := some handler }
      pure (none, false)
    else do
      let (cur, found) ← findLast signum s.nodes.keys.card s.sigHandlers false
      setNext cur (some handler)
      pure (cur, found)
  if processHandlerExistsForSig then
    return 0
  let res ← sigaction signum failure
  if res ≠ 0 then
    setNext prev none
    free handler
    return -1
  return 0

/-- The checks of the arguments: the number and the callable. -/
def checkArgs : List (Value O) → Except Stop (ℤ × O)
  | [_, .number signum, .callable callable] => .ok (signum, callable)
  | [_, .number _, _] => .error .notCallable
  | [_, _, _] => .error .notNumber
  | args => .error (.arity args.length)

def check (args : List (Value O)) : Exec O (ℤ × O) := fun s => (checkArgs args, s)

def lxSignalTrapStatic (c : Call O) : Exec O Unit := do
  let (signum, callable) ← check c.args
  let res ← addSigHandler signum callable c.address c.sigaction
  if res ≠ 0 then
    stop (.notAdded (c.sigaction.getD ""))
  else
    return ()

/-! ## One call -/

/-- The pointer in the node at an address. -/
def State.next (s : State O) (a : ℕ) : Option ℕ := (s.nodes.lookup a).bind SigHandler.next

def State.handler (s : State O) (a : ℕ) : Option (ℤ × O) :=
  (s.nodes.lookup a).map fun h => (h.signum, h.callable)

/-- The list at `sigHandlers` is well formed and has these handlers: following the pointers one
meets live nodes and then null. -/
def State.Lists (s : State O) (handlers : List (ℤ × O)) : Prop :=
  ∃ l, Linked s.next s.sigHandlers l ∧ l.map s.handler = handlers.map some

/-- With the node `new` at the address `a` behind the last node, or at the front if there is
none. -/
def State.link (s : State O) (last : Option (ℕ × SigHandler O)) (a : ℕ) (new : SigHandler O) :
    State O :=
  match last with
  | none => { s with nodes := s.nodes.insert a new, sigHandlers := some a }
  | some (b, h) => { s with nodes := (s.nodes.insert a new).insert b { h with next := some a } }

variable {s : State O} {handlers : List (ℤ × O)} {l : List ℕ} {a : ℕ}

theorem node_of_lookup {h : SigHandler O} (hlookup : s.nodes.lookup a = some h) :
    node (some a) s = (.ok (a, h), s) := by
  apply look_of_some
  simp [hlookup]

theorem mem_nodes_of_mem (hl : l.map s.handler = handlers.map some) (ha : a ∈ l) :
    a ∈ s.nodes := by
  have hmem : s.handler a ∈ handlers.map some := hl ▸ List.mem_map_of_mem ha
  rcases List.mem_map.mp hmem with ⟨entry, -, hentry⟩
  rw [Finmap.mem_iff]
  cases hlookup : s.nodes.lookup a with
  | none => simp [State.handler, hlookup] at hentry
  | some h => exact ⟨h, rfl⟩

/-- The loop ends at the last handler and has looked at those before it. -/
theorem findLast_eq {p : Option ℕ} {signum : ℤ} {rounds : ℕ} {found : Bool}
    (hlinked : Linked s.next p l) (hl : l.map s.handler = handlers.map some) (hne : l ≠ [])
    (hrounds : l.length ≤ rounds) :
    findLast signum rounds p found s =
      (.ok (l.getLast?, found || handlers.dropLast.any fun e => e.1 = signum), s) := by
  induction hlinked generalizing handlers rounds found with
  | nil => exact absurd rfl hne
  | @cons b l hrest ih =>
    rcases List.map_eq_cons_iff.mp hl.symm with ⟨entry, rest, rfl, hentry, hmap⟩
    rcases Nat.exists_eq_add_of_le' (Nat.le_trans (by simp) hrounds : 1 ≤ rounds) with ⟨k, rfl⟩
    cases hlookup : s.nodes.lookup b with
    | none => simp [State.handler, hlookup] at hentry
    | some h =>
      have hnext : s.next b = h.next := by simp [State.next, hlookup]
      have hpair : entry = (h.signum, h.callable) := by
        simpa [State.handler, hlookup] using hentry
      simp only [findLast, bind_of_ok (node_of_lookup hlookup)]
      cases hrest' : l with
      | nil =>
        subst hrest'
        have hnull : h.next = none := by
          cases hnode : h.next with
          | none => rfl
          | some c =>
            rw [hnext, hnode] at hrest
            cases hrest
        have hend : rest = [] := by simpa using hmap
        simp [hnull, hend]
      | cons c l' =>
        have hsome : h.next = some c := by
          rw [hnext, hrest'] at hrest
          cases hrest' : h.next with
          | none => rw [hrest'] at hrest; cases hrest
          | some d =>
            rw [hrest'] at hrest
            cases hrest
            rfl
        have hrec := @ih rest k (found || decide (h.signum = signum)) hmap.symm (by simp [hrest'])
          (by simp at hrounds; omega)
        rw [hnext] at hrec
        rcases rest with _ | ⟨second, rest⟩
        · simp [hrest'] at hmap
        · simp only [hsome] at hrec ⊢
          simp [hrec, hrest', hpair, Bool.or_assoc]

/-- A new node behind the last one puts its handler at the end of the list. -/
theorem lists_link {new : SigHandler O} {last : Option (ℕ × SigHandler O)}
    (hlinked : Linked s.next s.sigHandlers l) (hl : l.map s.handler = handlers.map some)
    (hfresh : a ∉ s.nodes) (hnew : new.next = none) (hlast : last.map Prod.fst = l.getLast?)
    (hnode : ∀ b h, last = some (b, h) → s.nodes.lookup b = some h) :
    (s.link last a new).Lists (handlers ++ [(new.signum, new.callable)]) := by
  have hal : a ∉ l := fun hmem => hfresh (mem_nodes_of_mem hl hmem)
  have hother : ∀ b, b ≠ a → last.map Prod.fst ≠ some b →
      (s.link last a new).nodes.lookup b = s.nodes.lookup b := by
    intro b hba hb
    rcases last with _ | ⟨c, h⟩
    · simp [State.link, Finmap.lookup_insert_of_ne _ hba]
    · have hbc : b ≠ c := fun heq => hb (by simp [heq])
      simp [State.link, Finmap.lookup_insert_of_ne _ hba, Finmap.lookup_insert_of_ne _ hbc]
  have hself : (s.link last a new).nodes.lookup a = some new := by
    rcases last with _ | ⟨c, h⟩
    · simp [State.link]
    · have hac : a ≠ c := by
        rintro rfl
        exact hal (List.mem_of_getLast? hlast.symm)
      simp [State.link, Finmap.lookup_insert_of_ne _ hac]
  have hback : ∀ b h, last = some (b, h) →
      (s.link last a new).nodes.lookup b = some { h with next := some a } := by
    intro b h hb
    subst hb
    simp [State.link]
  refine ⟨l ++ [a], ?_, ?_⟩
  · have hstart : (s.link last a new).sigHandlers = if l = [] then some a else s.sigHandlers := by
      rcases last with _ | ⟨b, h⟩
      · have hnil : l = [] := List.getLast?_eq_none_iff.mp hlast.symm
        simp [State.link, hnil]
      · have hne : l ≠ [] := by
          rintro rfl
          cases hlast
        simp [State.link, hne]
    rw [hstart]
    refine Linked.insert (by simpa using hlinked) (by simpa using hal) ?_ ?_ ?_
    · simp [State.next, hself, hnew]
    · intro b hb
      rcases last with _ | ⟨c, h⟩
      · rw [← hlast] at hb
        cases hb
      · obtain rfl : c = b := by simpa [hb] using hlast
        simp [State.next, hback c h rfl]
    · intro b hba hb
      simp only [State.next, hother b hba (hlast ▸ hb)]
  · have hsame : ∀ b ∈ l, (s.link last a new).handler b = s.handler b := by
      intro b hb
      have hba : b ≠ a := fun heq => hal (heq ▸ hb)
      by_cases hlastb : last.map Prod.fst = some b
      · rcases last with _ | ⟨c, h⟩
        · cases hlastb
        · obtain rfl : c = b := by simpa using hlastb
          simp [State.handler, hback c h rfl, hnode c h rfl]
      · simp only [State.handler, hother b hba hlastb]
    rw [List.map_append, List.map_congr_left hsame, hl]
    simp [State.handler, hself]

/-- Taking the node out again leaves the list as it was. -/
theorem unlink {new h : SigHandler O} {b : ℕ} (hfresh : a ∉ s.nodes)
    (hb : s.nodes.lookup b = some h) (hnull : h.next = none) :
    ((s.nodes.insert a new).insert b { h with next := none }).erase a = s.nodes := by
  have hba : b ≠ a := by
    rintro rfl
    exact hfresh (Finmap.mem_of_lookup_eq_some hb)
  apply Finmap.ext_lookup
  intro c
  by_cases hca : c = a
  · rw [hca, Finmap.lookup_erase, Finmap.lookup_eq_none.mpr hfresh]
  · rw [Finmap.lookup_erase_ne hca]
    by_cases hcb : c = b
    · rw [hcb, Finmap.lookup_insert, hb, ← hnull]
    · rw [Finmap.lookup_insert_of_ne _ hcb, Finmap.lookup_insert_of_ne _ hca]

variable {signum : ℤ} {callable : O}

/-- The node that a call allocates. -/
def newNode (signum : ℤ) (callable : O) : SigHandler O :=
  { signum := signum, callable := callable, next := none }

/-- `s` after a call of `sigaction`. -/
def State.called (s : State O) (signum : ℤ) (success : Bool) : State O :=
  { s with sigactions := s.sigactions ++ [(signum, success)] }

/-- The first handler of all: a failure of `sigaction` has no predecessor to go back to. -/
theorem addSigHandler_empty (failure : Option String) (hempty : s.sigHandlers = none) :
    addSigHandler signum callable a failure s =
      (if failure.isNone then .ok 0 else .error .undefined,
        (s.link none a (newNode signum callable)).called signum failure.isNone) := by
  cases failure with
  | none =>
    simp [addSigHandler, setNode, sigaction, hempty, bind_apply, State.link, State.called, newNode]
  | some text =>
    simp [addSigHandler, setNode, setNext, node, look, sigaction, hempty, bind_apply, State.link,
      State.called, newNode]

/-- The list behind the allocation, seen through the old state. -/
theorem findLast_alloc {new : SigHandler O} (hlinked : Linked s.next s.sigHandlers l)
    (hl : l.map s.handler = handlers.map some) (hfresh : a ∉ s.nodes) (hne : l ≠ []) :
    findLast signum (s.nodes.insert a new).keys.card s.sigHandlers false
        { s with nodes := s.nodes.insert a new } =
      (.ok (l.getLast?, handlers.dropLast.any fun e => e.1 = signum),
        { s with nodes := s.nodes.insert a new }) := by
  have hal : ∀ b ∈ l, b ≠ a := by
    intro b hb heq
    exact hfresh (heq ▸ mem_nodes_of_mem hl hb)
  have hlookup : ∀ b ∈ l, (s.nodes.insert a new).lookup b = s.nodes.lookup b := by
    intro b hb
    exact Finmap.lookup_insert_of_ne _ (hal b hb)
  have hrounds : l.length ≤ (s.nodes.insert a new).keys.card := by
    rw [← List.toFinset_card_of_nodup hlinked.nodup]
    apply Finset.card_le_card
    intro b hb
    have hmem : b ∈ s.nodes := mem_nodes_of_mem hl (List.mem_toFinset.mp hb)
    rw [Finmap.mem_keys, Finmap.mem_insert]
    exact Or.inr hmem
  have hmap : l.map (State.handler { s with nodes := s.nodes.insert a new }) =
      handlers.map some := by
    rw [← hl]
    apply List.map_congr_left
    intro b hb
    simp only [State.handler, hlookup b hb]
  have hwalk : Linked (State.next { s with nodes := s.nodes.insert a new }) s.sigHandlers l := by
    apply hlinked.congr
    intro b hb
    simp only [State.next, hlookup b hb]
  have hfind := @findLast_eq _ _ _ _ _ signum _ false hwalk hmap hne hrounds
  rwa [Bool.false_or] at hfind

/-- A further handler: the number is not looked for in the last node of the list. -/
theorem addSigHandler_append (failure : Option String)
    (hlinked : Linked s.next s.sigHandlers l) (hl : l.map s.handler = handlers.map some)
    (hfresh : a ∉ s.nodes) {b : ℕ} {h : SigHandler O} (hlast : l.getLast? = some b)
    (hb : s.nodes.lookup b = some h) (hnull : h.next = none) :
    addSigHandler signum callable a failure s =
      if (handlers.dropLast.any fun e => e.1 = signum) then
        (.ok 0, s.link (some (b, h)) a (newNode signum callable))
      else if failure.isNone then
        (.ok 0, (s.link (some (b, h)) a (newNode signum callable)).called signum true)
      else
        (.ok (-1), s.called signum false) := by
  have hne : l ≠ [] := by
    rintro rfl
    cases hlast
  have hba : b ≠ a := by
    rintro rfl
    exact hfresh (mem_nodes_of_mem hl (List.mem_of_getLast? hlast))
  have hsome : s.sigHandlers ≠ none := by
    intro hempty
    rw [hempty] at hlinked
    cases hlinked
    exact hne rfl
  have hfind := @findLast_alloc _ s handlers l a signum (newNode signum callable) hlinked hl hfresh
    hne
  rw [hlast] at hfind
  have hnode : (s.nodes.insert a (newNode signum callable)).lookup b = some h := by
    rw [Finmap.lookup_insert_of_ne _ hba, hb]
  simp only [newNode] at hfind hnode
  have hback := @unlink _ s a (newNode signum callable) h b hfresh hb hnull
  simp only [newNode] at hback
  by_cases hfound : (handlers.dropLast.any fun e => decide (e.1 = signum)) = true
  · simp [addSigHandler, setNode, setNext, bind_apply, hsome, hfind, hfound, node, look, hnode,
      State.link, newNode]
  · rw [Bool.not_eq_true] at hfound
    rw [hfound] at hfind
    cases failure with
    | none =>
      simp [addSigHandler, setNode, setNext, bind_apply, hsome, hfind, hfound, node, look, hnode,
        State.link, State.called, newNode, sigaction]
    | some text =>
      simp [addSigHandler, setNode, setNext, bind_apply, hsome, hfind, hfound, node, look, hnode,
        State.called, sigaction, free, hback]

/-- What a call of `Signal.trap` can come to where the list has the given handlers. -/
inductive Outcome (s : State O) (handlers : List (ℤ × O)) (c : Call O) :
    Except Stop Unit → State O → Prop
  /-- The arguments do not pass the checks. -/
  | refused (e : Stop) (hargs : checkArgs c.args = .error e) (hsafe : e ≠ .undefined)
      (hends : e ≠ .endless) : Outcome s handlers c (.error e) s
  /-- An earlier handler, not the last one, has the number: `sigaction` is not called. -/
  | again (signum : ℤ) (callable : O) (t : State O)
      (hargs : checkArgs c.args = .ok (signum, callable))
      (hfound : signum ∈ handlers.dropLast.map Prod.fst)
      (hlists : t.Lists (handlers ++ [(signum, callable)])) (hcalls : t.sigactions = s.sigactions) :
      Outcome s handlers c (.ok ()) t
  | added (signum : ℤ) (callable : O) (t : State O)
      (hargs : checkArgs c.args = .ok (signum, callable))
      (hfound : signum ∉ handlers.dropLast.map Prod.fst) (hsuccess : c.sigaction = none)
      (hlists : t.Lists (handlers ++ [(signum, callable)]))
      (hcalls : t.sigactions = s.sigactions ++ [(signum, true)]) : Outcome s handlers c (.ok ()) t
  | failed (signum : ℤ) (callable : O) (strerror : String)
      (hargs : checkArgs c.args = .ok (signum, callable)) (hfailure : c.sigaction = some strerror)
      (hne : handlers ≠ []) :
      Outcome s handlers c (.error (.notAdded strerror)) (s.called signum false)
  /-- `prev->next` with no predecessor. -/
  | crashed (signum : ℤ) (callable : O) (t : State O)
      (hargs : checkArgs c.args = .ok (signum, callable)) (hfailure : c.sigaction ≠ none)
      (hempty : handlers = []) : Outcome s handlers c (.error .undefined) t

theorem checkArgs_error {args : List (Value O)} {e : Stop} (h : checkArgs args = .error e) :
    e ≠ .undefined ∧ e ≠ .endless := by
  unfold checkArgs at h
  split at h <;> cases h <;> exact ⟨by simp, by simp⟩

theorem trap_outcome (c : Call O) (hs : s.Lists handlers) (hfresh : c.address ∉ s.nodes) :
    Outcome s handlers c (lxSignalTrapStatic c s).1 (lxSignalTrapStatic c s).2 := by
  rcases hs with ⟨l, hlinked, hl⟩
  cases hargs : checkArgs c.args with
  | error e =>
    have hsafe := checkArgs_error hargs
    have heq : lxSignalTrapStatic c s = (.error e, s) := by
      simp [lxSignalTrapStatic, check, bind_apply, hargs]
    rw [heq]
    exact .refused e hargs hsafe.1 hsafe.2
  | ok arg =>
    obtain ⟨signum, callable⟩ := arg
    have hlists : ∀ last, last.map Prod.fst = l.getLast? →
        (∀ b h, last = some (b, h) → s.nodes.lookup b = some h) →
        (s.link last c.address (newNode signum callable)).Lists
          (handlers ++ [(signum, callable)]) := by
      intro last hlast hnode
      exact lists_link hlinked hl hfresh rfl hlast hnode
    cases hlast : l.getLast? with
    | none =>
      have hnil : l = [] := List.getLast?_eq_none_iff.mp hlast
      subst hnil
      have hempty : handlers = [] := by simpa using hl.symm
      have hnull : s.sigHandlers = none := by
        generalize s.sigHandlers = p at hlinked
        cases hlinked
        rfl
      have hadd := @addSigHandler_empty _ s c.address signum callable c.sigaction hnull
      cases hsig : c.sigaction with
      | none =>
        have heq : lxSignalTrapStatic c s =
            (.ok (), (s.link none c.address (newNode signum callable)).called signum true) := by
          rw [hsig] at hadd
          simp [lxSignalTrapStatic, check, bind_apply, hargs, hsig, hadd]
        rw [heq]
        exact .added signum callable _ hargs (by simp [hempty]) hsig
          (hlists none (by simp) (by simp)) rfl
      | some text =>
        have hres : (lxSignalTrapStatic c s).1 = .error .undefined := by
          rw [hsig] at hadd
          simp [lxSignalTrapStatic, check, bind_apply, hargs, hsig, hadd]
        rw [hres]
        exact .crashed signum callable _ hargs (by simp [hsig]) hempty
    | some b =>
      have hmem : b ∈ l := List.mem_of_getLast? hlast
      rcases Finmap.mem_iff.mp (mem_nodes_of_mem hl hmem) with ⟨h, hb⟩
      have hne : handlers ≠ [] := by
        rintro rfl
        simp only [List.map_nil, List.map_eq_nil_iff] at hl
        simp [hl] at hmem
      -- the pointer of the last node is null
      have hnull : h.next = none := by
        rcases List.getLast?_eq_some_iff.mp hlast with ⟨front, rfl⟩
        have hend := hlinked.rest_next
        rw [State.next, hb] at hend
        cases hnext : h.next with
        | none => rfl
        | some d =>
          rw [Option.bind_some, hnext] at hend
          cases hend
      have hadd := @addSigHandler_append _ s handlers l c.address signum callable c.sigaction
        hlinked hl hfresh b h hlast hb hnull
      have hlinks := hlists (some (b, h)) (by simp [hlast]) (by
        intro b' h' heq
        obtain ⟨rfl, rfl⟩ : b = b' ∧ h = h' := by simpa using heq
        exact hb)
      by_cases hfound : signum ∈ handlers.dropLast.map Prod.fst
      · have hany : (handlers.dropLast.any fun e => decide (e.1 = signum)) = true := by
          rcases List.mem_map.mp hfound with ⟨entry, hentry, rfl⟩
          exact List.any_eq_true.mpr ⟨entry, hentry, by simp⟩
        have heq : lxSignalTrapStatic c s =
            (.ok (), s.link (some (b, h)) c.address (newNode signum callable)) := by
          rw [hany] at hadd
          simp [lxSignalTrapStatic, check, bind_apply, hargs, hadd]
        rw [heq]
        exact .again signum callable _ hargs hfound hlinks rfl
      · have hany : (handlers.dropLast.any fun e => decide (e.1 = signum)) = false := by
          rw [← Bool.not_eq_true, List.any_eq_true]
          rintro ⟨entry, hentry, heq⟩
          exact hfound (List.mem_map.mpr ⟨entry, hentry, by simpa using heq⟩)
        rw [hany] at hadd
        cases hsig : c.sigaction with
        | none =>
          have heq : lxSignalTrapStatic c s = (.ok (),
              (s.link (some (b, h)) c.address (newNode signum callable)).called signum true) := by
            rw [hsig] at hadd
            simp [lxSignalTrapStatic, check, bind_apply, hargs, hsig, hadd]
          rw [heq]
          exact .added signum callable _ hargs hfound hsig hlinks rfl
        | some text =>
          have heq : lxSignalTrapStatic c s =
              (.error (.notAdded text), s.called signum false) := by
            rw [hsig] at hadd
            simp [lxSignalTrapStatic, check, bind_apply, hargs, hsig, hadd]
          rw [heq]
          exact .failed signum callable text hargs hsig hne

/-! ## Runs -/

/-- `NULL` at the start. -/
def State.init : State O := { nodes := ∅, sigHandlers := none, sigactions := [] }

/-- A call that was made. -/
structure Done (O : Type) where
  before : State O
  call : Call O
  result : Except Stop Unit
  after : State O

def Call.perform (c : Call O) (s : State O) : Done O :=
  { before := s, call := c, result := (lxSignalTrapStatic c s).1,
    after := (lxSignalTrapStatic c s).2 }

/-- The state behind the calls, of which the first is the latest. -/
def endState : List (Done O) → State O
  | [] => .init
  | d :: _ => d.after

/-- A call that ended in undefined behaviour. -/
def Done.Crashed (d : Done O) : Prop := d.result = .error .undefined ∨ d.result = .error .endless

/-- The runs: after one another any calls, with a free address for the node of each and any answer
of `sigaction`, until one crashes. The latest call comes first. -/
inductive Run : List (Done O) → Prop
  | start : Run []
  | call (done : List (Done O)) (c : Call O) : Run done → (∀ d ∈ done, ¬ d.Crashed) →
      c.address ∉ (endState done).nodes → Run (c.perform (endState done) :: done)

/-- The handler of a call that returned. -/
def Done.handler (d : Done O) : Option (ℤ × O) :=
  match d.result with
  | .ok () => (checkArgs d.call.args).toOption
  | .error _ => none

/-- The handlers of the calls that returned, in the order of the calls. -/
def registered (done : List (Done O)) : List (ℤ × O) := done.reverse.filterMap Done.handler

/-- The numbers with which `sigaction` succeeded. -/
def State.successes (s : State O) : List ℤ := (s.sigactions.filter Prod.snd).map Prod.fst

/-- The state behind the calls is what registering the handlers at once would have made of it. -/
structure Registration (done : List (Done O)) : Prop where
  handlers : (endState done).Lists (registered done)
  once : (endState done).successes.Nodup
  safe : ∀ d ∈ done, ¬ d.Crashed
  /-- A call whose `sigaction` fails raises an error and leaves the list. -/
  failed : ∀ d ∈ done, ∀ signum, d.after.sigactions = d.before.sigactions ++ [(signum, false)] →
    (∃ strerror, d.call.sigaction = some strerror ∧ d.result = .error (.notAdded strerror)) ∧
      d.after.nodes = d.before.nodes ∧ d.after.sigHandlers = d.before.sigHandlers

/-- After each of the calls. -/
def Atomic (done : List (Done O)) : Prop := ∀ earlier, earlier <:+ done → Registration earlier

/-- On an empty list `sigaction` has to succeed, and it must not succeed where the number is that
of the last handler only. -/
def Meets (s : State O) (c : Call O) : Prop :=
  ∀ signum callable handlers, checkArgs c.args = .ok (signum, callable) → s.Lists handlers →
    (c.sigaction ≠ none → handlers ≠ []) ∧
    (c.sigaction = none → handlers.getLast?.map Prod.fst = some signum →
      signum ∈ handlers.dropLast.map Prod.fst)

variable {done : List (Done O)} {c : Call O}

theorem Lists.unique {handlers' : List (ℤ × O)} (h : s.Lists handlers) (h' : s.Lists handlers') :
    handlers = handlers' := by
  rcases h with ⟨l, hlinked, hl⟩
  rcases h' with ⟨l', hlinked', hl'⟩
  obtain rfl := hlinked.unique hlinked'
  exact List.map_injective_iff.mpr (Option.some_injective _) (hl.symm.trans hl')

theorem registered_cons (d : Done O) :
    registered (d :: done) = registered done ++ d.handler.toList := by
  rw [registered, List.reverse_cons, List.filterMap_append]
  cases h : d.handler <;> simp [registered, h]

@[simp] theorem successes_called (signum : ℤ) (success : Bool) :
    (s.called signum success).successes = s.successes ++ if success then [signum] else [] := by
  cases success <;> simp [State.successes, State.called]

/-- The numbers that `sigaction` accepted are those of the registered handlers. -/
def SameNumbers (done : List (Done O)) : Prop :=
  ∀ signum, signum ∈ (endState done).successes ↔ signum ∈ (registered done).map Prod.fst

/-- A call that returns has added its handler. -/
theorem perform_handler {signum : ℤ} {callable : O}
    (hargs : checkArgs c.args = .ok (signum, callable))
    (hresult : (lxSignalTrapStatic c s).1 = .ok ()) :
    (c.perform s).handler = some (signum, callable) := by
  simp [Done.handler, Call.perform, hresult, hargs, Except.toOption]

theorem perform_handler_error {e : Stop} (hresult : (lxSignalTrapStatic c s).1 = .error e) :
    (c.perform s).handler = none := by
  simp [Done.handler, Call.perform, hresult]

/-- One call that meets the condition. -/
theorem Registration.perform (hreg : Registration done) (hsame : SameNumbers done)
    (hfresh : c.address ∉ (endState done).nodes) (hmeets : Meets (endState done) c) :
    Registration (c.perform (endState done) :: done) ∧
      SameNumbers (c.perform (endState done) :: done) := by
  have hcase := trap_outcome c hreg.handlers hfresh
  generalize hr : (lxSignalTrapStatic c (endState done)).1 = r at hcase
  generalize ht : (lxSignalTrapStatic c (endState done)).2 = t at hcase
  have hresult : (c.perform (endState done)).result = r := hr
  have hafter : (c.perform (endState done)).after = t := ht
  have hend : endState (c.perform (endState done) :: done) = t := ht
  -- what is left to say about the latest call
  have hbuild : (handlers' : List (ℤ × O)) →
      registered done ++ (c.perform (endState done)).handler.toList = handlers' →
      t.Lists handlers' → t.successes.Nodup → r ≠ .error .undefined → r ≠ .error .endless →
      (∀ signum, t.sigactions = (endState done).sigactions ++ [(signum, false)] →
        (∃ strerror, c.sigaction = some strerror ∧ r = .error (.notAdded strerror)) ∧
          t.nodes = (endState done).nodes ∧ t.sigHandlers = (endState done).sigHandlers) →
      (∀ signum, signum ∈ t.successes ↔ signum ∈ handlers'.map Prod.fst) →
      Registration (c.perform (endState done) :: done) ∧
        SameNumbers (c.perform (endState done) :: done) := by
    intro handlers' hregistered hlists honce hundefined hendless hfailed hnumbers
    rw [← registered_cons] at hregistered
    refine ⟨⟨?_, ?_, ?_, ?_⟩, ?_⟩
    · rw [hend, hregistered]
      exact hlists
    · rw [hend]
      exact honce
    · intro d hd
      rcases List.mem_cons.mp hd with rfl | hd
      · rintro (h | h)
        · exact hundefined (hresult ▸ h)
        · exact hendless (hresult ▸ h)
      · exact hreg.safe d hd
    · intro d hd signum hcalls
      rcases List.mem_cons.mp hd with rfl | hd
      · rw [hafter] at hcalls ⊢
        rw [hresult]
        exact hfailed signum hcalls
      · exact hreg.failed d hd signum hcalls
    · intro signum
      rw [hend, hregistered]
      exact hnumbers signum
  cases hcase with
  | refused e hargs hsafe hends =>
    refine hbuild (registered done) ?_ hreg.handlers hreg.once (by simpa using hsafe)
      (by simpa using hends) ?_ hsame
    · rw [perform_handler_error hr]
      simp
    · intro signum hcalls
      simp at hcalls
  | again signum callable t hargs hfound hlists hcalls =>
    have hsuccesses : t.successes = (endState done).successes := by
      rw [State.successes, hcalls, State.successes]
    refine hbuild (registered done ++ [(signum, callable)]) ?_ hlists ?_ (by simp) (by simp) ?_ ?_
    · rw [perform_handler hargs hr]
      simp
    · rw [hsuccesses]
      exact hreg.once
    · intro n hn
      simp [hcalls] at hn
    · intro n
      have hmem : signum ∈ (registered done).map Prod.fst := by
        rcases List.mem_map.mp hfound with ⟨entry, hentry, heq⟩
        exact List.mem_map.mpr ⟨entry, List.mem_of_mem_dropLast hentry, heq⟩
      rw [hsuccesses, hsame n, List.map_append, List.mem_append]
      constructor
      · exact Or.inl
      · rintro (h | h)
        · exact h
        · obtain rfl : n = signum := by simpa using h
          exact hmem
  | added signum callable t hargs hfound hsuccess hlists hcalls =>
    have hsuccesses : t.successes = (endState done).successes ++ [signum] := by
      simp [State.successes, hcalls]
    have hnew : signum ∉ (registered done).map Prod.fst := by
      intro hmem
      rcases List.eq_nil_or_concat (registered done) with hnil | ⟨front, entry, hfront⟩
      · simp [hnil] at hmem
      · rw [hfront] at hfound
        simp only [List.concat_eq_append, List.dropLast_concat] at hfound
        have hlast : entry.1 = signum := by
          rw [hfront, List.concat_eq_append, List.map_append, List.mem_append] at hmem
          rcases hmem with hmem | hmem
          · exact absurd hmem hfound
          · simpa [eq_comm] using hmem
        have hmem' := (hmeets signum callable _ hargs hreg.handlers).2 hsuccess
          (by simp [hfront, hlast])
        rw [hfront] at hmem'
        simp only [List.concat_eq_append, List.dropLast_concat] at hmem'
        exact hfound hmem'
    refine hbuild (registered done ++ [(signum, callable)]) ?_ hlists ?_ (by simp) (by simp) ?_ ?_
    · rw [perform_handler hargs hr]
      simp
    · rw [hsuccesses]
      refine List.nodup_append.mpr ⟨hreg.once, by simp, ?_⟩
      intro n hn m hm heq
      obtain rfl : m = signum := by simpa using hm
      exact hnew ((hsame m).mp (heq ▸ hn))
    · intro n hn
      rw [hcalls] at hn
      simp at hn
    · intro n
      rw [hsuccesses]
      simp [hsame n]
  | failed signum callable strerror hargs hfailure hne =>
    refine hbuild (registered done) ?_ hreg.handlers ?_ (by simp) (by simp) ?_ ?_
    · rw [perform_handler_error hr]
      simp
    · simpa using hreg.once
    · intro n hn
      exact ⟨⟨strerror, hfailure, rfl⟩, rfl, rfl⟩
    · simpa [SameNumbers] using hsame
  | crashed signum callable t hargs hfailure hempty =>
    exact absurd hempty ((hmeets signum callable _ hargs hreg.handlers).1 hfailure)

/-- One call that does not meet it. -/
theorem Registration.meets (hreg : Registration done) (hsame : SameNumbers done)
    (hfresh : c.address ∉ (endState done).nodes)
    (hnext : Registration (c.perform (endState done) :: done)) : Meets (endState done) c := by
  intro signum callable handlers hargs hlists
  obtain rfl := Lists.unique hreg.handlers hlists
  have hcase := trap_outcome c hreg.handlers hfresh
  generalize hr : (lxSignalTrapStatic c (endState done)).1 = r at hcase
  generalize ht : (lxSignalTrapStatic c (endState done)).2 = t at hcase
  have hend : endState (c.perform (endState done) :: done) = t := ht
  cases hcase with
  | refused e hargs' =>
    rw [hargs] at hargs'
    cases hargs'
  | again signum' callable' t hargs' hfound hlists' hcalls =>
    obtain ⟨rfl, rfl⟩ : signum = signum' ∧ callable = callable' := by simpa [hargs] using hargs'
    constructor
    · rintro - hempty
      simp [hempty] at hfound
    · intro _ _
      exact hfound
  | added signum' callable' t hargs' hfound hsuccess hlists' hcalls =>
    obtain ⟨rfl, rfl⟩ : signum = signum' ∧ callable = callable' := by simpa [hargs] using hargs'
    refine ⟨fun h => absurd hsuccess h, ?_⟩
    intro _ hlast
    exfalso
    -- the second success with the number of the last handler
    have honce := hnext.once
    have hsuccesses : t.successes = (endState done).successes ++ [signum] := by
      simp [State.successes, hcalls]
    rw [hend, hsuccesses] at honce
    have hmem : signum ∈ (registered done).map Prod.fst := by
      rcases Option.map_eq_some_iff.mp hlast with ⟨entry, hentry, rfl⟩
      exact List.mem_map_of_mem (List.mem_of_getLast? hentry)
    exact (List.nodup_append.mp honce).2.2 signum ((hsame signum).mpr hmem) signum (by simp) rfl
  | failed signum' callable' strerror hargs' hfailure hne =>
    refine ⟨fun _ => hne, ?_⟩
    intro hsuccess
    rw [hsuccess] at hfailure
    cases hfailure
  | crashed signum' callable' t hargs' hfailure hempty =>
    have hcrash : (c.perform (endState done)).Crashed := Or.inl hr
    exact absurd hcrash (hnext.safe _ List.mem_cons_self)

theorem registration_start :
    Registration ([] : List (Done O)) ∧ SameNumbers ([] : List (Done O)) := by
  refine ⟨⟨⟨[], .nil, by simp [registered]⟩, by simp [endState, State.init, State.successes],
    by simp, by simp⟩, ?_⟩
  intro signum
  simp [endState, State.init, State.successes, registered]

/-- In a run the registration is atomic after each call if and only if every call meets the
condition. -/
theorem atomic_iff (hrun : Run done) :
    Atomic done ↔ ∀ d ∈ done, Meets d.before d.call := by
  have hboth : (Atomic done → SameNumbers done) ∧
      (Atomic done ↔ ∀ d ∈ done, Meets d.before d.call) := by
    induction hrun with
    | start =>
      refine ⟨fun _ => registration_start.2, fun _ => by simp, ?_⟩
      intro _ earlier hearlier
      obtain rfl := List.suffix_nil.mp hearlier
      exact registration_start.1
    | call done c hrun _ hfresh ih =>
      have hback : Atomic (c.perform (endState done) :: done) → Atomic done := by
        intro hatomic earlier hearlier
        exact hatomic earlier (hearlier.trans (List.suffix_cons _ _))
      have hfront : Atomic done → Registration (c.perform (endState done) :: done) →
          Atomic (c.perform (endState done) :: done) := by
        intro hatomic hreg earlier hearlier
        rcases List.suffix_cons_iff.mp hearlier with rfl | hearlier
        · exact hreg
        · exact hatomic earlier hearlier
      have hmeets : Atomic (c.perform (endState done) :: done) → Meets (endState done) c := by
        intro hatomic
        have hdone := hback hatomic
        exact (hdone done List.suffix_rfl).meets (ih.1 hdone) hfresh (hatomic _ List.suffix_rfl)
      refine ⟨?_, ?_, ?_⟩
      · intro hatomic
        have hdone := hback hatomic
        exact ((hdone done List.suffix_rfl).perform (ih.1 hdone) hfresh (hmeets hatomic)).2
      · intro hatomic d hd
        rcases List.mem_cons.mp hd with rfl | hd
        · exact hmeets hatomic
        · exact ih.2.mp (hback hatomic) d hd
      · intro hall
        have hdone : Atomic done := ih.2.mpr fun d hd => hall d (List.mem_cons_of_mem _ hd)
        have hcall : Meets (endState done) c := hall _ List.mem_cons_self
        exact hfront hdone ((hdone done List.suffix_rfl).perform (ih.1 hdone) hfresh hcall).1
  exact hboth.2

/-- `Signal.trap(15, f)`, which succeeds. -/
def trapTerm : Call ℕ :=
  { args := [.other, .number 15, .callable 0], address := 0, sigaction := none }

theorem atomic_iff_trapTerm : Run [trapTerm.perform .init] ∧
    (Atomic [trapTerm.perform .init] ↔ Meets .init trapTerm) := by
  have hrun : Run [trapTerm.perform .init] :=
    .call [] trapTerm .start (by simp) (Finmap.notMem_empty)
  refine ⟨hrun, ?_⟩
  rw [atomic_iff hrun]
  simp [Call.perform]

/-- `Signal.trap(9, f)`: no handler can be set for `KILL`. -/
def trapKill : Call ℕ :=
  { args := [.other, .number 9, .callable 0], address := 0, sigaction := some "Invalid argument" }

/-- As the first call of all it follows a null pointer. -/
theorem trapKill_crashes : ¬ ∀ done : List (Done ℕ), Run done → Atomic done := by
  intro hatomic
  have hrun : Run [trapKill.perform .init] :=
    .call [] trapKill .start (by simp) (Finmap.notMem_empty)
  have hreg := hatomic _ hrun _ List.suffix_rfl
  have hadd := @addSigHandler_empty ℕ .init 0 9 0 trapKill.sigaction rfl
  have hcrash : (trapKill.perform .init).Crashed := by
    left
    simp only [Call.perform, lxSignalTrapStatic, check, bind_apply, trapKill, checkArgs]
    simp only [trapKill] at hadd
    rw [hadd]
    rfl
  exact hreg.safe _ List.mem_cons_self hcrash

end Clox.Signals
