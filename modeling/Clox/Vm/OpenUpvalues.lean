import Mathlib.Data.List.TakeWhile
import Clox.Lib.Linked
import Clox.Vm.Locals

/-! # The lists of open upvalues

`captureUpvalue` and `closeUpvalues` on the linked list of `ObjUpvalue`s that
each thread keeps of its open upvalues, with the collector that frees upvalue
objects between them. The list goes through the objects: it is as good as they
are, and the collector grays the values that the list leads to but not the
objects on it.

* `Sorted`: the lists are finite, disjoint and strictly descending;
* `captureUpvalue_sorted`, `closeUpvalues_sorted`: both functions keep it;
* `Run.openUpvalues`: they do what they are for in every state of a run whose
  collections free no upvalue that is still on a list.
-/

namespace Clox

abbrev ThreadId := ℕ

/-- An `ObjUpvalue`, with the pointer for the list. -/
structure LinkedUpvalue (V : Type) extends ObjUpvalue V where
  next : Option UpvalueId

/-- The memory that upvalues live in and point to. -/
structure UpvalueHeap (V : Type) where
  /-- The operand stacks of all threads and execution contexts, by address. -/
  mem : ℕ → V
  /-- What is in an object's memory, also when it has been freed. -/
  cells : UpvalueId → LinkedUpvalue V
  /-- `type` is not `OBJ_T_NONE`. -/
  allocated : UpvalueId → Bool
  /-- `th->openUpvalues` -/
  openUpvalues : ThreadId → Option UpvalueId
  /-- What is in the `upvalues` of the closures that are reachable. -/
  held : List UpvalueId

/-- What `ALLOCATE_OBJ` finds: the upvalues that a collection frees, if one runs, and a free
object. -/
structure Allocation where
  freed : List UpvalueId
  object : UpvalueId

namespace UpvalueHeap

variable {V : Type} (s : UpvalueHeap V)

/-- `upvalue->value`; `none` when it points at `closed` -/
def value (u : UpvalueId) : Option ℕ := (s.cells u).value

def next (u : UpvalueId) : Option UpvalueId := (s.cells u).next

/-- `*upvalue->value` -/
def read (u : UpvalueId) : V :=
  match s.value u with
  | some a => s.mem a
  | none => (s.cells u).closed

/-- `upvalue->value > local` -/
def isAbove (loc : ℕ) (u : UpvalueId) : Bool := (s.value u).any fun a => loc < a

/-- `upvalue->value >= last` -/
def isFrom (last : ℕ) (u : UpvalueId) : Bool := (s.value u).any fun a => last ≤ a

def setOpen (t : ThreadId) (u : Option UpvalueId) : UpvalueHeap V :=
  { s with openUpvalues := Function.update s.openUpvalues t u }

def setNext (u : UpvalueId) (next : Option UpvalueId) : UpvalueHeap V :=
  { s with cells := Function.update s.cells u { s.cells u with next } }

/-- A collection that frees these objects. -/
def collect (freed : List UpvalueId) : UpvalueHeap V :=
  { s with allocated := fun u => s.allocated u && decide (u ∉ freed) }

/-- An object is taken for what is in `cell`. -/
def allocate (u : UpvalueId) (cell : LinkedUpvalue V) : UpvalueHeap V :=
  { s with
    cells := Function.update s.cells u cell
    allocated := Function.update s.allocated u true }

/-- `newUpvalue` -/
def newUpvalue [Inhabited V] (a : Allocation) (slot : ℕ) : Option (UpvalueHeap V × UpvalueId) :=
  let s := s.collect a.freed
  if s.allocated a.object then none
  else some (s.allocate a.object { closed := default, value := some slot, next := none }, a.object)

/-- `captureUpvalue`; `none` when the loop takes more than `fuel` rounds. -/
def captureUpvalue [Inhabited V] (t : ThreadId) (loc : ℕ) (a : Allocation) (fuel : ℕ) :
    Option (UpvalueHeap V × UpvalueId) :=
  match s.openUpvalues t with
  | none => do
    let (s, created) ← s.newUpvalue a loc
    some (s.setOpen t (some created), created)
  | some first => do
    let (prevUpvalue, upvalue) ← Linked.advance s.next (s.isAbove loc) fuel none (some first)
    match upvalue.filter fun u => s.value u = some loc with
    | some u => some (s, u) -- found it, reuse it
    | none =>
      let (s, created) ← s.newUpvalue a loc
      let s := s.setNext created upvalue
      match prevUpvalue with
      | none => some (s.setOpen t (some created), created)
      | some prev => some (s.setNext prev (some created), created)

/-- The body of the loop of `closeUpvalues`. -/
def closeFirst (t : ThreadId) (u : UpvalueId) : UpvalueHeap V :=
  { s with
    cells := Function.update s.cells u { closed := s.read u, value := none, next := s.next u }
    openUpvalues := Function.update s.openUpvalues t (s.next u) }

/-- `closeUpvalues`; `none` when the loop takes more than `fuel` tests. -/
def closeUpvalues (t : ThreadId) (last : ℕ) : ℕ → UpvalueHeap V → Option (UpvalueHeap V)
  | 0, _ => none
  | fuel + 1, s =>
    match s.openUpvalues t with
    | none => some s
    | some u => if s.isFrom last u then closeUpvalues t last fuel (s.closeFirst t u) else some s

/-! ## Runs -/

/-- What happens to upvalues. -/
inductive Op (V : Type) where
  | capture (t : ThreadId) (loc : ℕ) (a : Allocation)
  | close (t : ThreadId) (last : ℕ)
  | collect (freed : List UpvalueId)
  /-- `OP_SET_UPVALUE` -/
  | write (u : UpvalueId) (v : V)
  /-- Pushes, pops, stores into locals, stacks that are allocated, moved and freed. -/
  | stack (mem : ℕ → V)
  /-- Closures become unreachable. -/
  | release (held : List UpvalueId)
  /-- A free object is taken for something else than an upvalue. -/
  | reuse (u : UpvalueId) (cell : LinkedUpvalue V)
  /-- `LxThreadSetup` of a new thread, `exitingThread` of an old one. -/
  | reset (t : ThreadId)

/-- `*upvalue->value = v` -/
def write (u : UpvalueId) (v : V) : UpvalueHeap V :=
  match s.value u with
  | some a => { s with mem := Function.update s.mem a v }
  | none => { s with cells := Function.update s.cells u { s.cells u with closed := v } }

inductive Step [Inhabited V] : UpvalueHeap V → Op V → UpvalueHeap V → Prop where
  | capture {s s' : UpvalueHeap V} {t : ThreadId} {loc : ℕ} {a : Allocation} (fuel : ℕ)
      {u : UpvalueId} : s.captureUpvalue t loc a fuel = some (s', u) →
      Step s (.capture t loc a) { s' with held := u :: s'.held }
  | close {s s' : UpvalueHeap V} {t : ThreadId} {last fuel : ℕ} :
      closeUpvalues t last fuel s = some s' → Step s (.close t last) s'
  | collect {s : UpvalueHeap V} {freed : List UpvalueId} :
      Step s (.collect freed) (s.collect freed)
  | write {s : UpvalueHeap V} {u : UpvalueId} {v : V} : Step s (.write u v) (s.write u v)
  | stack {s : UpvalueHeap V} {mem : ℕ → V} : Step s (.stack mem) { s with mem }
  | release {s : UpvalueHeap V} {held : List UpvalueId} : held ⊆ s.held →
      Step s (.release held) { s with held }
  | reuse {s : UpvalueHeap V} {u : UpvalueId} {cell : LinkedUpvalue V} : s.allocated u = false →
      Step s (.reuse u cell) (s.allocate u cell)
  | reset {s : UpvalueHeap V} {t : ThreadId} : Step s (.reset t) (s.setOpen t none)

/-- Before the first thread runs. -/
def initial (mem : ℕ → V) (cells : UpvalueId → LinkedUpvalue V) : UpvalueHeap V where
  mem := mem
  cells := cells
  allocated := fun _ => false
  openUpvalues := fun _ => none
  held := []

/-- The states reached by steps that all meet the condition. -/
inductive Run [Inhabited V] (Meets : UpvalueHeap V → Op V → Prop) : UpvalueHeap V → Prop where
  | initial (mem : ℕ → V) (cells : UpvalueId → LinkedUpvalue V) : Run Meets (initial mem cells)
  | step {s s' : UpvalueHeap V} (op : Op V) : Run Meets s → Meets s op → Step s op s' → Run Meets s'

/-! ## What the lists are for -/

/-- The open upvalues of the thread, strictly descending by the slots they point at. -/
structure OpenList (t : ThreadId) (l : List UpvalueId) : Prop where
  linked : Linked s.next (s.openUpvalues t) l
  isOpen : ∀ u ∈ l, ∃ a, s.value u = some a
  descending : l.Pairwise fun u v => ∀ a b, s.value u = some a → s.value v = some b → b < a

/-- A slot that is captured already has its upvalue returned. -/
def Reuses [Inhabited V] : Prop :=
  ∀ t l, s.OpenList t l → ∀ u ∈ l, ∀ loc, s.value u = some loc → ∀ a fuel, l.length ≤ fuel →
    s.captureUpvalue t loc a fuel = some (s, u)

/-- The upvalues from `last` on are closed with the value they had; nothing else changes. -/
structure Closes (t : ThreadId) (l : List UpvalueId) (last : ℕ) (s' : UpvalueHeap V) : Prop where
  rest : s'.OpenList t (l.filter fun u => !s.isFrom last u)
  closed : ∀ u ∈ l, s.isFrom last u = true → s'.value u = none
  others : ∀ u, (u ∈ l → s.isFrom last u = false) → s'.cells u = s.cells u
  read : ∀ u, s'.read u = s.read u
  threads : ∀ t', t' ≠ t → s'.openUpvalues t' = s.openUpvalues t'
  mem : s'.mem = s.mem
  allocated : s'.allocated = s.allocated

/-- `closeUpvalues` returns and closes exactly the upvalues from `last` on. -/
def ClosesExactly : Prop :=
  ∀ t l, s.OpenList t l → ∀ last fuel, l.length < fuel →
    ∃ s', closeUpvalues t last fuel s = some s' ∧ s.Closes t l last s'

/-- The open upvalues of every thread are as they should be. -/
structure WellKept [Inhabited V] : Prop where
  sorted : ∀ t, ∃ l, s.OpenList t l
  reuses : s.Reuses
  closes : s.ClosesExactly

/-- What a collection frees. -/
def Op.freed : Op V → List UpvalueId
  | .collect freed => freed
  | .capture _ _ a => a.freed
  | _ => []

/-- No closure holds what is freed. -/
def KeepsHeld (op : Op V) : Prop := ∀ u ∈ op.freed, u ∉ s.held

/-- No upvalue that is freed is on a list. -/
def KeepsOpen (op : Op V) : Prop := ∀ u ∈ op.freed, ∀ t l, s.OpenList t l → u ∉ l

/-- Every thread has its open list: the lists share no upvalue, and no upvalue on them is freed. -/
structure Sorted (lists : ThreadId → List UpvalueId) : Prop where
  isList : ∀ t, s.OpenList t (lists t)
  allocated : ∀ t, ∀ u ∈ lists t, s.allocated u = true
  disjoint : ∀ t t', t ≠ t' → ∀ u ∈ lists t, u ∉ lists t'

/-! ## The lists -/

section

variable {s} {s' : UpvalueHeap V} {t : ThreadId} {l : List UpvalueId} {u : UpvalueId}
  {loc last fuel : ℕ}

@[simp]
theorem isAbove_of_value {a : ℕ} (h : s.value u = some a) : s.isAbove loc u = decide (loc < a) := by
  simp [isAbove, h]

@[simp]
theorem isFrom_of_value {a : ℕ} (h : s.value u = some a) : s.isFrom last u = decide (last ≤ a) := by
  simp [isFrom, h]

namespace OpenList

/-- A list depends on the objects on it only. -/
theorem congr (h : s.OpenList t l) (hopen : s'.openUpvalues t = s.openUpvalues t)
    (hvalue : ∀ u ∈ l, s'.value u = s.value u) (hnext : ∀ u ∈ l, s'.next u = s.next u) :
    s'.OpenList t l := by
  constructor
  · rw [hopen]
    exact h.linked.congr hnext
  · intro u hu
    rw [hvalue u hu]
    exact h.isOpen u hu
  · refine h.descending.imp_of_mem ?_
    intro u v hu hv hlt a b ha hb
    rw [hvalue u hu] at ha
    rw [hvalue v hv] at hb
    exact hlt a b ha hb

/-- Two upvalues on a list do not point at the same slot. -/
theorem eq_of_value (h : s.OpenList t l) {v : UpvalueId} (hu : u ∈ l) (hv : v ∈ l)
    (heq : s.value u = s.value v) : u = v := by
  rcases h.isOpen u hu with ⟨a, ha⟩
  by_contra hne
  have hlt : ∀ {x y : UpvalueId} (p q : List UpvalueId), l = p ++ x :: q → y ∈ q →
      s.value x = some a → s.value y = some a → False := by
    intro x y p q hl hy hx hy'
    have hpair := (List.pairwise_append.mp (hl ▸ h.descending)).2.1
    exact lt_irrefl a ((List.pairwise_cons.mp hpair).1 y hy a a hx hy')
  rcases List.append_of_mem hu with ⟨p, q, rfl⟩
  rcases List.mem_append.mp hv with hv | hv
  · rcases List.append_of_mem hv with ⟨p₁, p₂, rfl⟩
    exact hlt p₁ (p₂ ++ u :: q) (by simp) (by simp) (heq ▸ ha) ha
  · rcases List.mem_cons.mp hv with rfl | hv
    · exact hne rfl
    · exact hlt p q rfl hv ha (heq ▸ ha)

theorem tail (h : s.OpenList t (u :: l)) (s' : UpvalueHeap V)
    (hopen : s'.openUpvalues t = s.next u) (hother : ∀ v, v ≠ u → s'.cells v = s.cells v) :
    s'.OpenList t l := by
  have hnot : ∀ v ∈ l, v ≠ u := by
    rintro v hv rfl
    exact (List.nodup_cons.mp h.linked.nodup).1 hv
  have hnext : ∀ v ∈ l, s'.next v = s.next v := fun v hv => by rw [next, hother v (hnot v hv), next]
  have hvalue : ∀ v ∈ l, s'.value v = s.value v := fun v hv => by
    rw [value, hother v (hnot v hv), value]
  have hrest : ({ s with openUpvalues := s'.openUpvalues } : UpvalueHeap V).OpenList t l := by
    constructor
    · have hl : Linked s.next (s.openUpvalues t) ([] ++ u :: l) := h.linked
      exact hopen ▸ hl.rest_next
    · exact fun v hv => h.isOpen v (List.mem_cons_of_mem u hv)
    · exact (List.pairwise_cons.mp h.descending).2
  exact hrest.congr rfl hvalue hnext

/-- The loop of `captureUpvalue` splits the list into what points above `loc` and what does not. -/
theorem value_of_mem_takeWhile (h : s.OpenList t l) (hu : u ∈ l.takeWhile (s.isAbove loc)) :
    ∃ a, s.value u = some a ∧ loc < a := by
  rcases h.isOpen u ((List.takeWhile_sublist _).subset hu) with ⟨a, ha⟩
  have habove := List.mem_takeWhile_imp hu
  rw [isAbove_of_value ha, decide_eq_true_eq] at habove
  exact ⟨a, ha, habove⟩

/-- Where the loop stops without having found `loc`, all that is left points below it. -/
theorem value_of_mem_dropWhile (h : s.OpenList t l)
    (hnew : ∀ v, (l.dropWhile (s.isAbove loc)).head? = some v → s.value v ≠ some loc)
    (hu : u ∈ l.dropWhile (s.isAbove loc)) : ∃ a, s.value u = some a ∧ a < loc := by
  have hsub := List.dropWhile_sublist (l := l) (s.isAbove loc)
  have hdesc := h.descending.sublist hsub
  have hstop := List.head?_dropWhile_not (s.isAbove loc) l
  generalize l.dropWhile (s.isAbove loc) = rest at hnew hu hsub hdesc hstop
  cases rest with
  | nil => cases hu
  | cons v rest =>
    rcases h.isOpen v (hsub.subset (by simp)) with ⟨b, hb⟩
    have hle : ¬ loc < b := by simpa [isAbove_of_value hb] using hstop
    have hne : b ≠ loc := by
      rintro rfl
      exact hnew v rfl hb
    rcases List.mem_cons.mp hu with rfl | hu'
    · exact ⟨b, hb, by omega⟩
    · rcases h.isOpen u (hsub.subset hu) with ⟨a, ha⟩
      have hlt := (List.pairwise_cons.mp hdesc).1 u hu' b a hb ha
      exact ⟨a, ha, by omega⟩

end OpenList

/-! ## Capturing -/

section capture

variable [Inhabited V] {a : Allocation}

theorem newUpvalue_eq_some (h : s.newUpvalue a loc = some (s', u)) :
    (s.collect a.freed).allocated u = false ∧
      s' = (s.collect a.freed).allocate u { closed := default, value := some loc, next := none } := by
  simp only [newUpvalue] at h
  split at h
  · cases h
  · rename_i hfree
    cases h
    exact ⟨by simpa using hfree, rfl⟩

/-- `s'` is `s` with the new upvalue `u` linked in between `above` and `rest`. -/
structure Links (s : UpvalueHeap V) (t : ThreadId) (above rest : List UpvalueId) (loc : ℕ)
    (freed : List UpvalueId) (u : UpvalueId) (s' : UpvalueHeap V) : Prop where
  created : s'.cells u = { closed := default, value := some loc, next := rest.head? }
  last : ∀ v, above.getLast? = some v → s'.cells v = { s.cells v with next := some u }
  others : ∀ v, v ≠ u → above.getLast? ≠ some v → s'.cells v = s.cells v
  first : s'.openUpvalues t = if above = [] then some u else s.openUpvalues t
  threads : ∀ t', t' ≠ t → s'.openUpvalues t' = s.openUpvalues t'
  allocated : s'.allocated = Function.update (s.collect freed).allocated u true

namespace Links

variable {above rest : List UpvalueId} {freed : List UpvalueId}

theorem value_other (h : s.Links t above rest loc freed u s') {v : UpvalueId} (hv : v ≠ u) :
    s'.value v = s.value v := by
  by_cases hlast : above.getLast? = some v
  · rw [value, h.last v hlast, value]
  · rw [value, h.others v hv hlast, value]

theorem value_new (h : s.Links t above rest loc freed u s') : s'.value u = some loc := by
  rw [value, h.created]

end Links

/-- `captureUpvalue` on a list whose objects are kept: it finds the upvalue for `loc`, or links a
new one in where the list goes below `loc`. -/
theorem captureUpvalue_cases (h : s.OpenList t l) (hkept : ∀ v ∈ l, s.allocated v = true ∧ v ∉ a.freed)
    (hrun : s.captureUpvalue t loc a fuel = some (s', u)) :
    (s' = s ∧ u ∈ l ∧ s.value u = some loc) ∨
    (∃ above rest, l = above ++ rest ∧ (∀ v ∈ above, ∃ b, s.value v = some b ∧ loc < b) ∧
      (∀ v ∈ rest, ∃ b, s.value v = some b ∧ b < loc) ∧
      (s.collect a.freed).allocated u = false ∧ s.Links t above rest loc a.freed u s') := by
  have hnot : (s.collect a.freed).allocated u = false → u ∉ l := by
    intro hfree hu
    rcases hkept u hu with ⟨hall, hfreed⟩
    simp [collect, hall, hfreed] at hfree
  cases hfirst : s.openUpvalues t with
  | none =>
    have hnil : l = [] := by
      have hl := h.linked
      rw [hfirst] at hl
      cases hl
      rfl
    subst hnil
    right
    rw [captureUpvalue, hfirst] at hrun
    rcases Option.bind_eq_some_iff.mp hrun with ⟨⟨s₁, created⟩, hnew, hs'⟩
    rcases newUpvalue_eq_some hnew with ⟨hfree, rfl⟩
    simp only [Option.some.injEq, Prod.mk.injEq] at hs'
    obtain ⟨rfl, rfl⟩ := hs'
    refine ⟨[], [], rfl, by simp, by simp, hfree, ?_⟩
    constructor
    · simp [setOpen, allocate]
    · simp
    · intro v hv _
      simp [setOpen, allocate, collect, hv]
    · simp [setOpen]
    · intro t' ht'
      simp [setOpen, allocate, collect, ht']
    · rfl
  | some first =>
    rw [captureUpvalue, hfirst] at hrun
    rcases Option.bind_eq_some_iff.mp hrun with ⟨⟨prevUpvalue, upvalue⟩, hloop, hrun⟩
    -- the loop stops where it would with more rounds
    have hstop := Linked.advance_mono hloop (le_max_left fuel l.length)
    rw [← hfirst, h.linked.advance_eq _ _ (le_max_right _ _), Option.or_none] at hstop
    cases hstop
    simp only at hrun
    cases hfound : (l.dropWhile (s.isAbove loc)).head?.filter fun u => s.value u = some loc with
    | some v =>
      left
      rw [hfound] at hrun
      cases hrun
      rcases Option.filter_eq_some_iff.mp hfound with ⟨hhead, hvalue⟩
      have hmem := List.mem_of_mem_head? hhead
      exact ⟨rfl, (List.dropWhile_sublist _).subset hmem, by simpa using hvalue⟩
    | none =>
      right
      rw [hfound] at hrun
      simp only at hrun
      rcases Option.bind_eq_some_iff.mp hrun with ⟨⟨s₁, created⟩, hnew, hs'⟩
      have hsplit := List.takeWhile_append_dropWhile (p := s.isAbove loc) (l := l)
      have hbelow : ∀ v ∈ l.dropWhile (s.isAbove loc), ∃ b, s.value v = some b ∧ b < loc := by
        intro v hv
        refine h.value_of_mem_dropWhile ?_ hv
        intro w hw hvalue
        simp [hw, hvalue] at hfound
      have habove : ∀ v ∈ l.takeWhile (s.isAbove loc), ∃ b, s.value v = some b ∧ loc < b :=
        fun v hv => h.value_of_mem_takeWhile hv
      generalize l.takeWhile (s.isAbove loc) = above at hs' hsplit habove
      generalize l.dropWhile (s.isAbove loc) = rest at hs' hsplit hbelow
      have hlast : ∀ v, above.getLast? = some v → v ∈ l := by
        intro v hv
        rw [← hsplit]
        exact List.mem_append_left rest (List.mem_of_getLast? hv)
      rcases newUpvalue_eq_some hnew with ⟨hfree, rfl⟩
      cases hprev : above.getLast? with
      | none =>
        simp only [hprev, Option.some.injEq, Prod.mk.injEq] at hs'
        obtain ⟨rfl, rfl⟩ := hs'
        obtain rfl := List.getLast?_eq_none_iff.mp hprev
        refine ⟨[], rest, hsplit.symm, habove, hbelow, hfree, ?_⟩
        constructor
        · simp [setOpen, setNext, allocate]
        · simp
        · intro v hv _
          simp [setOpen, setNext, allocate, collect, hv]
        · simp [setOpen]
        · intro t' ht'
          simp [setOpen, setNext, allocate, collect, ht']
        · rfl
      | some prev =>
        simp only [hprev, Option.some.injEq, Prod.mk.injEq] at hs'
        obtain ⟨rfl, rfl⟩ := hs'
        have hne : prev ≠ created := by
          rintro rfl
          exact hnot hfree (hlast prev hprev)
        have hcons : above ≠ [] := by
          rintro rfl
          cases hprev
        refine ⟨above, rest, hsplit.symm, habove, hbelow, hfree, ?_⟩
        constructor
        · simp [setNext, allocate, hne.symm]
        · intro v hv
          obtain rfl : prev = v := by simpa [hprev] using hv
          simp [setNext, allocate, collect, hne]
        · intro v hv hv'
          have hvp : v ≠ prev := by
            rintro rfl
            exact hv' hprev
          simp [setNext, allocate, collect, hv, hvp]
        · simp [setNext, allocate, collect, hcons]
        · intro t' _
          rfl
        · rfl

/-- Linking in a new upvalue keeps the lists. -/
theorem Links.sorted {above rest : List UpvalueId} {freed : List UpvalueId}
    {lists : ThreadId → List UpvalueId} (h : s.Links t above rest loc freed u s')
    (hs : s.Sorted lists) (hkept : ∀ t, ∀ v ∈ lists t, v ∉ freed) (hlist : lists t = above ++ rest)
    (habove : ∀ v ∈ above, ∃ b, s.value v = some b ∧ loc < b)
    (hrest : ∀ v ∈ rest, ∃ b, s.value v = some b ∧ b < loc)
    (hfree : (s.collect freed).allocated u = false) :
    s'.Sorted (Function.update lists t (above ++ u :: rest)) := by
  have hnot : ∀ t', u ∉ lists t' := by
    intro t' hu
    simp [collect, hs.allocated t' u hu, hkept t' u hu] at hfree
  have hnot' : u ∉ above ++ rest := hlist ▸ hnot t
  have hvalue : ∀ v ∈ above ++ rest, s'.value v = s.value v := by
    intro v hv
    refine h.value_other ?_
    rintro rfl
    exact hnot' hv
  have hlinked : Linked s.next (s.openUpvalues t) (above ++ rest) := hlist ▸ (hs.isList t).linked
  have hdesc := hlist ▸ (hs.isList t).descending
  constructor
  · intro t'
    by_cases ht : t' = t
    · subst ht
      rw [Function.update_self]
      constructor
      · rw [h.first]
        refine hlinked.insert hnot' ?_ ?_ ?_
        · rw [next, h.created]
        · intro v hv
          rw [next, h.last v hv]
        · intro v hv hv'
          rw [next, h.others v hv hv', next]
      · intro v hv
        rcases List.mem_append.mp hv with hv | hv
        · rw [hvalue v (by simp [hv])]
          rcases habove v hv with ⟨b, hb, _⟩
          exact ⟨b, hb⟩
        rcases List.mem_cons.mp hv with rfl | hv
        · exact ⟨loc, h.value_new⟩
        · rw [hvalue v (by simp [hv])]
          rcases hrest v hv with ⟨b, hb, _⟩
          exact ⟨b, hb⟩
      · -- the new upvalue comes between the two halves, which are descending as they were
        have hdesc' : (above ++ rest).Pairwise fun u v => ∀ a b, s'.value u = some a →
            s'.value v = some b → b < a := by
          refine hdesc.imp_of_mem ?_
          intro v w hv hw hlt a b ha hb
          rw [hvalue v hv] at ha
          rw [hvalue w hw] at hb
          exact hlt a b ha hb
        rcases List.pairwise_append.mp hdesc' with ⟨h₁, h₂, h₁₂⟩
        refine List.pairwise_append.mpr ⟨h₁, List.pairwise_cons.mpr ⟨?_, h₂⟩, ?_⟩
        · intro v hv a b ha hb
          rw [h.value_new] at ha
          cases ha
          rw [hvalue v (by simp [hv])] at hb
          rcases hrest v hv with ⟨b', hb', hlt⟩
          rw [hb'] at hb
          cases hb
          exact hlt
        · intro v hv w hw a b ha hb
          rcases List.mem_cons.mp hw with rfl | hw
          · rw [h.value_new] at hb
            cases hb
            rw [hvalue v (by simp [hv])] at ha
            rcases habove v hv with ⟨a', ha', hlt⟩
            rw [ha'] at ha
            cases ha
            exact hlt
          · exact h₁₂ v hv w hw a b ha hb
    · rw [Function.update_of_ne ht]
      have hother : ∀ v ∈ lists t', s'.cells v = s.cells v := by
        intro v hv
        refine h.others v ?_ ?_
        · rintro rfl
          exact hnot t' hv
        · intro hlast
          refine hs.disjoint t' t ht v hv ?_
          rw [hlist]
          exact List.mem_append_left rest (List.mem_of_getLast? hlast)
      refine (hs.isList t').congr (h.threads t' ht) ?_ ?_
      · intro v hv
        rw [value, hother v hv, value]
      · intro v hv
        rw [next, hother v hv, next]
  · intro t' v hv
    rw [h.allocated]
    by_cases hvu : v = u
    · rw [hvu, Function.update_self]
    rw [Function.update_of_ne hvu]
    have hmem : v ∈ lists t' := by
      by_cases ht : t' = t
      · subst ht
        rw [Function.update_self] at hv
        rw [hlist]
        simpa [hvu] using hv
      · rwa [Function.update_of_ne ht] at hv
    simp [collect, hs.allocated t' v hmem, hkept t' v hmem]
  · have hmem : ∀ t' v, v ∈ Function.update lists t (above ++ u :: rest) t' →
        v ∈ lists t' ∨ (v = u ∧ t' = t) := by
      intro t' v hv
      by_cases ht : t' = t
      · subst ht
        rw [Function.update_self] at hv
        rw [hlist]
        have hcases : v ∈ above ∨ v = u ∨ v ∈ rest := by simpa using hv
        rcases hcases with hv | hv | hv
        · exact .inl (by simp [hv])
        · exact .inr ⟨hv, rfl⟩
        · exact .inl (by simp [hv])
      · rw [Function.update_of_ne ht] at hv
        exact .inl hv
    intro t₁ t₂ hne v h₁ h₂
    rcases hmem t₁ v h₁ with hm₁ | ⟨rfl, rfl⟩
    · rcases hmem t₂ v h₂ with hm₂ | ⟨rfl, rfl⟩
      · exact hs.disjoint t₁ t₂ hne v hm₁ hm₂
      · exact hnot t₁ hm₁
    · rcases hmem t₂ v h₂ with hm₂ | ⟨_, rfl⟩
      · exact hnot t₂ hm₂
      · exact hne rfl

theorem captureUpvalue_sorted {lists : ThreadId → List UpvalueId} (hs : s.Sorted lists)
    (hkept : ∀ t, ∀ v ∈ lists t, v ∉ a.freed)
    (hrun : s.captureUpvalue t loc a fuel = some (s', u)) : ∃ lists', s'.Sorted lists' := by
  rcases captureUpvalue_cases (hs.isList t) (fun v hv => ⟨hs.allocated t v hv, hkept t v hv⟩) hrun with
    ⟨rfl, _, _⟩ | ⟨above, rest, hlist, habove, hrest, hfree, hlinks⟩
  · exact ⟨lists, hs⟩
  · exact ⟨_, hlinks.sorted hs hkept hlist habove hrest hfree⟩

/-- An upvalue that is on the list is found. -/
theorem OpenList.reuses : s.Reuses := by
  intro t l h u hu loc hvalue a fuel hfuel
  have hsome : s.openUpvalues t ≠ none := by
    intro hnone
    have hl := h.linked
    rw [hnone] at hl
    cases hl
    cases hu
  rcases Option.ne_none_iff_exists'.mp hsome with ⟨first, hfirst⟩
  have hloop := h.linked.advance_eq (s.isAbove loc) none hfuel
  rw [hfirst] at hloop
  have hsplit := List.takeWhile_append_dropWhile (p := s.isAbove loc) (l := l)
  have hrest : u ∈ l.dropWhile (s.isAbove loc) := by
    rw [← hsplit] at hu
    rcases List.mem_append.mp hu with hu | hu
    · rcases h.value_of_mem_takeWhile hu with ⟨b, hb, hlt⟩
      rw [hvalue] at hb
      cases hb
      exact absurd hlt (lt_irrefl loc)
    · exact hu
  have hhead : ∃ v, (l.dropWhile (s.isAbove loc)).head? = some v ∧ s.value v = some loc := by
    by_contra hnone
    -- otherwise all that is left points below `loc`
    rcases h.value_of_mem_dropWhile (fun v hv hloc => hnone ⟨v, hv, hloc⟩) hrest with ⟨b, hb, hlt⟩
    rw [hvalue] at hb
    cases hb
    exact lt_irrefl loc hlt
  rcases hhead with ⟨v, hv, hloc⟩
  have hmem := (List.dropWhile_sublist _).subset (List.mem_of_mem_head? hv)
  obtain rfl := h.eq_of_value hu hmem (hvalue.trans hloc.symm)
  have hfound : (some u).filter (fun v => s.value v = some loc) = some u := by simp [hvalue]
  simp [captureUpvalue, hfirst, hloop, hv, hfound]

end capture

/-! ## Closing -/

section close

variable {v : UpvalueId}

theorem closeFirst_other (h : v ≠ u) : (s.closeFirst t u).cells v = s.cells v :=
  Function.update_of_ne h ..

theorem closeFirst_isFrom (h : v ≠ u) : (s.closeFirst t u).isFrom last v = s.isFrom last v := by
  simp only [isFrom, value, closeFirst_other h]

/-- A variable keeps its value when its upvalue is closed. -/
theorem closeFirst_read : (s.closeFirst t u).read v = s.read v := by
  by_cases h : v = u
  · subst h
    simp [closeFirst, read, value]
  · simp only [read, value, closeFirst_other h]
    rfl

theorem closeUpvalues_mono {fuel' : ℕ} (h : closeUpvalues t last fuel s = some s')
    (hle : fuel ≤ fuel') : closeUpvalues t last fuel' s = some s' := by
  induction fuel generalizing s fuel' with
  | zero => cases h
  | succ fuel ih =>
    obtain ⟨k, rfl⟩ := Nat.exists_eq_add_of_le' (Nat.le_of_add_left_le hle)
    simp only [closeUpvalues] at h ⊢
    cases hfirst : s.openUpvalues t with
    | none =>
      rw [hfirst] at h
      exact h
    | some u =>
      rw [hfirst] at h
      simp only at h ⊢
      split
      · rename_i hfrom
        rw [if_pos hfrom] at h
        exact ih h (by omega)
      · rename_i hfrom
        rwa [if_neg hfrom] at h

/-- Where the loop stops, all that is left points below `last`. -/
theorem OpenList.closes_of_below (h : s.OpenList t l) (hbelow : ∀ v ∈ l, s.isFrom last v = false) :
    s.Closes t l last s := by
  have hall : l.filter (fun v => !s.isFrom last v) = l := by
    rw [List.filter_eq_self]
    intro v hv
    rw [hbelow v hv]
    rfl
  constructor
  · rwa [hall]
  · intro v hv hfrom
    rw [hbelow v hv] at hfrom
    cases hfrom
  all_goals intros; rfl

/-- One round closes the first upvalue, and the other rounds the rest. -/
theorem OpenList.closes_cons (h : s.OpenList t (u :: l)) (hfrom : s.isFrom last u = true)
    (hrest : (s.closeFirst t u).Closes t l last s') : s.Closes t (u :: l) last s' := by
  have hnot : ∀ v ∈ l, v ≠ u := by
    rintro v hv rfl
    exact (List.nodup_cons.mp h.linked.nodup).1 hv
  have hself : u ∉ l := fun hu => hnot u hu rfl
  constructor
  · have hfilter : l.filter (fun v => !(s.closeFirst t u).isFrom last v) =
        (u :: l).filter fun v => !s.isFrom last v := by
      rw [List.filter_cons_of_neg (by simp [hfrom])]
      refine List.filter_congr ?_
      intro v hv
      rw [closeFirst_isFrom (hnot v hv)]
    rw [← hfilter]
    exact hrest.rest
  · intro v hv hv'
    rcases List.mem_cons.mp hv with rfl | hv
    · rw [value, hrest.others v fun hv => absurd hv hself]
      simp [closeFirst]
    · rw [← closeFirst_isFrom (t := t) (hnot v hv)] at hv'
      exact hrest.closed v hv hv'
  · intro v hv
    have hvu : v ≠ u := by
      rintro rfl
      rw [hv (by simp)] at hfrom
      cases hfrom
    rw [hrest.others v ?_, closeFirst_other hvu]
    intro hmem
    rw [closeFirst_isFrom hvu]
    exact hv (List.mem_cons_of_mem u hmem)
  · intro v
    rw [hrest.read, closeFirst_read]
  · intro t' ht'
    rw [hrest.threads t' ht']
    exact Function.update_of_ne ht' ..
  · exact hrest.mem
  · exact hrest.allocated

theorem OpenList.closes (h : s.OpenList t l) (last : ℕ) (hfuel : l.length < fuel) :
    ∃ s', closeUpvalues t last fuel s = some s' ∧ s.Closes t l last s' := by
  induction l generalizing s fuel with
  | nil =>
    have hnone : s.openUpvalues t = none := by
      have hl := h.linked
      generalize s.openUpvalues t = p at hl
      cases hl
      rfl
    cases fuel with
    | zero => cases hfuel
    | succ fuel => exact ⟨s, by simp [closeUpvalues, hnone], h.closes_of_below (by simp)⟩
  | cons u l ih =>
    have hfirst : s.openUpvalues t = some u := by
      have hl := h.linked
      generalize s.openUpvalues t = p at hl
      cases hl
      rfl
    cases fuel with
    | zero => cases hfuel
    | succ fuel =>
      by_cases hfrom : s.isFrom last u = true
      · have htail : (s.closeFirst t u).OpenList t l :=
          h.tail _ (Function.update_self ..) fun v hv => closeFirst_other hv
        rcases ih htail (by simpa using hfuel) with ⟨s', hrun, hcloses⟩
        refine ⟨s', ?_, h.closes_cons hfrom hcloses⟩
        rw [closeUpvalues, hfirst]
        simp only [if_pos hfrom]
        exact hrun
      · refine ⟨s, by simp [closeUpvalues, hfirst, hfrom], h.closes_of_below ?_⟩
        -- the first points below `last`, and the others below it
        rcases h.isOpen u (by simp) with ⟨a, ha⟩
        have hlt : a < last := by simpa [isFrom_of_value ha] using hfrom
        intro v hv
        rcases h.isOpen v hv with ⟨b, hb⟩
        rw [isFrom_of_value hb, decide_eq_false_iff_not]
        rcases List.mem_cons.mp hv with rfl | hv
        · rw [ha] at hb
          cases hb
          omega
        · have := (List.pairwise_cons.mp h.descending).1 v hv a b ha hb
          omega

theorem closeUpvalues_sorted {lists : ThreadId → List UpvalueId} (hs : s.Sorted lists)
    (hrun : closeUpvalues t last fuel s = some s') :
    s'.Sorted (Function.update lists t ((lists t).filter fun u => !s.isFrom last u)) := by
  have hfuel : (lists t).length < max fuel ((lists t).length + 1) := by omega
  rcases (hs.isList t).closes last hfuel with ⟨s₁, hrun₁, hcloses⟩
  rw [closeUpvalues_mono hrun (le_max_left _ _)] at hrun₁
  cases hrun₁
  have hsub : ∀ t', Function.update lists t ((lists t).filter fun u => !s.isFrom last u) t' ⊆
      lists t' := by
    intro t' v hv
    by_cases ht : t' = t
    · subst ht
      rw [Function.update_self] at hv
      exact List.mem_of_mem_filter hv
    · rwa [Function.update_of_ne ht] at hv
  constructor
  · intro t'
    by_cases ht : t' = t
    · subst ht
      rw [Function.update_self]
      exact hcloses.rest
    · rw [Function.update_of_ne ht]
      have hother : ∀ v ∈ lists t', s'.cells v = s.cells v := by
        intro v hv
        refine hcloses.others v ?_
        intro hv'
        exact absurd hv' (hs.disjoint t' t ht v hv)
      refine (hs.isList t').congr (hcloses.threads t' ht) ?_ ?_
      · intro v hv
        rw [value, hother v hv, value]
      · intro v hv
        rw [next, hother v hv, next]
  · intro t' v hv
    rw [hcloses.allocated]
    exact hs.allocated t' v (hsub t' hv)
  · intro t₁ t₂ hne v h₁ h₂
    exact hs.disjoint t₁ t₂ hne v (hsub t₁ h₁) (hsub t₂ h₂)

end close

/-! ## Runs -/

section run

variable {lists : ThreadId → List UpvalueId} {op : Op V}

/-- What the lists are made of stays as it is. -/
theorem Sorted.congr (hs : s.Sorted lists) (hopen : s'.openUpvalues = s.openUpvalues)
    (hvalue : ∀ t, ∀ u ∈ lists t, s'.value u = s.value u)
    (hnext : ∀ t, ∀ u ∈ lists t, s'.next u = s.next u)
    (hallocated : ∀ t, ∀ u ∈ lists t, s'.allocated u = true) : s'.Sorted lists := by
  constructor
  · intro t
    exact (hs.isList t).congr (congrFun hopen t) (hvalue t) (hnext t)
  · exact hallocated
  · exact hs.disjoint

theorem Sorted.write (hs : s.Sorted lists) (u : UpvalueId) (v : V) : (s.write u v).Sorted lists := by
  unfold UpvalueHeap.write
  split
  · exact hs.congr rfl (fun _ _ _ => rfl) (fun _ _ _ => rfl) hs.allocated
  · rename_i hclosed
    have hcell : ∀ w, (Function.update s.cells u { s.cells u with closed := v } w).value =
          (s.cells w).value ∧
        (Function.update s.cells u { s.cells u with closed := v } w).next = (s.cells w).next := by
      intro w
      by_cases hw : w = u
      · subst hw
        simp
      · simp [hw]
    exact hs.congr rfl (fun _ w _ => (hcell w).1) (fun _ w _ => (hcell w).2) hs.allocated

variable [Inhabited V]

theorem Sorted.step (hs : s.Sorted lists) (hkept : s.KeepsOpen op) (h : Step s op s') :
    ∃ lists', s'.Sorted lists' := by
  have hfreed : ∀ t, ∀ u ∈ lists t, u ∉ op.freed := by
    intro t u hu hu'
    exact hkept u hu' t (lists t) (hs.isList t) hu
  cases h with
  | capture _ hrun =>
    rcases captureUpvalue_sorted hs hfreed hrun with ⟨lists', hs'⟩
    exact ⟨lists', hs'.congr rfl (fun _ _ _ => rfl) (fun _ _ _ => rfl) hs'.allocated⟩
  | close hrun => exact ⟨_, closeUpvalues_sorted hs hrun⟩
  | collect =>
    refine ⟨lists, hs.congr rfl (fun _ _ _ => rfl) (fun _ _ _ => rfl) ?_⟩
    intro t u hu
    have hnot : u ∉ _ := hfreed t u hu
    simp only [collect, hs.allocated t u hu, Bool.true_and, decide_eq_true_eq]
    exact hnot
  | write => exact ⟨lists, hs.write _ _⟩
  | stack => exact ⟨lists, hs.congr rfl (fun _ _ _ => rfl) (fun _ _ _ => rfl) hs.allocated⟩
  | release _ => exact ⟨lists, hs.congr rfl (fun _ _ _ => rfl) (fun _ _ _ => rfl) hs.allocated⟩
  | @reuse u cell hfree =>
    have hnot : ∀ t, ∀ v ∈ lists t, v ≠ u := by
      rintro t v hv rfl
      rw [hs.allocated t v hv] at hfree
      cases hfree
    have hcell : ∀ t, ∀ v ∈ lists t, (s.allocate u cell).cells v = s.cells v :=
      fun t v hv => Function.update_of_ne (hnot t v hv) ..
    refine ⟨lists, hs.congr rfl ?_ ?_ ?_⟩
    · intro t v hv
      rw [value, hcell t v hv, value]
    · intro t v hv
      rw [next, hcell t v hv, next]
    · intro t v hv
      have hsame : (s.allocate u cell).allocated v = s.allocated v :=
        Function.update_of_ne (hnot t v hv) ..
      rw [hsame]
      exact hs.allocated t v hv
  | @reset t =>
    refine ⟨Function.update lists t [], ?_, ?_, ?_⟩
    · intro t'
      by_cases ht : t' = t
      · subst ht
        rw [Function.update_self]
        have hnone : (s.setOpen t' none).openUpvalues t' = none := Function.update_self ..
        have hnil : Linked (s.setOpen t' none).next ((s.setOpen t' none).openUpvalues t') [] := by
          rw [hnone]
          exact .nil
        exact ⟨hnil, by simp, by simp⟩
      · rw [Function.update_of_ne ht]
        exact (hs.isList t').congr (Function.update_of_ne ht ..) (fun _ _ => rfl) fun _ _ => rfl
    · intro t' v hv
      by_cases ht : t' = t
      · subst ht
        simp at hv
      · rw [Function.update_of_ne ht] at hv
        exact hs.allocated t' v hv
    · intro t₁ t₂ hne v h₁ h₂
      by_cases ht₁ : t₁ = t
      · subst ht₁
        simp at h₁
      by_cases ht₂ : t₂ = t
      · subst ht₂
        simp at h₂
      rw [Function.update_of_ne ht₁] at h₁
      rw [Function.update_of_ne ht₂] at h₂
      exact hs.disjoint t₁ t₂ hne v h₁ h₂

theorem Run.sorted (r : Run KeepsOpen s) : ∃ lists, s.Sorted lists := by
  induction r with
  | initial mem cells =>
    refine ⟨fun _ => [], ?_, by simp, by simp⟩
    intro t
    exact ⟨.nil, by simp, by simp⟩
  | step _ _ hkept hstep ih =>
    rcases ih with ⟨lists, hs⟩
    exact hs.step hkept hstep

/-- In every state of a run whose collections free no open upvalue, the lists of open upvalues are
strictly descending, a slot that is captured has its upvalue returned, and `closeUpvalues` closes
what it should with the values it has. -/
theorem Run.openUpvalues (r : Run KeepsOpen s) : s.WellKept := by
  rcases r.sorted with ⟨lists, hs⟩
  constructor
  · intro t
    exact ⟨lists t, hs.isList t⟩
  · exact OpenList.reuses
  · intro t l h last fuel hfuel
    exact h.closes last hfuel

/-- Three variables of one frame are captured, the one in the middle last. -/
theorem inOrder_wellKept : ∃ s : UpvalueHeap ℕ, Run KeepsOpen s ∧
    s.openUpvalues 0 = some 1 ∧ s.next 1 = some 2 ∧ s.next 2 = some 0 ∧ s.WellKept := by
  have hstart : Run KeepsOpen (initial (fun a => a) fun _ => ⟨⟨none, 0⟩, none⟩) := .initial _ _
  have h₁ := hstart.step (.capture 0 5 ⟨[], 0⟩) (by simp [KeepsOpen, Op.freed])
    (.capture 3 rfl)
  have h₂ := h₁.step (.capture 0 9 ⟨[], 1⟩) (by simp [KeepsOpen, Op.freed])
    (.capture 3 rfl)
  have h₃ := h₂.step (.capture 0 7 ⟨[], 2⟩) (by simp [KeepsOpen, Op.freed])
    (.capture 3 rfl)
  exact ⟨_, h₃, rfl, rfl, rfl, h₃.openUpvalues⟩

/-- The only closure with an open upvalue is dropped and collected, and its upvalue with it; the
next upvalue is made of the same object and linked in before itself. -/
theorem collectedOpen_cyclic : ∃ s : UpvalueHeap ℕ, Run KeepsHeld s ∧ ¬ s.WellKept := by
  have hstart : Run KeepsHeld (initial (fun a => a) fun _ => ⟨⟨none, 0⟩, none⟩) := .initial _ _
  have h₁ := hstart.step (.capture 0 1 ⟨[], 0⟩) (by simp [KeepsHeld, Op.freed])
    (.capture 3 rfl)
  have h₂ := h₁.step (.release []) (by simp [KeepsHeld, Op.freed]) (.release (by simp))
  have h₃ := h₂.step (.collect [0]) (by simp [KeepsHeld, Op.freed]) .collect
  have h₄ := h₃.step (.capture 0 2 ⟨[], 0⟩) (by simp [KeepsHeld, Op.freed])
    (.capture 3 rfl)
  refine ⟨_, h₄, ?_⟩
  intro hkept
  rcases hkept.sorted 0 with ⟨l, hl⟩
  have hlinked := hl.linked
  have hnodup := hlinked.nodup
  rcases hlinked with _ | hnext
  rcases hnext with _ | hnext
  simp at hnodup

end run

end

end UpvalueHeap

end Clox
