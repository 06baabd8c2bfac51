import Clox.Lib.Except
import Clox.Runtime.Printing

/-! # The nodes of a regex

`RNode` and the functions of `regex_lib.c` that link nodes. Nodes are numbered in the order in
which they are allocated, and a loop over siblings that never comes to an end is an outcome of its
own.
-/

namespace Clox.Regex

open Clox.Printing (Bytes)

inductive RNodeType
  | atom
  | group
  | or
  | repeat_
  | repeatNongreedy
  | repeatZ
  | repeatZNongreedy
  | maybe
  | repeatN
  | cclass
  | eclass
  | anchor
  | dot
  | program
deriving DecidableEq, Repr

inductive REClassType
  | none
  | digit
  | nonDigit
  | space
  | nonSpace
  | word
  | nonWord
  | wordBoundary
  | nonWordBoundary
deriving DecidableEq, Repr

inductive RAnchorType
  | none
  | bos
  | eos
  | bol
  | eol
deriving DecidableEq, Repr

/-- `tok` points into the pattern: it is what the pattern goes on with from there. -/
structure RNode where
  type : RNodeType
  tok : Option Bytes
  toklen : ℕ
  nodelen : ℕ
  repeatMin : ℤ := -1
  repeatMax : ℤ := -1
  eclassType : REClassType := .none
  anchorType : RAnchorType := .none
  next : Option ℕ := none
  prev : Option ℕ := none
  parent : Option ℕ := none
  children : Option ℕ := none
deriving DecidableEq, Repr

/-- How a call ends other than by returning. -/
inductive Stop
  | assertFailed
  /-- `src_p` would be moved behind the NUL of the pattern. -/
  | readsPast
  /-- A loop that comes to no end, or the fuel of a recursion is used up. -/
  | diverges
deriving DecidableEq, Repr

/-- The nodes below `count` are allocated. -/
structure Nodes where
  node : ℕ → RNode
  count : ℕ

/-- The fields `new_node` sets; the rest is zero. -/
def freshNode (type : RNodeType) (tok : Option Bytes) (toklen : ℕ) (parent prev : Option ℕ) :
    RNode where
  type := type
  tok := tok
  toklen := toklen
  nodelen := toklen
  parent := parent
  prev := prev

namespace Nodes

variable (n : Nodes)

/-- `ALLOCATE(RNode, 1)` -/
def push (r : RNode) : Nodes :=
  { node := Function.update n.node n.count r, count := n.count + 1 }

def update (a : ℕ) (f : RNode → RNode) : Nodes :=
  { n with node := Function.update n.node a (f (n.node a)) }

def setNext (a : ℕ) (p : Option ℕ) : Nodes := n.update a fun r => { r with next := p }

def setPrev (a : ℕ) (p : Option ℕ) : Nodes := n.update a fun r => { r with prev := p }

def setParent (a : ℕ) (p : Option ℕ) : Nodes := n.update a fun r => { r with parent := p }

def setChildren (a : ℕ) (p : Option ℕ) : Nodes := n.update a fun r => { r with children := p }

/-- `while (last_child) { if (last_child->next) .. else break; }`; no list is longer than there
are nodes. -/
def lastChild : ℕ → ℕ → Except Stop ℕ
  | 0, _ => .error .diverges
  | fuel + 1, a =>
    match (n.node a).next with
    | some b => lastChild fuel b
    | none => .ok a

def nodeAddChild (parent child : ℕ) : Except Stop Nodes := do
  let first := (n.node parent).children
  let n := n.setParent child (some parent)
  match first with
  | none => return n.setChildren parent (some child)
  | some a =>
    let last ← n.lastChild n.count a
    return (n.setNext last (some child)).setPrev child (some last)

/-- The search of `node_remove_child`, from `a` on. -/
def isListed (child : ℕ) : ℕ → ℕ → Except Stop Bool
  | 0, _ => .error .diverges
  | fuel + 1, a =>
    if a = child then .ok true
    else match (n.node a).next with
      | some b => isListed child fuel b
      | none => .ok false

/-- What `node_remove_child` does with a child it has found. -/
def unlink (parent child : ℕ) : Nodes :=
  let c := n.node child
  let n := c.prev.elim n fun p => n.setNext p c.next
  let n := c.next.elim n fun q => n.setPrev q c.prev
  if c.prev = none then n.setChildren parent c.next else n

def nodeRemoveChild (parent child : ℕ) : Except Stop Nodes := do
  let n := n.setParent child none
  match (n.node parent).children with
  | none => return n
  | some a =>
    let found ← n.isListed child n.count a
    if found then return n.unlink parent child else return n

/-- `new_node` up to the call of `node_add_child`. -/
def allocate (type : RNodeType) (tok : Option Bytes) (toklen : ℕ) (parent prev : Option ℕ) :
    Nodes :=
  let a := n.count
  let n := n.push (freshNode type tok toklen parent prev)
  let n := parent.elim n fun p => n.update p fun r => { r with nodelen := r.nodelen + toklen }
  prev.elim n fun p => n.setNext p (some a)

def newNode (type : RNodeType) (tok : Option Bytes) (toklen : ℕ) (parent prev : Option ℕ) :
    Except Stop (ℕ × Nodes) :=
  let a := n.count
  let n := n.allocate type tok toklen parent prev
  match parent, prev with
  | some p, none => (n.nodeAddChild p a).map fun n => (a, n)
  | _, _ => .ok (a, n)

/-- What the repeats do: a node of their own in the place of `prev`, and `prev` below it. -/
def wrap (type : RNodeType) (tok : Bytes) (toklen parent prev : ℕ) : Except Stop (ℕ × Nodes) := do
  let (a, n) ← n.newNode type (some tok) toklen (some parent) (n.node prev).prev
  let n := if (n.node prev).prev = none then n.setChildren parent (some a) else n
  let n := (n.setNext prev none).setPrev prev none
  let n ← n.nodeAddChild a prev
  return (a, n)

/-- `while (beg) { ASSERT(beg != orNode); beg->parent = groupNode; beg = beg->next; }` -/
def adopt (orNode groupNode : ℕ) : ℕ → Nodes → Option ℕ → Except Stop Nodes
  | _, n, none => .ok n
  | 0, _, some _ => .error .diverges
  | fuel + 1, n, some beg =>
    if beg = orNode then .error .assertFailed
    else
      let n := n.setParent beg (some groupNode)
      adopt orNode groupNode fuel n (n.node beg).next

/-- The pointers between the node of `|`, its parent, its first group and the alternative before
it. -/
def relinkOr (parent begOrNode orNode groupNode : ℕ) : Nodes :=
  let n := n.setParent begOrNode (some groupNode)
  let n := match (n.node begOrNode).prev with
    | none => n.setChildren parent (some orNode)
    | some p => (n.setNext p (some orNode)).setPrev orNode (some p)
  let n := n.setParent groupNode (some orNode)
  let n := n.setChildren orNode (some groupNode)
  n.setChildren groupNode (some begOrNode)

/-- What `|` does with the alternative before it, which begins at `begOrNode`: the new node, its
first group, and the nodes. -/
def splitOr (tok : Bytes) (parent begOrNode : ℕ) : Except Stop (ℕ × ℕ × Nodes) := do
  let n ← n.nodeRemoveChild parent begOrNode
  let n := n.setParent begOrNode none
  let (orNode, n) ← n.newNode .or (some tok) 1 (some parent) (n.node begOrNode).prev
  let (groupNode, n) ← n.newNode .group none 0 (some orNode) none
  let n := n.relinkOr parent begOrNode orNode groupNode
  let n ← n.nodeRemoveChild groupNode orNode
  let n ← adopt orNode groupNode n.count n (some begOrNode)
  return (orNode, groupNode, n)

/-! ## Pointers -/

section

variable {n n' : Nodes} {a b p c : ℕ} {v parent prev : Option ℕ} {type : RNodeType}
  {tok : Option Bytes} {toklen : ℕ}

theorem update_node (f : RNode → RNode) :
    (n.update a f).node b = if b = a then f (n.node a) else n.node b :=
  Function.update_apply _ _ _ _

@[simp] theorem update_count (f : RNode → RNode) : (n.update a f).count = n.count := rfl

@[simp] theorem setNext_count : (n.setNext a v).count = n.count := rfl

@[simp] theorem setPrev_count : (n.setPrev a v).count = n.count := rfl

@[simp] theorem setParent_count : (n.setParent a v).count = n.count := rfl

@[simp] theorem setChildren_count : (n.setChildren a v).count = n.count := rfl

/-- A field that is read after an update. -/
theorem update_field {α : Type} (g : RNode → α) (f : RNode → RNode) :
    g ((n.update a f).node b) = if b = a then g (f (n.node a)) else g (n.node b) := by
  rw [update_node]
  split <;> rfl

/-- A field that the update leaves. -/
theorem update_other {α : Type} {g : RNode → α} {f : RNode → RNode} (h : ∀ r, g (f r) = g r) :
    g ((n.update a f).node b) = g (n.node b) := by
  rw [update_node]
  split
  · rename_i hb
    rw [h, hb]
  · rfl

@[simp] theorem setNext_next :
    ((n.setNext a v).node b).next = if b = a then v else (n.node b).next :=
  update_field RNode.next _

@[simp] theorem setNext_prev : ((n.setNext a v).node b).prev = (n.node b).prev :=
  update_other fun _ => rfl

@[simp] theorem setNext_parent : ((n.setNext a v).node b).parent = (n.node b).parent :=
  update_other fun _ => rfl

@[simp] theorem setNext_children : ((n.setNext a v).node b).children = (n.node b).children :=
  update_other fun _ => rfl

@[simp] theorem setPrev_next : ((n.setPrev a v).node b).next = (n.node b).next :=
  update_other fun _ => rfl

@[simp] theorem setPrev_prev :
    ((n.setPrev a v).node b).prev = if b = a then v else (n.node b).prev :=
  update_field RNode.prev _

@[simp] theorem setPrev_parent : ((n.setPrev a v).node b).parent = (n.node b).parent :=
  update_other fun _ => rfl

@[simp] theorem setPrev_children : ((n.setPrev a v).node b).children = (n.node b).children :=
  update_other fun _ => rfl

@[simp] theorem setParent_next : ((n.setParent a v).node b).next = (n.node b).next :=
  update_other fun _ => rfl

@[simp] theorem setParent_prev : ((n.setParent a v).node b).prev = (n.node b).prev :=
  update_other fun _ => rfl

@[simp] theorem setParent_parent :
    ((n.setParent a v).node b).parent = if b = a then v else (n.node b).parent :=
  update_field RNode.parent _

@[simp] theorem setParent_children : ((n.setParent a v).node b).children = (n.node b).children :=
  update_other fun _ => rfl

@[simp] theorem setChildren_next : ((n.setChildren a v).node b).next = (n.node b).next :=
  update_other fun _ => rfl

@[simp] theorem setChildren_prev : ((n.setChildren a v).node b).prev = (n.node b).prev :=
  update_other fun _ => rfl

@[simp] theorem setChildren_parent : ((n.setChildren a v).node b).parent = (n.node b).parent :=
  update_other fun _ => rfl

@[simp] theorem setChildren_children :
    ((n.setChildren a v).node b).children = if b = a then v else (n.node b).children :=
  update_field RNode.children _

/-- The node as it is allocated, and `prev` pointing at it. -/
theorem allocate_spec (n : Nodes) (type : RNodeType) (tok : Option Bytes) (toklen : ℕ)
    (parent prev : Option ℕ) :
    (n.allocate type tok toklen parent prev).count = n.count + 1 ∧
    ∀ b, (((n.allocate type tok toklen parent prev).node b).next =
        if prev = some b then some n.count else if b = n.count then none else (n.node b).next) ∧
      (((n.allocate type tok toklen parent prev).node b).prev =
        if b = n.count then prev else (n.node b).prev) ∧
      (((n.allocate type tok toklen parent prev).node b).parent =
        if b = n.count then parent else (n.node b).parent) ∧
      (((n.allocate type tok toklen parent prev).node b).children =
        if b = n.count then none else (n.node b).children) := by
  -- the fresh node, then `nodelen` of the parent, then `next` of the node before
  let fresh := n.push (freshNode type tok toklen parent prev)
  let grown := parent.elim fresh fun p => fresh.update p fun r =>
    { r with nodelen := r.nodelen + toklen }
  have hcount : grown.count = n.count + 1 := by
    cases parent <;> rfl
  have hgrown : ∀ {α : Type} (g : RNode → α), (∀ r len, g { r with nodelen := len } = g r) →
      ∀ b, g (grown.node b) =
        if b = n.count then g (freshNode type tok toklen parent prev) else g (n.node b) := by
    intro α g hg b
    have hfresh : g (fresh.node b) =
        if b = n.count then g (freshNode type tok toklen parent prev) else g (n.node b) := by
      change g (Function.update n.node n.count _ b) = _
      rw [Function.update_apply]
      split <;> rfl
    rw [← hfresh]
    cases parent with
    | none => rfl
    | some p => exact update_other fun r => hg r _
  have heq : n.allocate type tok toklen parent prev =
      prev.elim grown fun p => grown.setNext p (some n.count) := rfl
  rw [heq]
  cases prev with
  | none =>
    refine ⟨hcount, fun b => ⟨?_, ?_, ?_, ?_⟩⟩
    · rw [if_neg (by intro h; cases h)]
      exact hgrown RNode.next (fun _ _ => rfl) b
    · exact hgrown RNode.prev (fun _ _ => rfl) b
    · exact hgrown RNode.parent (fun _ _ => rfl) b
    · exact hgrown RNode.children (fun _ _ => rfl) b
  | some q =>
    refine ⟨hcount, fun b => ⟨?_, ?_, ?_, ?_⟩⟩
    · rw [Option.elim_some, setNext_next, hgrown RNode.next (fun _ _ => rfl) b]
      by_cases hb : b = q
      · rw [if_pos hb, if_pos (congrArg some hb.symm)]
      · rw [if_neg hb, if_neg fun h => hb (Option.some.inj h).symm]
        rfl
    · rw [Option.elim_some, setNext_prev]
      exact hgrown RNode.prev (fun _ _ => rfl) b
    · rw [Option.elim_some, setNext_parent]
      exact hgrown RNode.parent (fun _ _ => rfl) b
    · rw [Option.elim_some, setNext_children]
      exact hgrown RNode.children (fun _ _ => rfl) b

end

end Nodes

end Clox.Regex
