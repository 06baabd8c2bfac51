import Clox.Vm.Constants

/-! # What a catch clause names

The compiler keeps the class of a catch clause as a text and
`findThrowJumpLoc` looks the text up when an error is thrown, from the class
that is innermost then. As an expression the same path is a chain of opcodes
that look one name up after the other. The two are compared.
-/

namespace Clox.CatchNames

open Clox Separators Printing Constants

/-- The text of an identifier token. -/
structure Ident where
  text : Bytes
  ne_nil : text ≠ []
  noNul : 0 ∉ text
  noColon : 58 ∉ text

/-- A constant path: `A` is a `CONSTANT_EXPR`, `::A` a `CONSTANT_LOOKUP_EXPR` without a child and
`path::A` one with the path as its child. -/
inductive ConstPath where
  | const (tok : Ident)
  | absolute (tok : Ident)
  | lookup (child : ConstPath) (tok : Ident)

/-- `n->tok` -/
def ConstPath.tok : ConstPath → Ident
  | const tok | absolute tok | lookup _ tok => tok

/-! ## The expression -/

inductive PathResult where
  | value (v : ConstVal)
  | nameError
  | typeError
  | aborted (e : Abort)
deriving DecidableEq, Repr

section

variable (C : State)

/-- `NIL_VAL` -/
def nilVal : ConstVal := .word 0x7ffc000000000001#64

def orNameError : Option ConstVal → PathResult
  | some v => .value v
  | none => .nameError

/-- `OP_GET_CONST` without an autoload path for the name. -/
def opGetConst (fuel : ℕ) (cref : Option ObjId) (varName : Bytes) : Option PathResult :=
  (findConstantUnder C fuel cref varName).map fun r =>
    match r with
    | .error e => .aborted e
    | .ok val => orNameError val

/-- `OP_GET_CONST_UNDER` -/
def opGetConstUnder (klass : ConstVal) (varName : Bytes) : PathResult :=
  if klass = nilVal then orNameError (C.toplevel.lookup varName)
  else
    match klass with
    | .word _ => .typeError
    | .obj k =>
      match C.ownTable k with
      | none => .typeError
      | some constants => orNameError (constants.lookup varName)

/-- The code the path is compiled to: `emitChildren` or `OP_NIL`, then the lookup. -/
def evalPath (fuel : ℕ) (cref : Option ObjId) : ConstPath → Option PathResult
  | .const tok => opGetConst C fuel cref tok.text
  | .absolute tok => some (opGetConstUnder C nilVal tok.text)
  | .lookup child tok =>
    (evalPath fuel cref child).map fun r =>
      match r with
      | .value klass => opGetConstUnder C klass tok.text
      | r => r

/-! ## The clause -/

/-- The loop over the children of `catchConstant`. -/
def pushPrefixes : ConstPath → Bytes
  | .lookup child tok => child.tok.text ++ dice ++ tok.text ++ pushPrefixes child
  | _ => []

/-- The text the compiler keeps for the class of a catch clause. -/
def className : ConstPath → Bytes
  | .lookup child tok => pushPrefixes (.lookup child tok)
  | path => path.tok.text

/-- `v_crefStack` after `popFrame` of the frames above the one of the `try`; a frame is its
`klass`. -/
def popFrames (frames : List (Option ObjId)) (crefStack : List ObjId) : List ObjId :=
  frames.foldl (fun crefs klass => if klass.isSome then crefs.tail else crefs) crefStack

/-- `isSubclass` -/
def isSubclass (fuel : ℕ) (subklass : ObjId) (superklass : ObjPtr) : Option Bool :=
  (Linked.search C.heap.classSuper (fun k => if .obj k = superklass then some () else none) fuel
    (some subklass)).map Option.isSome

/-- Does the clause take an error of class `klass`? -/
def catches (fuel : ℕ) (cref : Option ObjId) (path : ConstPath) (klass : ObjId) :
    Option (Except Abort Bool) :=
  match findConstantUnder C fuel cref (className path) with
  | none => none
  | some (.error e) => some (.error e)
  | some (.ok none) => some (.ok false)
  | some (.ok (some klassFound)) => (isSubclass C fuel klass klassFound.asObj).map .ok

/-! ## What a path names -/

def State.IsClass (k : ObjId) : Prop := C.heap.typeOf k = some .klass

/-- What the path names as an expression in the class `cref`. Under `nil` the opcode looks at the
top level. -/
inductive PathNames (cref : Option ObjId) : ConstPath → ConstVal → Prop where
  | const {tok : Ident} {v : ConstVal} : Resolves C tok.text v cref →
      PathNames cref (.const tok) v
  | absolute {tok : Ident} {v : ConstVal} : C.toplevel.lookup tok.text = some v →
      PathNames cref (.absolute tok) v
  | lookup {child : ConstPath} {tok : Ident} {k : ObjId} {v : ConstVal} :
      PathNames cref child (.obj k) → C.own k tok.text = some v →
      PathNames cref (.lookup child tok) v
  | underNil {child : ConstPath} {tok : Ident} {v : ConstVal} : PathNames cref child nilVal →
      C.toplevel.lookup tok.text = some v → PathNames cref (.lookup child tok) v

/-- The name a path begins with, when it is looked up from inside. -/
def ConstPath.inner? : ConstPath → Option Ident
  | const tok => some tok
  | absolute _ => none
  | lookup child _ => child.inner?

/-- The clause takes the errors of the class the path evaluates to and of its subclasses, and no
error when it evaluates to no class. -/
def ClauseAgrees (cref crefThrow : Option ObjId) (path : ConstPath) : Prop :=
  ∃ r, Returns (evalPath C · cref path) r ∧ (∀ e, r ≠ .aborted e) ∧
    ∀ klass, State.IsClass C klass → ∃ b, Returns (catches C · crefThrow path klass) (.ok b) ∧
      (b = true ↔ ∃ k, r = .value (.obj k) ∧ State.IsClass C k ∧ k ∈ C.chain klass)

/-- The condition: both lookups go through, and the text of the clause names a class from where it
is looked up exactly when the path names it from the `try`. -/
structure ClauseMeets (cref crefThrow : Option ObjId) (path : ConstPath) : Prop where
  expression : ∀ tok, path.inner? = some tok → Searchable C tok.text cref
  clause : GoesThrough C crefThrow (className path)
  same : ∀ k, State.IsClass C k →
    (Names C crefThrow (pieces dice (className path)) (.obj k) ↔ PathNames C cref path (.obj k))

end

section

variable {C : State} {cref crefThrow : Option ObjId} {path : ConstPath} {k i : ObjId}
  {tok : Ident} {v : ConstVal}

/-! ## Single names -/

@[simp] theorem pieces_ident (tok : Ident) : pieces dice tok.text = [tok.text] := by
  apply pieces_of_none
  rw [find_eq_none_iff]
  intro h
  exact tok.noColon (h.subset (by simp [dice]))

@[simp] theorem cstr_ident (tok : Ident) : cstr tok.text = tok.text := cstr_eq tok.noNul

theorem firstName_ident (tok : Ident) : firstName tok.text = tok.text := by
  rw [firstName, if_pos (by simp)]

theorem goesThrough_ident : GoesThrough C cref tok.text ↔ Searchable C tok.text cref := by
  rw [GoesThrough, firstName_ident]
  constructor
  · rintro ⟨h, _⟩
    exact h
  · intro h
    exact ⟨h, .inl (by simp)⟩

theorem reads_ident : Reads C cref tok.text v ↔ Resolves C tok.text v cref := by
  rw [Reads, firstName_ident, cstr_ident, pieces_ident]
  constructor
  · rintro ⟨u, hu, hpath⟩
    cases hpath
    exact hu
  · intro h
    exact ⟨v, h, .done⟩

/-! ## The expression -/

theorem orNameError_eq {r : Option ConstVal} : orNameError r = .value v ↔ r = some v := by
  cases r <;> simp [orNameError]

theorem orNameError_ne (r : Option ConstVal) (e : Abort) : orNameError r ≠ .aborted e := by
  cases r <;> simp [orNameError]

theorem opGetConst_returns (h : Searchable C tok.text cref) :
    ∃ r, Returns (opGetConst C · cref tok.text) r ∧ (∀ e, r ≠ .aborted e) ∧
      ∀ v, r = .value v ↔ Resolves C tok.text v cref := by
  rcases findConstantUnder_returns (goesThrough_ident.mpr h) with ⟨r, ⟨n, hn⟩, hr⟩
  refine ⟨orNameError r, ⟨n, fun fuel hfuel => ?_⟩, orNameError_ne r, fun v => ?_⟩
  · have hfind : findConstantUnder C fuel cref tok.text = some (.ok r) := hn fuel hfuel
    simp only [opGetConst, hfind, Option.map_some]
  · rw [orNameError_eq, hr v, reads_ident]

theorem opGetConstUnder_ne (klass : ConstVal) (name : Bytes) (e : Abort) :
    opGetConstUnder C klass name ≠ .aborted e := by
  unfold opGetConstUnder
  split
  · exact orNameError_ne _ e
  · split
    · simp
    · split
      · simp
      · exact orNameError_ne _ e

theorem opGetConstUnder_nil (name : Bytes) :
    opGetConstUnder C nilVal name = .value v ↔ C.toplevel.lookup name = some v := by
  simp only [opGetConstUnder, if_true, orNameError_eq]

theorem opGetConstUnder_obj (name : Bytes) :
    opGetConstUnder C (.obj k) name = .value v ↔ C.own k name = some v := by
  have hne : ConstVal.obj k ≠ nilVal := by simp [nilVal]
  simp only [opGetConstUnder, if_neg hne, State.own]
  cases C.ownTable k with
  | none => simp
  | some constants => exact orNameError_eq

theorem opGetConstUnder_eq (klass : ConstVal) (name : Bytes) :
    opGetConstUnder C klass name = .value v ↔
      (klass = nilVal ∧ C.toplevel.lookup name = some v) ∨
        ∃ k, klass = .obj k ∧ C.own k name = some v := by
  by_cases hnil : klass = nilVal
  · subst hnil
    rw [opGetConstUnder_nil]
    simp [nilVal]
  · cases klass with
    | obj k => simp [opGetConstUnder_obj, hnil]
    | word bits => simp [opGetConstUnder, hnil]

/-- The expression is evaluated where its first name can be searched, to what the path names. -/
theorem evalPath_returns (h : ∀ tok, path.inner? = some tok → Searchable C tok.text cref) :
    ∃ r, Returns (evalPath C · cref path) r ∧ (∀ e, r ≠ .aborted e) ∧
      ∀ v, r = .value v ↔ PathNames C cref path v := by
  induction path with
  | const tok =>
    rcases opGetConst_returns (h tok rfl) with ⟨r, hret, hne, hr⟩
    refine ⟨r, hret, hne, fun v => ?_⟩
    rw [hr v]
    constructor
    · intro h
      exact .const h
    · rintro ⟨h⟩
      exact h
  | absolute tok =>
    refine ⟨_, ⟨0, fun _ _ => rfl⟩, opGetConstUnder_ne _ _, fun v => ?_⟩
    rw [opGetConstUnder_nil]
    constructor
    · intro h
      exact .absolute h
    · intro h
      cases h with
      | absolute h => exact h
  | lookup child tok ih =>
    rcases ih h with ⟨r, ⟨n, hn⟩, hne, hr⟩
    have hmap : ∀ fuel, n ≤ fuel → evalPath C fuel cref child = some r := hn
    cases r with
    | value klass =>
      refine ⟨opGetConstUnder C klass tok.text, ⟨n, fun fuel hfuel => ?_⟩,
        opGetConstUnder_ne _ _, fun v => ?_⟩
      · simp only [evalPath, hmap fuel hfuel, Option.map_some]
      · have hklass := (hr klass).mp rfl
        rw [opGetConstUnder_eq]
        constructor
        · rintro (⟨rfl, h⟩ | ⟨k, rfl, h⟩)
          · exact .underNil hklass h
          · exact .lookup hklass h
        · intro h
          cases h with
          | @lookup _ _ k _ hchild hown =>
            have := (hr _).mpr hchild
            cases this
            exact .inr ⟨k, rfl, hown⟩
          | underNil hchild htop =>
            have := (hr _).mpr hchild
            cases this
            exact .inl ⟨rfl, htop⟩
    | nameError | typeError =>
      refine ⟨_, ⟨n, fun fuel hfuel => ?_⟩, hne, fun v => ?_⟩
      · simp only [evalPath, hmap fuel hfuel, Option.map_some]
      · constructor
        · rintro ⟨⟩
        · intro h
          cases h with
          | lookup hchild _ => cases (hr _).mpr hchild
          | underNil hchild _ => cases (hr _).mpr hchild
    | aborted e => exact absurd rfl (hne e)

/-- An expression that is evaluated has had its first name searched. -/
theorem searchable_of_evalPath {fuel : ℕ} {r : PathResult} (h : evalPath C fuel cref path = some r)
    (hne : ∀ e, r ≠ .aborted e) : ∀ tok, path.inner? = some tok → Searchable C tok.text cref := by
  induction path generalizing r with
  | const tok =>
    rintro _ ⟨⟩
    rw [evalPath, opGetConst] at h
    rcases Option.map_eq_some_iff.mp h with ⟨found, hfind, rfl⟩
    cases found with
    | error e => exact absurd rfl (hne e)
    | ok val => exact goesThrough_ident.mp (goesThrough_of_returns hfind)
  | absolute tok =>
    rintro _ ⟨⟩
  | lookup child tok ih =>
    rw [evalPath] at h
    rcases Option.map_eq_some_iff.mp h with ⟨r', hchild, rfl⟩
    refine ih hchild ?_
    rintro e rfl
    exact hne e rfl

/-! ## The clause -/

theorem pushPrefixes_noNul (path : ConstPath) : 0 ∉ pushPrefixes path := by
  induction path with
  | const tok => simp [pushPrefixes]
  | absolute tok => simp [pushPrefixes]
  | lookup child tok ih => simp [pushPrefixes, ih, child.tok.noNul, tok.noNul, dice]

theorem className_noNul (path : ConstPath) : 0 ∉ className path := by
  cases path with
  | const tok => exact tok.noNul
  | absolute tok => exact tok.noNul
  | lookup child tok => exact pushPrefixes_noNul _

theorem isSubclass_returns (C : State) (k : ObjId) (p : ObjPtr) :
    Returns (isSubclass C · k p) (decide (∃ i ∈ C.chain k, .obj i = p)) := by
  refine ⟨(C.chain k).length, fun fuel hfuel => ?_⟩
  simp only [isSubclass, (chain_linked C k).search_eq hfuel, Option.map_some, Option.some.injEq]
  rw [Bool.eq_iff_iff, decide_eq_true_iff, List.isSome_findSome?]
  simp [List.any_eq_true]

/-- Where the lookup goes through, the clause takes the errors of what the text names. -/
theorem catches_returns (h : GoesThrough C crefThrow (className path)) :
    ∀ klass, ∃ b, Returns (catches C · crefThrow path klass) (.ok b) ∧
      (b = true ↔ ∃ k, Reads C crefThrow (className path) (.obj k) ∧ k ∈ C.chain klass) := by
  intro klass
  rcases findConstantUnder_returns h with ⟨r, ⟨n, hn⟩, hr⟩
  have hfind : ∀ fuel, n ≤ fuel →
      findConstantUnder C fuel crefThrow (className path) = some (.ok r) := hn
  cases r with
  | none =>
    refine ⟨false, ⟨n, fun fuel hfuel => ?_⟩, ?_⟩
    · simp only [catches, hfind fuel hfuel]
    · constructor
      · rintro ⟨⟩
      · rintro ⟨k, hk, _⟩
        cases (hr _).mpr hk
  | some v =>
    rcases isSubclass_returns C klass v.asObj with ⟨m, hm⟩
    have hsub : ∀ fuel, m ≤ fuel → isSubclass C fuel klass v.asObj =
        some (decide (∃ i ∈ C.chain klass, .obj i = v.asObj)) := hm
    refine ⟨decide (∃ i ∈ C.chain klass, .obj i = v.asObj), ⟨max n m, fun fuel hfuel => ?_⟩, ?_⟩
    · simp only [catches, hfind fuel (by omega), hsub fuel (by omega), Option.map_some]
    · rw [decide_eq_true_iff]
      constructor
      · rintro ⟨k, hk, hv⟩
        refine ⟨k, ?_, hk⟩
        rw [← hr]
        cases v with
        | obj i =>
          cases hv
          rfl
        | word bits =>
          rw [ConstVal.asObj] at hv
          split at hv <;> cases hv
      · rintro ⟨k, hk, hmem⟩
        cases (hr _).mpr hk
        exact ⟨k, hmem, rfl⟩

theorem goesThrough_of_catches {fuel : ℕ} {b : Bool}
    (h : catches C fuel crefThrow path k = some (.ok b)) :
    GoesThrough C crefThrow (className path) := by
  rw [catches] at h
  cases hfind : findConstantUnder C fuel crefThrow (className path) with
  | none =>
    rw [hfind] at h
    cases h
  | some r =>
    cases r with
    | error e =>
      rw [hfind] at h
      cases h
    | ok r => exact goesThrough_of_returns hfind

/-! ## Classes of errors -/

theorem mem_chain_self (C : State) (k : ObjId) : k ∈ C.chain k := by
  have h := chain_linked C k
  generalize C.chain k = l at h
  cases h
  exact List.mem_cons_self

/-- Two classes that are each derived from the other are one. -/
theorem chain_antisymm (hi : i ∈ C.chain k) (hk : k ∈ C.chain i) : i = k := by
  have hlinked := chain_linked C k
  rcases List.append_of_mem hi with ⟨above, below, heq⟩
  rw [heq] at hlinked
  have hrest : C.chain i = i :: below := (chain_linked C i).unique hlinked.rest
  rw [hrest] at hk
  rcases List.mem_cons.mp hk with rfl | hk
  · rfl
  -- the walk from `k` would meet it a second time behind `i`
  have hnodup := hlinked.nodup
  cases above with
  | nil =>
    cases hlinked
    rfl
  | cons a above =>
    rw [List.cons_append] at hlinked hnodup
    cases hlinked
    exact absurd (by simp [hk]) (List.nodup_cons.mp hnodup).1

/-- What a class is derived from is a class or the `ObjIClass` of a module. -/
theorem isPlace_of_mem_chain (hk : State.IsClass C k) (hi : i ∈ C.chain k) : C.heap.IsPlace i := by
  refine (chain_linked C k).forall_mem (P := C.heap.IsPlace) ?_ C.built.wf.place i hi
  rintro _ ⟨⟩
  exact .inl hk

theorem own_noIClass {name : Bytes} (h : C.own k name = some (.obj i)) :
    C.heap.typeOf i ≠ some .iclass := by
  have htable : C.ownTable k = some (C.constants k) := if_pos (isSpace_of_own h)
  rw [State.own, htable, Option.bind_some] at h
  exact C.constants_noIClass k _ (mem_of_lookup h) i rfl

theorem resolves_noIClass {name : Bytes} (h : Resolves C name (.obj i) cref) :
    C.heap.typeOf i ≠ some .iclass := by
  induction h with
  | inherited h =>
    rcases List.exists_of_findSome?_eq_some h with ⟨j, _, hj⟩
    exact own_noIClass hj
  | outside _ _ ih => exact ih
  | toplevel h => exact C.toplevel_noIClass _ (mem_of_lookup h) i rfl

theorem path_noIClass {u : ConstVal} {names : List Bytes} (h : Path C u names (.obj i))
    (hu : ∀ j, u = .obj j → C.heap.typeOf j ≠ some .iclass) : C.heap.typeOf i ≠ some .iclass := by
  generalize hv : ConstVal.obj i = v at h
  induction h with
  | done => exact hu i hv.symm
  | step hown _ ih =>
    apply ih _ hv
    rintro j rfl
    exact own_noIClass hown

/-- A class the text names and that an error is derived from is no `ObjIClass`. -/
theorem isClass_of_reads {name : Bytes} {klass : ObjId} (h : Reads C cref name (.obj k))
    (hklass : State.IsClass C klass) (hk : k ∈ C.chain klass) : State.IsClass C k := by
  rcases h with ⟨u, hu, hpath⟩
  rcases isPlace_of_mem_chain hklass hk with hclass | hiclass
  · exact hclass
  · refine absurd hiclass (path_noIClass hpath ?_)
    rintro j rfl
    exact resolves_noIClass hu

/-! ## The clause and the expression -/

theorem clauseAgrees_of_meets (h : ClauseMeets C cref crefThrow path) :
    ClauseAgrees C cref crefThrow path := by
  rcases evalPath_returns h.expression with ⟨r, hret, hne, hr⟩
  refine ⟨r, hret, hne, fun klass hklass => ?_⟩
  rcases catches_returns h.clause klass with ⟨b, hb, hiff⟩
  refine ⟨b, hb, ?_⟩
  rw [hiff]
  constructor
  · rintro ⟨k, hreads, hmem⟩
    have hk := isClass_of_reads hreads hklass hmem
    refine ⟨k, ?_, hk, hmem⟩
    rw [hr, ← h.same k hk, ← reads_iff_names (className_noNul path)]
    exact hreads
  · rintro ⟨k, hval, hk, hmem⟩
    refine ⟨k, ?_, hmem⟩
    rw [reads_iff_names (className_noNul path), h.same k hk, ← hr]
    exact hval

theorem meets_of_clauseAgrees (h : ClauseAgrees C cref crefThrow path) :
    ClauseMeets C cref crefThrow path := by
  rcases h with ⟨r, ⟨n, hn⟩, hne, hclause⟩
  have hexpr := searchable_of_evalPath (hn n (Nat.le_refl n)) hne
  have hthrough : GoesThrough C crefThrow (className path) := by
    rcases hclause Heap.lxClassClass C.built.wf.roots.2 with ⟨b, ⟨m, hm⟩, _⟩
    exact goesThrough_of_catches (hm m (Nat.le_refl m))
  refine ⟨hexpr, hthrough, ?_⟩
  rcases evalPath_returns hexpr with ⟨r', hret', _, hr'⟩
  obtain rfl : r' = r := hret'.unique ⟨n, hn⟩
  -- which errors the clause takes, in terms of both readings of the path
  have htakes : ∀ klass, State.IsClass C klass →
      ((∃ k, Reads C crefThrow (className path) (.obj k) ∧ k ∈ C.chain klass) ↔
        ∃ k, PathNames C cref path (.obj k) ∧ State.IsClass C k ∧ k ∈ C.chain klass) := by
    intro klass hklass
    rcases hclause klass hklass with ⟨b, hb, hiff⟩
    rcases catches_returns hthrough klass with ⟨b', hb', hiff'⟩
    obtain rfl : b' = b := Except.ok.inj (hb'.unique hb)
    rw [← hiff', hiff]
    simp only [hr']
  intro k hk
  rw [← reads_iff_names (className_noNul path)]
  constructor
  · intro hreads
    rcases (htakes k hk).mp ⟨k, hreads, mem_chain_self C k⟩ with ⟨i, hi, hiclass, himem⟩
    rcases (htakes i hiclass).mpr ⟨i, hi, hiclass, mem_chain_self C i⟩ with ⟨j, hj, hjmem⟩
    have hjk : ConstVal.obj j = .obj k := reads_unique hthrough hj hreads
    cases hjk
    rwa [chain_antisymm himem hjmem] at hi
  · intro hnames
    rcases (htakes k hk).mpr ⟨k, hnames, hk, mem_chain_self C k⟩ with ⟨i, hi, himem⟩
    have hiclass := isClass_of_reads hi hk himem
    rcases (htakes i hiclass).mp ⟨i, hi, mem_chain_self C i⟩ with ⟨j, hj, _, hjmem⟩
    have hjk : PathResult.value (.obj j) = .value (.obj k) :=
      ((hr' _).mpr hj).symm.trans ((hr' _).mpr hnames)
    cases hjk
    rwa [chain_antisymm himem hjmem] at hi

/-! ## Paths of two names -/

theorem pieces_two (m n : Ident) : pieces dice (m.text ++ (dice ++ n.text)) = [m.text, n.text] := by
  have hfind : find dice (m.text ++ (dice ++ n.text)) = some (m.text, n.text) := by
    apply find_append
    intro front back heq
    by_contra hlt
    -- an earlier separator would put a colon into the first name
    have hcolon : (m.text ++ (dice ++ n.text))[front.length]? = some 58 := by
      rw [heq]
      simp [dice]
    rw [List.getElem?_append_left (by omega)] at hcolon
    exact m.noColon (List.mem_of_getElem? hcolon)
  rw [pieces_of_some dice_ne_nil hfind, pieces_ident]

/-- From one place, the clause's text of a path of two names names what the path names, unless the
first of them is `nil`. -/
theorem names_two (m n : Ident) (hnil : ¬ PathNames C cref (.const m) nilVal) :
    Names C cref (pieces dice (className (.lookup (.const m) n))) v ↔
      PathNames C cref (.lookup (.const m) n) v := by
  have htext : className (.lookup (.const m) n) = m.text ++ (dice ++ n.text) := by
    simp [className, pushPrefixes, ConstPath.tok]
  rw [htext, pieces_two]
  constructor
  · rintro ⟨u, hu, hpath⟩
    cases hpath with
    | step hown hdone =>
      cases hdone
      exact .lookup (.const hu) hown
  · intro h
    cases h with
    | lookup hchild hown =>
      cases hchild with
      | const hm => exact ⟨_, hm, .step hown .done⟩
    | underNil hchild _ => exact absurd hchild hnil

end

/-- **A catch clause takes what the path names as an expression exactly when** both lookups go
through and the text kept for it (`A` of `A` and of `::A`, `A::B` of `A::B` and of `::A::B`, the
last pair first of a longer path) names, from the class that is innermost when the clause is looked
at, the class the path names from the `try`. -/
theorem clauseAgrees_iff (C : State) (cref : Option ObjId) (frames : List (Option ObjId))
    (crefStack : List ObjId) (path : ConstPath) :
    ClauseAgrees C cref (popFrames frames crefStack).head? path ↔
      ClauseMeets C cref (popFrames frames crefStack).head? path :=
  ⟨meets_of_clauseAgrees, clauseAgrees_of_meets⟩

/-! ## A path of three names -/

/-- A program with the class `C` in the module `B` in the module `A`. -/
def nested : State where
  heap := ((Heap.initial.newModule.1.newModule.1).newClass (some Heap.lxObjClass)).1
  built := .newClass (.newModule (.newModule .initial)) rfl
  constants := fun k => if k = 3 then [([66], .obj 4)] else if k = 4 then [([67], .obj 5)] else []
  under := fun k => if k = 5 then some 4 else if k = 4 then some 3 else none
  toplevel := [([65], .obj 3)]
  constants_noNul := by
    intro k e he
    split_ifs at he
    · simp_all
    · simp_all
    · cases he
  toplevel_noNul := by simp
  constants_noIClass := by
    intro k e he i hi
    split_ifs at he
    · obtain rfl : e = ([66], .obj 4) := by simpa using he
      cases hi
      decide
    · obtain rfl : e = ([67], .obj 5) := by simpa using he
      cases hi
      decide
    · cases he
  toplevel_noIClass := by
    simp only [List.mem_singleton, forall_eq, ConstVal.obj.injEq]
    rintro i rfl
    decide

/-- `A::B::C` -/
def pathABC : ConstPath :=
  .lookup (.lookup (.const ⟨[65], by decide, by decide, by decide⟩)
    ⟨[66], by decide, by decide, by decide⟩) ⟨[67], by decide, by decide, by decide⟩

/-- The clause `catch (A::B::C)` keeps the text `B::CA::B` and lets the error pass, at the top level
as anywhere. -/
theorem three_names_pass :
    className pathABC = [66, 58, 58, 67, 65, 58, 58, 66] ∧
      ¬ ClauseAgrees nested none (popFrames [] []).head? pathABC := by
  have htext : className pathABC = [66, 58, 58, 67, 65, 58, 58, 66] := by decide
  refine ⟨htext, ?_⟩
  rintro ⟨r, hret, _, hclause⟩
  have hexpr : Returns (evalPath nested · none pathABC) (.value (.obj 5)) := by
    refine ⟨0, fun fuel _ => ?_⟩
    have hA : findConstantUnder nested fuel none [65] = some (.ok (some (.obj 3))) := by
      rw [findConstantUnder_eq_afterSearch, searchClasses_none]
      decide +kernel
    simp only [evalPath, pathABC, opGetConst, hA]
    decide
  obtain rfl := hret.unique hexpr
  rcases hclause 5 rfl with ⟨b, hb, hiff⟩
  have hpass : Returns (catches nested · none pathABC 5) (.ok false) := by
    refine ⟨0, fun fuel _ => ?_⟩
    have hB : findConstantUnder nested fuel none (className pathABC) = some (.ok none) := by
      rw [findConstantUnder_eq_afterSearch, searchClasses_none]
      decide +kernel
    simp only [catches, hB]
  obtain rfl : b = false := Except.ok.inj (hb.unique hpass)
  exact Bool.false_ne_true (hiff.mpr ⟨5, rfl, rfl, mem_chain_self nested 5⟩)

end Clox.CatchNames
