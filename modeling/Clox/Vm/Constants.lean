import Clox.Lib.Separators
import Clox.Vm.OneOrder
import Clox.Runtime.Printing

/-! # Constants under classes and modules

`findConstantUnder` looks a name up in a class, in the classes it is derived
from, in the classes around it and at the top level, and goes on with the
further names behind `::`. Its loops are compared with one lookup after the
other: a first name that is resolved from the inside out, and each further
name among the constants of the value before it.
-/

namespace Clox.Constants

open Clox Separators Printing

/-- A constant's value: an object, or the bits of a number, `nil`, `true` or `false`. -/
inductive ConstVal where
  | obj (k : ObjId)
  | word (bits : BitVec 64)
deriving DecidableEq, Repr

/-- An `Obj*`; `stray` points at no object. -/
inductive ObjPtr where
  | null
  | obj (k : ObjId)
  | stray
deriving DecidableEq, Repr

/-- `AS_OBJ`: the bits without `SIGN_BIT | QNAN`. -/
def ConstVal.asObj : ConstVal → ObjPtr
  | .obj k => .obj k
  | .word bits => if bits &&& ~~~0xfffc000000000000#64 = 0 then .null else .stray

/-- A `Table` from names to constants. -/
abbrev ConstTable := List (Bytes × ConstVal)

/-- The classes and modules with `ClassInfo.constants` and `ClassInfo.under`, and
`vm.constants`. Every name in a table is a C string, and no value is the `ObjIClass` of an included
module. -/
structure State where
  heap : Heap
  built : heap.Built
  constants : ObjId → ConstTable
  under : ObjId → Option ObjId
  toplevel : ConstTable
  constants_noNul : ∀ k, ∀ e ∈ constants k, 0 ∉ e.1
  toplevel_noNul : ∀ e ∈ toplevel, 0 ∉ e.1
  constants_noIClass : ∀ k, ∀ e ∈ constants k, ∀ i, e.2 = .obj i → heap.typeOf i ≠ some .iclass
  toplevel_noIClass : ∀ e ∈ toplevel, ∀ i, e.2 = .obj i → heap.typeOf i ≠ some .iclass

/-! ## The pieces of a name -/

/-- `"::"` -/
def dice : Bytes := [58, 58]

/-- The loop of `constantQualifiedParts`: how often it counts from `sep` on. -/
def countFrom : ℕ → Bytes → ℕ
  | 0, _ => 0
  | fuel + 1, start =>
    match find dice start with
    | none => 0
    | some (_, rest) => if rest = [] then 1 else countFrom fuel rest + 1

/-- `constantQualifiedParts` -/
def constantQualifiedParts (name : Bytes) : ℕ := countFrom (cstr name).length (cstr name) + 1

/-- The loop of `constantQualifiedPart` from `start`, which begins part `part`. -/
def partFrom (npart : ℕ) : ℕ → Bytes → ℕ → Option Bytes
  | 0, _, _ => none
  | fuel + 1, start, part =>
    match find dice start with
    | none => none
    | some (before, rest) =>
      if part = npart then some before
      else if rest = [] then none
      else if find dice rest = none ∧ part + 1 = npart then some rest
      else partFrom npart fuel rest (part + 1)

/-- `constantQualifiedPart` -/
def constantQualifiedPart (name : Bytes) (npart : ℕ) : Option Bytes :=
  partFrom npart (cstr name).length (cstr name) 1

/-! ## `findConstantUnder` -/

section

variable (C : State)

/-- `CLASSINFO(klass)->constants`; the `ObjIClass` of an included module has no `classInfo`. -/
def State.ownTable (k : ObjId) : Option ConstTable :=
  if C.heap.typeOf k = some .klass ∨ C.heap.typeOf k = some .module then some (C.constants k)
  else none

/-- What the search loops do with a class. -/
def visit (name : Bytes) (k : ObjId) : Option (Except Abort ConstVal) :=
  match C.ownTable k with
  | none => some (.error .undefinedBehaviour)
  | some constants => (constants.lookup name).map .ok

/-- `while (origKlass && (klass = under(origKlass))) { .. }` -/
def searchUnder (name : Bytes) : ℕ → Option ObjId → Option (Option (Except Abort ConstVal))
  | _, none => some none
  | 0, some _ => none
  | fuel + 1, some origKlass =>
    match C.under origKlass with
    | none => some none
    | some klass =>
      match Linked.search C.heap.superclass (visit C name) fuel (some klass) with
      | some none => searchUnder name fuel (some klass)
      | r => r

/-- The two search loops. -/
def searchClasses (fuel : ℕ) (klass : Option ObjId) (name : Bytes) :
    Option (Option (Except Abort ConstVal)) :=
  match Linked.search C.heap.classSuper (visit C name) fuel klass with
  | some none => searchUnder C name fuel klass
  | r => r

/-- `foundBase`: `n` parts are left, `base` is what the parts before named. -/
def resolveParts (name : Bytes) (parts : ℕ) : ℕ → ConstVal → Except Abort (Option ConstVal)
  | 0, base => if base.asObj = .null then .error .assertFailed else .ok (some base)
  | n + 1, base =>
    match constantQualifiedPart name (parts - n) with
    | none => .error .assertFailed
    | some partName =>
      match base.asObj with
      | .obj k =>
        match C.ownTable k with
        | none => .error .undefinedBehaviour
        | some constants =>
          match constants.lookup partName with
          | none => .ok none
          | some val => resolveParts name parts n val
      | _ => .error .undefinedBehaviour

/-- `findConstantUnder`: the constant, or `none` for `false`. -/
def findConstantUnder (fuel : ℕ) (klass : Option ObjId) (name : Bytes) :
    Option (Except Abort (Option ConstVal)) :=
  let qualifiedParts := constantQualifiedParts name
  let first := if qualifiedParts > 1 then constantQualifiedPart name 1 else some name
  match first with
  | none => some (.error .nullDeref)
  | some first =>
    match searchClasses C fuel klass first with
    | none => none
    | some (some (.error e)) => some (.error e)
    | some found =>
      match (found.bind Except.toOption).or (C.toplevel.lookup first) with
      | none => some (.ok none)
      | some val =>
        if qualifiedParts = 1 then some (.ok (some val))
        else if val.asObj = .null then some (.ok none)
        else some (resolveParts C name qualifiedParts (qualifiedParts - 1) val)

end

/-! ## Counting and taking the pieces -/

theorem dice_ne_nil : dice ≠ [] := by decide

@[simp] theorem pieces_nil : pieces dice [] = [[]] := pieces_of_none (by decide)

theorem countFrom_add_one {fuel : ℕ} {start : Bytes} (hfuel : start.length ≤ fuel) :
    countFrom fuel start + 1 = (pieces dice start).length := by
  induction start using pieces_induction dice_ne_nil generalizing fuel with
  | last start h =>
    rw [pieces_of_none h]
    cases fuel with
    | zero => rfl
    | succ fuel => simp [countFrom, h]
  | more start before rest h ih =>
    have hlen := length_of_find h
    have hdice : dice.length = 2 := rfl
    rw [pieces_of_some dice_ne_nil h, List.length_cons]
    obtain ⟨fuel, rfl⟩ : ∃ n, fuel = n + 1 := ⟨fuel - 1, by omega⟩
    simp only [countFrom, h]
    split
    · rename_i hrest
      simp [hrest]
    · rw [ih (by omega)]

theorem constantQualifiedParts_eq (name : Bytes) :
    constantQualifiedParts name = (pieces dice (cstr name)).length :=
  countFrom_add_one (Nat.le_refl _)

/-- The piece at `j`, as far as `constantQualifiedPart` finds it: not the only one, and not the last
one when that is empty. -/
def nthPiece (ps : List Bytes) (j : ℕ) : Option Bytes :=
  if ps.length ≤ 1 ∨ (j + 1 = ps.length ∧ ps[j]? = some []) then none else ps[j]?

theorem partFrom_eq {fuel part npart : ℕ} {start : Bytes} (hfuel : start.length ≤ fuel)
    (hpart : part ≤ npart) :
    partFrom npart fuel start part = nthPiece (pieces dice start) (npart - part) := by
  induction start using pieces_induction dice_ne_nil generalizing fuel part with
  | last start h =>
    rw [pieces_of_none h]
    cases fuel with
    | zero => rfl
    | succ fuel => simp [partFrom, h, nthPiece]
  | more start before rest h ih =>
    have hlen := length_of_find h
    have hdice : dice.length = 2 := rfl
    obtain ⟨fuel, rfl⟩ : ∃ n, fuel = n + 1 := ⟨fuel - 1, by omega⟩
    rw [pieces_of_some dice_ne_nil h]
    simp only [partFrom, h]
    obtain ⟨p, ps, hps⟩ := List.exists_cons_of_ne_nil (pieces_ne_nil (s := rest) dice_ne_nil)
    by_cases heq : part = npart
    · subst heq
      simp [nthPiece, hps]
    rw [if_neg heq]
    obtain ⟨j, hj⟩ : ∃ j, npart - part = j + 1 := ⟨npart - part - 1, by omega⟩
    rw [hj]
    by_cases hrest : rest = []
    · subst hrest
      cases j <;> simp [nthPiece]
    rw [if_neg hrest]
    by_cases hlast : find dice rest = none
    · -- one more piece: it is taken here or not at all
      rw [pieces_of_none hlast]
      by_cases hnext : part + 1 = npart
      · rw [if_pos ⟨hlast, hnext⟩]
        have hj0 : j = 0 := by omega
        subst hj0
        simp [nthPiece, hrest]
      · rw [if_neg (by simp [hnext])]
        obtain ⟨i, rfl⟩ : ∃ i, j = i + 1 := ⟨j - 1, by omega⟩
        cases fuel <;> simp [partFrom, hlast, nthPiece]
    · rw [if_neg (by simp [hlast]), ih (by omega) (by omega)]
      have hsub : npart - (part + 1) = j := by omega
      rw [hsub]
      obtain ⟨r, hr⟩ := Option.ne_none_iff_exists'.mp hlast
      obtain ⟨q, qs, hqs⟩ := List.exists_cons_of_ne_nil
        (pieces_ne_nil (s := r.2) dice_ne_nil)
      have hp : pieces dice rest = r.1 :: q :: qs := by rw [pieces_of_some dice_ne_nil hr, hqs]
      simp [nthPiece, hp]

theorem constantQualifiedPart_eq (name : Bytes) (j : ℕ) :
    constantQualifiedPart name (j + 1) = nthPiece (pieces dice (cstr name)) j :=
  partFrom_eq (Nat.le_refl _) (Nat.le_add_left 1 j)

/-- The parts that are counted can all be taken, and joined they are the name. -/
def PartsJoin (name : Bytes) : Prop :=
  ∃ ps : List Bytes, ps.length = constantQualifiedParts name ∧
    (∀ i, i < ps.length → constantQualifiedPart name (i + 1) = ps[i]?) ∧ dice.intercalate ps = name

/-- A C string with a separator and something behind the last one. -/
def Separated (name : Bytes) : Prop :=
  0 ∉ name ∧ 2 ≤ (pieces dice name).length ∧ (pieces dice name).getLast? ≠ some []

theorem nthPiece_eq_getElem? {ps : List Bytes} (hlen : 2 ≤ ps.length)
    (hlast : ps.getLast? ≠ some []) (i : ℕ) : nthPiece ps i = ps[i]? := by
  rw [nthPiece, if_neg]
  rintro (h | ⟨hi, hnil⟩)
  · omega
  · rw [List.getLast?_eq_getElem?, ← hi, Nat.add_sub_cancel] at hlast
    exact hlast hnil

theorem partsJoin_iff (name : Bytes) : PartsJoin name ↔ Separated name := by
  have hne := pieces_ne_nil (s := cstr name) dice_ne_nil
  have hpos := List.length_pos_iff.mpr hne
  constructor
  · rintro ⟨ps, hlen, hparts, hjoin⟩
    rw [constantQualifiedParts_eq] at hlen
    have hps : ∀ i, i < ps.length → nthPiece (pieces dice (cstr name)) i = ps[i]? := by
      intro i hi
      rw [← constantQualifiedPart_eq]
      exact hparts i hi
    -- the last part can be taken: there is a separator, and something behind the last one
    have hlast := hps (ps.length - 1) (by omega)
    rw [List.getElem?_eq_getElem (by omega), nthPiece] at hlast
    split at hlast
    · cases hlast
    rename_i htaken
    rw [not_or, not_and] at htaken
    have hnil : (pieces dice (cstr name)).getLast? ≠ some [] := by
      rw [List.getLast?_eq_getElem?, ← hlen]
      exact htaken.2 (by omega)
    have heq : pieces dice (cstr name) = ps := by
      apply List.ext_getElem?
      intro i
      by_cases hi : i < ps.length
      · rw [← hps i hi, nthPiece_eq_getElem? (by omega) hnil]
      · rw [List.getElem?_eq_none (by omega), List.getElem?_eq_none (by omega)]
    have hcstr : cstr name = name := by
      calc cstr name = dice.intercalate (pieces dice (cstr name)) :=
            (intercalate_pieces dice_ne_nil _).symm
        _ = name := by rw [heq, hjoin]
    have hnul := zero_notMem_cstr name
    rw [hcstr] at hnul hnil htaken
    exact ⟨hnul, by omega, hnil⟩
  · rintro ⟨hnul, hlen, hlast⟩
    refine ⟨pieces dice name, ?_, ?_, intercalate_pieces dice_ne_nil name⟩
    · rw [constantQualifiedParts_eq, cstr_eq hnul]
    · intro i _
      rw [constantQualifiedPart_eq, cstr_eq hnul, nthPiece_eq_getElem? hlen hlast]

/-! ## One lookup after the other -/

section

variable (C : State)

/-- What has constants of its own: a class or a module. -/
def State.IsSpace (k : ObjId) : Prop :=
  C.heap.typeOf k = some .klass ∨ C.heap.typeOf k = some .module

/-- The constant a class or module has itself. -/
def State.own (k : ObjId) (name : Bytes) : Option ConstVal := (C.ownTable k).bind (·.lookup name)

/-- A class and what it is derived from, in the order of `CLASS_SUPER`. -/
noncomputable def State.chain (k : ObjId) : List ObjId := Classical.choose (C.built.wf.chain k)

/-- The first constant of the name in a class and what it is derived from. -/
noncomputable def State.inherited (k : ObjId) (name : Bytes) : Option ConstVal :=
  (C.chain k).findSome? fun i => C.own i name

/-- A single name, resolved from the inside out: in the class and what it is derived from, in the
class around it, and so on, and at the top level. -/
inductive Resolves (name : Bytes) (v : ConstVal) : Option ObjId → Prop where
  | inherited {k : ObjId} : C.inherited k name = some v → Resolves name v (some k)
  | outside {k : ObjId} : C.inherited k name = none → Resolves name v (C.under k) →
      Resolves name v (some k)
  | toplevel : C.toplevel.lookup name = some v → Resolves name v none

/-- Further names: each is one of the constants of the class or module before it. -/
inductive Path : ConstVal → List Bytes → ConstVal → Prop where
  | done {v : ConstVal} : Path v [] v
  | step {k : ObjId} {name : Bytes} {names : List Bytes} {u v : ConstVal} :
      C.own k name = some u → Path u names v → Path (.obj k) (name :: names) v

/-- What a qualified name names: the fold of single lookups. -/
def Names (klass : Option ObjId) : List Bytes → ConstVal → Prop
  | [], _ => False
  | first :: names, v => ∃ u, Resolves C first u klass ∧ Path C u names v

/-- `findConstantUnder` is the fold of the lookups. -/
def LookupFolds (klass : Option ObjId) (name : Bytes) : Prop :=
  ∃ r, Returns (findConstantUnder C · klass name) (.ok r) ∧
    ∀ v, r = some v ↔ Names C klass (pieces dice name) v

/-! ## Where the loops agree with it -/

/-- In the chain of the class an included module stands only behind a class that has the
constant. -/
def State.Clear (k : ObjId) (name : Bytes) : Prop :=
  ∀ before i after, C.chain k = before ++ i :: after → ¬ C.IsSpace i →
    ∃ j ∈ before, C.own j name ≠ none

/-- The way outwards ends, and up to the first constant of the name it meets no included module. -/
inductive Searchable (name : Bytes) : Option ObjId → Prop where
  | inherited {k : ObjId} : C.Clear k name → C.inherited k name ≠ none → Searchable name (some k)
  | outside {k : ObjId} : C.Clear k name → C.inherited k name = none →
      Searchable name (C.under k) → Searchable name (some k)
  | toplevel : Searchable name none

/-- Along the further names stand classes and modules up to the last one or one that lacks the
name; a last name that is looked up is not empty, and what it names has bits behind the tag. -/
inductive Walk : ConstVal → List Bytes → Prop where
  | done {v : ConstVal} : v.asObj ≠ .null → Walk v []
  | absent {k : ObjId} {name : Bytes} {names : List Bytes} : C.IsSpace k →
      ¬ (names = [] ∧ name = []) → C.own k name = none → Walk (.obj k) (name :: names)
  | step {k : ObjId} {name : Bytes} {names : List Bytes} {u : ConstVal} :
      ¬ (names = [] ∧ name = []) → C.own k name = some u → Walk u names →
      Walk (.obj k) (name :: names)

/-- The name looked up first: the whole string where the part in front of a NUL has no separator,
otherwise the first piece of that part. -/
def firstName (name : Bytes) : Bytes :=
  if (pieces dice (cstr name)).length = 1 then name
  else (pieces dice (cstr name)).head (pieces_ne_nil dice_ne_nil)

/-- What the part in front of a NUL names. -/
def Reads (klass : Option ObjId) (name : Bytes) (v : ConstVal) : Prop :=
  ∃ u, Resolves C (firstName name) u klass ∧ Path C u (pieces dice (cstr name)).tail v

/-- The first name can be searched, and the others be walked along from what it resolves to (a
value without bits behind the tag counts as not found). -/
def GoesThrough (klass : Option ObjId) (name : Bytes) : Prop :=
  Searchable C (firstName name) klass ∧ ((pieces dice (cstr name)).length = 1 ∨
    ∀ u, Resolves C (firstName name) u klass →
      u.asObj = .null ∨ Walk C u (pieces dice (cstr name)).tail)

/-- The condition: the lookup goes through, and a string with a NUL names nothing in front of
it. -/
def LookupMeets (klass : Option ObjId) (name : Bytes) : Prop :=
  GoesThrough C klass name ∧ (0 ∈ name → ∀ v, ¬ Reads C klass name v)

end

/-! ## The search loops -/

section

variable {C : State} {name : Bytes} {k : ObjId} {klass : Option ObjId} {v : ConstVal}

theorem chain_linked (C : State) (k : ObjId) :
    Linked C.heap.classSuper (some k) (C.chain k) := Classical.choose_spec (C.built.wf.chain k)

theorem ownTable_eq_none_iff : C.ownTable k = none ↔ ¬ C.IsSpace k := by
  simp [State.ownTable, State.IsSpace]

theorem isSpace_of_own (h : C.own k name = some v) : C.IsSpace k := by
  by_contra hk
  simp [State.own, ownTable_eq_none_iff.mpr hk] at h

theorem visit_of_isSpace (h : C.IsSpace k) : visit C name k = (C.own k name).map .ok := by
  have htable : C.ownTable k = some (C.constants k) := if_pos h
  simp only [visit, State.own, htable, Option.bind_some]

theorem visit_of_not_isSpace (h : ¬ C.IsSpace k) :
    visit C name k = some (.error .undefinedBehaviour) := by
  rw [visit, ownTable_eq_none_iff.mpr h]

/-- Where no included module stands in front of the constant, the loop finds the constant. -/
theorem findSome?_visit {l : List ObjId} (hclear : ∀ before i after, l = before ++ i :: after →
    ¬ C.IsSpace i → ∃ j ∈ before, C.own j name ≠ none) :
    l.findSome? (visit C name) = (l.findSome? fun i => C.own i name).map .ok := by
  induction l with
  | nil => rfl
  | cons a l ih =>
    have ha : C.IsSpace a := by
      by_contra ha
      rcases hclear [] a l rfl ha with ⟨j, hj, _⟩
      cases hj
    rw [List.findSome?_cons, List.findSome?_cons, visit_of_isSpace ha]
    cases hown : C.own a name with
    | some v => rfl
    | none =>
      apply ih
      intro before i after heq hi
      rcases hclear (a :: before) i after (by rw [heq]; rfl) hi with ⟨j, hj, hne⟩
      rcases List.mem_cons.mp hj with rfl | hj
      · exact absurd hown hne
      · exact ⟨j, hj, hne⟩

/-- Where an included module stands in front, the loop reads past it. -/
theorem clear_of_findSome?_visit {l : List ObjId} {r : Option ConstVal}
    (h : l.findSome? (visit C name) = r.map .ok) : ∀ before i after, l = before ++ i :: after →
    ¬ C.IsSpace i → ∃ j ∈ before, C.own j name ≠ none := by
  intro before i after heq hi
  by_contra hnone
  have hbefore : ∀ j ∈ before, C.own j name = none := by
    intro j hj
    by_contra hne
    exact hnone ⟨j, hj, hne⟩
  have hfind : ∃ e, l.findSome? (visit C name) = some (.error e) := by
    clear h hnone
    subst heq
    induction before with
    | nil =>
      refine ⟨.undefinedBehaviour, ?_⟩
      rw [List.nil_append, List.findSome?_cons, visit_of_not_isSpace hi]
    | cons b before ih =>
      rw [List.cons_append, List.findSome?_cons]
      by_cases hb : C.IsSpace b
      · rw [visit_of_isSpace hb, hbefore b List.mem_cons_self]
        exact ih fun j hj => hbefore j (List.mem_cons_of_mem _ hj)
      · rw [visit_of_not_isSpace hb]
        exact ⟨_, rfl⟩
  rcases hfind with ⟨e, he⟩
  rw [he] at h
  cases r <;> cases h

/-- Of a class and of a module both ways to read the superclass agree. -/
theorem classSuper_of_isSpace (h : C.IsSpace k) : C.heap.superclass k = C.heap.classSuper k := by
  have hmodule := C.built.wf.module k
  rw [State.IsSpace] at h
  simp only [Heap.typeOf, Heap.superclass, Heap.classSuper] at h hmodule ⊢
  cases ho : C.heap.obj k with
  | none => rfl
  | some o =>
    rw [ho] at h hmodule
    cases o with
    | klass i info => rfl
    | module i info => simpa [HeapObj.super?] using hmodule rfl
    | inst i => simp [HeapObj.type] at h
    | iclass k m s b => simp [HeapObj.type] at h

theorem search_superclass (fuel : ℕ) (p : Option ObjId) :
    Linked.search C.heap.superclass (visit C name) fuel p =
      Linked.search C.heap.classSuper (visit C name) fuel p := by
  apply Linked.search_congr
  intro a ha
  by_cases hspace : C.IsSpace a
  · exact classSuper_of_isSpace hspace
  · rw [visit_of_not_isSpace hspace] at ha
    cases ha

@[simp] theorem searchClasses_none (fuel : ℕ) : searchClasses C fuel none name = some none := by
  cases fuel <;> rfl

/-- The loop over the classes around goes on as the search from the next of them. -/
theorem searchUnder_succ (fuel : ℕ) :
    searchUnder C name (fuel + 1) (some k) = searchClasses C fuel (C.under k) name := by
  rw [searchUnder]
  cases C.under k with
  | none => rw [searchClasses_none]
  | some klass =>
    simp only [searchClasses, search_superclass]

theorem searchClasses_some {fuel : ℕ} (h : (C.chain k).findSome? (visit C name) = none)
    (hfuel : (C.chain k).length ≤ fuel + 1) :
    searchClasses C (fuel + 1) (some k) name = searchClasses C fuel (C.under k) name := by
  rw [searchClasses, (chain_linked C k).search_eq hfuel, h]
  exact searchUnder_succ fuel

/-- More rounds do not change what is found. -/
theorem searchClasses_mono {fuel fuel' : ℕ} {r : Option (Except Abort ConstVal)}
    (h : searchClasses C fuel klass name = some r) (hle : fuel ≤ fuel') :
    searchClasses C fuel' klass name = some r := by
  induction fuel generalizing klass fuel' with
  | zero =>
    cases klass with
    | none => rwa [searchClasses_none] at h ⊢
    | some k => cases h
  | succ fuel ih =>
    obtain ⟨m, rfl⟩ : ∃ m, fuel' = m + 1 := ⟨fuel' - 1, by omega⟩
    cases klass with
    | none => rwa [searchClasses_none] at h ⊢
    | some k =>
      rw [searchClasses] at h ⊢
      cases hs : Linked.search C.heap.classSuper (visit C name) (fuel + 1) (some k) with
      | none =>
        rw [hs] at h
        cases h
      | some found =>
        rw [hs] at h
        rw [Linked.search_mono hs hle]
        cases found with
        | some e => exact h
        | none =>
          simp only [searchUnder_succ] at h ⊢
          exact ih h (by omega)

/-- Where the search goes through, it gives what the name resolves to below the top level. -/
theorem searchClasses_returns (h : Searchable C name klass) :
    ∃ r : Option ConstVal, Returns (searchClasses C · klass name) (r.map .ok) ∧
      ∀ v, Resolves C name v klass ↔ r.or (C.toplevel.lookup name) = some v := by
  induction h with
  | @inherited k hclear hinh =>
    refine ⟨C.inherited k name, ⟨(C.chain k).length, ?_⟩, ?_⟩
    · intro fuel hfuel
      simp only [searchClasses]
      rw [(chain_linked C k).search_eq hfuel, findSome?_visit hclear]
      obtain ⟨v, hv⟩ := Option.ne_none_iff_exists'.mp hinh
      rw [State.inherited] at hv
      rw [State.inherited, hv]
      rfl
    · intro v
      obtain ⟨u, hu⟩ := Option.ne_none_iff_exists'.mp hinh
      rw [hu, Option.some_or]
      constructor
      · rintro (h | ⟨h, _⟩ | _)
        · rwa [← hu]
        · rw [hu] at h
          cases h
      · intro h
        exact .inherited (hu.trans h)
  | @outside k hclear hinh _ ih =>
    rcases ih with ⟨r, ⟨n, hn⟩, hr⟩
    refine ⟨r, ⟨max (C.chain k).length (n + 1), ?_⟩, ?_⟩
    · intro fuel hfuel
      obtain ⟨fuel, rfl⟩ : ∃ f, fuel = f + 1 := ⟨fuel - 1, by omega⟩
      have hnone : (C.chain k).findSome? (visit C name) = none := by
        rw [findSome?_visit hclear]
        exact congrArg (Option.map Except.ok) hinh
      exact (searchClasses_some hnone (by omega)).trans (hn fuel (by omega))
    · intro v
      rw [← hr v]
      constructor
      · rintro (h | ⟨_, h⟩ | _)
        · rw [hinh] at h
          cases h
        · exact h
      · intro h
        exact .outside hinh h
  | toplevel =>
    refine ⟨none, ⟨0, fun fuel _ => by simp⟩, ?_⟩
    intro v
    constructor
    · rintro (_ | _ | h)
      exact h
    · intro h
      exact .toplevel h

/-- A search that ends without an error has gone through. -/
theorem searchable_of_searchClasses {fuel : ℕ} {r : Option ConstVal}
    (h : searchClasses C fuel klass name = some (r.map .ok)) : Searchable C name klass := by
  induction fuel generalizing klass with
  | zero =>
    cases klass with
    | none => exact .toplevel
    | some k => cases h
  | succ fuel ih =>
    cases klass with
    | none => exact .toplevel
    | some k =>
      rw [searchClasses] at h
      cases hs : Linked.search C.heap.classSuper (visit C name) (fuel + 1) (some k) with
      | none =>
        rw [hs] at h
        cases h
      | some found =>
        have hfound := (chain_linked C k).search_some_eq hs
        rw [hs] at h
        cases found with
        | none =>
          have hclear : C.Clear k name := clear_of_findSome?_visit (r := none) hfound.symm
          have hnone : C.inherited k name = none := by
            rw [findSome?_visit hclear] at hfound
            exact Option.map_eq_none_iff.mp hfound.symm
          refine .outside hclear hnone (ih ?_)
          rwa [← searchUnder_succ]
        | some e =>
          have hr : some e = r.map Except.ok := Option.some.inj h
          have hclear : C.Clear k name := by
            apply clear_of_findSome?_visit (r := r)
            rw [← hfound, hr]
          refine .inherited hclear ?_
          intro hnone
          rw [findSome?_visit hclear] at hfound
          rw [State.inherited] at hnone
          rw [hnone] at hfound
          cases hfound

/-! ## The further names -/

/-- The next part the loop takes, with `names` behind it. -/
theorem constantQualifiedPart_of_pieces {before names : List Bytes} {p : Bytes}
    (hps : pieces dice (cstr name) = before ++ p :: names) (hbefore : before ≠ []) :
    constantQualifiedPart name (constantQualifiedParts name - names.length) =
      if names = [] ∧ p = [] then none else some p := by
  have hpos := List.length_pos_iff.mpr hbefore
  have hindex : constantQualifiedParts name - names.length = before.length + 1 := by
    rw [constantQualifiedParts_eq, hps, List.length_append, List.length_cons]
    omega
  have hget : (before ++ p :: names)[before.length]? = some p := by simp
  rw [hindex, constantQualifiedPart_eq, hps, nthPiece, hget]
  have hiff : ((before ++ p :: names).length ≤ 1 ∨
      (before.length + 1 = (before ++ p :: names).length ∧ some p = some [])) ↔
      (names = [] ∧ p = []) := by
    rw [List.length_append, List.length_cons, Option.some.injEq, ← List.length_eq_zero_iff (l := names)]
    constructor
    · rintro (h | ⟨h, hp⟩)
      · omega
      · exact ⟨by omega, hp⟩
    · rintro ⟨h, hp⟩
      exact .inr ⟨by omega, hp⟩
  by_cases h : names = [] ∧ p = []
  · rw [if_pos h, if_pos (hiff.mpr h)]
  · rw [if_neg h, if_neg (mt hiff.mp h)]

theorem resolveParts_of_walk {u : ConstVal} {before names : List Bytes} (h : Walk C u names)
    (hps : pieces dice (cstr name) = before ++ names) (hbefore : before ≠ []) :
    ∃ r, resolveParts C name (constantQualifiedParts name) names.length u = .ok r ∧
      ∀ v, r = some v ↔ Path C u names v := by
  induction h generalizing before with
  | @done u hnull =>
    refine ⟨some u, ?_, ?_⟩
    · rw [List.length_nil, resolveParts, if_neg hnull]
    · intro v
      constructor
      · rintro ⟨⟩
        exact .done
      · rintro ⟨⟩
        rfl
  | @absent k p names hspace hlast hown =>
    have htable : C.ownTable k = some (C.constants k) := if_pos hspace
    rw [State.own, htable, Option.bind_some] at hown
    refine ⟨none, ?_, ?_⟩
    · simp only [List.length_cons, resolveParts,
        constantQualifiedPart_of_pieces hps hbefore, if_neg hlast, ConstVal.asObj, htable, hown]
    · intro v
      constructor
      · rintro ⟨⟩
      · intro hpath
        cases hpath with
        | step hown' _ =>
          rw [State.own, htable, Option.bind_some, hown] at hown'
          cases hown'
  | @step k p names u hlast hown _ ih =>
    have htable : C.ownTable k = some (C.constants k) := if_pos (isSpace_of_own hown)
    have hlookup : (C.constants k).lookup p = some u := by
      rwa [State.own, htable, Option.bind_some] at hown
    have hrest : pieces dice (cstr name) = (before ++ [p]) ++ names := by simpa using hps
    rcases ih hrest (by simp) with ⟨r, hr, hpath⟩
    refine ⟨r, ?_, ?_⟩
    · simp only [List.length_cons, resolveParts,
        constantQualifiedPart_of_pieces hps hbefore, if_neg hlast, ConstVal.asObj, htable, hlookup]
      exact hr
    · intro v
      rw [hpath v]
      constructor
      · intro h
        exact .step hown h
      · intro h
        cases h with
        | step hown' h =>
          rw [hown] at hown'
          cases hown'
          exact h

theorem walk_of_resolveParts {u : ConstVal} {before names : List Bytes} {r : Option ConstVal}
    (h : resolveParts C name (constantQualifiedParts name) names.length u = .ok r)
    (hps : pieces dice (cstr name) = before ++ names) (hbefore : before ≠ []) :
    Walk C u names := by
  induction names generalizing u before with
  | nil =>
    rw [List.length_nil, resolveParts] at h
    split at h
    · cases h
    · rename_i hnull
      exact .done hnull
  | cons p names ih =>
    simp only [List.length_cons, resolveParts, constantQualifiedPart_of_pieces hps hbefore] at h
    by_cases hlast : names = [] ∧ p = []
    · rw [if_pos hlast] at h
      cases h
    rw [if_neg hlast] at h
    cases hu : u.asObj with
    | null =>
      simp only [hu] at h
      cases h
    | stray =>
      simp only [hu] at h
      cases h
    | obj k =>
      obtain rfl : u = .obj k := by
        cases u with
        | obj i =>
          cases hu
          rfl
        | word bits =>
          rw [ConstVal.asObj] at hu
          split at hu <;> cases hu
      simp only [hu] at h
      cases htable : C.ownTable k with
      | none =>
        rw [htable] at h
        cases h
      | some constants =>
        have hspace : C.IsSpace k := by
          by_contra hk
          rw [ownTable_eq_none_iff.mpr hk] at htable
          cases htable
        rw [htable] at h
        cases hlookup : constants.lookup p with
        | none => exact .absent hspace hlast (by rw [State.own, htable, Option.bind_some, hlookup])
        | some w =>
          simp only [hlookup] at h
          refine .step hlast (by rw [State.own, htable, Option.bind_some, hlookup]) ?_
          have hrest : pieces dice (cstr name) = (before ++ [p]) ++ names := by simpa using hps
          exact ih h hrest (by simp)

/-! ## The whole lookup -/

theorem constantQualifiedPart_one (h : constantQualifiedParts name ≠ 1) :
    constantQualifiedPart name 1 = some (firstName name) := by
  have hpos := List.length_pos_iff.mpr (pieces_ne_nil (s := cstr name) dice_ne_nil)
  rw [constantQualifiedParts_eq] at h
  rw [firstName, if_neg h, constantQualifiedPart_eq, nthPiece, if_neg (by omega),
    List.head?_eq_getElem?.symm, List.head?_eq_some_head]

/-- What `findConstantUnder` does with the outcome of the search loops. -/
def afterSearch (C : State) (name : Bytes) :
    Option (Option (Except Abort ConstVal)) → Option (Except Abort (Option ConstVal))
  | none => none
  | some (some (.error e)) => some (.error e)
  | some found =>
    match (found.bind Except.toOption).or (C.toplevel.lookup (firstName name)) with
    | none => some (.ok none)
    | some val =>
      if constantQualifiedParts name = 1 then some (.ok (some val))
      else if val.asObj = .null then some (.ok none)
      else some (resolveParts C name (constantQualifiedParts name)
        (constantQualifiedParts name - 1) val)

theorem findConstantUnder_eq_afterSearch (fuel : ℕ) :
    findConstantUnder C fuel klass name =
      afterSearch C name (searchClasses C fuel klass (firstName name)) := by
  have hpos : 1 ≤ constantQualifiedParts name := Nat.le_add_left ..
  have hfirst : (if constantQualifiedParts name > 1 then constantQualifiedPart name 1
      else some name) = some (firstName name) := by
    by_cases hone : constantQualifiedParts name = 1
    · rw [if_neg (by omega), firstName, if_pos (constantQualifiedParts_eq name ▸ hone)]
    · rw [if_pos (by omega), constantQualifiedPart_one hone]
  simp only [findConstantUnder]
  rw [hfirst]
  dsimp only
  rcases searchClasses C fuel klass (firstName name) with _ | _ | _ | _ <;> rfl

/-- With the first name found, or not, the loop over the parts does the rest. -/
theorem findConstantUnder_eq {fuel : ℕ} {found : Option ConstVal}
    (h : searchClasses C fuel klass (firstName name) = some (found.map .ok)) :
    findConstantUnder C fuel klass name =
      match found.or (C.toplevel.lookup (firstName name)) with
      | none => some (.ok none)
      | some val =>
        if (pieces dice (cstr name)).length = 1 then some (.ok (some val))
        else if val.asObj = .null then some (.ok none)
        else some (resolveParts C name (constantQualifiedParts name)
          (constantQualifiedParts name - 1) val) := by
  rw [findConstantUnder_eq_afterSearch, h, ← constantQualifiedParts_eq]
  cases found <;> rfl

/-- The names behind the first one. -/
theorem pieces_eq_firstName_cons (name : Bytes) (h : (pieces dice (cstr name)).length ≠ 1) :
    pieces dice (cstr name) = [firstName name] ++ (pieces dice (cstr name)).tail := by
  rw [firstName, if_neg h, List.singleton_append, List.cons_head_tail]

theorem not_path_of_null {u v : ConstVal} {names : List Bytes} (hnull : u.asObj = .null)
    (hne : names ≠ []) : ¬ Path C u names v := by
  rintro (_ | ⟨_, _⟩)
  · exact hne rfl
  · cases hnull

theorem tail_length (name : Bytes) :
    (pieces dice (cstr name)).tail.length = constantQualifiedParts name - 1 := by
  rw [List.length_tail, constantQualifiedParts_eq]

theorem findConstantUnder_returns (h : GoesThrough C klass name) :
    ∃ r, Returns (findConstantUnder C · klass name) (.ok r) ∧
      ∀ v, r = some v ↔ Reads C klass name v := by
  have hpos := List.length_pos_iff.mpr (pieces_ne_nil (s := cstr name) dice_ne_nil)
  rcases searchClasses_returns h.1 with ⟨found, ⟨n, hn⟩, hfound⟩
  have heq : ∀ fuel, n ≤ fuel → _ := fun fuel hfuel => findConstantUnder_eq (hn fuel hfuel)
  cases hbase : found.or (C.toplevel.lookup (firstName name)) with
  | none =>
    simp only [hbase] at heq hfound
    refine ⟨none, ⟨n, heq⟩, fun v => ?_⟩
    constructor
    · rintro ⟨⟩
    · rintro ⟨u, hu, _⟩
      cases (hfound u).mp hu
  | some u =>
    simp only [hbase, Option.some.injEq] at heq hfound
    have hu : Resolves C (firstName name) u klass := (hfound u).mpr rfl
    have hreads : ∀ v, Reads C klass name v ↔ Path C u (pieces dice (cstr name)).tail v := by
      intro v
      constructor
      · rintro ⟨w, hw, hpath⟩
        rwa [(hfound w).mp hw]
      · intro hpath
        exact ⟨u, hu, hpath⟩
    by_cases hone : (pieces dice (cstr name)).length = 1
    · simp only [if_pos hone] at heq
      have htail : (pieces dice (cstr name)).tail = [] := by
        rw [← List.length_eq_zero_iff, List.length_tail, hone]
      refine ⟨some u, ⟨n, heq⟩, fun v => ?_⟩
      rw [hreads, htail]
      constructor
      · rintro ⟨⟩
        exact .done
      · rintro ⟨⟩
        rfl
    simp only [if_neg hone] at heq
    have htail : (pieces dice (cstr name)).tail ≠ [] := by
      rw [← List.length_pos_iff, List.length_tail]
      omega
    by_cases hnull : u.asObj = .null
    · simp only [if_pos hnull] at heq
      refine ⟨none, ⟨n, heq⟩, fun v => ?_⟩
      rw [hreads]
      constructor
      · rintro ⟨⟩
      · intro hpath
        exact absurd hpath (not_path_of_null hnull htail)
    · simp only [if_neg hnull] at heq
      have hwalk := ((h.2.resolve_left hone) u hu).resolve_left hnull
      rcases resolveParts_of_walk hwalk (pieces_eq_firstName_cons name hone)
        (List.cons_ne_nil _ _) with ⟨r, hr, hpath⟩
      rw [tail_length] at hr
      refine ⟨r, ⟨n, fun fuel hfuel => ?_⟩, fun v => ?_⟩
      · exact (heq fuel hfuel).trans (congrArg some hr)
      · rw [hpath, hreads]

/-- It goes through wherever it returns. -/
theorem goesThrough_of_returns {fuel : ℕ} {r : Option ConstVal}
    (h : findConstantUnder C fuel klass name = some (.ok r)) : GoesThrough C klass name := by
  cases hs : searchClasses C fuel klass (firstName name) with
  | none =>
    rw [findConstantUnder_eq_afterSearch, hs] at h
    cases h
  | some found =>
    have hok : ∃ base : Option ConstVal, found = base.map .ok := by
      rw [findConstantUnder_eq_afterSearch, hs] at h
      rcases found with _ | e | v
      · exact ⟨none, rfl⟩
      · cases h
      · exact ⟨some v, rfl⟩
    rcases hok with ⟨base, rfl⟩
    have hsearch := searchable_of_searchClasses hs
    refine ⟨hsearch, ?_⟩
    by_cases hone : (pieces dice (cstr name)).length = 1
    · exact .inl hone
    refine .inr fun u hu => ?_
    -- the search found the value the name resolves to, whatever rounds it took
    rcases searchClasses_returns hsearch with ⟨base', ⟨n, hn⟩, hbase⟩
    have hbases : base' = base := by
      have hmore := hn (max n fuel) (Nat.le_max_left ..)
      have hmono := searchClasses_mono hs (Nat.le_max_right n fuel)
      have heq : base'.map Except.ok = (base.map Except.ok : Option (Except Abort ConstVal)) :=
        Option.some.inj (hmore.symm.trans hmono)
      cases base' <;> cases base <;> cases heq <;> rfl
    subst hbases
    rw [findConstantUnder_eq hs, (hbase u).mp hu] at h
    simp only [if_neg hone] at h
    by_cases hnull : u.asObj = .null
    · exact .inl hnull
    · rw [if_neg hnull, ← tail_length] at h
      exact .inr (walk_of_resolveParts (Option.some.inj h) (pieces_eq_firstName_cons name hone)
        (List.cons_ne_nil _ _))

/-- A name that is gone through names one value at most. -/
theorem reads_unique {u : ConstVal} (h : GoesThrough C klass name) (hu : Reads C klass name u)
    (hv : Reads C klass name v) : u = v := by
  rcases findConstantUnder_returns h with ⟨r, _, hr⟩
  exact Option.some.inj (((hr u).mpr hu).symm.trans ((hr v).mpr hv))

theorem mem_of_lookup {t : ConstTable} (h : t.lookup name = some v) : (name, v) ∈ t := by
  induction t with
  | nil => cases h
  | cons e t ih =>
    obtain ⟨n, w⟩ := e
    rw [List.lookup_cons] at h
    split at h
    · rename_i hn
      cases h
      rw [beq_iff_eq.mp hn]
      exact List.mem_cons_self
    · exact List.mem_cons_of_mem _ (ih h)

theorem own_noNul (h : C.own k name = some v) : 0 ∉ name := by
  have htable : C.ownTable k = some (C.constants k) := if_pos (isSpace_of_own h)
  rw [State.own, htable, Option.bind_some] at h
  exact C.constants_noNul k _ (mem_of_lookup h)

/-- What resolves is a C string. -/
theorem Resolves.noNul (h : Resolves C name v klass) : 0 ∉ name := by
  induction h with
  | inherited h =>
    rcases List.exists_of_findSome?_eq_some h with ⟨i, _, hi⟩
    exact own_noNul hi
  | outside _ _ ih => exact ih
  | toplevel h => exact C.toplevel_noNul _ (mem_of_lookup h)

theorem Path.noNul {u : ConstVal} {names : List Bytes} (h : Path C u names v) :
    ∀ p ∈ names, 0 ∉ p := by
  induction h with
  | done => simp
  | step hown _ ih =>
    intro p hp
    rcases List.mem_cons.mp hp with rfl | hp
    · exact own_noNul hown
    · exact ih p hp

theorem Names.noNul {names : List Bytes} (h : Names C klass names v) : ∀ p ∈ names, 0 ∉ p := by
  cases names with
  | nil => simp
  | cons first names =>
    rcases h with ⟨u, hu, hpath⟩
    intro p hp
    rcases List.mem_cons.mp hp with rfl | hp
    · exact hu.noNul
    · exact hpath.noNul p hp

/-- A C string is read as it stands. -/
theorem reads_iff_names (hnul : 0 ∉ name) :
    Reads C klass name v ↔ Names C klass (pieces dice name) v := by
  have hpieces : pieces dice name = firstName name :: (pieces dice (cstr name)).tail := by
    by_cases hone : (pieces dice (cstr name)).length = 1
    · rw [firstName, if_pos hone]
      rw [cstr_eq hnul] at hone ⊢
      obtain ⟨p, hp⟩ := List.length_eq_one_iff.mp hone
      have hjoin := intercalate_pieces dice_ne_nil name
      rw [hp] at hjoin ⊢
      simpa [List.intercalate] using hjoin
    · have hcons := pieces_eq_firstName_cons name hone
      rw [cstr_eq hnul] at hcons ⊢
      exact hcons
  rw [hpieces]
  exact Iff.rfl

theorem lookupFolds_iff (C : State) (klass : Option ObjId) (name : Bytes) :
    LookupFolds C klass name ↔ LookupMeets C klass name := by
  have hnul : 0 ∈ name → ∀ v, ¬ Names C klass (pieces dice name) v := by
    intro hmem v h
    have hdice : (0 : UInt8) ∉ dice := by decide
    rcases exists_mem_pieces hdice hmem with ⟨p, hp, h0⟩
    exact h.noNul p hp h0
  constructor
  · rintro ⟨r, hret, hr⟩
    have hgoes : GoesThrough C klass name := by
      rcases hret with ⟨n, hn⟩
      exact goesThrough_of_returns (hn n (Nat.le_refl n))
    refine ⟨hgoes, ?_⟩
    rcases findConstantUnder_returns hgoes with ⟨r', hret', hr'⟩
    have heq : r' = r := Except.ok.inj (hret'.unique hret)
    subst heq
    intro hmem v hv
    exact hnul hmem v ((hr v).mp ((hr' v).mpr hv))
  · rintro ⟨hgoes, hreads⟩
    rcases findConstantUnder_returns hgoes with ⟨r, hret, hr⟩
    refine ⟨r, hret, fun v => ?_⟩
    rw [hr v]
    by_cases hmem : 0 ∈ name
    · exact iff_of_false (hreads hmem v) (hnul hmem v)
    · exact reads_iff_names hmem

end

/-- **The parts of a name join to it exactly when it is a C string with a separator and something
behind the last one; and the qualified lookup is the fold of single lookups exactly where the search
meets no included module and no ring of classes, each part but the last names a class or module,
and a last part that is looked up is not empty and names something.** -/
theorem qualified_lookup_iff (C : State) (klass : Option ObjId) (name : Bytes) :
    (PartsJoin name ↔ Separated name) ∧ (LookupFolds C klass name ↔ LookupMeets C klass name) :=
  ⟨partsJoin_iff name, lookupFolds_iff C klass name⟩

/-- A program with the module `A`. -/
def withModule : State where
  heap := Heap.initial.newModule.1
  built := .newModule .initial
  constants := fun _ => []
  under := fun _ => none
  toplevel := [([65], .obj Heap.initial.newModule.2)]
  constants_noNul := by simp
  toplevel_noNul := by simp
  constants_noIClass := by simp
  toplevel_noIClass := by
    simp only [List.mem_singleton, forall_eq, ConstVal.obj.injEq]
    rintro i rfl
    decide

/-- `constGet("A::")` fails the assertion that there is a second part. -/
theorem trailing_dice_asserts :
    Returns (findConstantUnder withModule · none [65, 58, 58]) (.error .assertFailed) ∧
      ¬ PartsJoin [65, 58, 58] ∧ ¬ LookupFolds withModule none [65, 58, 58] := by
  have hreturns : Returns (findConstantUnder withModule · none [65, 58, 58])
      (.error .assertFailed) := by
    refine ⟨0, fun fuel _ => ?_⟩
    have hfirst : firstName [65, 58, 58] = [65] := by
      rw [← Option.some_inj, ← constantQualifiedPart_one (by decide)]
      decide
    refine (findConstantUnder_eq_afterSearch fuel).trans ?_
    rw [searchClasses_none, afterSearch, hfirst]
    · decide
    · rintro e ⟨⟩
  refine ⟨hreturns, ?_, ?_⟩
  · rintro ⟨ps, hlen, hparts, _⟩
    have htwo : constantQualifiedParts [65, 58, 58] = 2 := by decide
    have hnone : constantQualifiedPart [65, 58, 58] (1 + 1) = none := by decide
    have hlast := hparts 1 (by omega)
    rw [hnone] at hlast
    have := List.getElem?_eq_none_iff.mp hlast.symm
    omega
  · rintro ⟨r, hr, _⟩
    cases hreturns.unique hr

end Clox.Constants
