import Clox.Runtime.Frozen
import Clox.Runtime.Marks
import Clox.Runtime.Strings

/-! # The hashes that strings remember

`valHash` stores the hash of a string in the string, and whoever changes the bytes sets it back to
0. Whether the stored hash is that of the bytes, in every run of operations and calls of `valHash`.
The exceptions are those of `strings_independent`, where bytes are changed behind the back of
another string, and `String#init` of a string with itself.
-/

namespace Clox.Objects

open Commands Command Sharing Interleaving

/-! ## Bytes and hashes -/

/-- A byte of a string. One that was never written, or whose block is gone, is read as 0. -/
def byteOf : Option Cell → UInt8
  | some (.char c) => c
  | _ => 0

/-- The bytes of `s`, without the NUL. -/
def Heap.bytes (h : Heap) (s : ObjString) : List UInt8 :=
  (((Body.string s).cells h.mem).take s.length).map byteOf

/-- `valHash` of a string -/
def valHash (r : ℕ) : Exec UInt32 := do
  let string ← getString r
  if string.hash > 0 then
    return string.hash
  else
    let h ← heap
    let hash := hashString (h.bytes string)
    setString r { string with hash }
    return hash

/-- The stored hash of the string at `r` is not computed, or is that of its bytes. -/
def HashAt (r : ℕ) (h : Heap) : Prop :=
  ∀ s, h.string? r = some s → s.hash = 0 ∨ s.hash = hashString (h.bytes s)

def Heap.HashesOk (h : Heap) : Prop := ∀ r, HashAt r h

/-- What is kept in a run. -/
structure Heap.Whole (h : Heap) : Prop where
  fits : h.Fits
  sound : Sound .string h.mem.next h.handle
  hashes : h.HashesOk

section Hashes

variable {X : Set ℕ} {h₀ h : Heap} {r x : ℕ} {s s₀ : ObjString}

theorem Heap.Whole.bounded (hw : h.Whole) : h.Bounded := hw.sound.bounded

theorem contents_of_string? (hs : h.string? r = some s) :
    (h.contents r).map Contents.cells = some ((Body.string s).cells h.mem) := by
  rcases Heap.body_of_string? hs with ⟨o, ho, hb⟩
  simp [Heap.contents, ho, Obj.contents, hb]

theorem bytes_eq (hlength : s₀.length = s.length)
    (hcells : (Body.string s).cells h.mem = (Body.string s₀).cells h₀.mem) :
    h.bytes s = h₀.bytes s₀ := by
  rw [Heap.bytes, Heap.bytes, hcells, hlength]

/-- A string that is known and has its bytes still has the right hash. -/
theorem HashAt.kept (hx : HashAt x h₀) (hs : Since X h₀ h) (hX : x ∉ X)
    (hcells : ∀ s s₀, h.string? x = some s → h₀.string? x = some s₀ → s₀.length = s.length →
      (Body.string s).cells h.mem = (Body.string s₀).cells h₀.mem) : HashAt x h := by
  intro s hstring
  rcases hs x s hstring with hin | hzero | ⟨s₀, hs₀, hlength, hhash⟩
  · exact absurd hin hX
  · exact .inl hzero
  · rw [bytes_eq hlength (hcells s s₀ hstring hs₀ hlength), ← hhash]
    exact hx s₀ hs₀

theorem resized_take (n : ℕ) (cells : Cells) : resized n (cells.take n) = resized n cells := by
  unfold resized
  rw [List.take_take, Nat.min_self, List.length_take]
  congr 2
  omega

/-- `storage` is `cells` as far as they were written. -/
theorem cells_of_storage (hs : h.string? r = some s) :
    (Body.string s).cells h.mem = resized (s.length + 1) (h.storage r) := by
  rw [Heap.storage_of_string? hs, resized_take]
  rfl

/-- The strings other than `r`, if they were not changed. -/
theorem Near.hashAt (hn : Near .string r h₀ h) (hx : HashAt x h₀) (hs : Since X h₀ h) (hX : x ∉ X)
    (hxr : x ≠ r) : HashAt x h := by
  refine hx.kept hs hX fun s s₀ hstring hs₀ hlength => ?_
  rcases hn.kept x _ hxr (Heap.handle_of_string? hs₀) rfl with ⟨-, hstorage⟩
  rw [cells_of_storage hstring, cells_of_storage hs₀, hstorage, hlength]

/-- What only concerned `r` left everything in order if it left `r` so. -/
theorem Heap.Whole.of_near (hw : h₀.Whole) (hfits : h.Fits) (hs : Since {r} h₀ h)
    (hn : Near .string r h₀ h) (hr : HashAt r h) : h.Whole := by
  refine ⟨hfits, hn.sound, fun x => ?_⟩
  by_cases hxr : x = r
  · rw [hxr]
    exact hr
  · exact hn.hashAt (hw.hashes x) hs hxr hxr

/-- What concerned no string that is there. -/
theorem Heap.Whole.of_far (hw : h₀.Whole) (hfits : h.Fits) (hs : Since ∅ h₀ h)
    (hn : Near .string r h₀ h) (hr : h₀.string? r = none) : h.Whole := by
  refine hw.of_near hfits (hs.mono (Set.empty_subset _)) hn ?_
  intro s hstring
  rcases hs r s hstring with hin | hzero | ⟨s₀, hs₀, -, -⟩
  · exact absurd hin (Set.notMem_empty r)
  · exact .inl hzero
  · rw [hr] at hs₀
    cases hs₀

end Hashes

/-! ## What the mutators leave -/

/-- An error was thrown, and the hash of `r` is in order. The process does not survive the other
stops. -/
def Caught (r : ℕ) (e : Stop) (h : Heap) : Prop := e.isThrown = true → HashAt r h

def Crash (e : Stop) : Prop := e.isThrown = false

section Mutators

variable {h₀ : Heap} {r x n : ℕ} {env : Env} {args : List Value} {src : Source}

theorem HashAt.reads {α : Type} {B : Stop → Prop} {c : Exec α} (hc : Quiet B c) :
    Triple (HashAt r) c (fun _ => HashAt r) (Caught r) :=
  hc.triple fun _ hh _ _ _ => hh

/-- Nothing is known, and the command does not throw. -/
def Crashing {α : Type} (r : ℕ) (c : Exec α) : Prop :=
  Triple (fun _ => True) c (fun _ _ => True) (Caught r)

theorem Crashing.of_quiet {α : Type} {c : Exec α} (hc : Quiet Crash c) : Crashing r c := by
  refine hc.triple fun h _ e he hthrown => ?_
  rw [he] at hthrown
  cases hthrown

theorem crash_getString : Quiet Crash (getString x) := Quiet.look rfl

theorem crash_loadCells {p : Option ℕ} : Quiet Crash (loadCells p n) := by
  have hstop : Quiet Crash (stopIf (p = none ∧ n ≠ 0) .segfault) :=
    Quiet.ite (Quiet.stop rfl) (Quiet.pure ())
  exact hstop.bind fun _ => Quiet.get.bind fun _ => Quiet.pure _

theorem crash_charAt {k : ℕ} : Quiet Crash (src.charAt k) := by
  cases src with
  | bytes chars => exact Quiet.pure _
  | pointer p => exact crash_loadCells.bind fun _ => Quiet.pure _

theorem storeCells_crashing {p : Option ℕ} {i : ℕ} {xs : Cells} :
    Crashing r (storeCells p i xs) := by
  unfold storeCells
  split
  · refine Triple.ite (fun _ => Triple.pure fun _ h => h) fun _ => Triple.stop fun h _ hthrown => ?_
    cases hthrown
  · exact Triple.modify fun _ h => h

theorem copyChars_crashing {dest : Option ℕ} {i k : ℕ} :
    Crashing r (copyChars dest i src k n) := by
  induction n generalizing k with
  | zero => exact Crashing.of_quiet (Quiet.pure _)
  | succ n ih =>
    exact (Crashing.of_quiet crash_charAt).bind fun _ => storeCells_crashing.bind fun _ => ih

theorem growArray_crashing {p : Option ℕ} : Crashing r (growArray env p n) := by
  have hmodify : ∀ f : Heap → Heap, Crashing r (Command.modify f) :=
    fun _ => Triple.modify fun _ h => h
  unfold growArray
  split
  · exact (Crashing.of_quiet Quiet.get).bind fun _ => (hmodify _).bind fun _ =>
      Triple.pure fun _ h => h
  · refine Triple.bind (Crashing.of_quiet Quiet.get) fun _ => Triple.ite (fun _ => ?_) fun _ => ?_
    · exact (hmodify _).bind fun _ => Triple.pure fun _ h => h
    · exact (hmodify _).bind fun _ => Triple.pure fun _ h => h

theorem growChars_crashing : Crashing r (growChars env x n) := by
  refine Triple.bind (Crashing.of_quiet crash_getString) fun s =>
    Triple.ite (fun _ => ?_) fun _ => Triple.pure fun _ h => h
  have hset : ∀ s', Crashing r (setString x s') := fun _ => Triple.modify fun _ h => h
  exact growArray_crashing.bind fun p => (hset _).bind fun _ => Triple.pure fun _ h => h

/-- A string whose hash was set back is in order. -/
theorem setString_resets {s : ObjString} (hs : s.hash = 0) :
    Triple (fun _ => True) (setString r s) (fun _ => HashAt r) (Caught r) := by
  refine Triple.modify fun h _ s' hstring => ?_
  cases Heap.body_of_setBody hstring
  exact .inl hs

theorem pushCString_hash : Triple (HashAt r) (pushCString env r src n) (fun _ => HashAt r)
    (Caught r) := by
  refine (HashAt.reads quiet_heap).bind fun h => (HashAt.reads (quiet_assert _)).bind fun _ => ?_
  refine Triple.ite (fun _ => Triple.pure fun _ h => h) fun _ => Triple.pre ?_ fun _ _ => trivial
  refine (Crashing.of_quiet crash_getString).bind fun s => growChars_crashing.bind fun s' => ?_
  exact copyChars_crashing.bind fun _ => storeCells_crashing.bind fun _ => setString_resets rfl

theorem insertCString_hash {pos : ℤ} {replaceAt : Bool} :
    Triple (HashAt r) (insertCString env r src n pos replaceAt) (fun _ => HashAt r)
      (Caught r) := by
  refine (HashAt.reads quiet_heap).bind fun h => (HashAt.reads (quiet_assert _)).bind fun _ => ?_
  refine (HashAt.reads (quiet_getString r)).bind fun s => ?_
  refine (HashAt.reads (quiet_assert _)).bind fun _ => Triple.ite (fun _ => pushCString_hash) fun _ => ?_
  refine Triple.ite (fun _ => Triple.pure fun _ h => h) fun _ => Triple.pre ?_ fun _ _ => trivial
  refine growChars_crashing.bind fun s' => (Crashing.of_quiet crash_loadCells).bind fun moved => ?_
  refine storeCells_crashing.bind fun _ => copyChars_crashing.bind fun _ => ?_
  exact storeCells_crashing.bind fun _ => setString_resets rfl

theorem clearObjString_hash : Triple (HashAt r) (clearObjString env r) (fun _ => HashAt r)
    (Caught r) := by
  refine (HashAt.reads quiet_heap).bind fun h => (HashAt.reads (quiet_assert _)).bind fun _ => ?_
  refine Triple.pre ?_ fun _ _ => trivial
  exact (Crashing.of_quiet crash_getString).bind fun s => growArray_crashing.bind fun p =>
    storeCells_crashing.bind fun _ => setString_resets rfl

theorem pushString_hash {y : ℕ} : Triple (HashAt r) (pushString env r y) (fun _ => HashAt r)
    (Caught r) :=
  (HashAt.reads (quiet_throwIfFrozen r _)).bind fun _ =>
    (HashAt.reads (quiet_getString y)).bind fun _ => pushCString_hash

theorem clearString_hash : Triple (HashAt r) (clearString env r) (fun _ => HashAt r)
    (Caught r) :=
  (HashAt.reads (quiet_throwIfFrozen r _)).bind fun _ => clearObjString_hash

theorem stringInsertAt_hash {y : ℕ} {pos : ℤ} {replaceAt : Bool} :
    Triple (HashAt r) (stringInsertAt env r y pos replaceAt) (fun _ => HashAt r) (Caught r) :=
  (HashAt.reads (quiet_throwIfFrozen r _)).bind fun _ =>
    (HashAt.reads (quiet_getString y)).bind fun _ => insertCString_hash

/-- A cell that is written over with what it has. -/
theorem overwrite_same {cells : Cells} {i : ℕ} {c : Option Cell}
    (hc : (resized n cells)[i]? = some c) : overwrite cells i [c] = cells := by
  rcases Nat.lt_or_ge i cells.length with hlt | hge
  · have hin : i < n := by
      have := (List.getElem?_eq_some_iff.mp hc).1
      rwa [length_resized] at this
    have hcell : cells[i]? = some c := by
      rw [resized, List.getElem?_append_left (by rw [List.length_take]; omega),
        List.getElem?_take_of_lt hin] at hc
      exact hc
    have hset : overwrite cells i [c] = cells.set i c := by
      unfold overwrite
      rw [List.take_of_length_le (l := [c]) (by simp only [List.length_singleton]; omega),
        List.set_eq_take_append_cons_drop, if_pos hlt]
      simp
    rw [hset, ← (List.getElem?_eq_some_iff.mp hcell).2, List.set_getElem_self]
  · unfold overwrite
    simp [List.take_of_length_le hge, List.drop_of_length_le (Nat.le_add_right_of_le hge),
      Nat.sub_eq_zero_of_le hge]

/-- The hash is set back if the byte is another one. -/
theorem stringIndexSet_hash {index : ℤ} {c : Option Cell} :
    Triple (HashAt r) (stringIndexSet r index c) (fun _ => HashAt r) (Caught r) := by
  have hget : Triple (HashAt r) (getString r) (fun s h => HashAt r h ∧ h.string? r = some s)
      (Caught r) :=
    Triple.look (fun _ _ hh hs => ⟨hh, hs⟩) fun _ hh _ _ => hh
  refine hget.bind fun buf => ?_
  have hreads : ∀ {α : Type} {B : Stop → Prop} {c : Exec α}, Quiet B c →
      Triple (fun h => HashAt r h ∧ h.string? r = some buf) c
        (fun _ h => HashAt r h ∧ h.string? r = some buf) (Caught r) :=
    fun hc => hc.triple fun _ hh _ _ _ => hh.1
  refine (hreads (quiet_throwIfFrozen r _)).bind fun _ => ?_
  refine (hreads (quiet_stopIf _ (by simp))).bind fun _ => ?_
  have hload : Triple (fun h => HashAt r h ∧ h.string? r = some buf)
      (loadCells buf.chars buf.length)
      (fun cells h => cells = resized buf.length (h.mem.load buf.chars) ∧
        HashAt r h ∧ h.string? r = some buf) (Caught r) := by
    refine Triple.bind (Q := fun _ h => HashAt r h ∧ h.string? r = some buf)
      (Triple.ite (fun _ => Triple.stop fun _ hh _ => hh.1) fun _ => Triple.pure fun _ hh => hh)
      fun _ => ?_
    exact fun h hh => ⟨rfl, hh⟩
  refine hload.bind fun cells => ?_
  by_cases hsame : cells[index.toNat]? = some c
  · -- the byte is the one that is there: nothing changes
    have hstore : Triple (fun h => cells = resized buf.length (h.mem.load buf.chars) ∧
        HashAt r h ∧ h.string? r = some buf) (storeCells buf.chars index.toNat [c])
        (fun _ => HashAt r) (Caught r) := by
      unfold storeCells
      split
      · refine Triple.ite (fun hnil => absurd hnil (List.cons_ne_nil _ _)) fun _ =>
          Triple.stop fun h _ hthrown => ?_
        cases hthrown
      · rename_i p hp
        refine Triple.modify fun h hh => ?_
        rcases hh with ⟨hcells, hhash, -⟩
        rw [hcells, hp] at hsame
        rw [overwrite_same hsame]
        intro s hs
        have hbytes : ({ h with mem := h.mem.put p (h.mem.load (some p)) } : Heap).bytes s =
            h.bytes s := by
          unfold Heap.bytes Body.cells
          simp only [Blocks.load_put_load]
        rw [hbytes]
        exact hhash s hs
    refine hstore.bind fun _ => Triple.ite (fun hne => absurd hsame hne) fun _ =>
      Triple.pure fun _ hh => hh
  · refine Triple.pre (storeCells_crashing.bind fun _ => ?_) fun _ _ => trivial
    exact Triple.ite (fun _ => setString_resets rfl) fun hne => absurd hsame (by simpa using hne)

/-- A reading command at the beginning of a method. -/
theorem Heap.Whole.reads {α : Type} {B : Stop → Prop} {c : Exec α} (hw : h₀.Whole)
    (hc : Quiet B c) : Triple (fun h => h = h₀) c (fun _ h => h = h₀) (Caught r) :=
  hc.triple fun _ hh _ _ _ => hh ▸ hw.hashes r

/-- The copy of a shared buffer has the same bytes. -/
theorem dedupString_hash (hw : h₀.Whole) :
    Triple (fun h => h = h₀) (dedupString r) (fun _ => HashAt r) (Caught r) := by
  cases hs : h₀.string? r with
  | none =>
    refine Triple.bind (Q := fun _ _ => False) (Triple.look (fun h s hh hs' => ?_) fun h _ _ ht => ?_)
      fun _ _ hfalse => hfalse.elim
    · rw [hh, hs] at hs'
      cases hs'
    · cases ht
  | some s =>
    by_cases hchars : s.isShared = true → s.chars ≠ none
    · have hcopy : Triple (fun h => h = h₀) (dedupString r) (fun _ h => h.contents r = h₀.contents r)
          (Caught r) :=
        (dedupString_known hs (hw.fits.string hs) hw.bounded hchars).weaken (fun _ h => h)
          (fun _ _ hh => hh.1) fun _ _ hfalse => hfalse.elim
      have hmarks : Triple (fun h => h = h₀) (dedupString r) (fun _ => Since ∅ h₀)
          fun _ => Since ∅ h₀ :=
        dedupString_marks.pre fun h hh => by
          rw [hh]
          exact Since.refl h₀
      refine (hcopy.both hmarks).weaken (fun _ h => h) (fun _ h hh => ?_) fun _ _ hh => hh.1
      refine (hw.hashes r).kept hh.2 (Set.notMem_empty r) fun s' s₀ hs' hs₀ _ => ?_
      have hcells := congrArg (Option.map Contents.cells) hh.1
      rw [contents_of_string? hs', contents_of_string? hs₀] at hcells
      exact Option.some.inj hcells
    · -- a shared string without a buffer
      rcases Classical.not_imp.mp hchars with ⟨hshared, hnone⟩
      have hnone' : s.chars = none := Classical.not_not.mp hnone
      refine Triple.bind (Q := fun s' _ => s' = s) (Triple.look (fun h s' hh hs' => ?_)
        fun h _ _ ht => ?_) fun s' => Triple.of_imp (fun _ h => h) ?_
      · rw [hh, hs] at hs'
        exact (Option.some.inj hs').symm
      · cases ht
      · rintro rfl
        refine Triple.ite (fun _ => ?_) fun hunshared => absurd hshared hunshared
        refine Triple.bind (Q := fun _ _ => True) (fun _ _ => trivial) fun p => ?_
        refine Triple.bind (Q := fun _ _ => False) ?_ fun _ _ hfalse => hfalse.elim
        refine Triple.bind (Q := fun _ _ => False) (Triple.ite (fun _ => ?_) fun hne => ?_)
          fun _ _ hfalse => hfalse.elim
        · refine Triple.stop fun _ _ ht => ?_
          cases ht
        · exact absurd ⟨hnone', Nat.succ_ne_zero _⟩ hne

/-- `args[0]` -/
theorem asObj_self {P : Heap → Prop} :
    Triple P (asObj (arg (.obj r :: args) 0)) (fun x h => x = r ∧ P h) (Caught r) :=
  Triple.pure fun _ h => ⟨rfl, h⟩

theorem lxStringPush_hash (hw : h₀.Whole) :
    Triple (fun h => h = h₀) (lxStringPush env (.obj r :: args)) (fun _ => HashAt r)
      (Caught r) := by
  refine (hw.reads (quiet_checkArity _ _ _)).bind fun _ => asObj_self.bind_known ?_
  refine (hw.reads (quiet_checkArg _ _ _)).bind fun _ => (hw.reads (quiet_asObj _)).bind fun _ => ?_
  exact (dedupString_hash hw).bind fun _ => pushString_hash.bind fun _ => Triple.pure fun _ h => h

theorem lxStringClear_hash (hw : h₀.Whole) :
    Triple (fun h => h = h₀) (lxStringClear env (.obj r :: args)) (fun _ => HashAt r)
      (Caught r) := by
  refine (hw.reads (quiet_checkArity _ _ _)).bind fun _ => asObj_self.bind_known ?_
  exact (dedupString_hash hw).bind fun _ => clearString_hash.bind fun _ => Triple.pure fun _ h => h

theorem lxStringInsertAt_hash (hw : h₀.Whole) :
    Triple (fun h => h = h₀) (lxStringInsertAt env (.obj r :: args)) (fun _ => HashAt r)
      (Caught r) := by
  refine (hw.reads (quiet_checkArity _ _ _)).bind fun _ => asObj_self.bind_known ?_
  refine (hw.reads (quiet_checkArg _ _ _)).bind fun _ =>
    (hw.reads (quiet_checkArg _ _ _)).bind fun _ => (hw.reads (quiet_asObj _)).bind fun _ => ?_
  exact (dedupString_hash hw).bind fun _ => stringInsertAt_hash.bind fun _ =>
    Triple.pure fun _ h => h

theorem lxStringOpIndexSet_hash (hw : h₀.Whole) :
    Triple (fun h => h = h₀) (lxStringOpIndexSet env (.obj r :: args)) (fun _ => HashAt r)
      (Caught r) := by
  have hchars : ∀ y i, Triple (HashAt r) (indexSetChars env r y i) (fun _ => HashAt r)
      (Caught r) := by
    intro y i
    refine (HashAt.reads (quiet_getString y)).bind fun s => ?_
    refine (HashAt.reads (quiet_loadCells _ _)).bind fun chars => ?_
    exact Triple.ite (fun _ => stringIndexSet_hash) fun _ => stringInsertAt_hash
  refine (hw.reads (quiet_checkArity _ _ _)).bind fun _ => asObj_self.bind_known ?_
  refine (hw.reads (quiet_checkArg _ _ _)).bind fun _ =>
    (hw.reads (quiet_checkArg _ _ _)).bind fun _ => (hw.reads (quiet_asObj _)).bind fun _ => ?_
  exact (dedupString_hash hw).bind fun _ => (hchars _ _).bind fun _ => Triple.pure fun _ h => h

theorem lxStringPadRight_hash (hw : h₀.Whole) :
    Triple (fun h => h = h₀) (lxStringPadRight env (.obj r :: args)) (fun _ => HashAt r)
      (Caught r) := by
  have hpad : ∀ y, Triple (HashAt r) (padOnce env r y) (fun _ => HashAt r) (Caught r) :=
    fun y => (HashAt.reads (quiet_getString y)).bind fun _ => pushCString_hash
  refine (hw.reads (quiet_checkArity _ _ _)).bind fun _ => asObj_self.bind_known ?_
  refine (hw.reads (quiet_checkArg _ _ _)).bind fun _ =>
    (hw.reads (quiet_checkArg _ _ _)).bind fun _ => (hw.reads (quiet_asObj _)).bind fun y => ?_
  refine (hw.reads (quiet_getString _)).bind fun s => ?_
  refine Triple.bind ((Triple.times (hpad y)).pre fun h hh => ?_) fun _ => Triple.pure fun _ h => h
  rw [hh]
  exact hw.hashes r

end Mutators

/-! ## `String#init` and `String#dup` -/

/-- `init` copies the string, whose hash is computed, from its own new buffer. -/
def Heap.copiesItself (h : Heap) (self : ℕ) (args : List Value) : Bool :=
  decide (args.length ≤ 1) && h.initRef args == some self &&
    (h.string? self).any fun s => s.hash != 0 && !s.isInterned && s.chars.isSome

section Copies

variable {h₀ h : Heap} {r : ℕ} {env : Env} {args : List Value}

/-- What `String#init` leaves, with the string that it has found or made -/
theorem initFrom_hash {y : ℕ} {s o : ObjString} (hs : h.string? r = some s)
    (hy : h.string? y = some o) (hw : h.Whole)
    (hself : y = r → o.isInterned = false → o.chars ≠ none → o.hash = 0) {v : Value} :
    Triple (fun t => t = h) (do
        let s ← getString r
        let o ← getString y
        setString r { s with capacity := o.capacity, hash := o.hash, length := o.length }
        Command.modify fun h => h.setFrozen r false
        takeChars r y
        return v)
      (fun _ => HashAt r) (Caught r) := by
  rcases Heap.body_of_string? hs with ⟨ob, hob, hbody⟩
  generalize hset : h.setBody r (.string { s with
    capacity := o.capacity, hash := o.hash, length := o.length }) = h₁
  have hs₁ : h₁.string? r = some { s with
      capacity := o.capacity, hash := o.hash, length := o.length } := by
    rw [← hset]
    exact Heap.string?_setBody_self hs
  -- length and hash are those of `o`
  have hmarks : Triple (fun t => t = h) (do
        let s ← getString r
        let o ← getString y
        setString r { s with capacity := o.capacity, hash := o.hash, length := o.length }
        Command.modify fun h => h.setFrozen r false
        takeChars r y
        return v)
      (fun _ => Since ∅ h₁) fun _ => Since ∅ h₁ := by
    refine Triple.bind_known (look_known fun t ht => by rw [ht]; exact hs) ?_
    refine Triple.bind_known (look_known fun t ht => by rw [ht]; exact hy) ?_
    refine Triple.bind (Q := fun _ => Since ∅ h₁) (Triple.modify fun t ht => ?_) fun _ => ?_
    · rw [ht, hset]
      exact Since.refl h₁
    · exact marking_setFrozen.bind fun _ => takeChars_marks.bind fun _ => Marking.pure _
  have hknown := initFrom_known (v := v) (E := fun _ _ => False) hob hbody hy (hw.fits.string hy)
    fun q hq => hw.bounded y _ q (Heap.handle_of_string? hy) hq
  refine (hknown.both hmarks).weaken (fun _ ht => ht) (fun _ t ht => ?_) fun _ _ he => he.1.elim
  intro s' hs'
  rcases ht.2 r s' hs' with hin | hzero | ⟨s₀, hs₀, hlength, hhash⟩
  · exact absurd hin (Set.notMem_empty r)
  · exact .inl hzero
  · cases hs₁.symm.trans hs₀
    have hlength' : o.length = s'.length := hlength
    have hhash' : o.hash = s'.hash := hhash
    have hcells := contents_of_string? hs'
    rw [ht.1, Option.map_some] at hcells
    by_cases hown : y = r ∧ o.isInterned = false ∧ o.chars ≠ none
    · exact .inl (hhash' ▸ hself hown.1 hown.2.1 hown.2.2)
    · have hsame : (Body.string s').cells t.mem = (Body.string o).cells h.mem := by
        refine (Option.some.inj hcells).symm.trans ?_
        by_cases hcase : y = r ∧ o.isInterned = false
        · have hnone : o.chars = none := by
            by_contra hne
            exact hown ⟨hcase.1, hcase.2, hne⟩
          rw [if_pos hcase, Body.cells, hnone, Blocks.load_none, resized_nil]
        · rw [if_neg hcase]
      rw [bytes_eq hlength' hsame, ← hhash']
      exact hw.hashes y o hy

theorem lxStringInit_hash {s : ObjString} (hw : h₀.Whole) (hs : h₀.string? r = some s)
    (hcopy : h₀.copiesItself r args = false) :
    Triple (fun h => h = h₀) (lxStringInit env (.obj r :: args)) (fun _ => HashAt r)
      (Caught r) := by
  have harity : Triple (fun h => h = h₀) (checkArity 1 (some 2) (.obj r :: args))
      (fun _ h => args.length ≤ 1 ∧ h = h₀) (Caught r) := by
    refine Triple.ite (fun _ => Triple.stop fun h hh _ => hh ▸ hw.hashes r) fun hn =>
      Triple.pure fun h hh => ⟨?_, hh⟩
    have hmax := (Decidable.not_not.mp hn).2 2 rfl
    simp only [List.length_cons] at hmax
    omega
  refine harity.bind fun _ => Triple.given fun hlen => asObj_self.bind_known ?_
  have hsource : Triple (fun h => h = h₀) (initSource env (.obj r :: args))
      (fun y t => ((h₀.initRef args = some y ∧ t = h₀) ∨
          h₀.initRef args = none ∧ MadeOf h₀ (initText env args) y t) ∧ t.Whole) (Caught r) := by
    have hknown : Triple (fun h => h = h₀) (initSource env (.obj r :: args)) _ fun _ _ => False :=
      initSource_known hlen
    have hmarks : Triple (fun h => h = h₀) (initSource env (.obj r :: args))
        (fun _ => Since ∅ h₀) fun _ => Since ∅ h₀ :=
      initSource_marks.pre fun h hh => by
        rw [hh]
        exact Since.refl h₀
    have hfits : Triple (fun h => h = h₀) (initSource env (.obj r :: args))
        (fun _ => Heap.Fits) fun _ => Heap.Fits :=
      initSource_fits.pre fun h hh => hh ▸ hw.fits
    have hnear : Triple (fun h => h = h₀) (initSource env (.obj r :: args))
        (fun _ => Near .string h₀.objs.length h₀) (Stopped .string h₀.objs.length h₀) :=
      initSource_spec.pre fun h hh => by
        rw [hh]
        exact Near.refl hw.sound
    refine (hknown.both (hmarks.both (hfits.both hnear))).weaken (fun _ h => h)
      (fun y t ht => ⟨ht.1, ?_⟩) fun _ _ he => he.1.elim
    refine hw.of_far ht.2.2.1 ht.2.1 ht.2.2.2 ?_
    rw [Heap.string?, List.getElem?_eq_none (Nat.le_refl _)]
  refine hsource.bind fun y => Triple.start fun t ht => ?_
  have hr : r < h₀.objs.length := Heap.lt_of_string? hs
  rcases ht with ⟨⟨href, rfl⟩ | ⟨-, hmade⟩, hwt⟩
  · cases hy : t.string? y with
    | none =>
      refine Triple.bind_known (look_known fun t' ht' => by rw [ht']; exact hs) ?_
      refine Triple.bind (Q := fun _ _ => False) (Triple.look (fun t' o ht' ho => ?_)
        fun _ _ _ hthrown => ?_) fun _ _ hfalse => hfalse.elim
      · rw [ht', hy] at ho
        cases ho
      · cases hthrown
    | some o =>
      refine initFrom_hash hs hy hwt fun hyr hinterned hchars => ?_
      -- the string is given itself
      subst hyr
      cases hs.symm.trans hy
      by_contra hne
      have hcopies : t.copiesItself y args = true := by
        simp [Heap.copiesItself, hlen, href, hs, hne, hinterned,
          Option.isSome_iff_ne_none.mpr hchars]
      rw [hcopy] at hcopies
      cases hcopies
  · rcases hmade.string with ⟨o, ho, -, -, -⟩
    have hs₁ : t.string? r = some s := (hmade.adds.string? hr).trans hs
    refine initFrom_hash hs₁ ho hwt fun hyr => ?_
    have hnew := hmade.new
    omega

/-- The new string has the hash of the old one, and its bytes. -/
theorem lxStringDup_hash (hw : h₀.Whole) :
    Triple (fun h => h = h₀) (lxStringDup env args)
      (fun _ h => Since {h₀.objs.length} h₀ h ∧ HashAt h₀.objs.length h)
      fun e h => e.isThrown = true → Since {h₀.objs.length} h₀ h ∧ HashAt h₀.objs.length h := by
  have hfresh : h₀.string? h₀.objs.length = none := by
    rw [Heap.string?, List.getElem?_eq_none (Nat.le_refl _)]
  have hreads : ∀ {α : Type} {B : Stop → Prop} {c : Exec α}, Quiet B c →
      Triple (fun h => h = h₀) c (fun _ h => h = h₀)
        fun e h => e.isThrown = true → Since {h₀.objs.length} h₀ h ∧ HashAt h₀.objs.length h := by
    refine fun hc => hc.triple fun h hh e _ _ => ?_
    rw [hh]
    exact ⟨Since.refl h₀, hw.hashes _⟩
  refine (hreads (quiet_checkArity _ _ _)).bind fun _ => (hreads (quiet_asObj _)).bind fun self => ?_
  have hdup : Triple (fun h => h = h₀) (lxObjectDup env args)
      (fun n h => n = h₀.objs.length ∧ Since ∅ h₀ h ∧ h.Whole)
      fun e h => e.isThrown = true → Since {h₀.objs.length} h₀ h ∧ HashAt h₀.objs.length h := by
    have hnew : Triple (fun h => h = h₀) (lxObjectDup env args)
        (fun n _ => n = h₀.objs.length)
        fun e h => e.isThrown = true → Since {h₀.objs.length} h₀ h ∧ HashAt h₀.objs.length h := by
      refine (hreads (quiet_checkArity _ _ _)).bind fun _ => (hreads (quiet_asObj _)).bind
        fun x => (hreads (quiet_getObj x)).bind fun o => ?_
      refine Triple.bind (Q := fun n h => n = h₀ ∧ h = h₀) (Triple.get fun _ h => ⟨h, h⟩)
        fun h₁ => Triple.given ?_
      rintro rfl
      exact Triple.bind (Q := fun _ _ => True) (Triple.modify fun _ _ => trivial) fun _ =>
        Triple.pure fun _ _ => rfl
    have hmarks : Triple (fun h => h = h₀) (lxObjectDup env args)
        (fun _ => Since ∅ h₀) fun _ => Since ∅ h₀ :=
      lxObjectDup_marks.pre fun h hh => by
        rw [hh]
        exact Since.refl h₀
    have hfits : Triple (fun h => h = h₀) (lxObjectDup env args)
        (fun _ => Heap.Fits) fun _ => Heap.Fits :=
      lxObjectDup_fits.pre fun h hh => hh ▸ hw.fits
    have hnear : Triple (fun h => h = h₀) (lxObjectDup env args)
        (fun n h => Free h₀.objs.length h₀ n ∧ Near .string h₀.objs.length h₀ h ∧
          ∃ b : Body, h.objs[n]?.map Obj.body = some b.blank) (Stopped .string h₀.objs.length h₀) :=
      lxObjectDup_spec.pre fun h hh => by
        rw [hh]
        exact Near.refl hw.sound
    refine (hnew.both (hmarks.both (hfits.both hnear))).weaken (fun _ h => h)
      (fun n t ht => ⟨ht.1, ht.2.1, ?_⟩) fun _ _ he => he.1
    exact hw.of_far ht.2.2.1 ht.2.1 ht.2.2.2.2.1 hfresh
  refine hdup.bind fun n => Triple.given ?_
  rintro rfl
  refine Triple.start fun t ht => ?_
  rcases ht with ⟨hsince, hwt⟩
  have hcrash : ∀ {P : Heap → Prop}, ∀ h, P h → (Stop.segfault).isThrown = true →
      Since {h₀.objs.length} h₀ h ∧ HashAt h₀.objs.length h := by
    intro P h _ hthrown
    cases hthrown
  refine Triple.bind (Q := fun s h => t.string? self = some s ∧ h = t)
    (Triple.look (fun h s hh hs => ⟨hh ▸ hs, hh⟩) fun h hh _ => hcrash (P := fun h => h = t) h hh)
    fun s => Triple.given fun hs => ?_
  refine Triple.bind (Q := fun _ h => h = t)
    (Triple.look (fun h _ hh _ => hh) fun h hh _ => hcrash (P := fun h => h = t) h hh) fun d => ?_
  by_cases hchars : s.chars = none
  · -- `memcpy` from a null pointer
    refine Triple.bind (Q := fun _ _ => True) (fun _ _ => trivial) fun p => ?_
    refine Triple.bind (Q := fun _ _ => False) ?_ fun _ _ hfalse => hfalse.elim
    refine Triple.bind (Q := fun _ _ => False) (Triple.ite (fun _ => Triple.stop fun h hh =>
      hcrash (P := fun _ => True) h trivial) fun hne => ?_) fun _ _ hfalse => hfalse.elim
    exact absurd ⟨hchars, Nat.succ_ne_zero _⟩ hne
  · rcases Option.ne_none_iff_exists'.mp hchars with ⟨q, hq⟩
    have hqlt : q < t.mem.next := hwt.bounded self _ q (Heap.handle_of_string? hs) hq
    refine Triple.bind_known allocate_known ?_
    refine Triple.bind_known (loadCells_start fun hn => absurd hn hchars) ?_
    refine (storeCells_known Blocks.load_alloc_self).bind fun _ => ?_
    refine Triple.bind (Q := fun _ h => Since {h₀.objs.length} h₀ h ∧ HashAt h₀.objs.length h)
      (Triple.modify fun h hh => ?_) fun _ => Triple.pure fun _ h => h
    have hobjs : h.objs = t.objs := by rw [hh]
    have hsince' : Since {h₀.objs.length} h₀ h := by
      intro j s' hs'
      rw [Heap.string?, hobjs] at hs'
      exact hsince.mono (Set.empty_subset _) j s' hs'
    refine ⟨hsince'.setBody fun _ _ => .inl rfl, ?_⟩
    intro s' hs'
    cases Heap.body_of_setBody hs'
    have hcells : resized (s.length + 1) (h.mem.load (some t.mem.next)) =
        resized (s.length + 1) (t.mem.load s.chars) := by
      rw [hh]
      dsimp only
      rw [Blocks.load_put_self, resized_overwrite (Nat.succ_le_succ (hwt.fits.string hs)), hq,
        Blocks.load_alloc_of_ne (Nat.ne_of_lt hqlt)]
    change s.hash = 0 ∨ s.hash = hashString
      (((resized (s.length + 1) (h.mem.load (some t.mem.next))).take s.length).map byteOf)
    rw [hcells]
    exact hwt.hashes self s hs

end Copies

/-! ## Every native method -/

/-- The process goes on, and everything is in order. -/
def Unharmed (e : Stop) (h : Heap) : Prop := e.isThrown = true → h.Whole

/-- The methods that the class of strings has. -/
def Native.ofString : Native → Bool
  | reads _ | objectDup | objectFreeze | objectUnfreeze | objectSetProperty => true
  | stringInit | stringPush | stringDup | stringClear | stringInsertAt | stringOpIndexSet => true
  | stringPadRight => true
  | _ => false

section Methods

variable {α : Type} {h₀ : Heap} {r n : ℕ} {env : Env} {args : List Value} {w : Prop}

/-- A command that concerns no string that is there. -/
theorem whole_of_far {c : Exec α} (hw : h₀.Whole) (hfits : Fitting c) (hmarks : Marking ∅ h₀ c)
    (hnear : Triple (fun h => h = h₀) c (fun _ => Near .string n h₀) (Left .string n h₀ w))
    (hn : h₀.string? n = none) :
    Triple (fun h => h = h₀) c (fun _ => Heap.Whole) Unharmed := by
  have hfits' : Triple (fun h => h = h₀) c (fun _ => Heap.Fits) fun _ => Heap.Fits :=
    hfits.pre fun h hh => hh ▸ hw.fits
  have hmarks' : Triple (fun h => h = h₀) c (fun _ => Since ∅ h₀) fun _ => Since ∅ h₀ :=
    hmarks.pre fun h hh => by
      rw [hh]
      exact Since.refl h₀
  refine (hfits'.both (hmarks'.both hnear)).weaken (fun _ h => h) (fun _ h hh => ?_) fun e h hh _ => ?_
  · exact hw.of_far hh.1 hh.2.1 hh.2.2 hn
  · exact hw.of_far hh.1 hh.2.1 hh.2.2.1 hn

/-- A command that concerns `r` and leaves its hash in order. -/
theorem whole_of_near {c : Exec α} (hw : h₀.Whole) (hfits : Fitting c)
    (hmarks : Marking {r} h₀ c)
    (hnear : Triple (fun h => h = h₀) c (fun _ => Near .string r h₀) (Left .string r h₀ w))
    (hhash : Triple (fun h => h = h₀) c (fun _ => HashAt r) (Caught r)) :
    Triple (fun h => h = h₀) c (fun _ => Heap.Whole) Unharmed := by
  have hfits' : Triple (fun h => h = h₀) c (fun _ => Heap.Fits) fun _ => Heap.Fits :=
    hfits.pre fun h hh => hh ▸ hw.fits
  have hmarks' : Triple (fun h => h = h₀) c (fun _ => Since {r} h₀) fun _ => Since {r} h₀ :=
    hmarks.pre fun h hh => by
      rw [hh]
      exact Since.refl h₀
  refine (hfits'.both (hmarks'.both (hnear.both hhash))).weaken (fun _ h => h) (fun _ h hh => ?_)
    fun e h hh ht => ?_
  · exact hw.of_near hh.1 hh.2.1 hh.2.2.1 hh.2.2.2
  · exact hw.of_near hh.1 hh.2.1 hh.2.2.1.1 (hh.2.2.2 ht)

theorem string?_next (h : Heap) : h.string? h.objs.length = none := by
  rw [Heap.string?, List.getElem?_eq_none (Nat.le_refl _)]

/-- A command whose effect is known for every `r`. -/
theorem whole_of_any {c : Exec α} (hw : h₀.Whole) (hfits : Fitting c) (hmarks : Marking ∅ h₀ c)
    (hnear : Triple (Near .string h₀.objs.length h₀) c (fun _ => Near .string h₀.objs.length h₀)
      (Stopped .string h₀.objs.length h₀)) :
    Triple (fun h => h = h₀) c (fun _ => Heap.Whole) Unharmed := by
  refine whole_of_far hw hfits hmarks (leaves (w := True) (hnear.pre fun h hh => ?_))
    (string?_next h₀)
  rw [hh]
  exact Near.refl hw.sound

theorem lxStringDup_whole (hw : h₀.Whole) :
    Triple (fun h => h = h₀) (lxStringDup env args) (fun _ => Heap.Whole) Unharmed := by
  have hnear : Triple (fun h => h = h₀) (lxStringDup env args)
      (fun _ => Near .string h₀.objs.length h₀) (Stopped .string h₀.objs.length h₀) :=
    lxStringDup_spec.pre fun h hh => by
      rw [hh]
      exact Near.refl hw.sound
  have hfits : Triple (fun h => h = h₀) (lxStringDup env args) (fun _ => Heap.Fits)
      fun _ => Heap.Fits :=
    lxStringDup_fits.pre fun h hh => hh ▸ hw.fits
  refine (hfits.both (hnear.both (lxStringDup_hash hw))).weaken (fun _ h => h) (fun _ h hh => ?_)
    fun e h hh ht => ?_
  · exact hw.of_near hh.1 hh.2.2.1 hh.2.1 hh.2.2.2
  · exact hw.of_near hh.1 (hh.2.2 ht).1 hh.2.1.2 (hh.2.2 ht).2

/-- A native method of a string. -/
theorem Native.call_string {m : Native} {s : ObjString} (hw : h₀.Whole)
    (hs : h₀.string? r = some s) (hm : m.ofString = true)
    (halone : m.writesInPlace h₀ r args .string = true → h₀.Alone r)
    (hcopy : m = .stringInit → h₀.copiesItself r args = false) :
    Triple (fun h => h = h₀) (m.call env (.obj r :: args)) (fun _ => Heap.Whole) Unharmed := by
  have hstatic : ∀ a, h₀.array? r = some a → a.isStatic = false := by
    intro a ha
    rcases Heap.body_of_string? hs with ⟨o, ho, hb⟩
    rcases Heap.body_of_array? ha with ⟨o', ho', hb'⟩
    cases ho.symm.trans ho'
    rw [hb] at hb'
    cases hb'
  have hnear : Triple (fun h => h = h₀) (m.call env (.obj r :: args))
      (fun _ => Near .string r h₀) (Left .string r h₀ (m.strays h₀ r args = true)) :=
    Native.call_spec hw.sound hstatic halone
  cases m with
  | reads m => exact whole_of_any hw Reader.call_fits Reader.call_marks Reader.call_spec
  | objectDup =>
    exact whole_of_any hw (Native.call_fits .objectDup) (Native.call_marks .objectDup nofun nofun)
      (lxObjectDup_spec.bind fun _ => Triple.pure fun _ h => h.2.1)
  | objectFreeze =>
    exact whole_of_any hw (Native.call_fits .objectFreeze) lxObjectFreeze_marks lxObjectFreeze_spec
  | objectUnfreeze =>
    exact whole_of_any hw (Native.call_fits .objectUnfreeze) lxObjectUnfreeze_marks
      lxObjectUnfreeze_spec
  | objectSetProperty =>
    exact whole_of_any hw (Native.call_fits .objectSetProperty) lxObjectSetProperty_marks
      lxObjectSetProperty_spec
  | stringInit =>
    refine whole_of_near hw (Native.call_fits .stringInit) (lxStringInit_marks fun x hx => ?_) hnear
      (lxStringInit_hash hw hs (hcopy rfl))
    cases hx
    rfl
  | stringDup => exact lxStringDup_whole hw
  | stringPush =>
    exact whole_of_near hw lxStringPush_fits lxStringPush_marks hnear (lxStringPush_hash hw)
  | stringClear =>
    exact whole_of_near hw lxStringClear_fits lxStringClear_marks hnear (lxStringClear_hash hw)
  | stringInsertAt =>
    exact whole_of_near hw lxStringInsertAt_fits lxStringInsertAt_marks hnear
      (lxStringInsertAt_hash hw)
  | stringOpIndexSet =>
    exact whole_of_near hw lxStringOpIndexSet_fits lxStringOpIndexSet_marks hnear
      (lxStringOpIndexSet_hash hw)
  | stringPadRight =>
    exact whole_of_near hw lxStringPadRight_fits lxStringPadRight_marks hnear
      (lxStringPadRight_hash hw)
  | _ => cases hm

end Methods

/-! ## Operations -/

def Op.copiesItself (h : Heap) : Op → Bool
  | invokes self name args =>
    h.methodOf self name == some .stringInit && h.copiesItself self args
  | _ => false

section Operations

variable {h₀ h h' : Heap} {r : ℕ} {env : Env} {args : List Value} {op : Op}

theorem methods_of_string {e : String × Native} (s : ObjString)
    (he : e ∈ (Body.string s).methods) : e.2.ofString = true := by
  have hall : ∀ e ∈ stringMethods ++ objectMethods, e.2.ofString = true := by decide
  exact hall e he

theorem methods_of_other {e : String × Native} {b : Body} (hb : ∀ s, b ≠ .string s)
    (he : e ∈ b.methods) : e.2 ≠ .stringInit ∧ e.2 ≠ .stringDup := by
  have harray : ∀ e ∈ arrayMethods ++ objectMethods, e.2 ≠ .stringInit ∧ e.2 ≠ .stringDup := by
    decide
  have hmap : ∀ e ∈ mapMethods ++ objectMethods, e.2 ≠ .stringInit ∧ e.2 ≠ .stringDup := by
    decide
  have hobject : ∀ e ∈ ("init", Native.errInit) :: objectMethods,
      e.2 ≠ .stringInit ∧ e.2 ≠ .stringDup := by
    decide
  cases b with
  | string s => exact absurd rfl (hb s)
  | array a => exact harray e he
  | map t => exact hmap e he
  | error c => exact hobject e he
  | plain => exact hobject e (List.mem_cons_of_mem _ he)

theorem callMethod_whole {self : ℕ} {name : String} (hw : h₀.Whole)
    (hstatic : ∀ a, h₀.array? self = some a → a.isStatic = false)
    (hapart : (Op.invokes self name args).Apart .string h₀)
    (hcopy : (Op.invokes self name args).copiesItself h₀ = false) :
    Triple (fun h => h = h₀) (callMethod env self name args) (fun _ => Heap.Whole) Unharmed := by
  have hget : Triple (fun h => h = h₀) (getObj self) (fun o h => h₀.objs[self]? = some o ∧ h = h₀)
      Unharmed :=
    Triple.look (fun h _ hh ho => ⟨hh ▸ ho, hh⟩) fun h hh _ _ => hh ▸ hw
  refine hget.bind fun o => Triple.given fun ho => ?_
  have hmethod : h₀.methodOf self name = o.body.methods.lookup name := by
    simp [Heap.methodOf, ho]
  split
  · rename_i m hm
    rw [hm] at hmethod
    have hmem := mem_of_lookup hm
    have halone : m.writesInPlace h₀ self args .string = true → h₀.Alone self := by
      intro hwrites
      refine hapart ?_ self rfl
      rw [Op.writesInPlace, hmethod]
      exact hwrites
    by_cases hstring : ∃ s, o.body = .string s
    · rcases hstring with ⟨s, hbody⟩
      rw [hbody] at hmem
      refine Native.call_string hw (string?_of_obj ho hbody) (methods_of_string s hmem) halone ?_
      intro hinit
      simpa [Op.copiesItself, hmethod, hinit] using hcopy
    · have hnot : ∀ s, o.body ≠ .string s := fun s hs => hstring ⟨s, hs⟩
      rcases methods_of_other hnot hmem with ⟨hinit, hdup⟩
      refine whole_of_far hw (Native.call_fits m) (Native.call_marks m hinit hdup)
        (Native.call_spec hw.sound hstatic halone) ?_
      cases hs : h₀.string? self with
      | none => rfl
      | some s =>
        rcases Heap.body_of_string? hs with ⟨o', ho', hb⟩
        cases ho.symm.trans ho'
        exact absurd hb (hnot s)
  · exact Triple.stop fun h hh _ => hh ▸ hw

/-- `init` of a new object. -/
theorem init_whole {n : ℕ} {b : Body} (hw : h₀.Whole)
    (hn : h₀.objs[n]? = some ⟨false, true, [], b.blank⟩) :
    Triple (fun h => h = h₀) (callMethod env n "init" args) (fun _ => Heap.Whole) Unharmed := by
  refine callMethod_whole hw (fun a ha => ?_) (fun hwrites => ?_) ?_
  · rcases Heap.body_of_array? ha with ⟨o, ho, hb⟩
    cases hn.symm.trans ho
    cases b with
    | array a' =>
      cases hb
      rfl
    | _ => cases hb
  · rw [Op.writesInPlace, Heap.methodOf, hn] at hwrites
    cases b <;> cases hwrites
  · cases b with
    | string s => simp [Op.copiesItself, Heap.copiesItself, Heap.string?, hn, Body.blank]
    | _ => simp [Op.copiesItself, Heap.copiesItself, Heap.string?, hn, Body.blank]

theorem construct_whole {b : Body} :
    Triple Heap.Whole (construct env b args) (fun _ => Heap.Whole) Unharmed := by
  refine Triple.start fun t ht => ?_
  have hblank : ∀ s, b.blank = .string s → s.hash = 0 := fun _ => hash_of_blank
  have hspec : Triple (Near .string t.objs.length t)
      (newObj ⟨false, true, [], b.blank⟩)
      (fun n h => Near .string t.objs.length t h ∧ h.objs[n]? = some ⟨false, true, [], b.blank⟩)
      (Stopped .string t.objs.length t) := by
    refine (newObj_spec (fun _ h => h) fun _ _ g p hg hp => ?_).post fun _ _ h => ⟨h.1, h.2.2.1⟩
    cases b <;> simp [Body.blank, Body.handle] at hg <;> subst hg <;> cases hp
  have hwhole := whole_of_any ht (newObj_fits (blank_fits b)) (newObj_marks hblank)
    (hspec.post fun _ _ h => h.1)
  have hobj : Triple (fun h => h = t) (newObj ⟨false, true, [], b.blank⟩)
      (fun n h => Near .string t.objs.length t h ∧ h.objs[n]? = some ⟨false, true, [], b.blank⟩)
      (Stopped .string t.objs.length t) :=
    hspec.pre fun h hh => by
      rw [hh]
      exact Near.refl ht.sound
  have hboth : Triple (fun h => h = t) (newObj ⟨false, true, [], b.blank⟩)
      (fun n h => h.Whole ∧ h.objs[n]? = some ⟨false, true, [], b.blank⟩) Unharmed :=
    (hwhole.both hobj).weaken (fun _ h => h) (fun n h hh => ⟨hh.1, hh.2.2⟩) fun _ _ he => he.1
  refine hboth.bind fun n => Triple.start fun t' ht' => ?_
  exact (init_whole ht'.1 ht'.2).bind fun _ => Triple.pure fun _ h => h

theorem setStatic_marks {X : Set ℕ} : Marking X h₀ (setStatic r) :=
  Triple.bind getString_marks fun s => Triple.given fun hs =>
    setString_marks (s := { s with isStatic := true }) (hs.congr rfl rfl)

/-- `OP_STRING` -/
theorem opString_whole {isStatic : Bool} :
    Triple Heap.Whole (opString env r isStatic) (fun _ => Heap.Whole) Unharmed := by
  have hmark : Triple Heap.Whole (markStatic r isStatic) (fun _ => Heap.Whole) Unharmed :=
    Triple.start fun t ht => whole_of_any ht (Fitting.ite setStatic_fits (Fitting.pure _))
      (Marking.ite setStatic_marks (Marking.pure _)) markStatic_spec
  have hfreeze : ∀ y, Triple Heap.Whole (freezeStatic y isStatic) (fun _ => Heap.Whole)
      Unharmed := by
    refine fun y => Triple.start fun t ht => whole_of_any ht ?_ ?_ freezeStatic_spec
    · exact Fitting.ite (Fitting.bind (Fitting.modify fun _ hf => hf.setFrozen) fun _ =>
        setStatic_fits) (Fitting.pure _)
    · exact Marking.ite (marking_setFrozen.bind fun _ => setStatic_marks) (Marking.pure _)
  exact hmark.bind fun _ => construct_whole.bind fun _ => (hfreeze _).bind fun _ =>
    Triple.pure fun _ h => h

theorem throwErrorVal_marks {X : Set ℕ} : Marking X h₀ (throwErrorVal env r) := by
  refine internedString_marks.bind fun _ => (Marking.of_quiet (quiet_getObj r)).bind fun o => ?_
  have honce : ∀ b c t, Marking X h₀ (setBacktraceOnce env r b c t) := by
    intro b c t
    refine Marking.ite (Marking.ite (Marking.pure _) ?_) (Marking.pure _)
    exact newArray_marks.bind fun _ => setProp_marks
  split
  · exact (honce _ _ _).bind fun _ => Marking.of_quiet (quiet_throw _)
  · exact Marking.of_quiet (quiet_throw _)

theorem Op.exec_whole (hw : h₀.Whole) (hallowed : op.allowed h₀ = true)
    (hapart : op.Apart .string h₀) (hcopy : op.copiesItself h₀ = false) :
    Triple (fun h => h = h₀) (op.exec env) (fun _ => Heap.Whole) Unharmed := by
  have hstart : ∀ h, h = h₀ → h.Whole := by
    rintro h rfl
    exact hw
  cases op with
  | interns chars =>
    exact whole_of_any hw (Op.exec_fits (.interns chars))
      (internedString_marks.bind fun _ => Marking.pure _)
      (internedString_spec.bind fun _ => Triple.pure fun _ h => h)
  | arrayConstant els =>
    refine whole_of_any hw (Op.exec_fits (.arrayConstant els)) ?_
      (arrayConstant_spec.bind fun _ => Triple.pure fun _ h => h)
    refine Marking.bind ?_ fun _ => Marking.pure _
    exact newArray_marks.bind fun _ => writeAll_marks.bind fun _ => setArray_marks.bind fun _ =>
      Marking.pure _
  | opString strLit isStatic =>
    exact (opString_whole.bind fun _ => Triple.pure fun _ h => h).pre hstart
  | opDuparray ary =>
    exact whole_of_any hw (Op.exec_fits (.opDuparray ary))
      (arrayDup_marks.bind fun _ => Marking.pure _)
      (opDuparray_spec.bind fun _ => Triple.pure fun _ h => h)
  | makes m =>
    exact whole_of_any hw (Op.exec_fits (.makes m)) (make_marks.bind fun _ => Marking.pure _)
      (make_spec.bind fun _ => Triple.pure fun _ h => h)
  | constructs body args =>
    exact (construct_whole.bind fun _ => Triple.pure fun _ h => h).pre hstart
  | invokes self name args =>
    refine (callMethod_whole hw (fun a ha => ?_) hapart hcopy).bind fun _ => Triple.pure fun _ h => h
    simpa [Op.allowed, Op.receiver, ha] using hallowed
  | setsProperty obj propName rval =>
    exact whole_of_any hw (Op.exec_fits (.setsProperty obj propName rval)) propertySet_marks
      propertySet_spec
  | throws err =>
    exact whole_of_any hw (Op.exec_fits (.throws err)) throwErrorVal_marks throwErrorVal_spec

/-- An operation of a program. -/
theorem step_whole (hw : h.Whole) (hapart : op.Apart .string h) (hstrays : op.strays h = false)
    (hcopy : op.copiesItself h = false) (hstep : step h (env, op) = some h') : h'.Whole := by
  unfold step at hstep
  split at hstep
  · rename_i hallowed
    have hexec : Triple (fun t => t = h) (op.exec env) _ _ :=
      op.exec_whole hw hallowed hapart hcopy
    have hpost := hexec h rfl
    split at hstep
    · rename_i heq
      cases hstep
      rw [heq] at hpost
      exact hpost
    · rename_i heq
      cases hstep
      rw [heq] at hpost
      exact hpost rfl
    · rename_i heq
      have hwild : Triple (fun t => t = h) (op.exec env) _ _ :=
        op.exec_spec (r := op.receiver.getD 0) hw.sound hallowed hapart
          (by cases op.receiver <;> simp)
      have hpost' := hwild h rfl
      rw [heq] at hpost'
      rw [hpost'.2 rfl] at hstrays
      cases hstrays
    · cases hstep
    · cases hstep
  · cases hstep

/-- `valHash` changes the hash of its string only, and to the right one. -/
theorem valHash_whole : Triple Heap.Whole (valHash r) (fun _ => Heap.Whole) Unharmed := by
  have hget : Triple Heap.Whole (getString r) (fun s h => h.Whole ∧ h.string? r = some s)
      Unharmed :=
    Triple.look (fun _ _ hh hs => ⟨hh, hs⟩) fun _ hh _ _ => hh
  refine hget.bind fun s => Triple.ite (fun _ => Triple.pure fun _ hh => hh.1) fun _ => ?_
  refine Triple.bind (Q := fun h₁ h => h = h₁ ∧ h.Whole ∧ h.string? r = some s)
    (Triple.get fun _ hh => ⟨rfl, hh⟩) fun h₁ => ?_
  refine Triple.bind (Q := fun _ => Heap.Whole) (Triple.modify fun h hh => ?_) fun _ =>
    Triple.pure fun _ h => h
  rcases hh with ⟨rfl, hw, hs⟩
  have hr := Heap.lt_of_string? hs
  have hfits := hw.fits.string hs
  refine ⟨hw.fits.setBody (b := .string { s with hash := hashString (h.bytes s) }) hfits, ?_,
    fun x s' hs' => ?_⟩
  · rw [Heap.handle_setBody hr rfl]
    exact hw.sound.keep (Heap.handle_of_string? hs) rfl rfl id
  · by_cases hx : x = r
    · subst hx
      cases Heap.body_of_setBody hs'
      exact .inr rfl
    · rw [Heap.string?_setBody_of_ne hx] at hs'
      exact hw.hashes x s' hs'

end Operations

/-! ## Runs -/

/-- An operation of a program, or `valHash` of a string: of the receiver of `hashKey`, or of one
that a table has or gets as a key, at whatever moment. -/
inductive Event
  | operation (env : Env) (op : Op)
  | valHash (string : ℕ)

def hashStep (h : Heap) : Event → Option Heap
  | .operation env op => step h (env, op)
  | .valHash string =>
    match valHash string h with
    | (.ok _, h') => some h'
    | (.error _, _) => none

/-- No bytes are written that another object has, nothing is written outside of a block, and no
string is copied from itself. -/
def Event.Careful (h : Heap) : Event → Prop
  | .operation _ op => op.Apart .string h ∧ op.strays h = false ∧ op.copiesItself h = false
  | .valHash _ => True

instance (h : Heap) (e : Event) : Decidable (e.Careful h) := by
  cases e <;> unfold Event.Careful <;> infer_instance

theorem hashStep_whole {h h' : Heap} {e : Event} (hw : h.Whole) (he : e.Careful h)
    (hstep : hashStep h e = some h') : h'.Whole := by
  cases e with
  | operation env op => exact step_whole hw he.1 he.2.1 he.2.2 hstep
  | valHash string =>
    have hpost := valHash_whole (r := string) h hw
    rw [hashStep] at hstep
    split at hstep
    · rename_i heq
      cases hstep
      rw [heq] at hpost
      exact hpost
    · cases hstep

theorem whole_empty : Heap.empty.Whole where
  fits := fun _ ho => (List.not_mem_nil ho).elim
  sound := sound_empty
  hashes := fun r s hs => by
    rw [Heap.string?_iff] at hs
    cases hs

/-- In every run in which no step writes to bytes that others have and no string is copied from
itself, a stored hash is that of the bytes. -/
theorem storedHashes_valid (es : List Event)
    (hes : Each hashStep (fun h e _ => e.Careful h) Heap.empty es) :
    Always hashStep Heap.HashesOk Heap.empty es := by
  refine always_of_each (I := Heap.Whole) ?_ ?_ whole_empty hes
  · intro h hw
    exact hw.hashes
  · intro h e h' hw he hstep
    exact hashStep_whole hw he hstep

/-- An allocator that never moves a block. -/
def Env.staying : Env := { Env.moving with stays := fun _ _ => true }

/-- The literal `"ab"`, whose hash is computed, is evaluated twice. The first string is padded to
`"abx"` and hashed. -/
def paddedOnce : List Event :=
  [.operation Env.staying (.interns [97, 98]), .valHash 0, .operation Env.staying (.opString 0 false),
    .operation Env.staying (.opString 0 false), .operation Env.staying (.makes (.string [120])),
    .operation Env.staying (.makes (.string [121])),
    .operation Env.staying (.invokes 1 "padRight" [.number 3, .obj 3]), .valHash 1]

/-- With a `push` in place of the padding everything is in order. -/
theorem pushed_valid : Always hashStep Heap.HashesOk Heap.empty
    [.operation Env.staying (.interns [97, 98]), .valHash 0, .operation Env.staying (.opString 0 false),
      .operation Env.staying (.opString 0 false), .operation Env.staying (.makes (.string [120])),
      .operation Env.staying (.invokes 1 "push" [.obj 3]), .valHash 1,
      .operation Env.staying (.invokes 1 "padRight" [.number 4, .obj 3]), .valHash 1] :=
  storedHashes_valid _ (by decide +kernel)

/-- The second string is then padded with another byte, in the same buffer: the first one is
`"aby"` with the hash of `"abx"`. -/
theorem padded_stale : ¬ ∀ es, Always hashStep Heap.HashesOk Heap.empty es := by
  intro h
  have hstale : (run hashStep Heap.empty (paddedOnce ++
      [.operation Env.staying (.invokes 2 "padRight" [.number 3, .obj 4])])).any (fun h =>
        (h.string? 1).any fun s => s.hash != 0 && s.hash != hashString (h.bytes s)) = true := by
    decide +kernel
  rcases (Option.any_eq_true ..).mp hstale with ⟨t, hrun, hstring⟩
  rcases (Option.any_eq_true ..).mp hstring with ⟨s, hs, hne⟩
  have hok := (h _).end hrun 1 s hs
  simp only [Bool.and_eq_true, bne_iff_ne, ne_eq] at hne
  rcases hok with hzero | hhash
  · exact hne.1 hzero
  · exact hne.2 hhash

end Clox.Objects
