import Clox.Runtime.Extension

/-! # The block of an array

A block holds the elements of an array and, behind them, the spare cells: never written, or left
from elements that were removed. What the functions of `value.c` make of both.
-/

namespace Clox.Objects

open Commands Command Sharing

/-- The cells of values -/
def argCells (args : List Value) : Cells := args.map fun v => some (.value v)

/-- The block of the array holds `xs`, and `rest` behind them. -/
structure Stored (m : Blocks Cell) (a : ObjArray) (xs rest : Cells) : Prop where
  fits : a.Fits
  bound : ∀ p, a.values = some p → p < m.next
  block : m.load a.values = xs ++ rest
  count : a.count = xs.length
  capacity : a.capacity = xs.length + rest.length

section Stored

variable {env : Env} {l : List Obj} {a : ObjArray} {xs rest : Cells} {v : Option Cell}
  {m : Blocks Cell} {E : Stop → Heap → Prop}

theorem Stored.empty {isShared isStatic : Bool} : Stored m ⟨isShared, isStatic, none, 0, 0⟩ [] [] :=
  ⟨⟨Nat.le_refl 0, fun _ => rfl⟩, nofun, rfl, rfl, rfl⟩

/-- The flags of the array do not matter. -/
theorem Stored.congr {b : ObjArray} (ha : Stored m a xs rest) (hvalues : b.values = a.values)
    (hcapacity : b.capacity = a.capacity) (hcount : b.count = a.count) : Stored m b xs rest := by
  obtain ⟨⟨hle, hnone⟩, hbound, hblock, hlen, hroom⟩ := ha
  refine ⟨⟨?_, ?_⟩, ?_, ?_, ?_, ?_⟩
  · rwa [hcount, hcapacity]
  · rwa [hvalues, hcapacity]
  · rwa [hvalues]
  · rwa [hvalues]
  · rwa [hcount]
  · rwa [hcapacity]

/-- The first elements are an array too; the others become spare. -/
theorem Stored.shrink {ys : Cells} (ha : Stored m a (xs ++ ys) rest) :
    Stored m { a with count := xs.length } xs (ys ++ rest) := by
  have hcap := ha.capacity
  rw [List.length_append] at hcap
  refine ⟨⟨?_, ha.fits.2⟩, ha.bound, ?_, rfl, ?_⟩
  · show xs.length ≤ a.capacity
    omega
  · rw [← List.append_assoc]
    exact ha.block
  · show a.capacity = _
    rw [List.length_append]
    omega

theorem Stored.values_ne_none (ha : Stored m a xs rest) (hspace : xs ++ rest ≠ []) :
    ∃ p, a.values = some p := by
  refine Option.ne_none_iff_exists'.mp fun hnone => hspace ?_
  rw [← ha.block, hnone]
  rfl

theorem Stored.load (ha : Stored m a xs rest) : resized a.count (m.load a.values) = xs := by
  unfold resized
  rw [ha.block, ha.count, List.take_left, List.length_append, Nat.sub_eq_zero_of_le (by omega),
    List.replicate_zero, List.append_nil]

/-- A store that the block has room for. -/
theorem Stored.put {p : ℕ} {ys rest' : Cells} {n : ℕ} (ha : Stored m a xs rest)
    (hp : a.values = some p) (hn : n = ys.length)
    (hlen : ys.length + rest'.length = xs.length + rest.length) :
    Stored (m.put p (ys ++ rest')) { a with count := n } ys rest' := by
  refine ⟨⟨?_, ha.fits.2⟩, ha.bound, ?_, hn, ?_⟩
  · show n ≤ a.capacity
    rw [ha.capacity]
    omega
  · show (m.put p _).load a.values = _
    rw [hp, Blocks.load_put_self]
  · show a.capacity = _
    rw [ha.capacity, hlen]

/-! ## Growth -/

/-- The cells that are spare when there is room for one more value. -/
def spareCells (capacity : ℕ) (rest : Cells) : Cells :=
  if rest = [] then List.replicate (growCapacity capacity - capacity) none else rest

theorem spareCells_ne_nil (capacity : ℕ) (rest : Cells) : spareCells capacity rest ≠ [] := by
  have hgrow := le_growCapacity capacity
  unfold spareCells
  split
  · intro hnil
    have := congrArg List.length hnil
    rw [List.length_replicate, List.length_nil] at this
    omega
  · assumption

theorem growArray_stored {n : ℕ} (hn : a.capacity ≤ n) :
    Triple (fun t => t.objs = l ∧ Stored t.mem a xs rest) (growArray env a.values n)
      (fun p t => t.objs = l ∧ Stored t.mem { a with values := some p, capacity := n } xs
        (rest ++ List.replicate (n - a.capacity) none)) E := by
  rintro t ⟨hobjs, ha⟩
  have hcount : a.count ≤ n := Nat.le_trans ha.fits.1 hn
  have hcap := ha.capacity
  have hblock : resized n (t.mem.load a.values) =
      xs ++ (rest ++ List.replicate (n - a.capacity) none) := by
    rw [resized, ha.block, List.take_of_length_le (by rw [List.length_append]; omega),
      List.append_assoc, List.length_append, hcap]
  have hlen : n = xs.length + (rest ++ List.replicate (n - a.capacity) none).length := by
    rw [List.length_append, List.length_replicate]
    omega
  unfold growArray
  cases hvalues : a.values with
  | none =>
    have hnil : resized n (t.mem.load none) = List.replicate n none := by simp [resized]
    refine ⟨hobjs, ⟨⟨hcount, fun h => by cases h⟩, fun p hp => ?_, ?_, ha.count, hlen⟩⟩
    · cases hp
      exact Nat.lt_succ_self _
    · show Blocks.load (Blocks.alloc _ _) (some t.mem.next) = _
      rw [Blocks.load_alloc_self, ← hblock, hvalues, hnil]
  | some p =>
    have hp : p < t.mem.next := ha.bound p hvalues
    rw [hvalues] at hblock
    simp only [bind_apply, heap, get_apply]
    by_cases hstays : env.stays p n = true
    · simp only [hstays, if_true, bind_apply, modify_apply, pure_apply]
      refine ⟨hobjs, ⟨⟨hcount, fun h => by cases h⟩, fun q hq => ?_, ?_, ha.count, hlen⟩⟩
      · cases hq
        exact hp
      · show Blocks.load (Blocks.put _ _ _) (some p) = _
        rw [Blocks.load_put_self, hblock]
    · simp only [hstays, Bool.false_eq_true, if_false, bind_apply, modify_apply, pure_apply]
      have hne : t.mem.next ≠ p := Nat.ne_of_gt hp
      refine ⟨hobjs, ⟨⟨hcount, fun h => by cases h⟩, fun q hq => ?_, ?_, ha.count, hlen⟩⟩
      · cases hq
        exact Nat.lt_succ_self _
      · show Blocks.load (Blocks.free (Blocks.alloc _ _) p) (some t.mem.next) = _
        rw [Blocks.load_free_of_ne hne, Blocks.load_alloc_self, hblock]

theorem growValues_stored :
    Triple (fun t => t.objs = l ∧ Stored t.mem a xs rest) (growValues env a)
      (fun a' t => t.objs = l ∧ Stored t.mem a' xs (spareCells a.capacity rest)) E := by
  have hroom := le_growCapacity a.capacity
  refine Triple.of_imp (p := a.count = xs.length ∧ a.capacity = xs.length + rest.length)
    (fun t ht => ⟨ht.2.count, ht.2.capacity⟩) fun ⟨hcount, hcap⟩ => ?_
  refine Triple.ite (fun hfull => ?_) fun hspace => Triple.pure fun t ht => ?_
  · have hnil : rest = [] := List.eq_nil_of_length_eq_zero (by omega)
    refine (growArray_stored (Nat.le_of_succ_le hroom)).bind fun p => Triple.pure fun t ht => ?_
    subst hnil
    exact ht
  · have hne : rest ≠ [] := by
      rintro rfl
      rw [List.length_nil] at hcap
      omega
    rw [spareCells, if_neg hne]
    exact ht

/-! ## Writing and removing -/

theorem storeCells_some {q : Option ℕ} {p i : ℕ} {ys : Cells} (hq : q = some p) :
    storeCells q i ys = Command.modify fun t =>
      { t with mem := t.mem.put p (overwrite (t.mem.load (some p)) i ys) } := by
  rw [hq]
  rfl

theorem overwrite_append {c : Option Cell} {rest : Cells} :
    overwrite (xs ++ c :: rest) xs.length [v] = xs ++ v :: rest := by
  have hroom : [v].length ≤ (xs ++ c :: rest).length - xs.length := by simp
  rw [overwrite, List.take_left, List.take_of_length_le hroom, List.drop_append]
  simp

theorem writeValueArrayEnd_stored :
    Triple (fun t => t.objs = l ∧ Stored t.mem a xs rest) (writeValueArrayEnd env a v)
      (fun a' t => t.objs = l ∧ Stored t.mem a' (xs ++ [v]) (spareCells a.capacity rest).tail)
      E := by
  refine growValues_stored.bind fun a' => ?_
  obtain ⟨c, spare, hspare⟩ := List.exists_cons_of_ne_nil (spareCells_ne_nil a.capacity rest)
  rw [hspare, List.tail_cons]
  refine Triple.of_imp (fun t ht => ht.2.values_ne_none (by simp)) fun ⟨p, hvalues⟩ => ?_
  refine Triple.bind (Q := fun _ t => t.objs = l ∧
    Stored t.mem { a' with count := a'.count + 1 } (xs ++ [v]) spare) ?_
    fun _ => Triple.pure fun _ h => h
  rw [storeCells_some hvalues]
  refine Triple.modify fun t ht => ⟨ht.1, ?_⟩
  have hcells : overwrite (t.mem.load (some p)) a'.count [v] = (xs ++ [v]) ++ spare := by
    rw [← hvalues, ht.2.block, ht.2.count, overwrite_append, List.append_assoc]
    rfl
  show Stored (t.mem.put p _) _ _ _
  rw [hcells]
  refine ht.2.put hvalues ?_ ?_
  · rw [ht.2.count, List.length_append, List.length_singleton]
  · simp only [List.length_append, List.length_cons, List.length_nil]
    omega

/-- The spare cells of an array that is built up from nothing were never written. -/
theorem writeAll_stored {vs : Cells} {n : ℕ} :
    Triple (fun t => t.objs = l ∧ Stored t.mem a xs (List.replicate n none))
      (vs.foldlM (writeValueArrayEnd env) a)
      (fun a' t => t.objs = l ∧ ∃ n', Stored t.mem a' (xs ++ vs) (List.replicate n' none)) E := by
  induction vs generalizing a xs n with
  | nil =>
    rw [List.append_nil]
    exact Triple.pure fun _ h => ⟨h.1, n, h.2⟩
  | cons v vs ih =>
    have hspare : ∃ n', (spareCells a.capacity (List.replicate n none)).tail =
        List.replicate n' none := by
      unfold spareCells
      split
      · exact ⟨_, List.tail_replicate⟩
      · exact ⟨_, List.tail_replicate⟩
    obtain ⟨n', hn'⟩ := hspare
    have hwrite : Triple (fun t => t.objs = l ∧ Stored t.mem a xs (List.replicate n none))
        (writeValueArrayEnd env a v) _ E := writeValueArrayEnd_stored
    rw [hn'] at hwrite
    rw [List.foldlM_cons]
    refine hwrite.bind fun a' => ih.post fun a'' t ht => ?_
    rwa [List.append_assoc, List.singleton_append] at ht

/-- `writeValueArrayBeg` overwrites the second value with the first. -/
def movedOne (v : Option Cell) : Cells → Cells
  | [] => []
  | [_] => [v]
  | c :: _ :: cs => v :: c :: cs

theorem overwrite_movedOne {cells : Cells} (hne : cells ≠ []) :
    overwrite (overwrite cells 1 (resized 1 cells)) 0 [v] = movedOne v cells := by
  cases cells with
  | nil => exact absurd rfl hne
  | cons c cs =>
    cases cs with
    | nil => rfl
    | cons d ds => simp [overwrite, resized, movedOne]

theorem length_movedOne (cells : Cells) : (movedOne v cells).length = cells.length := by
  unfold movedOne
  split <;> rfl

theorem writeValueArrayBeg_stored {ys rest' : Cells} (hys : ys.length = xs.length + 1)
    (hmoved : movedOne v (xs ++ spareCells a.capacity rest) = ys ++ rest') :
    Triple (fun t => t.objs = l ∧ Stored t.mem a xs rest) (writeValueArrayBeg env a v)
      (fun a' t => t.objs = l ∧ Stored t.mem a' ys rest') E := by
  have hne : xs ++ spareCells a.capacity rest ≠ [] := by
    simp [spareCells_ne_nil a.capacity rest]
  have hlen := congrArg List.length hmoved
  rw [length_movedOne, List.length_append, List.length_append] at hlen
  refine growValues_stored.bind fun a' => ?_
  refine Triple.of_imp (fun t ht => ht.2.values_ne_none hne) fun ⟨p, hvalues⟩ => ?_
  refine Triple.start fun t ht => ?_
  refine (loadCells_known (fun hn => absurd hn (by simp [hvalues])) E).bind fun src => ?_
  rw [storeCells_some hvalues, storeCells_some hvalues]
  rintro t ⟨rfl, rfl⟩
  have hcells : overwrite (overwrite (t.mem.load (some p)) 1 (resized 1 (t.mem.load (some p)))) 0
      [v] = ys ++ rest' := by
    rw [← hvalues, ht.2.block, overwrite_movedOne hne, hmoved]
  simp only [bind_apply, modify_apply, pure_apply, hvalues, Blocks.load_put_self, hcells,
    Blocks.put_put]
  refine ⟨ht.1, (ht.2.put (n := a'.count + 1) hvalues ?_ ?_).congr hvalues.symm rfl rfl⟩
  · rw [ht.2.count, hys]
  · exact hlen.symm

/-- `removeValueArray` leaves the removed value, or the one that was last, behind the others. -/
theorem removeValueArray_stored {ys zs : Cells} {c : Option Cell} :
    Triple (fun t => t.objs = l ∧ Stored t.mem a (ys ++ c :: zs) rest)
      (removeValueArray a ys.length)
      (fun a' t => t.objs = l ∧ ∃ rest', Stored t.mem a' (ys ++ zs) rest') E := by
  refine Triple.of_imp (p := a.count = (ys ++ c :: zs).length ∧ ∃ p, a.values = some p)
    (fun t ht => ⟨ht.2.count, ht.2.values_ne_none (by simp)⟩) fun ⟨hcount, p, hvalues⟩ => ?_
  have hlt : ys.length < a.count := by
    rw [hcount]
    simp
  have hne : a.values ≠ none := by simp [hvalues]
  refine Triple.bind (Q := fun _ t => t.objs = l ∧ Stored t.mem a (ys ++ c :: zs) rest)
    (by simp only [assert, hlt, decide_true, if_true]; exact Triple.pure fun _ h => h) fun _ => ?_
  refine Triple.ite (fun hn => absurd hn hne) fun _ => ?_
  refine Triple.ite (fun hlast => Triple.pure fun t ht => ⟨ht.1, c :: rest, ?_⟩) fun hinner => ?_
  · have hnil : zs = [] := by
      refine List.eq_nil_of_length_eq_zero ?_
      simp only [List.length_append, List.length_cons] at hcount
      omega
    subst hnil
    rw [List.append_nil]
    have hshrink := ht.2.shrink
    rw [hlast] at hshrink
    exact hshrink
  · refine Triple.start fun t ht => ?_
    refine (loadCells_known (fun hn => absurd hn hne) E).bind fun src => ?_
    rw [storeCells_some hvalues]
    rintro t ⟨rfl, rfl⟩
    rw [ht.2.load, List.drop_append, List.drop_of_length_le (by omega), Nat.add_sub_cancel_left,
      List.nil_append, List.drop_one, List.tail_cons]
    have hcells : overwrite (t.mem.load (some p)) ys.length zs =
        (ys ++ zs) ++ ((ys ++ c :: zs) ++ rest).drop (ys.length + zs.length) := by
      have hroom : zs.length ≤ ((ys ++ c :: zs) ++ rest).length - ys.length := by
        simp only [List.length_append, List.length_cons]
        omega
      rw [← hvalues, ht.2.block, overwrite, List.take_of_length_le hroom, List.append_assoc ys,
        List.take_left]
    simp only [bind_apply, modify_apply, pure_apply, hcells]
    refine ⟨ht.1, _, ht.2.put hvalues ?_ ?_⟩
    · rw [hcount]
      simp
    · simp only [List.length_append, List.length_cons, List.length_drop]
      omega

/-! ## Arrays without their spare cells -/

/-- An array that is built has these elements. -/
structure Holds (m : Blocks Cell) (a : ObjArray) (xs : Cells) : Prop where
  fits : a.Fits
  bound : ∀ p, a.values = some p → p < m.next
  room : (m.load a.values).length = a.capacity
  count : a.count = xs.length
  cells : (m.load a.values).take a.count = xs

theorem Stored.holds (ha : Stored m a xs rest) : Holds m a xs := by
  refine ⟨ha.fits, ha.bound, ?_, ha.count, ?_⟩
  · rw [ha.block, ha.capacity, List.length_append]
  · rw [ha.block, ha.count, List.take_left]

theorem Holds.stored (ha : Holds m a xs) :
    Stored m a xs ((m.load a.values).drop a.count) := by
  refine ⟨ha.fits, ha.bound, ?_, ha.count, ?_⟩
  · conv_lhs => rw [← List.take_append_drop a.count (m.load a.values), ha.cells]
  · have hle := ha.fits.1
    rw [List.length_drop, ha.room, ← ha.count]
    omega

theorem Holds.empty {isShared isStatic : Bool} : Holds m ⟨isShared, isStatic, none, 0, 0⟩ [] :=
  Stored.empty.holds

theorem Holds.resized (ha : Holds m a xs) : resized a.count (m.load a.values) = xs :=
  ha.stored.load

/-- A command on an array keeps its elements whatever the spare cells are. -/
theorem holds_of_stored {α : Type} {c : Exec α} {Q : α → Heap → Prop}
    (hc : ∀ rest, Triple (fun t => t.objs = l ∧ Stored t.mem a xs rest) c Q E) :
    Triple (fun t => t.objs = l ∧ Holds t.mem a xs) c Q E :=
  fun t ht => hc _ t ⟨ht.1, ht.2.stored⟩

theorem growArray_holds {n : ℕ} (hn : a.capacity ≤ n) :
    Triple (fun t => t.objs = l ∧ Holds t.mem a xs) (growArray env a.values n)
      (fun p t => t.objs = l ∧ Holds t.mem { a with values := some p, capacity := n } xs) E :=
  holds_of_stored fun _ => (growArray_stored hn).post fun _ _ h => ⟨h.1, h.2.holds⟩

theorem writeValueArrayEnd_holds :
    Triple (fun t => t.objs = l ∧ Holds t.mem a xs) (writeValueArrayEnd env a v)
      (fun a' t => t.objs = l ∧ Holds t.mem a' (xs ++ [v])) E :=
  holds_of_stored fun _ => writeValueArrayEnd_stored.post fun _ _ h => ⟨h.1, h.2.holds⟩

theorem writeAll_holds {vs : Cells} :
    Triple (fun t => t.objs = l ∧ Holds t.mem a xs) (vs.foldlM (writeValueArrayEnd env) a)
      (fun a' t => t.objs = l ∧ Holds t.mem a' (xs ++ vs)) E := by
  induction vs generalizing a xs with
  | nil =>
    rw [List.append_nil]
    exact Triple.pure fun _ h => h
  | cons v vs ih =>
    rw [List.foldlM_cons]
    refine writeValueArrayEnd_holds.bind fun a' => ih.post fun a'' t ht => ?_
    rwa [List.append_assoc, List.singleton_append] at ht

end Stored

end Clox.Objects
