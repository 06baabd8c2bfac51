import Clox.Lib.Copying
import Clox.Runtime.Marks
import Clox.Runtime.Stored

/-! # Pushing, inserting and replacing text in a string

What `pushCString` and `insertCString` make of the bytes of a string, and the methods on top of
them. The text can be the string itself, whose buffer is then written to while it is read, and is
gone when `realloc` has moved it.
-/

namespace Clox.Objects

open Commands Command Sharing Copying

/-! ## The cells of a string -/

/-- The string `r` has the cells `xs`, a NUL behind them, and spare cells up to its capacity. -/
structure HoldsCells (h : Heap) (r : ℕ) (o : ObjString) (p : ℕ) (xs rest : Cells) : Prop where
  string : h.string? r = some o
  chars : o.chars = some p
  block : h.mem.load (some p) = xs ++ some (.char 0) :: rest
  length : o.length = xs.length
  capacity : o.capacity = xs.length + rest.length
  bound : p < h.mem.next

/-- The string `r` is `s`, with length, NUL and capacity in order. -/
def IsText (h : Heap) (r : ℕ) (s : List UInt8) : Prop :=
  ∃ o p rest, HoldsCells h r o p (charCells s) rest

/-- From `h` to `h'` the block at `p` has got other cells. -/
structure Wrote (h h' : Heap) (p : ℕ) (cells : Cells) : Prop where
  objs : h'.objs = h.objs
  next : h'.mem.next = h.mem.next
  block : h'.mem.load (some p) = cells
  other : ∀ q, q ≠ p → h'.mem.load (some q) = h.mem.load (some q)

section Writing

variable {h h₁ h₂ : Heap} {r p q i k n : ℕ} {o : ObjString} {xs rest cells cells' : Cells}
  {env : Env}

theorem Wrote.refl (h : Heap) (p : ℕ) : Wrote h h p (h.mem.load (some p)) :=
  ⟨rfl, rfl, rfl, fun _ _ => rfl⟩

theorem Wrote.trans (hw : Wrote h h₁ p cells) (hw' : Wrote h₁ h₂ p cells') :
    Wrote h h₂ p cells' := by
  refine ⟨hw'.objs.trans hw.objs, hw'.next.trans hw.next, hw'.block, ?_⟩
  intro q hq
  rw [hw'.other q hq, hw.other q hq]

theorem storeCells_wrote (h : Heap) (p i : ℕ) (xs : Cells) :
    ∃ h', storeCells (some p) i xs h = (.ok (), h') ∧
      Wrote h h' p (overwrite (h.mem.load (some p)) i xs) := by
  refine ⟨_, rfl, rfl, rfl, Blocks.load_put_self, ?_⟩
  intro q hq
  exact Blocks.load_put_of_ne hq

theorem overwrite_one (cells : Cells) (i : ℕ) (c : Option Cell) :
    overwrite cells i [c] = cells.set i c := by
  by_cases hi : i < cells.length
  · have hroom : [c].length ≤ cells.length - i := by
      rw [List.length_singleton]
      omega
    rw [overwrite, List.take_of_length_le hroom, List.length_singleton,
      List.set_eq_take_append_cons_drop, if_pos hi, List.append_assoc]
    rfl
  · have hzero : cells.length - i = 0 := by omega
    rw [overwrite, hzero, List.take_zero, List.append_nil, List.take_of_length_le (by omega),
      List.drop_of_length_le (by rw [List.length_singleton]; omega), List.append_nil,
      List.set_eq_of_length_le (by omega)]

/-- What a store in the middle leaves. -/
theorem overwrite_middle {i : ℕ} (xs ys zs new : Cells) (hi : i = xs.length)
    (hnew : new.length = ys.length) : overwrite (xs ++ (ys ++ zs)) i new = xs ++ (new ++ zs) := by
  subst hi
  have hroom : new.length ≤ (xs ++ (ys ++ zs)).length - xs.length := by
    simp only [List.length_append]
    omega
  rw [overwrite, List.take_left, List.take_of_length_le hroom, List.append_assoc, hnew,
    ← List.append_assoc xs ys zs, ← List.length_append, List.drop_left]

theorem charAt_pointer (h : Heap) (q k : ℕ) : (Source.pointer (some q)).charAt k h =
    (.ok ((h.mem.load (some q)).getD k none), h) := by
  have hcell : (resized (k + 1) (h.mem.load (some q)))[k]?.join =
      (h.mem.load (some q)).getD k none := by
    rw [resized, List.getD_eq_getElem?_getD]
    by_cases hk : k < (h.mem.load (some q)).length
    · rw [List.getElem?_append_left (by rw [List.length_take]; omega),
        List.getElem?_take_of_lt (Nat.lt_succ_self k), List.getElem?_eq_getElem hk]
      rfl
    · rw [List.take_of_length_le (by omega), List.getElem?_append_right (by omega),
        List.getElem?_replicate_of_lt (by omega), List.getElem?_eq_none (by omega)]
      rfl
  have hload : loadCells (some q) (k + 1) h = (.ok (resized (k + 1) (h.mem.load (some q))), h) := by
    simp [loadCells, stopIf, heap, bind_apply]
  rw [Source.charAt, bind_of_ok hload, hcell]
  rfl

/-- What the loop reads: the block that it writes to, or another one. -/
def reads (p q : ℕ) (source : Cells) (l : Cells) (k : ℕ) : Option Cell :=
  if q = p then l.getD k none else source.getD k none

theorem copyChars_wrote {source : Cells} (h : Heap) (hq : q ≠ p → h.mem.load (some q) = source) :
    ∃ h', copyChars (some p) i (.pointer (some q)) k n h = (.ok (), h') ∧
      Wrote h h' p (copy (reads p q source) i k n (h.mem.load (some p))) := by
  induction n generalizing k h with
  | zero => exact ⟨h, rfl, Wrote.refl h p⟩
  | succ n ih =>
    have hread : (h.mem.load (some q)).getD k none =
        reads p q source (h.mem.load (some p)) k := by
      rw [reads]
      split
      · rename_i heq
        rw [heq]
      · rename_i hne
        rw [hq hne]
    obtain ⟨h₁, hstore, hw⟩ := storeCells_wrote h p (i + k) [(h.mem.load (some q)).getD k none]
    have hq' : q ≠ p → h₁.mem.load (some q) = source := by
      intro hne
      rw [hw.other q hne, hq hne]
    obtain ⟨h₂, hrest, hw'⟩ := @ih (k + 1) h₁ hq'
    refine ⟨h₂, ?_, ?_⟩
    · rw [copyChars, bind_of_ok (charAt_pointer h q k), bind_of_ok hstore]
      exact hrest
    · rw [copy, ← hread, ← overwrite_one, ← hw.block]
      exact hw.trans hw'

end Writing

/-! ## Room -/

/-- `realloc` is not called, or leaves the block where it is. -/
def InPlace (env : Env) (o : ObjString) (p newLen : ℕ) : Prop :=
  newLen ≤ o.capacity ∨ env.stays p (max newLen (growCapacity o.capacity) + 1) = true

section Room

variable {h : Heap} {r p : ℕ} {o : ObjString} {xs rest : Cells} {env : Env} {newLen : ℕ}

/-- The state when there is room: the block has moved unless it is in place, and then the old one
is gone. -/
structure Grown (env : Env) (h h' : Heap) (r : ℕ) (o : ObjString) (p newLen : ℕ) (xs : Cells)
    (o' : ObjString) (p' : ℕ) (rest' : Cells) : Prop where
  holds : HoldsCells h' r o' p' xs rest'
  room : newLen ≤ xs.length + rest'.length
  flags : o'.isShared = o.isShared
  frozen : h'.isFrozen r = h.isFrozen r
  stayed : InPlace env o p newLen → p' = p
  moved : ¬ InPlace env o p newLen → p' ≠ p ∧ h'.mem.load (some p) = []
  other : ∀ q, q ≠ p → q < h.mem.next → q ≠ p' ∧ h'.mem.load (some q) = h.mem.load (some q)

theorem isFrozen_setBody (h : Heap) (r x : ℕ) (b : Body) :
    (h.setBody x b).isFrozen r = h.isFrozen r := by
  rw [Heap.isFrozen, Heap.isFrozen, Heap.setBody, List.getElem?_modify]
  split <;> cases h.objs[r]? <;> rfl

theorem growChars_grown (hs : HoldsCells h r o p xs rest) (newLen : ℕ) :
    ∃ o' h' p' rest', growChars env r newLen h = (.ok o', h') ∧
      Grown env h h' r o p newLen xs o' p' rest' := by
  have hget : getString r h = (.ok o, h) := look_of_some hs.string
  by_cases hroom : newLen > o.capacity
  · have hsz : o.capacity < max newLen (growCapacity o.capacity) := by omega
    generalize hnewSz : max newLen (growCapacity o.capacity) = newSz at hsz
    have hcap := hs.capacity
    -- the old cells and fresh ones behind them
    have hcells : resized (newSz + 1) (h.mem.load (some p)) =
        xs ++ some (.char 0) :: (rest ++ List.replicate (newSz - o.capacity) none) := by
      have hlen : (h.mem.load (some p)).length = o.capacity + 1 := by
        rw [hs.block, List.length_append, List.length_cons]
        omega
      have hspare : newSz + 1 - (o.capacity + 1) = newSz - o.capacity := by omega
      rw [resized, List.take_of_length_le (by omega), hlen, hspare, hs.block]
      simp
    have hnew : newSz = xs.length + (rest ++ List.replicate (newSz - o.capacity) none).length := by
      rw [List.length_append, List.length_replicate]
      omega
    by_cases hstays : env.stays p (newSz + 1) = true
    · refine ⟨{ o with chars := some p, capacity := newSz },
        ({ h with mem := h.mem.put p (resized (newSz + 1) (h.mem.load (some p))) } : Heap).setBody r
          (.string { o with chars := some p, capacity := newSz }), p, _, ?_,
        ⟨⟨?_, rfl, ?_, hs.length, hnew, hs.bound⟩, by omega, rfl, ?_, fun _ => rfl, ?_, ?_⟩⟩
      · simp [growChars, bind_apply, hget, hroom, hnewSz, growArray, hs.chars, heap, hstays,
          setString]
      · exact Heap.string?_setBody_self (s := o) hs.string
      · rw [← hcells]
        exact Blocks.load_put_self
      · rw [isFrozen_setBody]
        rfl
      · intro hnot
        exact absurd (Or.inr (hnewSz ▸ hstays)) hnot
      · intro q hq hlt
        exact ⟨hq, Blocks.load_put_of_ne hq⟩
    · have hne : h.mem.next ≠ p := Nat.ne_of_gt hs.bound
      refine ⟨{ o with chars := some h.mem.next, capacity := newSz },
        ({ h with mem :=
            (h.mem.alloc (resized (newSz + 1) (h.mem.load (some p)))).free p } : Heap).setBody r
          (.string { o with chars := some h.mem.next, capacity := newSz }), h.mem.next, _, ?_,
        ⟨⟨?_, rfl, ?_, hs.length, hnew, Nat.lt_succ_self _⟩, by omega, rfl, ?_, ?_, ?_, ?_⟩⟩
      · simp [growChars, bind_apply, hget, hroom, hnewSz, growArray, hs.chars, heap, hstays,
          setString]
      · exact Heap.string?_setBody_self (s := o) hs.string
      · rw [← hcells]
        exact (Blocks.load_free_of_ne hne).trans Blocks.load_alloc_self
      · rw [isFrozen_setBody]
        rfl
      · rintro (hle | hstay)
        · omega
        · exact absurd (hnewSz ▸ hstay) hstays
      · intro _
        refine ⟨hne, ?_⟩
        simp [Blocks.load, Blocks.free]
      · intro q hq hlt
        have hqn : q ≠ h.mem.next := Nat.ne_of_lt hlt
        exact ⟨hqn, (Blocks.load_free_of_ne hq).trans (Blocks.load_alloc_of_ne hqn)⟩
  · have hle : newLen ≤ o.capacity := by omega
    refine ⟨o, h, p, rest, ?_, ⟨hs, ?_, rfl, rfl, fun _ => rfl, ?_, ?_⟩⟩
    · simp [growChars, bind_apply, hget, hroom]
    · have hcap := hs.capacity
      omega
    · intro hnot
      exact absurd (Or.inl hle) hnot
    · intro q hq _
      exact ⟨hq, rfl⟩

end Room

/-! ## Pushing and inserting -/

section Inserting

variable {h h₁ h₂ : Heap} {r p p' q i n newLen : ℕ} {o o' : ObjString} {xs rest rest' l : Cells}
  {env : Env}

/-- The `n` cells that the loop copies to `i`: of another block, of the string's own block, or of
a block that is gone. -/
structure Copies (env : Env) (h : Heap) (o : ObjString) (p newLen : ℕ) (xs : Cells) (q i n : ℕ)
    (cells : Cells) : Prop where
  length : cells.length = n
  other : q ≠ p → cells = (h.mem.load (some q)).take n
  self : q = p → InPlace env o p newLen → n ≤ xs.length →
    cells = (List.range n).map fun k => xs.getD (k % i) none
  gone : q = p → ¬ InPlace env o p newLen → cells = List.replicate n none

theorem map_getD_range {source : Cells} (hn : n ≤ source.length) :
    ((List.range n).map fun k => source.getD k none) = source.take n := by
  apply List.ext_getElem?
  intro k
  by_cases hk : k < n
  · rw [List.getElem?_map, List.getElem?_range hk, List.getElem?_take_of_lt hk, Option.map_some,
      List.getD_eq_getElem?_getD, List.getElem?_eq_getElem (by omega), Option.getD_some]
  · rw [List.getElem?_eq_none (by simpa using hk),
      List.getElem?_eq_none (by rw [List.length_take]; omega)]

/-- The loop, when the beginning of the block is still that of the string. -/
theorem copyChars_grown (hg : Grown env h h₁ r o p newLen xs o' p' rest')
    (hw : Wrote h₁ h₂ p' l) (hq : q ≠ p → q < h.mem.next ∧ n ≤ (h.mem.load (some q)).length)
    (hroom : i + n ≤ l.length)
    (hbegin : n ≤ xs.length → ∀ k < n, l.getD (k % i) none = xs.getD (k % i) none) :
    ∃ h₃ cells, copyChars (some p') i (.pointer (some q)) 0 n h₂ = (.ok (), h₃) ∧
      Wrote h₁ h₃ p' (l.take i ++ cells ++ l.drop (i + n)) ∧
      Copies env h o p newLen xs q i n cells := by
  obtain ⟨h₃, hcopy, hw₃⟩ := @copyChars_wrote p' q i 0 n (h₂.mem.load (some q)) h₂ fun _ => rfl
  rw [hw.block] at hw₃
  by_cases hqp : q = p
  · subst hqp
    by_cases hplace : InPlace env o q newLen
    · obtain rfl := hg.stayed hplace
      have hself : copy (reads p' p' (h₂.mem.load (some p'))) i 0 n l =
          copied (fun k => l.getD (k % i) none) i n l := by
        have hreads : reads p' p' (h₂.mem.load (some p')) = fun l k => l.getD k none := by
          funext l k
          rw [reads, if_pos rfl]
        rw [hreads, copy_self none hroom]
      rw [hself] at hw₃
      refine ⟨h₃, _, hcopy, hw.trans hw₃, by simp, fun hne => absurd rfl hne, ?_, ?_⟩
      · intro _ _ hn
        apply List.map_congr_left
        intro k hk
        exact hbegin hn k (List.mem_range.mp hk)
      · intro _ hnot
        exact absurd hplace hnot
    · obtain ⟨hne, hgone⟩ := hg.moved hplace
      have hempty : h₂.mem.load (some q) = [] := (hw.other q (Ne.symm hne)).trans hgone
      have hother : copy (reads p' q (h₂.mem.load (some q))) i 0 n l =
          copied (fun _ => none) i n l := by
        have hreads : reads p' q (h₂.mem.load (some q)) = fun _ _ => none := by
          funext l k
          rw [reads, if_neg (Ne.symm hne), hempty]
          rfl
        rw [hreads, copy_other hroom]
      rw [hother] at hw₃
      refine ⟨h₃, _, hcopy, hw.trans hw₃, by simp, fun hne' => absurd rfl hne', ?_, ?_⟩
      · intro _ hplace'
        exact absurd hplace' hplace
      · intro _ _
        simp
  · obtain ⟨hlt, hlen⟩ := hq hqp
    obtain ⟨hne, hload⟩ := hg.other q hqp hlt
    have hsource : h₂.mem.load (some q) = h.mem.load (some q) := (hw.other q hne).trans hload
    have hother : copy (reads p' q (h₂.mem.load (some q))) i 0 n l =
        copied (fun k => (h.mem.load (some q)).getD k none) i n l := by
      have hreads : reads p' q (h₂.mem.load (some q)) =
          fun _ k => (h.mem.load (some q)).getD k none := by
        funext l k
        rw [reads, if_neg hne, hsource]
      rw [hreads, copy_other hroom]
    rw [hother] at hw₃
    refine ⟨h₃, _, hcopy, hw.trans hw₃, by simp, fun _ => map_getD_range hlen, ?_, ?_⟩
    · intro heq
      exact absurd heq hqp
    · intro heq
      exact absurd heq hqp

/-- The NUL and the new length at the end. -/
theorem finish {ys tail : Cells} {c : Option Cell} (hs : HoldsCells h₁ r o' p' xs rest')
    (hw : Wrote h₁ h₂ p' (ys ++ c :: tail)) (hcap : o'.capacity = ys.length + tail.length) :
    ∃ h₃, (do storeCells (some p') ys.length [some (.char 0)]
              setString r { o' with length := ys.length, hash := 0 } : Exec Unit) h₂ =
        (.ok (), h₃) ∧
      HoldsCells h₃ r { o' with length := ys.length, hash := 0 } p' ys tail := by
  obtain ⟨h₃, hstore, hw₃⟩ := storeCells_wrote h₂ p' ys.length [some (.char 0)]
  have hblock : overwrite (h₂.mem.load (some p')) ys.length [some (.char 0)] =
      ys ++ some (.char 0) :: tail := by
    rw [hw.block, overwrite_one, List.set_append_right _ _ (Nat.le_refl _), Nat.sub_self,
      List.set_cons_zero]
  rw [hblock] at hw₃
  have hstring : h₃.string? r = some o' := by
    rw [Heap.string?, hw₃.objs, hw.objs]
    exact hs.string
  refine ⟨h₃.setBody r (.string { o' with length := ys.length, hash := 0 }), ?_,
    ⟨Heap.string?_setBody_self hstring, hs.chars, hw₃.block, rfl, hcap, ?_⟩⟩
  · rw [bind_of_ok hstore]
    rfl
  · have hbound := hs.bound
    rw [Heap.mem_setBody, hw₃.next, hw.next]
    exact hbound

/-- Text pushed at the end. -/
theorem pushCString_text (hs : HoldsCells h r o p xs rest) (hfrozen : h.isFrozen r = false)
    (hn : n ≠ 0) (hq : q ≠ p → q < h.mem.next ∧ n ≤ (h.mem.load (some q)).length) :
    ∃ h' o' p' rest' cells, pushCString env r (.pointer (some q)) n h = (.ok (), h') ∧
      Copies env h o p (xs.length + n) xs q xs.length n cells ∧
      HoldsCells h' r o' p' (xs ++ cells) rest' := by
  obtain ⟨o', h₁, p', rest', hgrow, hg⟩ :=
    @growChars_grown h r p o xs rest env hs (xs.length + n)
  have hroom := hg.room
  have hblock := hg.holds.block
  obtain ⟨h₂, cells, hcopy, hw, hcells⟩ := @copyChars_grown h h₁ h₁ r p p' q xs.length n
    (xs.length + n) o o' xs rest' (xs ++ some (.char 0) :: rest') env hg
    (hblock ▸ Wrote.refl h₁ p') hq (by rw [List.length_append, List.length_cons]; omega) (by
      intro hle k hk
      have hlt : k % xs.length < xs.length := Nat.lt_of_le_of_lt (Nat.mod_le _ _) (by omega)
      rw [List.getD_eq_getElem?_getD, List.getElem?_append_left hlt,
        ← List.getD_eq_getElem?_getD])
  have htail : (xs ++ some (.char 0) :: rest').drop (xs.length + n) =
      (some (.char 0) :: rest').drop n := by
    rw [List.drop_append, List.drop_of_length_le (by omega), List.nil_append]
    congr 1
    omega
  have hne : n < (some (Cell.char 0) :: rest').length := by
    rw [List.length_cons]
    omega
  rw [List.take_left, htail, List.drop_eq_getElem_cons hne] at hw
  have hcap : o'.capacity =
      (xs ++ cells).length + ((some (Cell.char 0) :: rest').drop (n + 1)).length := by
    rw [hg.holds.capacity, List.length_append, hcells.length, List.length_drop, List.length_cons]
    omega
  obtain ⟨h', hfinish, hholds⟩ := finish hg.holds hw hcap
  refine ⟨h', _, p', _, cells, ?_, hcells, hholds⟩
  have hlen : (xs ++ cells).length = xs.length + n := by
    rw [List.length_append, hcells.length]
  rw [hlen] at hfinish
  have hassert : assert (!h.isFrozen r) h = (.ok (), h) := by simp [assert, hfrozen]
  have hget : getString r h = (.ok o, h) := look_of_some hs.string
  have hstart : pushCString env r (.pointer (some q)) n h =
      (do copyChars (some p') xs.length (.pointer (some q)) 0 n
          storeCells (some p') (xs.length + n) [some (.char 0)]
          setString r { o' with length := xs.length + n, hash := 0 } : Exec Unit) h₁ := by
    rw [pushCString, bind_of_ok (show heap h = (.ok h, h) from rfl), bind_of_ok hassert, if_neg hn,
      bind_of_ok hget, hs.length, bind_of_ok hgrow, hg.holds.chars, hg.holds.length]
  rw [hstart, bind_of_ok hcopy]
  exact hfinish

/-- Text inserted before the end; `src` is behind the byte that is replaced. -/
theorem insertCString_text {pos src : ℕ} {replaceAt : Bool} (hs : HoldsCells h r o p xs rest)
    (hfrozen : h.isFrozen r = false) (hn : n ≠ 0) (hpos : pos < xs.length)
    (hsrc : src = if replaceAt then pos + 1 else pos)
    (hq : q ≠ p → q < h.mem.next ∧ n ≤ (h.mem.load (some q)).length) :
    ∃ h' o' p' rest' cells, insertCString env r (.pointer (some q)) n pos replaceAt h =
        (.ok (), h') ∧
      Copies env h o p (pos + n + (xs.length - src)) xs q pos n cells ∧
      HoldsCells h' r o' p' (xs.take pos ++ cells ++ xs.drop src) rest' := by
  have hsrc_le : src ≤ xs.length ∧ pos ≤ src := by
    rw [hsrc]
    split <;> omega
  have hnewLen : (if replaceAt then xs.length + n - 1 else xs.length + n) =
      pos + n + (xs.length - src) := by
    rw [hsrc]
    split <;> omega
  generalize hlenEq : pos + n + (xs.length - src) = newLen at hnewLen ⊢
  obtain ⟨o', h₁, p', rest', hgrow, hg⟩ := @growChars_grown h r p o xs rest env hs newLen
  have hroom := hg.room
  have hblock := hg.holds.block
  have hbig : newLen < (xs ++ some (Cell.char 0) :: rest').length := by
    rw [List.length_append, List.length_cons]
    omega
  generalize hb : xs ++ some (Cell.char 0) :: rest' = b at hblock hbig
  have hbtake : ∀ j, j ≤ xs.length → b.take j = xs.take j := by
    intro j hj
    rw [← hb, List.take_append_of_le_length hj]
  -- the move of what is behind
  obtain ⟨h₂, hstore, hw₂⟩ := storeCells_wrote h₁ p' (pos + n) (xs.drop src)
  have hmove : overwrite (h₁.mem.load (some p')) (pos + n) (xs.drop src) =
      b.take (pos + n) ++ (xs.drop src ++ b.drop newLen) := by
    have hsplit : b = b.take (pos + n) ++
        ((b.drop (pos + n)).take (xs.length - src) ++ b.drop newLen) := by
      have hbehind : b.drop newLen = (b.drop (pos + n)).drop (xs.length - src) := by
        rw [List.drop_drop, hlenEq]
      rw [hbehind, List.take_append_drop, List.take_append_drop]
    rw [hblock]
    conv_lhs => rw [hsplit]
    apply overwrite_middle
    · rw [List.length_take]
      omega
    · rw [List.length_drop, List.length_take, List.length_drop]
      omega
  rw [hmove] at hw₂
  have hfront : (b.take (pos + n)).length = pos + n := by
    rw [List.length_take]
    omega
  obtain ⟨h₃, cells, hcopy, hw₃, hcells⟩ := @copyChars_grown h h₁ h₂ r p p' q pos n newLen o o' xs
    rest' (b.take (pos + n) ++ (xs.drop src ++ b.drop newLen)) env hg hw₂ hq
    (by rw [List.length_append]; omega) (by
      intro hle k hk
      have hmod : k % pos ≤ k := Nat.mod_le _ _
      have hlt : k % pos < xs.length := by omega
      rw [List.getD_eq_getElem?_getD, List.getElem?_append_left (by omega),
        List.getElem?_take_of_lt (by omega), ← hb, List.getElem?_append_left hlt,
        ← List.getD_eq_getElem?_getD])
  have htake : (b.take (pos + n) ++ (xs.drop src ++ b.drop newLen)).take pos = xs.take pos := by
    rw [List.take_append_of_le_length (by omega), List.take_take, Nat.min_eq_left (by omega),
      hbtake pos (by omega)]
  have hdrop : (b.take (pos + n) ++ (xs.drop src ++ b.drop newLen)).drop (pos + n) =
      xs.drop src ++ b.drop newLen := by
    rw [List.drop_left' hfront]
  rw [htake, hdrop, ← List.append_assoc, List.drop_eq_getElem_cons hbig] at hw₃
  have hlen : (xs.take pos ++ cells ++ xs.drop src).length = newLen := by
    rw [List.length_append, List.length_append, List.length_take, hcells.length, List.length_drop]
    omega
  have hcap : o'.capacity =
      (xs.take pos ++ cells ++ xs.drop src).length + (b.drop (newLen + 1)).length := by
    rw [hg.holds.capacity, hlen, List.length_drop, ← hb, List.length_append, List.length_cons]
    omega
  obtain ⟨h', hfinish, hholds⟩ := finish hg.holds hw₃ hcap
  refine ⟨h', _, p', _, cells, ?_, hcells, hholds⟩
  rw [hlen] at hfinish
  have hassert : assert (!h.isFrozen r) h = (.ok (), h) := by simp [assert, hfrozen]
  have hget : getString r h = (.ok o, h) := look_of_some hs.string
  have hbounds : assert (0 ≤ (pos : ℤ) && (pos : ℤ) ≤ o.length) h = (.ok (), h) := by
    have hle : (pos : ℤ) ≤ o.length := by
      rw [hs.length]
      omega
    simp [assert, hle]
  have hmoved : loadCells (some p') xs.length h₁ = (.ok xs, h₁) := by
    have hle : xs.length ≤ b.length := by
      rw [← hb, List.length_append]
      omega
    have hres : resized xs.length (h₁.mem.load (some p')) = xs := by
      rw [hblock, resized, hbtake _ (Nat.le_refl _), List.take_length,
        Nat.sub_eq_zero_of_le hle, List.replicate_zero, List.append_nil]
    simp [loadCells, stopIf, heap, bind_apply, hres]
  have hstart : insertCString env r (.pointer (some q)) n pos replaceAt h =
      (do copyChars (some p') pos (.pointer (some q)) 0 n
          storeCells (some p') newLen [some (.char 0)]
          setString r { o' with length := newLen, hash := 0 } : Exec Unit) h₂ := by
    rw [insertCString, bind_of_ok (show heap h = (.ok h, h) from rfl), bind_of_ok hassert,
      bind_of_ok hget, bind_of_ok hbounds, Int.toNat_natCast, hs.length,
      if_neg (Nat.ne_of_lt hpos), if_neg hn, hnewLen, bind_of_ok hgrow, ← hsrc, hg.holds.chars,
      hg.holds.length, bind_of_ok hmoved, bind_of_ok hstore]
  rw [hstart, bind_of_ok hcopy]
  exact hfinish

end Inserting

/-! ## The text that is made -/

/-- `take(at, s) ++ t ++ drop(at + r, s)`; a byte is replaced where there is one. -/
def edited (s t : List UInt8) (pos : ℕ) (replaceAt : Bool) : List UInt8 :=
  s.take pos ++ t ++ s.drop (if replaceAt = true ∧ pos < s.length then pos + 1 else pos)

/-- When the bytes `t` of the block `q` get between those of `s` in the block `p`: an empty text
replaces nothing. The bytes of `s` itself are read while they are written, from the place `pos` on,
so that they have to repeat themselves from there; and they are gone when `realloc` moves them. -/
def Arrives (env : Env) (o : ObjString) (p q : ℕ) (s t : List UInt8) (pos : ℕ)
    (replaceAt : Bool) : Prop :=
  (t = [] → replaceAt = true → pos = s.length) ∧
  (t ≠ [] → q = p → InPlace env o p (edited s t pos replaceAt).length ∧
    ∀ k < s.length, s[k % pos]? = s[k]?)

section Texts

variable {h h₁ h₂ : Heap} {r p q i n newLen : ℕ} {o : ObjString} {xs rest cells : Cells}
  {s t : List UInt8} {env : Env}

theorem charCells_injective : Function.Injective charCells := by
  apply List.map_injective_iff.mpr
  intro a b hab
  simpa using hab

theorem length_charCells (s : List UInt8) : (charCells s).length = s.length :=
  List.length_map _

theorem charCells_append (s t : List UInt8) :
    charCells (s ++ t) = charCells s ++ charCells t :=
  List.map_append

theorem charCells_take (s : List UInt8) (n : ℕ) : charCells (s.take n) = (charCells s).take n :=
  List.map_take

theorem charCells_drop (s : List UInt8) (n : ℕ) : charCells (s.drop n) = (charCells s).drop n :=
  List.map_drop

theorem charCells_getD (s : List UInt8) (k : ℕ) :
    (charCells s).getD k none = s[k]?.map Cell.char := by
  rw [charCells, List.getD_eq_getElem?_getD, List.getElem?_map]
  cases s[k]? <;> rfl

/-- The block of a string says what its bytes are. -/
theorem isText_iff (hs : HoldsCells h r o p xs rest) : IsText h r s ↔ xs = charCells s := by
  constructor
  · rintro ⟨o', p', rest', hs'⟩
    obtain rfl : o' = o := by
      have heq := hs'.string
      rw [hs.string] at heq
      exact (Option.some.inj heq).symm
    obtain rfl : p' = p := by
      have heq := hs'.chars
      rw [hs.chars] at heq
      exact (Option.some.inj heq).symm
    have hblock := hs.block
    rw [hs'.block] at hblock
    have hlen : (charCells s).length = xs.length := hs'.length.symm.trans hs.length
    exact (List.append_inj_left hblock hlen).symm
  · rintro rfl
    exact ⟨o, p, rest, hs⟩

/-- The copied cells are the text. -/
theorem copies_iff (hc : Copies env h o p newLen (charCells s) q i t.length cells) (ht : t ≠ [])
    (hother : q ≠ p → (h.mem.load (some q)).take t.length = charCells t) (hown : q = p → t = s) :
    cells = charCells t ↔
      (q = p → InPlace env o p newLen ∧ ∀ k < s.length, s[k % i]? = s[k]?) := by
  by_cases hqp : q = p
  · obtain rfl := hown hqp
    by_cases hplace : InPlace env o p newLen
    · have hcells := hc.self hqp hplace (Nat.le_of_eq (length_charCells t).symm)
      rw [hcells]
      constructor
      · intro heq _
        refine ⟨hplace, ?_⟩
        intro k hk
        have hkth := congrArg (fun l => l[k]?) heq
        simp only [List.getElem?_map, List.getElem?_range hk, Option.map_some, charCells_getD]
          at hkth
        rw [charCells, List.getElem?_map, List.getElem?_eq_getElem hk] at hkth
        rw [List.getElem?_eq_getElem hk]
        cases hmod : t[k % i]? with
        | none =>
          rw [hmod] at hkth
          cases hkth
        | some c =>
          rw [hmod] at hkth
          cases hkth
          rfl
      · intro hrepeat
        apply List.ext_getElem?
        intro k
        by_cases hk : k < t.length
        · rw [List.getElem?_map, List.getElem?_range hk, Option.map_some, charCells_getD,
            (hrepeat hqp).2 k hk, charCells, List.getElem?_map, List.getElem?_eq_getElem hk]
          rfl
        · rw [List.getElem?_eq_none (by simpa using hk),
            List.getElem?_eq_none (by rw [length_charCells]; omega)]
    · rw [hc.gone hqp hplace]
      constructor
      · intro heq
        obtain ⟨c, cs, rfl⟩ := List.exists_cons_of_ne_nil ht
        cases heq
      · intro hrepeat
        exact absurd (hrepeat hqp).1 hplace
  · rw [hc.other hqp, hother hqp]
    constructor
    · intro _ hqp'
      exact absurd hqp' hqp
    · intro _
      rfl

/-- `insertCString` within the string. -/
theorem insertCString_iff {pos : ℕ} {replaceAt : Bool}
    (hs : HoldsCells h r o p (charCells s) rest) (hfrozen : h.isFrozen r = false)
    (hpos : pos ≤ s.length) (hq : q ≠ p → q < h.mem.next)
    (hother : q ≠ p → (h.mem.load (some q)).take t.length = charCells t) (hown : q = p → t = s) :
    (∃ h', insertCString env r (.pointer (some q)) t.length pos replaceAt h = (.ok (), h') ∧
      IsText h' r (edited s t pos replaceAt)) ↔ Arrives env o p q s t pos replaceAt := by
  have hassert : assert (!h.isFrozen r) h = (.ok (), h) := by simp [assert, hfrozen]
  have hget : getString r h = (.ok o, h) := look_of_some hs.string
  have hlength : o.length = s.length := hs.length.trans (length_charCells s)
  have hbounds : assert (0 ≤ (pos : ℤ) && (pos : ℤ) ≤ o.length) h = (.ok (), h) := by
    have hle : (pos : ℤ) ≤ o.length := by omega
    simp [assert, hle]
  have hstart : insertCString env r (.pointer (some q)) t.length pos replaceAt h =
      (if pos = s.length then pushCString env r (.pointer (some q)) t.length
        else insertCString env r (.pointer (some q)) t.length pos replaceAt) h := by
    split
    · rename_i heq
      rw [insertCString, bind_of_ok (show heap h = (.ok h, h) from rfl), bind_of_ok hassert,
        bind_of_ok hget, bind_of_ok hbounds, Int.toNat_natCast, hlength, if_pos heq]
    · rfl
  have hsource : q ≠ p → q < h.mem.next ∧ t.length ≤ (h.mem.load (some q)).length := by
    intro hne
    have hlen := congrArg List.length (hother hne)
    rw [List.length_take, length_charCells] at hlen
    exact ⟨hq hne, by omega⟩
  by_cases ht : t = []
  · subst ht
    have hnothing : insertCString env r (.pointer (some q)) 0 pos replaceAt h = (.ok (), h) := by
      by_cases hend : pos = s.length
      · rw [List.length_nil, if_pos hend] at hstart
        rw [hstart, pushCString, bind_of_ok (show heap h = (.ok h, h) from rfl),
          bind_of_ok hassert, if_pos rfl]
        rfl
      · rw [insertCString, bind_of_ok (show heap h = (.ok h, h) from rfl), bind_of_ok hassert,
          bind_of_ok hget, bind_of_ok hbounds, Int.toNat_natCast, hlength, if_neg hend, if_pos rfl]
        rfl
    rw [List.length_nil, hnothing]
    constructor
    · rintro ⟨h', hrun, htext⟩
      obtain rfl : h = h' := (Prod.mk.inj hrun).2
      refine ⟨?_, fun hne => absurd rfl hne⟩
      intro _ hreplace
      have heq := charCells_injective ((isText_iff hs).mp htext)
      by_contra hne
      have hlt : pos < s.length := by omega
      have hlen := congrArg List.length heq
      rw [edited, if_pos ⟨hreplace, hlt⟩] at hlen
      simp only [List.append_nil, List.length_append, List.length_take, List.length_drop] at hlen
      omega
    · intro harr
      refine ⟨h, rfl, (isText_iff hs).mpr (congrArg charCells ?_)⟩
      have hif : ¬ (replaceAt = true ∧ pos < s.length) := by
        rintro ⟨hreplace, hlt⟩
        have hend := harr.1 rfl hreplace
        omega
      rw [edited, if_neg hif, List.append_nil, List.take_append_drop]
  · have hn : t.length ≠ 0 := by simpa using ht
    have harrives (c : Prop) (hc : c ↔ (q = p →
        InPlace env o p (edited s t pos replaceAt).length ∧ ∀ k < s.length, s[k % pos]? = s[k]?)) :
        c ↔ Arrives env o p q s t pos replaceAt := by
      rw [hc, Arrives]
      constructor
      · intro hmeets
        exact ⟨fun hnil => absurd hnil ht, fun _ => hmeets⟩
      · intro harr
        exact harr.2 ht
    apply harrives
    by_cases hend : pos = s.length
    · obtain ⟨h', o', p', rest', cells, hrun, hcopies, hholds⟩ :=
        @pushCString_text h r p q t.length o (charCells s) rest env hs hfrozen hn hsource
      have hedited : edited s t pos replaceAt = s ++ t := by
        rw [edited, if_neg (by omega), hend, List.take_length, List.drop_length, List.append_nil]
      rw [hstart, if_pos hend, hrun, hedited]
      rw [length_charCells] at hcopies
      rw [hend, List.length_append, ← copies_iff hcopies ht hother hown]
      constructor
      · rintro ⟨h'', hrun', htext⟩
        obtain rfl : h' = h'' := (Prod.mk.inj hrun').2
        have heq := (isText_iff hholds).mp htext
        rw [charCells_append] at heq
        exact List.append_cancel_left heq
      · intro hcells
        exact ⟨h', rfl, (isText_iff hholds).mpr (by rw [hcells, charCells_append])⟩
    · have hlt : pos < s.length := by omega
      generalize hsrc : (if replaceAt = true then pos + 1 else pos) = src
      have hlt' : pos < (charCells s).length := by rwa [length_charCells]
      obtain ⟨h', o', p', rest', cells, hrun, hcopies, hholds⟩ :=
        @insertCString_text h r p q t.length o (charCells s) rest env pos src replaceAt hs hfrozen hn
          hlt' hsrc.symm hsource
      have hedited : edited s t pos replaceAt = s.take pos ++ t ++ s.drop src := by
        rw [edited, ← hsrc]
        simp only [hlt, and_true]
      have hlen : (edited s t pos replaceAt).length = pos + t.length + (s.length - src) := by
        rw [hedited]
        simp only [List.length_append, List.length_take, List.length_drop]
        omega
      rw [length_charCells] at hcopies
      rw [hrun, hlen, ← copies_iff hcopies ht hother hown, hedited]
      have hmid : charCells (s.take pos ++ t ++ s.drop src) =
          (charCells s).take pos ++ charCells t ++ (charCells s).drop src := by
        rw [charCells_append, charCells_append, charCells_take, charCells_drop]
      constructor
      · rintro ⟨h'', hrun', htext⟩
        obtain rfl : h' = h'' := (Prod.mk.inj hrun').2
        have heq := (isText_iff hholds).mp htext
        rw [hmid] at heq
        exact List.append_cancel_left (List.append_cancel_right heq)
      · intro hcells
        exact ⟨h', rfl, (isText_iff hholds).mpr (by rw [hcells, hmid])⟩

end Texts

/-! ## What the program calls -/

/-- What is done to a string with a text. -/
inductive StringEdit
  /-- `pushString` -/
  | push
  /-- `stringInsertAt` -/
  | insertAt (pos : ℤ) (replaceAt : Bool)
  /-- `s[pos] = t` -/
  | indexSet (pos : ℤ)
  deriving DecidableEq, Repr

namespace StringEdit

def run (env : Env) (r y : ℕ) : StringEdit → Exec Unit
  | push => pushString env r y
  | insertAt pos replaceAt => stringInsertAt env r y pos replaceAt
  | indexSet pos => do
    let _ ← lxStringOpIndexSet env [.obj r, .number pos, .obj y]

/-- Where in `s` the text goes. -/
def pos (s : List UInt8) : StringEdit → ℤ
  | push => s.length
  | insertAt pos _ => pos
  | indexSet pos => pos

def replaceAt : StringEdit → Bool
  | push => false
  | insertAt _ replaceAt => replaceAt
  | indexSet _ => true

/-- The string has become the edited one, or there is no such position, and then an error says so
and the string is as before. -/
def Right (env : Env) (h : Heap) (r y : ℕ) (s t : List UInt8) (e : StringEdit) : Prop :=
  if 0 ≤ e.pos s ∧ e.pos s ≤ s.length then
    ∃ h', e.run env r y h = (.ok (), h') ∧ IsText h' r (edited s t (e.pos s).toNat e.replaceAt)
  else ∃ err h', e.run env r y h = (.error (.thrown err), h') ∧ IsText h' r s

end StringEdit

/-- The string `r` has the bytes `s` and is not frozen; the object `y` is a string of the bytes
`t`. Where both have one buffer they have the same bytes. -/
structure Given (h : Heap) (r : ℕ) (o : ObjString) (p : ℕ) (s : List UInt8) (y q : ℕ)
    (t : List UInt8) : Prop where
  self : ∃ rest, HoldsCells h r o p (charCells s) rest
  unfrozen : h.isFrozen r = false
  text : ∃ o' rest', HoldsCells h y o' q (charCells t) rest'
  own : q = p → t = s

/-- Where the buffer of the string is when `dedupString` has run. -/
def ownBlock (h : Heap) (o : ObjString) (p : ℕ) : ℕ := if o.isShared then h.mem.next else p

/-- `strlen` of the text is one. -/
def IsChar (t : List UInt8) : Prop := strlen (charCells (t ++ [0])) = 1

instance (t : List UInt8) : Decidable (IsChar t) :=
  inferInstanceAs (Decidable (strlen (charCells (t ++ [0])) = 1))

/-- When an edit does what it is for. `insertCString` asserts that the position is one of the
string. The index assignment of one byte looks for a byte to replace, and leaves behind what
comes after a NUL in the text. -/
def StringEdit.Meets (env : Env) (h : Heap) (r : ℕ) (o : ObjString) (p : ℕ) (s : List UInt8)
    (y q : ℕ) (t : List UInt8) : StringEdit → Prop
  | push => Arrives env o p q s t s.length false
  | insertAt pos replaceAt =>
    (0 ≤ pos ∧ pos ≤ s.length) ∧ Arrives env o p q s t pos.toNat replaceAt
  | indexSet pos =>
    (IsChar t → 0 ≤ pos → pos ≤ s.length → pos < s.length ∧ t.length = 1) ∧
    (¬ IsChar t → (0 ≤ pos ∧ pos ≤ s.length) ∧
      Arrives env o (ownBlock h o p) (if y = r then ownBlock h o p else q) s t pos.toNat true)

section Edits

variable {h h₁ : Heap} {r p q y : ℕ} {o : ObjString} {xs rest : Cells} {s t : List UInt8}
  {env : Env}

theorem HoldsCells.load_take (hs : HoldsCells h r o p xs rest) :
    (h.mem.load (some p)).take xs.length = xs := by
  rw [hs.block, List.take_left]

/-- `insertCString` does not find a place. -/
theorem insertCString_outside {src : Source} {pos : ℤ} {n : ℕ} {replaceAt : Bool}
    (hs : HoldsCells h r o p (charCells s) rest) (hfrozen : h.isFrozen r = false)
    (hpos : ¬ (0 ≤ pos ∧ pos ≤ s.length)) :
    insertCString env r src n pos replaceAt h = (.error .aborted, h) := by
  have hassert : assert (!h.isFrozen r) h = (.ok (), h) := by simp [assert, hfrozen]
  have hget : getString r h = (.ok o, h) := look_of_some hs.string
  have hlength : o.length = s.length := hs.length.trans (length_charCells s)
  have hbounds : assert (0 ≤ pos && pos ≤ o.length) h = (.error .aborted, h) := by
    have hfalse : (decide (0 ≤ pos) && decide (pos ≤ o.length)) = false := by
      rw [hlength, ← Bool.decide_and, decide_eq_false hpos]
    rw [hfalse]
    rfl
  rw [insertCString, bind_of_ok (show heap h = (.ok h, h) from rfl), bind_of_ok hassert,
    bind_of_ok hget, bind_apply, hbounds]

/-- `stringInsertAt`, which is what the index assignment calls too. -/
theorem stringInsertAt_iff {pos : ℤ} {replaceAt : Bool} (hg : Given h r o p s y q t) :
    (if 0 ≤ pos ∧ pos ≤ s.length then
        ∃ h', stringInsertAt env r y pos replaceAt h = (.ok (), h') ∧
          IsText h' r (edited s t pos.toNat replaceAt)
      else ∃ err h', stringInsertAt env r y pos replaceAt h = (.error (.thrown err), h') ∧
        IsText h' r s) ↔
    (0 ≤ pos ∧ pos ≤ s.length) ∧ Arrives env o p q s t pos.toNat replaceAt := by
  obtain ⟨rest, hs⟩ := hg.self
  obtain ⟨o', rest', ht⟩ := hg.text
  have hthrow : throwIfFrozen r "String" h = (.ok (), h) := by
    simp [throwIfFrozen, bind_apply, heap, stopIf, hg.unfrozen]
  have hget : getString y h = (.ok o', h) := look_of_some ht.string
  have hrun : stringInsertAt env r y pos replaceAt h =
      insertCString env r (.pointer (some q)) t.length pos replaceAt h := by
    rw [stringInsertAt, bind_of_ok hthrow, bind_of_ok hget, ht.chars, ht.length, length_charCells]
  rw [hrun]
  by_cases hpos : 0 ≤ pos ∧ pos ≤ s.length
  · have hother : (h.mem.load (some q)).take t.length = charCells t := by
      have htake := ht.load_take
      rwa [length_charCells] at htake
    have hinsert := @insertCString_iff h r p q o rest s t env pos.toNat replaceAt hs hg.unfrozen
      (by omega) (fun _ => ht.bound) (fun _ => hother) hg.own
    rw [Int.toNat_of_nonneg hpos.1] at hinsert
    rw [if_pos hpos, hinsert]
    constructor
    · intro harr
      exact ⟨hpos, harr⟩
    · intro hboth
      exact hboth.2
  · rw [if_neg hpos, insertCString_outside hs hg.unfrozen hpos]
    constructor
    · rintro ⟨err, h', hthrown, -⟩
      cases hthrown
    · intro hboth
      exact absurd hboth.1 hpos

theorem pushString_iff (hg : Given h r o p s y q t) :
    (∃ h', pushString env r y h = (.ok (), h') ∧ IsText h' r (edited s t s.length false)) ↔
      Arrives env o p q s t s.length false := by
  obtain ⟨rest, hs⟩ := hg.self
  obtain ⟨o', rest', ht⟩ := hg.text
  have hthrow : throwIfFrozen r "String" h = (.ok (), h) := by
    simp [throwIfFrozen, bind_apply, heap, stopIf, hg.unfrozen]
  have hget : getString y h = (.ok o', h) := look_of_some ht.string
  have hother : (h.mem.load (some q)).take t.length = charCells t := by
    have htake := ht.load_take
    rwa [length_charCells] at htake
  have hlength : o.length = s.length := hs.length.trans (length_charCells s)
  have hself : getString r h = (.ok o, h) := look_of_some hs.string
  have hassert : assert (!h.isFrozen r) h = (.ok (), h) := by simp [assert, hg.unfrozen]
  have hbounds : assert (0 ≤ (s.length : ℤ) && (s.length : ℤ) ≤ o.length) h = (.ok (), h) := by
    simp [assert, hlength]
  -- at the end `insertCString` calls `pushCString`
  have hrun : pushString env r y h =
      insertCString env r (.pointer (some q)) t.length (s.length : ℤ) false h := by
    rw [pushString, bind_of_ok hthrow, bind_of_ok hget, ht.chars, ht.length, length_charCells,
      insertCString, bind_of_ok (show heap h = (.ok h, h) from rfl), bind_of_ok hassert,
      bind_of_ok hself, bind_of_ok hbounds, Int.toNat_natCast, if_pos hlength.symm]
  rw [hrun]
  exact insertCString_iff hs hg.unfrozen (Nat.le_refl _) (fun _ => ht.bound) (fun _ => hother)
    hg.own

/-- `dedupString` leaves the bytes. -/
theorem dedupString_text (hs : HoldsCells h r o p xs rest) :
    ∃ h' rest', dedupString r h = (.ok (), h') ∧
      HoldsCells h' r { o with chars := some (ownBlock h o p), isShared := false } (ownBlock h o p)
        xs rest' ∧
      h'.isFrozen r = h.isFrozen r ∧ (∀ x, x ≠ r → h'.string? x = h.string? x) ∧
      h.mem.next ≤ h'.mem.next ∧
      ∀ x, x < h.mem.next → h'.mem.load (some x) = h.mem.load (some x) := by
  have hget : getString r h = (.ok o, h) := look_of_some hs.string
  by_cases hshared : o.isShared = true
  · have hcopy : resized (o.length + 1) (h.mem.load (some p)) = xs ++ [some (.char 0)] := by
      rw [resized, hs.block, hs.length, List.append_cons, Nat.sub_eq_zero_of_le (by simp),
        List.replicate_zero, List.append_nil]
      apply List.take_left'
      rw [List.length_append, List.length_singleton]
    have hcells : overwrite (List.replicate (o.capacity + 1) none) 0 (xs ++ [some (.char 0)]) =
        xs ++ some (.char 0) :: List.replicate rest.length none := by
      have hspare : o.capacity + 1 - (xs.length + 1) = rest.length := by
        rw [hs.capacity]
        omega
      rw [overwrite, List.take_zero, List.nil_append, Nat.sub_zero, List.length_replicate,
        List.take_of_length_le (by
          rw [List.length_append, List.length_singleton, hs.capacity]
          omega),
        List.drop_replicate, Nat.zero_add, List.length_append, List.length_singleton, hspare,
        List.append_assoc]
      rfl
    have hblock : ownBlock h o p = h.mem.next := if_pos hshared
    have hbound := hs.bound
    have hne : p ≠ h.mem.next := Nat.ne_of_lt hbound
    rw [hblock]
    refine ⟨Heap.setBody
        ⟨h.objs, (h.mem.alloc (List.replicate (o.capacity + 1) none)).put h.mem.next
          (xs ++ some (.char 0) :: List.replicate rest.length none), h.strings⟩ r
        (.string { o with chars := some h.mem.next, isShared := false }),
      List.replicate rest.length none, ?_, ⟨?_, rfl, ?_, hs.length, ?_, Nat.lt_succ_self _⟩, ?_, ?_,
      Nat.le_succ _, ?_⟩
    · have hloaded : (h.mem.alloc (List.replicate (o.capacity + 1) none)).load (some p) =
          h.mem.load (some p) := Blocks.load_alloc_of_ne hne
      simp [dedupString, bind_apply, hget, hshared, allocate, heap, loadCells, stopIf, hs.chars,
        storeCells, setString, hloaded, hcopy, hcells]
    · exact Heap.string?_setBody_self (s := o) hs.string
    · exact Blocks.load_put_self
    · rw [List.length_replicate]
      exact hs.capacity
    · rw [isFrozen_setBody]
      rfl
    · intro x hx
      rw [Heap.string?_setBody_of_ne hx]
      rfl
    · intro x hx
      have hxne : x ≠ h.mem.next := Nat.ne_of_lt hx
      exact (Blocks.load_put_of_ne hxne).trans (Blocks.load_alloc_of_ne hxne)
  · have hfalse : o.isShared = false := by simpa using hshared
    have hblock : ownBlock h o p = p := if_neg hshared
    have hsame : ({ o with chars := some p, isShared := false } : ObjString) = o := by
      rw [← hs.chars, ← hfalse]
    rw [hblock, hsame]
    refine ⟨h, rest, ?_, hs, rfl, fun _ _ => rfl, Nat.le_refl _, fun _ _ => rfl⟩
    rw [dedupString, bind_of_ok hget, if_neg hshared]
    rfl

theorem Given.dedup (hg : Given h r o p s y q t) :
    ∃ h', dedupString r h = (.ok (), h') ∧
      Given h' r { o with chars := some (ownBlock h o p), isShared := false } (ownBlock h o p) s y
        (if y = r then ownBlock h o p else q) t := by
  obtain ⟨rest, hs⟩ := hg.self
  obtain ⟨o', rest', ht⟩ := hg.text
  obtain ⟨h', rest₁, hrun, hs', hfrozen, hstrings, hnext, hload⟩ := dedupString_text hs
  refine ⟨h', hrun, ⟨rest₁, hs'⟩, hfrozen.trans hg.unfrozen, ?_, ?_⟩
  · by_cases hyr : y = r
    · rw [if_pos hyr]
      subst hyr
      have ho := ht.string
      rw [hs.string] at ho
      obtain rfl := Option.some.inj ho
      have hqp : q = p := by
        have hchars := ht.chars
        rw [hs.chars] at hchars
        exact (Option.some.inj hchars).symm
      rw [hg.own hqp]
      exact ⟨_, _, hs'⟩
    · rw [if_neg hyr]
      refine ⟨o', rest', ?_, ht.chars, ?_, ht.length, ht.capacity, ?_⟩
      · rw [hstrings y hyr]
        exact ht.string
      · rw [hload q ht.bound]
        exact ht.block
      · exact Nat.lt_of_lt_of_le ht.bound hnext
  · by_cases hyr : y = r
    · intro _
      subst hyr
      apply hg.own
      have hchars := ht.chars
      have ho := ht.string
      rw [hs.string] at ho
      obtain rfl := Option.some.inj ho
      rw [hs.chars] at hchars
      exact (Option.some.inj hchars).symm
    · rw [if_neg hyr, ownBlock]
      split
      · intro heq
        have hbound := ht.bound
        omega
      · exact hg.own

/-- One byte in the place of another. -/
theorem stringIndexSet_inside {pos : ℤ} {c : UInt8}
    (hs : HoldsCells h r o p (charCells s) rest) (hfrozen : h.isFrozen r = false)
    (hpos : 0 ≤ pos) (hlt : pos < s.length) :
    ∃ h', stringIndexSet r pos (some (.char c)) h = (.ok (), h') ∧
      IsText h' r (s.set pos.toNat c) := by
  have hget : getString r h = (.ok o, h) := look_of_some hs.string
  have hlength : o.length = s.length := hs.length.trans (length_charCells s)
  have hthrow : throwIfFrozen r "String" h = (.ok (), h) := by
    simp [throwIfFrozen, bind_apply, heap, stopIf, hfrozen]
  have hin : stopIf (pos < 0 ∨ (o.length : ℤ) ≤ pos)
      (.thrown (.message .argumentError "index too big")) h = (.ok (), h) := by
    have hnot : ¬ (pos < 0 ∨ (o.length : ℤ) ≤ pos) := by omega
    rw [stopIf, if_neg hnot]
    rfl
  have hload : loadCells (some p) o.length h = (.ok (charCells s), h) := by
    have hres : resized o.length (h.mem.load (some p)) = charCells s := by
      rw [resized, hs.length, hs.load_take, hs.block, Nat.sub_eq_zero_of_le (by simp),
        List.replicate_zero, List.append_nil]
    simp [loadCells, stopIf, heap, bind_apply, hres]
  obtain ⟨h₁, hstore, hw⟩ := storeCells_wrote h p pos.toNat [some (.char c)]
  have hblock : overwrite (h.mem.load (some p)) pos.toNat [some (.char c)] =
      charCells (s.set pos.toNat c) ++ some (.char 0) :: rest := by
    have hinside : pos.toNat < (charCells s).length := by
      rw [length_charCells]
      omega
    rw [hs.block, overwrite_one, List.set_append_left _ _ hinside, charCells, charCells,
      List.map_set]
  rw [hblock] at hw
  have hlen : o.length = (charCells (s.set pos.toNat c)).length := by
    rw [length_charCells, List.length_set, hlength]
  have hcap : o.capacity = (charCells (s.set pos.toNat c)).length + rest.length := by
    rw [← hlen, hs.length]
    exact hs.capacity
  have hbound : p < h₁.mem.next := by
    rw [hw.next]
    exact hs.bound
  have hstring : h₁.string? r = some o := by
    rw [Heap.string?, hw.objs]
    exact hs.string
  have hrun : stringIndexSet r pos (some (.char c)) h =
      (if (charCells s)[pos.toNat]? ≠ some (some (.char c)) then setString r { o with hash := 0 }
        else pure ()) h₁ := by
    rw [stringIndexSet, bind_of_ok hget, bind_of_ok hthrow, bind_of_ok hin, hs.chars,
      bind_of_ok hload, bind_of_ok hstore]
  rw [hrun]
  split
  · exact ⟨_, rfl, _, p, rest, Heap.string?_setBody_self hstring, hs.chars, hw.block, hlen, hcap,
      hbound⟩
  · exact ⟨h₁, rfl, o, p, rest, hstring, hs.chars, hw.block, hlen, hcap, hbound⟩

theorem stringIndexSet_outside {pos : ℤ} {c : Option Cell}
    (hs : HoldsCells h r o p (charCells s) rest) (hfrozen : h.isFrozen r = false)
    (hpos : ¬ (0 ≤ pos ∧ pos < s.length)) :
    stringIndexSet r pos c h = (.error (.thrown (.message .argumentError "index too big")), h) := by
  have hget : getString r h = (.ok o, h) := look_of_some hs.string
  have hlength : o.length = s.length := hs.length.trans (length_charCells s)
  have hthrow : throwIfFrozen r "String" h = (.ok (), h) := by
    simp [throwIfFrozen, bind_apply, heap, stopIf, hfrozen]
  have hout : stopIf (pos < 0 ∨ (o.length : ℤ) ≤ pos)
      (.thrown (.message .argumentError "index too big")) h =
        (.error (.thrown (.message .argumentError "index too big")), h) := by
    have hyes : pos < 0 ∨ (o.length : ℤ) ≤ pos := by omega
    rw [stopIf, if_pos hyes]
    rfl
  rw [stringIndexSet, bind_of_ok hget, bind_of_ok hthrow, bind_apply, hout]

/-- A text that is no text is not one byte. -/
theorem IsChar.cons (ht : IsChar t) : ∃ c cs, t = c :: cs := by
  cases t with
  | nil =>
    have hzero : strlen (charCells ([] ++ [0])) = 0 := by decide
    rw [IsChar, hzero] at ht
    exact absurd ht (by decide)
  | cons c cs => exact ⟨c, cs, rfl⟩

theorem indexSetChars_run {pos : ℤ} (hg : Given h r o p s y q t) :
    indexSetChars env r y pos h = (if IsChar t then
      stringIndexSet r pos ((charCells (t ++ [0]))[0]?).join h
      else stringInsertAt env r y pos true h) := by
  obtain ⟨o', rest', ht⟩ := hg.text
  have hget : getString y h = (.ok o', h) := look_of_some ht.string
  have hload : loadCells (some q) (o'.length + 1) h = (.ok (charCells (t ++ [0])), h) := by
    have hres : resized (o'.length + 1) (h.mem.load (some q)) = charCells (t ++ [0]) := by
      rw [resized, ht.block, ht.length, List.append_cons, Nat.sub_eq_zero_of_le (by simp),
        List.replicate_zero, List.append_nil, charCells_append]
      apply List.take_left'
      rw [List.length_append, List.length_singleton]
    simp [loadCells, stopIf, heap, bind_apply, hres]
  rw [indexSetChars, bind_of_ok hget, ht.chars, bind_of_ok hload]
  by_cases hone : strlen (charCells (t ++ [0])) = 1
  · rw [if_pos hone, if_pos (show IsChar t from hone)]
  · rw [if_neg hone, if_neg (show ¬ IsChar t from hone)]

/-- The index assignment, of one byte. -/
theorem indexSet_char_iff {pos : ℤ} (hg : Given h r o p s y q t) (hchar : IsChar t) :
    (if 0 ≤ pos ∧ pos ≤ s.length then
        ∃ h', indexSetChars env r y pos h = (.ok (), h') ∧
          IsText h' r (edited s t pos.toNat true)
      else ∃ err h', indexSetChars env r y pos h = (.error (.thrown err), h') ∧ IsText h' r s) ↔
    (0 ≤ pos → pos ≤ s.length → pos < s.length ∧ t.length = 1) := by
  obtain ⟨rest, hs⟩ := hg.self
  obtain ⟨c, cs, rfl⟩ := hchar.cons
  have hrun : indexSetChars env r y pos h = stringIndexSet r pos (some (.char c)) h := by
    rw [indexSetChars_run hg, if_pos hchar]
    rfl
  rw [hrun]
  by_cases hin : 0 ≤ pos ∧ pos < s.length
  · obtain ⟨h', hset, htext⟩ := stringIndexSet_inside (c := c) hs hg.unfrozen hin.1 hin.2
    have hlt : pos.toNat < s.length := by omega
    have hpos : 0 ≤ pos ∧ pos ≤ s.length := ⟨hin.1, by omega⟩
    rw [if_pos hpos, hset]
    have hedited : edited s (c :: cs) pos.toNat true =
        s.take pos.toNat ++ (c :: cs) ++ s.drop (pos.toNat + 1) := by
      rw [edited, if_pos ⟨rfl, hlt⟩]
    have hone : s.set pos.toNat c = s.take pos.toNat ++ [c] ++ s.drop (pos.toNat + 1) := by
      rw [List.set_eq_take_append_cons_drop, if_pos hlt, List.append_assoc]
      rfl
    constructor
    · rintro ⟨h'', hset', hmade⟩ - -
      obtain rfl : h' = h'' := (Prod.mk.inj hset').2
      refine ⟨hin.2, ?_⟩
      obtain ⟨o₁, p₁, rest₁, hs₁⟩ := htext
      have heq := charCells_injective ((isText_iff hs₁).mp hmade)
      rw [hedited, hone] at heq
      have hmid := List.append_cancel_left (List.append_cancel_right heq)
      rw [← hmid]
      rfl
    · intro hmeets
      have hnil : cs = [] := by
        have hlen := (hmeets hpos.1 hpos.2).2
        rw [List.length_cons] at hlen
        exact List.eq_nil_of_length_eq_zero (by omega)
      refine ⟨h', rfl, ?_⟩
      rw [hedited, hnil, ← hone]
      exact htext
  · rw [stringIndexSet_outside hs hg.unfrozen hin]
    split
    · rename_i hpos
      constructor
      · rintro ⟨h', hok, -⟩
        cases hok
      · intro hmeets
        exact absurd ⟨hpos.1, (hmeets hpos.1 hpos.2).1⟩ hin
    · rename_i hpos
      constructor
      · intro _ h0 hle
        exact absurd ⟨h0, hle⟩ hpos
      · intro _
        exact ⟨_, h, rfl, o, p, rest, hs⟩

theorem indexSet_run {h' : Heap} {pos : ℤ} (hg : Given h r o p s y q t)
    (hdedup : dedupString r h = (.ok (), h')) :
    (StringEdit.indexSet pos).run env r y h = indexSetChars env r y pos h' := by
  obtain ⟨o', rest', ht⟩ := hg.text
  have hcheck : checkArg (.obj y) .string 3 h = (.ok (), h) := by
    simp [checkArg, bind_apply, heap, Heap.isA, ht.string, stopIf]
  have hnumber : checkArg (.number pos) .number 1 h = (.ok (), h) := rfl
  have harity : checkArity 3 (some 3) [.obj r, .number pos, .obj y] h = (.ok (), h) := rfl
  have hrun : lxStringOpIndexSet env [.obj r, .number pos, .obj y] h =
      (do indexSetChars env r y pos
          return .obj r : Exec Value) h' := by
    rw [lxStringOpIndexSet, bind_of_ok harity]
    show (do checkArg (.number pos) .number 1
             checkArg (.obj y) .string 3
             dedupString r
             indexSetChars env r y pos
             return .obj r : Exec Value) h = _
    rw [bind_of_ok hnumber, bind_of_ok hcheck, bind_of_ok hdedup]
  rw [StringEdit.run, bind_apply, hrun, bind_apply]
  cases indexSetChars env r y pos h' with
  | mk res h₂ => cases res <;> rfl

/-- An edit makes the text that it is for exactly when its condition holds. -/
theorem edit_iff (env : Env) (hg : Given h r o p s y q t) (e : StringEdit) :
    e.Right env h r y s t ↔ e.Meets env h r o p s y q t := by
  cases e with
  | push =>
    rw [StringEdit.Right, StringEdit.Meets, ← pushString_iff hg]
    have hpos : 0 ≤ StringEdit.push.pos s ∧ StringEdit.push.pos s ≤ s.length :=
      ⟨Int.natCast_nonneg _, Int.le_refl _⟩
    rw [if_pos hpos]
    rfl
  | insertAt pos replaceAt => exact stringInsertAt_iff hg
  | indexSet pos =>
    obtain ⟨h', hdedup, hg'⟩ := hg.dedup
    rw [StringEdit.Right, StringEdit.Meets, indexSet_run hg hdedup]
    by_cases hchar : IsChar t
    · rw [show (StringEdit.indexSet pos).pos s = pos from rfl,
        show (StringEdit.indexSet pos).replaceAt = true from rfl, indexSet_char_iff hg' hchar]
      constructor
      · intro hmeets
        exact ⟨fun _ => hmeets, fun hnot => absurd hchar hnot⟩
      · intro hmeets
        exact hmeets.1 hchar
    · rw [show (StringEdit.indexSet pos).pos s = pos from rfl,
        show (StringEdit.indexSet pos).replaceAt = true from rfl,
        indexSetChars_run hg', if_neg hchar, stringInsertAt_iff hg']
      constructor
      · intro hmeets
        exact ⟨fun hyes => absurd hyes hchar, fun _ => hmeets⟩
      · intro hmeets
        exact hmeets.2 hchar

end Edits

/-- A heap of one string, `"ab"`. -/
def oneString : Heap where
  objs := [⟨false, true, [], .string ⟨false, false, false, 2, some 0, 0, 2⟩⟩]
  mem := Blocks.empty.alloc (charCells [97, 98, 0])
  strings := []

/-- `realloc` finds room behind every block. -/
def roomy : Env where
  stays _ _ := true
  keyOf _ := 0
  shown _ := []
  sorted cells := some cells
  made := none

theorem oneString_given : Given oneString 0 ⟨false, false, false, 2, some 0, 0, 2⟩ 0 [97, 98] 0 0
    [97, 98] := by
  have hs : HoldsCells oneString 0 ⟨false, false, false, 2, some 0, 0, 2⟩ 0
      (charCells [97, 98]) [] := ⟨rfl, rfl, rfl, rfl, rfl, Nat.zero_lt_one⟩
  exact ⟨⟨_, hs⟩, rfl, ⟨_, _, hs⟩, fun _ => rfl⟩

/-- A string pushed to itself is doubled when its buffer stays where it is. -/
theorem edit_iff_doubled : StringEdit.push.Right roomy oneString 0 0 [97, 98] [97, 98] := by
  apply (edit_iff roomy oneString_given .push).mpr
  constructor
  · intro hnil
    cases hnil
  · intro _ _
    refine ⟨Or.inr rfl, ?_⟩
    intro k hk
    rw [Nat.mod_eq_of_lt hk]

/-- `"ab"` put between its own bytes makes `"aaab"`: the second byte is read where the first one
was just written. -/
theorem insertAt_own_bytes :
    ¬ (StringEdit.insertAt 1 false).Right roomy oneString 0 0 [97, 98] [97, 98] := by
  intro hright
  have harr := (stringInsertAt_iff oneString_given).mp hright
  have hrepeat := (harr.2.2 (by decide) rfl).2 1 (by decide)
  exact absurd hrepeat (by decide)

end Clox.Objects
