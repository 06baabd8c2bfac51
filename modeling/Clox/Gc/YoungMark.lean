import Clox.Gc.Reachable
import Mathlib.Data.List.GetD
import Mathlib.Data.List.Perm.Subperm

/-! # The mark loop of the young collection

The loop of `collectYoungGarbage` reads the gray stack with a counter of its own, goes down by
one and up by what was pushed. `vm.grayCount` stays where the pushes have left it, so from the
second round on the counter stands below the top of the stack, and what is on top is not read.
-/

namespace Clox.Gc

/-- `IS_YOUNG_OBJ` -/
def Heap.IsYoung (h : Heap) (r : ℕ) : Prop := r < h.size ∧ (h.slot r).gen = 0

/-- The gray stack up to `vm.grayCount`, the loop's own counter, and the objects that
`blackenObject` was called on. -/
structure YoungMark where
  heap : Heap
  grayStack : List ℕ
  grayCount : ℕ
  blackened : List ℕ

namespace YoungMark

variable (m : YoungMark) (r : ℕ)

/-- `grayObject` in a young collection. -/
def grayObject : YoungMark :=
  let s := m.heap.slot r
  if s.dark then m
  else if s.gen > 0 then m
  else
    { m with
      heap := m.heap.setSlot r { s with dark := true }
      grayStack := m.grayStack ++ [r] }

def blackenObject : YoungMark :=
  { (m.heap.grayedBy r).foldl grayObject m with blackened := m.blackened ++ [r] }

/-- One round of the loop. -/
def round : YoungMark :=
  let grayCount := m.grayCount - 1
  let marked := m.grayStack.getD grayCount 0
  let oldCount := m.grayStack.length
  let after := if (m.heap.slot marked).gen = 0 then m.blackenObject marked else m
  let newCount := after.grayStack.length
  { after with grayCount := grayCount + (newCount - oldCount) }

/-- `while (grayCount > 0)` -/
def loop : ℕ → YoungMark → YoungMark
  | 0, m => m
  | fuel + 1, m => if m.grayCount = 0 then m else loop fuel m.round

/-- The loop begins: some young objects are gray, and no other object is marked. -/
structure Begins : Prop where
  nodup : m.grayStack.Nodup
  young : ∀ r ∈ m.grayStack, m.heap.IsYoung r
  dark : ∀ r, (m.heap.slot r).dark = true ↔ r ∈ m.grayStack
  counter : m.grayCount = m.grayStack.length
  blackened : m.blackened = []

/-- Reached from the gray objects through young objects. -/
def ReachesYoung : ℕ → Prop :=
  Worklist.Reaches (fun r => ¬ m.heap.IsYoung r) m.heap.pointersOf (· ∈ m.grayStack)

/-- What is reached from the gray objects of `m` is marked and blackened in `m'`. -/
def MarksAll (m' : YoungMark) : Prop :=
  ∀ r, m.ReachesYoung r → (m'.heap.slot r).dark = true ∧ r ∈ m'.blackened

/-- The gray objects point at no young objects but themselves. -/
def Closed : Prop :=
  ∀ r ∈ m.grayStack, ∀ q ∈ m.heap.pointersOf r, m.heap.IsYoung q → q ∈ m.grayStack

end YoungMark

/-- What is grayed is pointed at. -/
theorem grayed_subset_pointers (b : ObjBody) : b.grayed ⊆ b.pointers := by
  have hclass : ∀ self : InstanceFields, self.grayedClass ⊆ self.pointers := by
    intro self r hr
    unfold InstanceFields.grayedClass at hr
    unfold InstanceFields.pointers
    split at hr
    · simp only [List.mem_append] at hr ⊢
      tauto
    · simp only [List.mem_append, List.not_mem_nil] at hr ⊢
      tauto
  intro r hr
  cases b with
  | array self shared values =>
    rcases List.mem_append.mp hr with hr | hr
    · exact List.mem_append_left _ hr
    · cases shared with
      | true => cases hr
      | false => exact List.mem_append_right _ hr
  | map self table =>
    rcases List.mem_append.mp hr with hr | hr
    · exact List.mem_append_left _ (hclass self hr)
    · exact List.mem_append_right _ hr
  | regex self => exact hclass self hr
  | klass self classInfo =>
    simp only [ObjBody.grayed, ObjBody.pointers, ClassInfo.pointers, List.mem_append] at hr ⊢
    tauto
  | mod self classInfo =>
    simp only [ObjBody.grayed, ObjBody.pointers, ClassInfo.pointers, List.mem_append] at hr ⊢
    tauto
  | function name cls localsTable varNames constants =>
    simp only [ObjBody.grayed, ObjBody.pointers, List.mem_append] at hr ⊢
    tauto
  | string | inst | iclass | scope | nativeFunction | boundMethod | upvalue | closure | internal =>
    exact hr

theorem grayedBy_subset {h : Heap} {r q : ℕ} (hq : q ∈ h.grayedBy r) : q ∈ h.pointersOf r := by
  have hgrayed := (List.mem_filter.mp hq).1
  unfold Heap.pointersOf
  cases hobject : h.object r with
  | none =>
    rw [hobject] at hgrayed
    cases hgrayed
  | some b =>
    rw [hobject] at hgrayed
    exact grayed_subset_pointers b hgrayed

namespace YoungMark

variable {m m₀ : YoungMark} {r q : ℕ} {i fuel : ℕ}

/-- From `m₀` on, only marks were set, of young objects that are pushed. -/
structure Grays (m₀ m : YoungMark) : Prop where
  size : m.heap.size = m₀.heap.size
  body : ∀ r, (m.heap.slot r).body = (m₀.heap.slot r).body
  gen : ∀ r, (m.heap.slot r).gen = (m₀.heap.slot r).gen
  dark : ∀ r, (m.heap.slot r).dark = true ↔ r ∈ m.grayStack
  nodup : m.grayStack.Nodup
  young : ∀ r ∈ m.grayStack, m.heap.IsYoung r
  reached : ∀ r ∈ m.grayStack, m₀.ReachesYoung r

namespace Grays

theorem isYoung (hm : Grays m₀ m) : m.heap.IsYoung r ↔ m₀.heap.IsYoung r := by
  unfold Heap.IsYoung
  rw [hm.size, hm.gen]

theorem object (hm : Grays m₀ m) : m.heap.object r = m₀.heap.object r := by
  unfold Heap.object
  rw [hm.size, hm.body]

theorem grayedBy (hm : Grays m₀ m) : m.heap.grayedBy r = m₀.heap.grayedBy r := by
  unfold Heap.grayedBy
  rw [hm.object, hm.size]

theorem of_begins (h : m.Begins) : Grays m m where
  size := rfl
  body _ := rfl
  gen _ := rfl
  dark := h.dark
  nodup := h.nodup
  young := h.young
  reached r hr := .root hr (not_not_intro (h.young r hr))

/-- An object that is reached is met: it is pushed if it is young and new. -/
theorem grayObject (hm : Grays m₀ m) (hr : m₀.heap.IsYoung r → m₀.ReachesYoung r)
    (hlt : r < m.heap.size) :
    Grays m₀ (m.grayObject r) ∧ (m.grayObject r).blackened = m.blackened ∧
      (((m.grayObject r).grayStack = m.grayStack ∧ (m.heap.IsYoung r → r ∈ m.grayStack)) ∨
        (m.grayObject r).grayStack = m.grayStack ++ [r] ∧ r ∉ m.grayStack) := by
  unfold YoungMark.grayObject
  simp only
  split
  next hdark => exact ⟨hm, rfl, .inl ⟨rfl, fun _ => (hm.dark r).mp hdark⟩⟩
  next hwhite =>
    split
    next hold =>
      refine ⟨hm, rfl, .inl ⟨rfl, fun hyoung => ?_⟩⟩
      have hgen := hyoung.2
      omega
    next hgen =>
      have hyoung : m.heap.IsYoung r := ⟨hlt, by omega⟩
      have hnot : r ∉ m.grayStack := fun hmem => hwhite ((hm.dark r).mpr hmem)
      refine ⟨⟨hm.size, fun q => ?_, fun q => ?_, fun q => ?_, ?_, ?_, ?_⟩, rfl, .inr ⟨rfl, hnot⟩⟩
      · by_cases hq : q = r
        · rw [hq, Heap.setSlot_self]
          exact hm.body r
        · rw [Heap.setSlot_of_ne _ _ _ hq]
          exact hm.body q
      · by_cases hq : q = r
        · rw [hq, Heap.setSlot_self]
          exact hm.gen r
        · rw [Heap.setSlot_of_ne _ _ _ hq]
          exact hm.gen q
      · rw [List.mem_append, List.mem_singleton, ← hm.dark q]
        by_cases hq : q = r
        · rw [hq, Heap.setSlot_self]
          exact iff_of_true rfl (.inr rfl)
        · rw [Heap.setSlot_of_ne _ _ _ hq, or_iff_left hq]
      · exact List.nodup_append.mpr ⟨hm.nodup, List.nodup_singleton r, by
          rintro a ha b hb rfl
          exact hnot (List.mem_singleton.mp hb ▸ ha)⟩
      · intro q hq
        have hq' : m.heap.IsYoung q := by
          rcases List.mem_append.mp hq with hq | hq
          · exact hm.young q hq
          · rw [List.mem_singleton.mp hq]
            exact hyoung
        refine ⟨hq'.1, ?_⟩
        by_cases hqr : q = r
        · rw [hqr, Heap.setSlot_self]
          exact hyoung.2
        · rw [Heap.setSlot_of_ne _ _ _ hqr]
          exact hq'.2
      · intro q hq
        rcases List.mem_append.mp hq with hq | hq
        · exact hm.reached q hq
        · rw [List.mem_singleton.mp hq]
          exact hr (hm.isYoung.mp hyoung)

/-- The references of an object are met: new objects are pushed, each of them once. -/
theorem grayObjects (hm : Grays m₀ m) (rs : List ℕ)
    (hrs : ∀ r ∈ rs, r < m₀.heap.size ∧ (m₀.heap.IsYoung r → m₀.ReachesYoung r)) :
    Grays m₀ (rs.foldl YoungMark.grayObject m) ∧
      (rs.foldl YoungMark.grayObject m).blackened = m.blackened ∧
      ∃ pushed, (rs.foldl YoungMark.grayObject m).grayStack = m.grayStack ++ pushed := by
  induction rs generalizing m with
  | nil => exact ⟨hm, rfl, [], (List.append_nil _).symm⟩
  | cons r rs ih =>
    obtain ⟨hlt, hreach⟩ := hrs r List.mem_cons_self
    obtain ⟨hgray, hblack, hstack⟩ := hm.grayObject hreach (hm.size ▸ hlt)
    obtain ⟨hgrays, hblacks, pushed, hpushed⟩ :=
      ih hgray fun q hq => hrs q (List.mem_cons_of_mem r hq)
    rw [List.foldl_cons]
    refine ⟨hgrays, hblacks.trans hblack, ?_⟩
    rcases hstack with ⟨hsame, -⟩ | ⟨hpush, -⟩
    · exact ⟨pushed, by rw [hpushed, hsame]⟩
    · exact ⟨r :: pushed, by rw [hpushed, hpush, List.append_assoc, List.singleton_append]⟩

end Grays

/-- After `i` rounds the counter is `i` below the top, and what was pushed last is not
blackened. -/
structure Walks (m₀ m : YoungMark) (i : ℕ) : Prop where
  grays : Grays m₀ m
  counter : m.grayCount + i = m.grayStack.length
  black : ∀ r ∈ m.blackened, r ∈ m.grayStack
  start : m₀.grayStack <+: m.grayStack
  first : i = 0 → m.grayStack = m₀.grayStack
  top : m.grayStack ≠ m₀.grayStack → ∀ r ∈ m.grayStack.getLast?, r ∉ m.blackened

/-- A round blackens the object below the counter. -/
theorem round_eq (hm : Grays m₀ m) (hpos : 0 < m.grayCount)
    (hle : m.grayCount ≤ m.grayStack.length) :
    ∃ r, m.grayStack[m.grayCount - 1]? = some r ∧ m.round =
      { m.blackenObject r with grayCount :=
          m.grayCount - 1 + ((m.blackenObject r).grayStack.length - m.grayStack.length) } := by
  have hlt : m.grayCount - 1 < m.grayStack.length := by omega
  have hmem : m.grayStack[m.grayCount - 1] ∈ m.grayStack := List.getElem_mem hlt
  refine ⟨m.grayStack[m.grayCount - 1], List.getElem?_eq_getElem hlt, ?_⟩
  unfold round
  simp only [List.getD_eq_getElem _ _ hlt, (hm.young _ hmem).2, if_true]

/-- What a round that blackens an object of the stack does to the stack. -/
theorem blackenObject_grays (hm : Grays m₀ m) (hr : r ∈ m.grayStack) :
    Grays m₀ (m.blackenObject r) ∧ (m.blackenObject r).blackened = m.blackened ++ [r] ∧
      ∃ pushed, (m.blackenObject r).grayStack = m.grayStack ++ pushed := by
  have hrefs : ∀ q ∈ m.heap.grayedBy r,
      q < m₀.heap.size ∧ (m₀.heap.IsYoung q → m₀.ReachesYoung q) := by
    intro q hq
    rw [hm.grayedBy] at hq
    refine ⟨mem_grayedBy_lt hq, fun hyoung => ?_⟩
    exact .ref (hm.reached r hr) (grayedBy_subset hq) (not_not_intro hyoung)
  obtain ⟨hgrays, -, hpushed⟩ := hm.grayObjects (m.heap.grayedBy r) hrefs
  exact ⟨⟨hgrays.size, hgrays.body, hgrays.gen, hgrays.dark, hgrays.nodup, hgrays.young,
    hgrays.reached⟩, rfl, hpushed⟩

theorem Walks.round (hm : Walks m₀ m i) (hpos : 0 < m.grayCount) : Walks m₀ m.round (i + 1) := by
  have hcounter := hm.counter
  obtain ⟨r, hget, hround⟩ := round_eq hm.grays hpos (by omega)
  have hmem : r ∈ m.grayStack := List.mem_of_getElem? hget
  obtain ⟨hgrays, hblack, pushed, hpushed⟩ := blackenObject_grays hm.grays hmem
  have hlen : (m.blackenObject r).grayStack.length = m.grayStack.length + pushed.length := by
    rw [hpushed, List.length_append]
  rw [hround]
  refine ⟨⟨hgrays.size, hgrays.body, hgrays.gen, hgrays.dark, hgrays.nodup, hgrays.young,
    hgrays.reached⟩, ?_, ?_, ?_, ?_, ?_⟩
  · show m.grayCount - 1 + ((m.blackenObject r).grayStack.length - m.grayStack.length) + (i + 1) =
      (m.blackenObject r).grayStack.length
    omega
  · intro q hq
    show q ∈ (m.blackenObject r).grayStack
    rw [hpushed]
    apply List.mem_append_left
    have hq' : q ∈ m.blackened ++ [r] := hblack ▸ hq
    rcases List.mem_append.mp hq' with hq' | hq'
    · exact hm.black q hq'
    · exact List.mem_singleton.mp hq' ▸ hmem
  · show m₀.grayStack <+: (m.blackenObject r).grayStack
    rw [hpushed]
    exact hm.start.trans (List.prefix_append _ _)
  · intro hzero
    cases hzero
  · intro hne q hq hblacked
    have hq : q ∈ (m.blackenObject r).grayStack.getLast? := hq
    have hblacked : q ∈ m.blackened ++ [r] := hblack ▸ hblacked
    have hnodup := hgrays.nodup
    rw [hpushed] at hq hnodup
    have hold : q ∈ m.grayStack := by
      rcases List.mem_append.mp hblacked with h | h
      · exact hm.black q h
      · exact List.mem_singleton.mp h ▸ hmem
    rcases List.eq_nil_or_concat pushed with hnil | ⟨front, last, hlast⟩
    · -- nothing is pushed: the top was there, above the counter
      rw [hnil, List.append_nil] at hq
      have hne' : m.grayStack ≠ m₀.grayStack := by
        intro heq
        apply hne
        show (m.blackenObject r).grayStack = _
        rw [hpushed, hnil, List.append_nil, heq]
      have hi : i ≠ 0 := fun hzero => hne' (hm.first hzero)
      rcases List.mem_append.mp hblacked with h | h
      · exact hm.top hne' q hq h
      · have hqr : q = r := List.mem_singleton.mp h
        rw [List.getLast?_eq_getElem?, hqr] at hq
        rw [hnil, List.append_nil] at hnodup
        have hlt : m.grayCount - 1 < m.grayStack.length := by omega
        have hsame := (List.getElem?_inj hlt hnodup).mp (hget.trans hq.symm)
        omega
    · -- the new top was not on the stack
      rw [hlast, List.concat_eq_append, ← List.append_assoc, List.getLast?_concat] at hq
      obtain rfl := Option.some.inj hq
      have hmem' : last ∈ pushed := by
        rw [hlast, List.concat_eq_append]
        exact List.mem_append_right _ List.mem_cons_self
      exact (List.nodup_append.mp hnodup).2.2 last hold last hmem' rfl

/-- Each object is pushed once. -/
theorem Grays.length_le (hm : Grays m₀ m) : m.grayStack.length ≤ m₀.heap.size := by
  have hsub : m.grayStack ⊆ List.range m₀.heap.size := by
    intro r hr
    rw [List.mem_range, ← hm.size]
    exact (hm.young r hr).1
  have hle := (List.subperm_of_subset hm.nodup hsub).length_le
  rwa [List.length_range] at hle

/-- The loop comes to its end. -/
theorem Walks.loop (hm : Walks m₀ m i) (hfuel : m₀.heap.size ≤ i + fuel) :
    (m.loop fuel).grayCount = 0 ∧ ∃ j, Walks m₀ (m.loop fuel) j := by
  induction fuel generalizing m i with
  | zero =>
    have hcounter := hm.counter
    have hle := hm.grays.length_le
    refine ⟨?_, i, hm⟩
    show m.grayCount = 0
    omega
  | succ fuel ih =>
    unfold YoungMark.loop
    split
    next hzero => exact ⟨hzero, i, hm⟩
    next hpos => exact ih (hm.round (Nat.pos_of_ne_zero hpos)) (by omega)

theorem Begins.walks (h : m.Begins) : Walks m m 0 where
  grays := .of_begins h
  counter := h.counter
  black r hr := by
    rw [h.blackened] at hr
    cases hr
  start := List.prefix_rfl
  first _ := rfl
  top hne := absurd rfl hne

/-! ## Nothing to reach -/

/-- Nothing was pushed, and what stands above the counter is blackened. -/
structure GoesDown (m₀ m : YoungMark) : Prop where
  stack : m.grayStack = m₀.grayStack
  black : ∀ p r, m.grayCount ≤ p → m.grayStack[p]? = some r → r ∈ m.blackened

/-- Only old objects and gray ones are met. -/
theorem grayObjects_same {rs : List ℕ} (hm : Grays m₀ m) (hlt : ∀ q ∈ rs, q < m.heap.size)
    (hrs : ∀ q ∈ rs, m.heap.IsYoung q → q ∈ m.grayStack) : rs.foldl grayObject m = m := by
  induction rs with
  | nil => rfl
  | cons q rs ih =>
    have hsame : m.grayObject q = m := by
      unfold grayObject
      simp only
      split
      next => rfl
      next hwhite =>
        split
        next => rfl
        next hgen =>
          have hyoung : m.heap.IsYoung q := ⟨hlt q List.mem_cons_self, by omega⟩
          exact absurd ((hm.dark q).mpr (hrs q List.mem_cons_self hyoung)) hwhite
    rw [List.foldl_cons, hsame]
    exact ih (fun p hp => hlt p (List.mem_cons_of_mem q hp))
      fun p hp => hrs p (List.mem_cons_of_mem q hp)

theorem GoesDown.round (hd : GoesDown m₀ m) (hclosed : m₀.Closed) (hm : Walks m₀ m i)
    (hpos : 0 < m.grayCount) : GoesDown m₀ m.round := by
  have hcounter := hm.counter
  obtain ⟨r, hget, hround⟩ := round_eq hm.grays hpos (by omega)
  have hmem : r ∈ m₀.grayStack := hd.stack ▸ List.mem_of_getElem? hget
  have hblacken : m.blackenObject r = { m with blackened := m.blackened ++ [r] } := by
    unfold blackenObject
    rw [grayObjects_same hm.grays (fun q hq => mem_grayedBy_lt hq) fun q hq hyoung => ?_]
    rw [hm.grays.grayedBy] at hq
    rw [hd.stack]
    exact hclosed r hmem q (grayedBy_subset hq) (hm.grays.isYoung.mp hyoung)
  rw [hround, hblacken]
  refine ⟨hd.stack, fun p q hp hq => ?_⟩
  have hp : m.grayCount - 1 + (m.grayStack.length - m.grayStack.length) ≤ p := hp
  have hq : m.grayStack[p]? = some q := hq
  show q ∈ m.blackened ++ [r]
  rw [Nat.sub_self, Nat.add_zero] at hp
  rcases Nat.eq_or_lt_of_le hp with heq | hlt
  · rw [← heq, hget] at hq
    obtain rfl := Option.some.inj hq
    exact List.mem_append_right _ List.mem_cons_self
  · exact List.mem_append_left _ (hd.black p q (by omega) hq)

theorem GoesDown.loop (hd : GoesDown m₀ m) (hclosed : m₀.Closed) (hm : Walks m₀ m i) :
    GoesDown m₀ (m.loop fuel) := by
  induction fuel generalizing m i with
  | zero => exact hd
  | succ fuel ih =>
    unfold YoungMark.loop
    split
    next => exact hd
    next hpos =>
      have hpos := Nat.pos_of_ne_zero hpos
      exact ih (hd.round hclosed hm hpos) (hm.round hpos)

theorem reaches_of_closed (hclosed : m.Closed) (hr : m.ReachesYoung r) : r ∈ m.grayStack := by
  induction hr with
  | root hmem _ => exact hmem
  | ref _ hmem hyoung ih => exact hclosed _ ih _ hmem (not_not.mp hyoung)

/-- The loop ends. When it does, what can be reached through young objects from the gray ones
is marked and blackened exactly if there was nothing to reach but the gray objects. -/
theorem loop_marksAll_iff (hm : m.Begins) (hfuel : m.heap.size ≤ fuel) :
    (m.loop fuel).grayCount = 0 ∧ (m.MarksAll (m.loop fuel) ↔ m.Closed) := by
  have hfuel' : m.heap.size ≤ 0 + fuel := by omega
  obtain ⟨hend, j, hwalks⟩ := hm.walks.loop hfuel'
  refine ⟨hend, ?_, ?_⟩
  · intro hall r hr q hq hyoung
    by_contra hnot
    have hreach : m.ReachesYoung q :=
      .ref (.root hr (not_not_intro (hm.young r hr))) hq (not_not_intro hyoung)
    have hgray : q ∈ (m.loop fuel).grayStack := (hwalks.grays.dark q).mp (hall q hreach).1
    have hne : (m.loop fuel).grayStack ≠ m.grayStack := fun heq => hnot (heq ▸ hgray)
    -- the top of the stack was pushed and never read
    obtain ⟨top, htop⟩ : ∃ top, (m.loop fuel).grayStack.getLast? = some top :=
      ⟨_, List.getLast?_eq_some_getLast (List.ne_nil_of_mem hgray)⟩
    have hmem : top ∈ (m.loop fuel).grayStack := List.mem_of_getLast? htop
    exact hwalks.top hne top htop (hall top (hwalks.grays.reached top hmem)).2
  · intro hclosed r hr
    have hmem := reaches_of_closed hclosed hr
    have hd : GoesDown m m := by
      refine ⟨rfl, fun p q hp hq => ?_⟩
      rw [hm.counter] at hp
      rw [List.getElem?_eq_none hp] at hq
      cases hq
    have hdown : GoesDown m (m.loop fuel) := hd.loop hclosed hm.walks
    rw [← hdown.stack] at hmem
    refine ⟨(hwalks.grays.dark r).mpr hmem, ?_⟩
    obtain ⟨p, hp, hget⟩ := List.mem_iff_getElem.mp hmem
    refine hdown.black p r (by omega) ?_
    rw [List.getElem?_eq_getElem hp, hget]

/-- Three closed upvalues, each of which holds the next one; the first is gray. -/
def chain : YoungMark where
  heap :=
    { size := 3
      slot := fun r =>
        { body := some (.upvalue (if r < 2 then some (r + 1) else none)), dark := r == 0,
          hidden := false, gen := 0, nextFree := none }
      freeList := none, youngStack := [0, 1, 2], rememberSet := [], activeFinalizers := 0
      inGC := true, dontGC := false, gcOn := true }
  grayStack := [0]
  grayCount := 1
  blackened := []

theorem chain_begins : chain.Begins where
  nodup := by decide
  young := by
    intro r hr
    obtain rfl := List.mem_singleton.mp hr
    exact ⟨by decide, rfl⟩
  dark r := by
    rw [show (chain.heap.slot r).dark = (r == 0) from rfl, beq_iff_eq]
    exact List.mem_singleton.symm
  counter := rfl
  blackened := rfl

/-- The loop over the chain. -/
theorem chain_marksAll_iff :
    (chain.loop 3).grayCount = 0 ∧ (chain.MarksAll (chain.loop 3) ↔ chain.Closed) :=
  loop_marksAll_iff chain_begins (by decide)

/-- The first upvalue is blackened twice, the second one never, and the third one is not even
marked. -/
theorem chain_not_marked : chain.Begins ∧ chain.ReachesYoung 2 ∧
    (chain.loop 3).grayCount = 0 ∧ (chain.loop 3).blackened = [0, 0] ∧
    ((chain.loop 3).heap.slot 2).dark = false ∧ ¬ chain.MarksAll (chain.loop 3) := by
  have hyoung : ∀ r < 3, ¬ ¬ chain.heap.IsYoung r := fun r hr => not_not_intro ⟨hr, rfl⟩
  have hreach : chain.ReachesYoung 2 := by
    refine .ref (a := 1) (.ref (a := 0) (.root ?_ (hyoung 0 (by decide))) ?_ (hyoung 1 (by decide)))
      ?_ (hyoung 2 (by decide))
    · exact List.mem_singleton_self 0
    · decide
    · decide
  have hwhite : ((chain.loop 3).heap.slot 2).dark = false := by decide
  refine ⟨chain_begins, hreach, by decide, by decide, hwhite, fun hall => ?_⟩
  have hdark := (hall 2 hreach).1
  rw [hwhite] at hdark
  cases hdark

end YoungMark

end Clox.Gc
