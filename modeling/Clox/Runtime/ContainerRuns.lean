import Clox.Runtime.Containers

/-! # Equality of containers in a run

Strings, arrays and maps are made, changed and freed, and keys are set in maps and deleted from
them. The keys of all maps stay where they are found as long as nothing in a key is changed while it
is in a map. Then `valEqual` of two values depends on what is in them, and neither on the order in
which it came there nor on the slots it is in.
-/

namespace Clox.Hashing

open Clox Commands Probing

/-! ## Runs -/

structure State where
  world : World
  cache : Cache

/-- What an object is made to be. A new map is empty, and so is one after `clear`. -/
inductive Contents
  | string (chars : List UInt8) (hash : UInt32)
  | array (els : List Value)
  | map
  | freed

def Contents.object : Contents → Option Object
  | .string chars _ => some (.string chars)
  | .array els => some (.array els)
  | .map => some (.map 0 [])
  | .freed => none

/-- The field `hash`. -/
def Contents.hash : Contents → UInt32
  | .string _ hash => hash
  | _ => 0

inductive Event
  /-- An object is made, changed or freed. -/
  | put (r : ℕ) (c : Contents)
  /-- `lxMapSet` -/
  | set (r : ℕ) (key value : Value)
  /-- `lxMapDelete` -/
  | delete (r : ℕ) (key : Value)
  /-- `valHash`, which is also all that a comparison does to the strings. -/
  | hash (v : Value)

/-- The object at `r` becomes `o`. -/
def World.put (w : World) (r : ℕ) (o : Option Object) : World :=
  { w with objs := Function.update w.objs r o }

/-- A call on the table of the map at `r`. -/
def onTable {α : Type} (s : State) (r : ℕ) (call : ValueTable → Exec (α × ValueTable)) :
    Option State :=
  match s.world.objs r with
  | some (.map count entries) =>
    match call ⟨count, entries⟩ s.cache with
    | (.ok (_, t), cache) => some ⟨s.world.put r (some (.map t.count t.entries)), cache⟩
    | _ => none
  | _ => none

/-- `none` where the event stops or cannot be. -/
def Event.run (fuel : ℕ) (s : State) : Event → Option State
  | .put r c => some ⟨s.world.put r c.object, Function.update s.cache r c.hash⟩
  | .set r key value => onTable s r fun t =>
    tableSet (valEqual s.world fuel) (valHash s.world fuel []) t key value
  | .delete r key => onTable s r fun t =>
    tableDelete (valEqual s.world fuel) (valHash s.world fuel []) t key
  | .hash v => some { s with cache := (valHash s.world fuel [] v s.cache).2 }

def run (fuel : ℕ) (s : State) (events : List Event) : Option State :=
  events.foldlM (Event.run fuel) s

/-- No object is there yet. -/
def start (toUInt32 : BitVec 64 → UInt32) : State := ⟨⟨fun _ => none, toUInt32⟩, fun _ => 0⟩

/-! ## The condition -/

/-- The object at `r` is not a part of any key. -/
def InNoKey (w : World) (n r : ℕ) : Prop :=
  ∀ q count entries, w.objs q = some (.map count entries) →
    KeysIn (fun key => ¬ Occurs w r n key) entries

/-- What is changed is not a part of a key; a string does not have the hash of another one; what is
set or deleted can be a key, and the map is not a part of it. -/
def Event.Ok (S : Set (List UInt8)) (n : ℕ) (s : State) : Event → Prop
  | .put r c => InNoKey s.world n r ∧
    ∀ chars, c.object = some (.string chars) → c.hash = 0 ∨ c.hash = hashString chars
  | .set r key _ => InNoKey s.world n r ∧ (∃ count entries, s.world.objs r = some (.map count entries)) ∧
    Key s.world S n key ∧ ¬ Occurs s.world r n key
  | .delete r key => InNoKey s.world n r ∧ (∃ count entries, s.world.objs r = some (.map count entries)) ∧
    Key s.world S n key
  | .hash _ => True

/-- Every event of the run meets the condition. -/
def AllOk (S : Set (List UInt8)) (n fuel : ℕ) : State → List Event → Prop
  | _, [] => True
  | s, e :: events => e.Ok S n s ∧ ∀ t, e.run fuel s = some t → AllOk S n fuel t events

/-- The keys can be found and the hashes are right. -/
structure Orderly (S : Set (List UInt8)) (n : ℕ) (s : State) : Prop where
  maps : MapsOk s.world S n
  cache : CacheOk s.world s.cache

/-! ## What an object does not matter to -/

section Frame

variable {w : World} {S : Set (List UInt8)} {n N k r : ℕ} {v : Value} {o : Option Object}
  {t : ValueTable}

theorem World.put_of_ne {q : ℕ} (h : q ≠ r) : (w.put r o).objs q = w.objs q :=
  Function.update_of_ne h _ _

theorem World.put_self : (w.put r o).objs r = o := Function.update_self ..

theorem not_occurs_array {els : List Value} {q : ℕ} (ho : w.objs q = some (.array els))
    (h : ¬ Occurs w r (n + 1) (.obj q)) : q ≠ r ∧ ∀ el ∈ els, ¬ Occurs w r n el := by
  unfold Occurs at h
  simp only [ho, not_or, not_exists, not_and] at h
  exact h

theorem not_occurs_map {count q : ℕ} {entries : List (Option (Value × Value))}
    (ho : w.objs q = some (.map count entries)) (h : ¬ Occurs w r (n + 1) (.obj q)) :
    q ≠ r ∧ ∀ e ∈ entries.filterMap id, ¬ Occurs w r n e.1 ∧ ¬ Occurs w r n e.2 := by
  unfold Occurs at h
  simp only [ho, not_or, not_exists, not_and] at h
  exact h

theorem not_occurs_self {q : ℕ} (h : ¬ Occurs w r (n + 1) (.obj q)) : q ≠ r :=
  fun heq => h (.inl heq)

theorem Key.put (h : Key w S n v) (hr : ¬ Occurs w r n v) : Key (w.put r o) S n v := by
  obtain ⟨hreg, hplain⟩ := h
  induction n generalizing v with
  | zero => exact hreg.elim
  | succ n ih =>
    cases v with
    | obj q =>
      unfold Regular at hreg
      unfold Plain at hplain
      unfold Key Regular Plain
      rw [World.put_of_ne (not_occurs_self hr)]
      cases ho : w.objs q with
      | none => simp only [ho] at hreg
      | some x =>
        cases x with
        | string chars =>
          simp only [ho] at hreg ⊢
          exact ⟨hreg, trivial⟩
        | array els =>
          simp only [ho] at hreg hplain ⊢
          have hels : ∀ el ∈ els, Key (w.put r o) S n el := fun el hel =>
            ih ((not_occurs_array ho hr).2 el hel) (hreg el hel) (hplain el hel).2
          exact ⟨fun el hel => (hels el hel).1, fun el hel => ⟨(hplain el hel).1, (hels el hel).2⟩⟩
        | map count entries =>
          simp only [ho] at hreg hplain ⊢
          have hin := (not_occurs_map ho hr).2
          have hentries : ∀ e ∈ entries.filterMap id,
              Key (w.put r o) S n e.1 ∧ Key (w.put r o) S n e.2 := fun e he =>
            ⟨ih (hin e he).1 (hreg e he).1 (hplain e he).2.1,
              ih (hin e he).2 (hreg e he).2 (hplain e he).2.2⟩
          exact ⟨fun e he => ⟨(hentries e he).1.1, (hentries e he).2.1⟩,
            fun e he => ⟨(hplain e he).1, (hentries e he).1.2, (hentries e he).2.2⟩⟩
    | _ => exact ⟨trivial, trivial⟩

theorem content_put (h : Regular w S n v) (hr : ¬ Occurs w r n v) (k : ℕ) :
    content (w.put r o) k v = content w k v := by
  induction n generalizing v k with
  | zero => exact h.elim
  | succ n ih =>
    cases k with
    | zero => rfl
    | succ k =>
      cases v with
      | obj q =>
        unfold Regular at h
        have hq := World.put_of_ne (w := w) (o := o) (not_occurs_self hr)
        cases ho : w.objs q with
        | none => simp only [ho] at h
        | some x =>
          rw [ho] at hq
          cases x with
          | string chars => rw [content_string hq, content_string ho]
          | array els =>
            simp only [ho] at h
            rw [content_array hq, content_array ho]
            congr 1
            exact List.map_congr_left fun el hel =>
              ih (h el hel) ((not_occurs_array ho hr).2 el hel) k
          | map count entries =>
            simp only [ho] at h
            have hin := (not_occurs_map ho hr).2
            rw [content_map hq, content_map ho]
            congr 1
            refine Multiset.map_congr rfl fun e he => ?_
            rw [Multiset.mem_coe] at he
            rw [ih (h e he).1 (hin e he).1 k, ih (h e he).2 (hin e he).2 k]
      | _ => rfl

theorem hash_put (n : ℕ) : Content.hash (w.put r o) n = Content.hash w n := by
  induction n with
  | zero => rfl
  | succ n ih =>
    funext c
    show Shape.hash (w.put r o) (Content.hash (w.put r o) n) c = Shape.hash w (Content.hash w n) c
    rw [ih]
    cases c with
    | leaf v => cases v <;> rfl
    | _ => rfl

/-- A table whose keys do not change stays as it is. -/
theorem Stands.congr {eq eq' : Value → Value → Bool} {h h' : Value → ℕ} {m : Value → Option Value}
    (hk' : LawfulKeys eq' h') (hs : t.Stands eq h m)
    (heq : ∀ a b, some a ∈ t.entries → some b ∈ t.entries → eq' a.1 b.1 = eq a.1 b.1)
    (hhash : ∀ a, some a ∈ t.entries → h' a.1 = h a.1) : ∃ m', t.Stands eq' h' m' := by
  cases hs with
  | null entries count map => exact ⟨fun _ => none, .null entries count rfl⟩
  | ring k ring load =>
    have hplaced := ring.placed.congr heq hhash
    obtain ⟨m', hm'⟩ := (hplaced.distinct hk').exists_represents hk'
    exact ⟨m', .ring k ⟨ring.length, ring.count, hplaced, hm'⟩ load⟩

theorem LaidOut.put (h : LaidOut w N t)
    (hkeys : KeysIn (fun key => Key w S N key ∧ ¬ Occurs w r N key) t.entries) :
    LaidOut (w.put r o) N t := by
  obtain ⟨m, hs⟩ := h
  have hcontent : ∀ e, some e ∈ t.entries → ∀ k, content (w.put r o) k e.1 = content w k e.1 :=
    fun e he => content_put (hkeys e he).1.1 (hkeys e he).2
  refine Stands.congr (same_lawful (w.put r o) N) hs (fun a b ha hb => ?_) fun a ha => ?_
  · rw [Bool.eq_iff_iff, same_iff, same_iff]
    unfold Same
    simp only [hcontent a ha, hcontent b hb]
  · unfold hashAt
    rw [hcontent a ha, hash_put]

/-- An object that is not a part of a key becomes something else. -/
theorem MapsOk.put (hm : MapsOk w S N) (hr : InNoKey w N r)
    (ho : ∀ count entries, o = some (.map count entries) →
      KeysIn (fun key => Key w S N key ∧ ¬ Occurs w r N key) entries ∧
        LaidOut w N ⟨count, entries⟩) : MapsOk (w.put r o) S N := by
  intro q count entries hq
  have hold : KeysIn (fun key => Key w S N key ∧ ¬ Occurs w r N key) entries ∧
      LaidOut w N ⟨count, entries⟩ := by
    by_cases heq : q = r
    · rw [heq, World.put_self] at hq
      exact ho count entries hq
    · rw [World.put_of_ne heq] at hq
      exact ⟨fun e he => ⟨(hm q count entries hq).1 e he, hr q count entries hq e he⟩,
        (hm q count entries hq).2⟩
  exact ⟨fun e he => (hold.1 e he).1.put (hold.1 e he).2, hold.2.put hold.1⟩

end Frame

/-! ## What the events keep -/

section Step

variable {S : Set (List UInt8)} {n N fuel m r : ℕ} {s t : State} {e : Event} {events : List Event}
  {key value : Value}

/-- The commands on keys do what the comparison of contents and the hash of contents say. -/
theorem Orderly.computes (h : Orderly S N s) (hS : Apart S) (hfuel : N + N ≤ fuel) :
    Computes (CacheOk s.world) (Key s.world S N) (valEqual s.world fuel)
      (valHash s.world fuel []) (same s.world) (hashAt s.world N) where
  equal a b ha hb := (valEqual_decides h.maps hS ha.1 hb.1 hfuel).gives
  hash a ha := ha.valHash_spec h.maps hS (by omega)

theorem CacheOk.put_map {w : World} {cache : Cache} (hc : CacheOk w cache) {count : ℕ}
    {entries : List (Option (Value × Value))} :
    CacheOk (w.put r (some (.map count entries))) cache := by
  intro q chars hq
  by_cases heq : q = r
  · rw [heq, World.put_self] at hq
    cases hq
  · rw [World.put_of_ne heq] at hq
    exact hc q chars hq

/-- A call that leaves a table with keys that are not changed. -/
theorem Orderly.onTable {α : Type} (call : ValueTable → Exec (α × ValueTable)) {x : α}
    {count : ℕ} {entries : List (Option (Value × Value))} {t' : ValueTable}
    (h : Orderly S N s) (hr : InNoKey s.world N r)
    (hmap : s.world.objs r = some (.map count entries))
    (hcall : Gives (CacheOk s.world) (call ⟨count, entries⟩) (x, t'))
    (hkeys : KeysIn (fun key => Key s.world S N key ∧ ¬ Occurs s.world r N key) t'.entries)
    (hlaid : LaidOut s.world N t') :
    ∃ s', onTable s r call = some s' ∧ Orderly S N s' := by
  obtain ⟨cache', hres, hc'⟩ := hcall.eq h.cache
  refine ⟨_, by rw [Hashing.onTable, hmap]; simp only [hres]; rfl, ?_, hc'.put_map⟩
  refine h.maps.put hr fun count' entries' heq => ?_
  cases heq
  exact ⟨hkeys, hlaid⟩

/-- An event that meets the condition takes place and keeps the keys where they are found. -/
theorem Orderly.step (h : Orderly S N s) (hS : Apart S) (hfuel : N + N ≤ fuel)
    (he : e.Ok S N s) : ∃ t, e.run fuel s = some t ∧ Orderly S N t := by
  cases e with
  | put r c =>
    obtain ⟨hr, hhash⟩ := he
    refine ⟨_, rfl, h.maps.put hr fun count entries hc => ?_, fun q chars hq => ?_⟩
    · cases c with
      | map =>
        cases hc
        exact ⟨KeysIn.replicate (n := 0), _, initTable_stands⟩
      | _ => cases hc
    · show Function.update s.cache r c.hash q = 0 ∨ Function.update s.cache r c.hash q = _
      by_cases heq : q = r
      · subst heq
        rw [World.put_self] at hq
        rw [Function.update_self]
        exact hhash chars hq
      · rw [World.put_of_ne heq] at hq
        rw [Function.update_of_ne heq]
        exact h.cache q chars hq
  | set r key value =>
    obtain ⟨hr, ⟨count, entries, hmap⟩, hkey, hnot⟩ := he
    obtain ⟨hkeys, m, hs⟩ := h.maps r count entries hmap
    obtain ⟨t', hset, hs', -⟩ := tableSet_eq_some (same_lawful s.world N) hs key value
    have hgives := tableSet_gives (h.computes hS hfuel) hkeys hkey hset
    refine h.onTable (fun t => tableSet _ _ t key value) hr hmap hgives (tableSet_keysIn (fun e he => ?_) ⟨hkey, hnot⟩ hset) ⟨_, hs'⟩
    exact ⟨hkeys e he, hr r count entries hmap e he⟩
  | delete r key =>
    obtain ⟨hr, ⟨count, entries, hmap⟩, hkey⟩ := he
    obtain ⟨hkeys, m, hs⟩ := h.maps r count entries hmap
    obtain ⟨t', hdelete, hs'⟩ := tableDelete_eq_some (same_lawful s.world N) hs key
    have hgives := tableDelete_gives (h.computes hS hfuel) hkeys hkey hdelete
    refine h.onTable (fun t => tableDelete _ _ t key) hr hmap hgives (tableDelete_keysIn (fun e he => ?_) hdelete) ⟨_, hs'⟩
    exact ⟨hkeys e he, hr r count entries hmap e he⟩
  | hash v =>
    refine ⟨_, rfl, h.maps, ?_⟩
    exact (valHash_cacheOk fuel [] v).after h.cache

/-- A run whose events meet the condition. -/
theorem Orderly.run (h : Orderly S N s) (hS : Apart S) (hfuel : N + N ≤ fuel)
    (hok : AllOk S N fuel s events) :
    ∃ t, run fuel s events = some t ∧ Orderly S N t := by
  induction events generalizing s with
  | nil => exact ⟨s, rfl, h⟩
  | cons e events ih =>
    obtain ⟨he, hrest⟩ := hok
    obtain ⟨s₁, hstep, h₁⟩ := h.step hS hfuel he
    obtain ⟨t, hrun, ht⟩ := ih h₁ (hrest s₁ hstep)
    refine ⟨t, ?_, ht⟩
    rw [Hashing.run, List.foldlM_cons, hstep]
    exact hrun

theorem start_orderly (toUInt32 : BitVec 64 → UInt32) : Orderly S N (start toUInt32) where
  maps r count entries h := by cases h
  cache r chars h := by cases h

theorem Equal.refl {w : World} {a : Value} (ha : Regular w S n a) (hm : MapsOk w S N)
    (hS : Apart S) : Equal w n a a :=
  (equal_iff_same hm hS ha ha).mpr (Same.refl w a)

/-- The comparison of two values says whether they are equal, from either side and whichever
strings have their hash. -/
theorem Orderly.valEqual_eq (h : Orderly S N s) (hS : Apart S) {a b : Value} {cache : Cache}
    (ha : Regular s.world S n a) (hb : Regular s.world S n b) (hm : N + n ≤ m)
    (hc : CacheOk s.world cache) :
    ∃ res, (valEqual s.world m a b cache).1 = .ok res ∧ (res = true ↔ Equal s.world n a b) := by
  obtain ⟨res, hgives, hiff⟩ := valEqual_decides h.maps hS ha hb hm
  obtain ⟨cache', hres, -⟩ := hgives.eq hc
  exact ⟨res, by rw [hres], hiff.trans (equal_iff_same h.maps hS ha hb).symm⟩

end Step

/-- In a run in which no part of a key is changed while it is in a map, the comparison of two values
says, from either side and whichever strings have their hash, whether they are equal; and two maps
with the same entries are equal, whatever came before. The strings in question have no NUL, no two
of them have one hash, and the values have finitely many levels. -/
theorem valEqual_exact {S : Set (List UInt8)} {n fuel : ℕ} {toUInt32 : BitVec 64 → UInt32}
    {events : List Event} (hS : Apart S) (hfuel : n + n ≤ fuel)
    (hok : AllOk S n fuel (start toUInt32) events) :
    ∃ s, run fuel (start toUInt32) events = some s ∧
      (∀ k a b m cache, Regular s.world S k a → Regular s.world S k b → n + k ≤ m →
        CacheOk s.world cache → ∃ res, (valEqual s.world m a b cache).1 = .ok res ∧
          (valEqual s.world m b a cache).1 = .ok res ∧ (res = true ↔ Equal s.world k a b)) ∧
      ∀ k ra rb count1 count2 map1 map2, s.world.objs ra = some (.map count1 map1) →
        s.world.objs rb = some (.map count2 map2) → Regular s.world S k (.obj ra) →
        (∀ e, some e ∈ map1 ↔ some e ∈ map2) → Equal s.world k (.obj ra) (.obj rb) := by
  obtain ⟨s, hrun, h⟩ := (start_orderly toUInt32).run hS hfuel hok
  refine ⟨s, hrun, ?_, ?_⟩
  · intro k a b m cache ha hb hm hc
    obtain ⟨res, hab, hiff⟩ := h.valEqual_eq hS ha hb hm hc
    obtain ⟨res', hba, hiff'⟩ := h.valEqual_eq hS hb ha hm hc
    have hsame : res' = res := by
      rw [Bool.eq_iff_iff, hiff, hiff', equal_iff_same h.maps hS ha hb,
        equal_iff_same h.maps hS hb ha]
      exact ⟨Same.symm, Same.symm⟩
    rw [hsame] at hba
    exact ⟨res, hab, hba, hiff⟩
  · intro k ra rb count1 count2 map1 map2 ha hb hreg hentries
    cases k with
    | zero => exact hreg.elim
    | succ k =>
      unfold Regular at hreg
      unfold Equal
      simp only [ha] at hreg
      simp only [ha, hb]
      refine ⟨fun e he => ⟨e, ?_, ?_, ?_⟩, fun f hf => ⟨f, ?_, ?_⟩⟩
      · exact some_mem_iff.mp ((hentries e).mp (some_mem_iff.mpr he))
      · exact Equal.refl (hreg e he).1 h.maps hS
      · exact Equal.refl (hreg e he).2 h.maps hS
      · exact some_mem_iff.mp ((hentries f).mpr (some_mem_iff.mpr hf))
      · have hf' := some_mem_iff.mp ((hentries f).mpr (some_mem_iff.mpr hf))
        exact Equal.refl (hreg f hf').1 h.maps hS

deriving instance DecidableEq for Object

/-- What a run that ends has made of the state. -/
theorem eq_of_map_run {α : Type} {fuel : ℕ} {s t : State} {events : List Event}
    (hrun : run fuel s events = some t) (f : State → α) {x : α}
    (h : (run fuel s events).map f = some x) : f t = x := by
  rw [hrun] at h
  exact Option.some.inj h

/-- A string is made and set in one of two maps. -/
def oneKey : List Event :=
  [.put 1 (.string [97] 0), .put 2 .map, .put 3 .map, .set 2 (.obj 1) .nil]

theorem oneKey_ok : AllOk {[97]} 1 2 (start fun _ => 0) oneKey := by
  -- before the key is set all maps are empty
  have hempty : ∀ (w : World) (r : ℕ), (∀ q count entries, w.objs q = some (.map count entries) →
      entries = []) → InNoKey w 1 r := by
    intro w r h q count entries hq e he
    rw [h q count entries hq] at he
    cases he
  have hput : ∀ (w : World) (r : ℕ) (c : Contents), (∀ q count entries,
      w.objs q = some (.map count entries) → entries = []) → ∀ q count entries,
      (w.put r c.object).objs q = some (.map count entries) → entries = [] := by
    intro w r c h q count entries hq
    by_cases heq : q = r
    · rw [heq, World.put_self] at hq
      cases c <;> cases hq
      rfl
    · rw [World.put_of_ne heq] at hq
      exact h q count entries hq
  have h₀ : ∀ q count entries, (start fun _ => 0).world.objs q = some (.map count entries) →
      entries = [] := fun q count entries hq => by cases hq
  refine ⟨⟨hempty _ _ h₀, fun _ _ => .inl rfl⟩, ?_⟩
  rintro _ ⟨⟩
  have h₁ := hput _ 1 (.string [97] 0) h₀
  refine ⟨⟨hempty _ _ h₁, fun chars h => by cases h⟩, ?_⟩
  rintro _ ⟨⟩
  have h₂ := hput _ 2 .map h₁
  refine ⟨⟨hempty _ _ h₂, fun chars h => by cases h⟩, ?_⟩
  rintro _ ⟨⟩
  have h₃ := hput _ 3 .map h₂
  refine ⟨⟨hempty _ _ h₃, ⟨0, [], rfl⟩, ⟨rfl, trivial⟩, ?_⟩, fun _ _ => trivial⟩
  rintro (h | h)
  · cases h
  · exact h

theorem valEqual_exact_oneKey : ∃ s, run 2 (start fun _ => 0) oneKey = some s ∧
    ∃ res, (valEqual s.world 4 (.obj 2) (.obj 3) fun _ => 0).1 = .ok res ∧
      (res = true ↔ Equal s.world 3 (.obj 2) (.obj 3)) := by
  have hapart : Apart {[97]} := by
    constructor
    · rintro chars rfl
      decide
    · rintro a rfl b rfl _
      rfl
  obtain ⟨s, hrun, hall, -⟩ := valEqual_exact hapart (le_refl 2) oneKey_ok
  have h1 : s.world.objs 1 = some (.string [97]) :=
    eq_of_map_run hrun (fun s => s.world.objs 1) (by decide +kernel)
  have h2 : s.world.objs 2 =
      some (.map 1 [none, none, none, none, some (.obj 1, .nil), none, none, none]) :=
    eq_of_map_run hrun (fun s => s.world.objs 2) (by decide +kernel)
  have h3 : s.world.objs 3 = some (.map 0 []) :=
    eq_of_map_run hrun (fun s => s.world.objs 3) (by decide +kernel)
  have hreg2 : Regular s.world {[97]} 3 (.obj 2) := by
    unfold Regular
    simp only [h2]
    intro e he
    rw [show e = (.obj 1, .nil) from List.mem_singleton.mp he]
    refine ⟨?_, trivial⟩
    unfold Regular
    simp only [h1]
    rfl
  have hreg3 : Regular s.world {[97]} 3 (.obj 3) := by
    unfold Regular
    simp only [h3]
    intro e he
    cases he
  obtain ⟨res, hres, -, hiff⟩ := hall 3 _ _ 4 (fun _ => 0) hreg2 hreg3 (le_refl 4)
    fun _ _ _ => .inl rfl
  exact ⟨s, hrun, res, hres, hiff⟩

/-- Two things are made, and two maps with one of them as the key each. -/
def keyedBy (r₁ r₂ : ℕ) (c₁ c₂ : Contents) : List Event :=
  [.put r₁ c₁, .put r₂ c₂, .put 3 .map, .put 4 .map, .set 3 (.obj r₁) .nil, .set 4 (.obj r₂) .nil]

/-- The maps with the keys `costarring` and `liquid` are equal for `valEqual`. Those with the keys
`[x]` and `[x]` are not if the bits of `x` end with the address of the first array. -/
theorem costarring_equals_liquid :
    (∃ s, run 4 (start fun _ => 1) (keyedBy 1 2 (.string costarring.chars 0)
        (.string liquid.chars 0)) = some s ∧
      (valEqual s.world 4 (.obj 3) (.obj 4) s.cache).1 = .ok true ∧
      ∀ n, ¬ Equal s.world n (.obj 3) (.obj 4)) ∧
    ∃ s, run 4 (start fun _ => 1) (keyedBy 0x1000 0x2000 (.array [.number 0x3FF0000000001000])
        (.array [.number 0x3FF0000000001000])) = some s ∧
      (valEqual s.world 4 (.obj 3) (.obj 4) s.cache).1 = .ok false ∧
      Equal s.world 3 (.obj 3) (.obj 4) := by
  constructor
  · obtain ⟨s, hrun⟩ := Option.isSome_iff_exists.mp (show (run 4 (start fun _ => 1) (keyedBy 1 2
      (.string costarring.chars 0) (.string liquid.chars 0))).isSome = true by decide +kernel)
    have h1 : s.world.objs 1 = some (.string costarring.chars) :=
      eq_of_map_run hrun (fun s => s.world.objs 1) (by decide +kernel)
    have h2 : s.world.objs 2 = some (.string liquid.chars) :=
      eq_of_map_run hrun (fun s => s.world.objs 2) (by decide +kernel)
    have h3 : s.world.objs 3 =
        some (.map 1 [none, none, none, none, none, some (.obj 1, .nil), none, none]) :=
      eq_of_map_run hrun (fun s => s.world.objs 3) (by decide +kernel)
    have h4 : s.world.objs 4 =
        some (.map 1 [none, none, none, none, none, some (.obj 2, .nil), none, none]) :=
      eq_of_map_run hrun (fun s => s.world.objs 4) (by decide +kernel)
    refine ⟨s, hrun, eq_of_map_run hrun (fun s => (valEqual s.world 4 (.obj 3) (.obj 4) s.cache).1)
      (by decide +kernel), fun n heq => ?_⟩
    -- the key of the first map would be that of the second
    rcases n with _ | _ | n
    · exact heq
    · unfold Equal at heq
      simp only [h3, h4] at heq
      obtain ⟨f, -, hkey, -⟩ := heq.1 (.obj 1, .nil) (by decide)
      exact hkey
    · unfold Equal at heq
      simp only [h3, h4] at heq
      obtain ⟨f, hf, hkey, -⟩ := heq.1 (.obj 1, .nil) (by decide)
      have hfeq : f = (.obj 2, .nil) := List.mem_singleton.mp hf
      rw [hfeq] at hkey
      unfold Equal at hkey
      simp only [h1, h2] at hkey
      exact absurd hkey (by decide)
  · obtain ⟨s, hrun⟩ := Option.isSome_iff_exists.mp (show (run 4 (start fun _ => 1)
      (keyedBy 0x1000 0x2000 (.array [.number 0x3FF0000000001000])
        (.array [.number 0x3FF0000000001000]))).isSome = true by decide +kernel)
    have h1 : s.world.objs 0x1000 = some (.array [.number 0x3FF0000000001000]) :=
      eq_of_map_run hrun (fun s => s.world.objs 0x1000) (by decide +kernel)
    have h2 : s.world.objs 0x2000 = some (.array [.number 0x3FF0000000001000]) :=
      eq_of_map_run hrun (fun s => s.world.objs 0x2000) (by decide +kernel)
    have h3 : s.world.objs 3 =
        some (.map 1 [none, none, none, none, some (.obj 0x1000, .nil), none, none, none]) :=
      eq_of_map_run hrun (fun s => s.world.objs 3) (by decide +kernel)
    have h4 : s.world.objs 4 =
        some (.map 1 [none, none, none, some (.obj 0x2000, .nil), none, none, none, none]) :=
      eq_of_map_run hrun (fun s => s.world.objs 4) (by decide +kernel)
    refine ⟨s, hrun, eq_of_map_run hrun (fun s => (valEqual s.world 4 (.obj 3) (.obj 4) s.cache).1)
      (by decide +kernel), ?_⟩
    have hkey : Equal s.world 2 (.obj 0x1000) (.obj 0x2000) := by
      unfold Equal
      simp only [h1, h2]
      exact .cons rfl .nil
    unfold Equal
    simp only [h3, h4]
    constructor
    · intro e he
      rw [show e = (.obj 0x1000, .nil) from List.mem_singleton.mp he]
      exact ⟨(.obj 0x2000, .nil), List.mem_singleton.mpr rfl, hkey, rfl⟩
    · intro f hf
      rw [show f = (.obj 0x2000, .nil) from List.mem_singleton.mp hf]
      exact ⟨(.obj 0x1000, .nil), List.mem_singleton.mpr rfl, hkey⟩

end Clox.Hashing
