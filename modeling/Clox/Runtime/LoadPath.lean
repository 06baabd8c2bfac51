import Clox.Runtime.Printing

/-! # Scripts on the load path

`loadScriptHelper` builds the path it tries in one buffer. It copies the directory to the front,
the current directory over it where the directory begins with a dot, and appends the name. An
extension is appended to what was tried last, so that behind `.lox` it is `.lox.so` that is tried.

The search finds what the load path says exactly where none of this makes a difference
(`follows_iff`). A script is noted before it is run and a shared object behind its `Init` function,
so that `requireScript` loads a file once exactly if no `Init` function is cut short or entered
again by a request for its own file (`loadsOnce_iff`).
-/

namespace Clox.LoadPath

open Clox.Printing (Bytes cstr)

/-! ## The search -/

/-- `pathSeparator` -/
def pathSeparator : UInt8 := 47

def dot : UInt8 := 46

/-- `".lox"` -/
def lox : Bytes := [46, 108, 111, 120]

/-- `".so"` -/
def so : Bytes := [46, 115, 111]

/-- `PATH_MAX` -/
def pathMax : ℕ := 4096

/-- `SCRIPT_PATH_MAX` -/
def scriptPathMax : ℕ := pathMax + 1

/-- `SCRIPT_DIR_MAX` -/
def scriptDirMax : ℕ := pathMax + 1 - 100

/-- What the process sees of the file system. -/
structure Env where
  /-- `fileReadable` -/
  fileReadable : Bytes → Bool
  /-- The current directory, if there is one. -/
  cwd : Option Bytes
  rooted : ∀ p ∈ cwd, p.head? = some pathSeparator

/-- `getcwd` with a buffer of `size` bytes; `none` is `NULL`. -/
def Env.getcwd (env : Env) (size : ℕ) : Option Bytes := env.cwd.filter fun p => p.length < size

/-- `memcpy(pathbuf, src, strlen(src))` to the front of a string in a buffer of zeros, the last of
which ends the string. -/
def memcpy (pathbuf src : Bytes) : Except Abort Bytes :=
  if src.length < scriptPathMax then .ok (src ++ pathbuf.drop src.length)
  else .error .undefinedBehaviour

/-- `strcat` and `strncat` -/
def strcat (pathbuf src : Bytes) : Except Abort Bytes :=
  if pathbuf.length + src.length < scriptPathMax then .ok (pathbuf ++ src)
  else .error .undefinedBehaviour

/-- The two variables that keep the current directory from one round of the loop to the next. -/
structure Curdir where
  /-- The buffer; what a failed `getcwd` leaves in it is unspecified. -/
  curdir : Option Bytes := some []
  triedCurdir : Bool := false

/-- `!curdir[0] && !triedCurdir` -/
def Curdir.asks (c : Curdir) : Bool := c.curdir.getD [] = [] && !c.triedCurdir

/-- Copy the current directory over a directory that begins with a dot; `none` where the directory
is passed over. -/
def fromCurdir (env : Env) (c : Curdir) (pathbuf : Bytes) :
    Except Abort (Option Bytes × Curdir) :=
  if pathbuf.head? = some dot then
    let c' := if c.asks then ⟨env.getcwd scriptDirMax, true⟩ else c
    if c.asks && c'.curdir.isNone then .ok (none, c')
    else
      match c'.curdir with
      | none => .error .undefinedBehaviour
      | some curdir => (memcpy pathbuf curdir).map fun p => (some p, c')
  else .ok (some pathbuf, c)

/-- Append the separator, unless the directory ends with one, and the name. In front of an empty
directory `dir[strlen(dir)-1]` reads a byte that is not its own. -/
def addName (dir pathbuf cfile : Bytes) : Except Abort Bytes :=
  match dir.getLast? with
  | none => .error .undefinedBehaviour
  | some c =>
    if c ≠ pathSeparator then (strcat pathbuf [pathSeparator]).bind fun p => strcat p cfile
    else strcat pathbuf cfile

/-- From `readableCheck` on: the path, with the extensions it has when it is readable. -/
def readableCheck (env : Env) (triedLox triedSO : Bool) (pathbuf : Bytes) : Option Bytes :=
  if env.fileReadable pathbuf then some pathbuf
  else if triedLox = false ∧ ¬ lox <:+: pathbuf ∧ pathbuf.length + 4 < scriptPathMax then
    readableCheck env true triedSO (pathbuf ++ lox)
  else if triedSO = false ∧ ¬ so <:+: pathbuf ∧ pathbuf.length + 3 < scriptPathMax then
    readableCheck env triedLox true (pathbuf ++ so)
  else none
termination_by (!triedLox).toNat + (!triedSO).toNat
decreasing_by
  all_goals
    rename_i h
    simp [h.1]

/-- The loop over the load path, from the element `i` on: the directory and the path found in it.
What is no string is passed over. -/
def findScript (env : Env) (cfile : Bytes) :
    ℕ → Curdir → List (Option Bytes) → Except Abort (Option (ℕ × Bytes))
  | _, _, [] => .ok none
  | i, c, none :: els => findScript env cfile (i + 1) c els
  | i, c, some dir :: els =>
    (memcpy [] dir).bind fun pathbuf =>
    (fromCurdir env c pathbuf).bind fun found =>
    match found.1 with
    | none => findScript env cfile (i + 1) found.2 els
    | some pathbuf =>
      (addName dir pathbuf cfile).bind fun pathbuf =>
      match readableCheck env false false pathbuf with
      | some path => .ok (some (i, path))
      | none => findScript env cfile (i + 1) found.2 els

/-- The search of `loadScriptHelper`: the number of the directory, if it was looked for in one,
and the path. `none` is the load error. -/
def search (env : Env) (loadPath : List (Option Bytes)) (fname : Bytes) :
    Except Abort (Option (Option ℕ × Bytes)) :=
  if (cstr fname).head? = some pathSeparator then
    (memcpy [] (cstr fname)).map fun path => some (none, path)
  else (findScript env (cstr fname) 0 {} (loadPath.map (Option.map cstr))).map
    (Option.map fun found => (some found.1, found.2))

/-! ## What the load path says -/

/-- A directory whose first component is `.` is one in the current directory. -/
def expand (env : Env) (dir : Bytes) : Option Bytes :=
  if dir = [dot] ∨ [dot, pathSeparator] <+: dir then env.cwd.map (· ++ dir.drop 1) else some dir

/-- The separator, where the directory does not end with one. -/
def separator (dir : Bytes) : Bytes :=
  if dir.getLast? = some pathSeparator then [] else [pathSeparator]

/-- The name in a directory. -/
def named (env : Env) (dir name : Bytes) : Option Bytes :=
  (expand env dir).map fun p => p ++ separator dir ++ name

/-- The paths that are looked at, in this order. -/
def candidates (path : Bytes) : List Bytes := [path, path ++ lox, path ++ so]

/-- What is looked at in a directory. -/
def candidatesIn (env : Env) (dir name : Bytes) : List Bytes :=
  (named env dir name).toList.flatMap candidates

/-- The first directory that has one of the three, and which it has. -/
def pick (env : Env) (name : Bytes) (i : ℕ) (loadPath : List (Option Bytes)) : Option (ℕ × Bytes) :=
  (loadPath.zipIdx i).findSome? fun el => el.1.bind fun dir =>
    ((candidatesIn env dir name).find? env.fileReadable).map fun path => (el.2, path)

/-- The search finds what the load path says. -/
def Follows (env : Env) (loadPath : List (Option Bytes)) (fname : Bytes) : Prop :=
  search env loadPath fname =
    .ok ((pick env (cstr fname) 0 (loadPath.map (Option.map cstr))).map
      fun found => (some found.1, found.2))

/-! ## Where it makes no difference -/

/-- The directory as the buffer has it. -/
def front (env : Env) (dir : Bytes) : Option Bytes :=
  if dir.head? = some dot then
    (env.getcwd scriptDirMax).map fun curdir => curdir ++ dir.drop curdir.length
  else some dir

/-- Copying the current directory over the directory puts it in the place of the dot. -/
def KeepsRest (env : Env) (dir : Bytes) : Prop :=
  dir.head? ≠ some dot ∨ dir = [dot] ∨ [dot, pathSeparator] <+: dir ∧ env.cwd = some [pathSeparator]

/-- `.lox` is appended to the path. -/
def AddsLox (path : Bytes) : Prop := ¬ lox <:+: path ∧ path.length + 4 < scriptPathMax

/-- `.so` is appended to the path. -/
def AddsSO (path : Bytes) : Prop := ¬ so <:+: path ∧ path.length + 3 < scriptPathMax

instance (path : Bytes) : Decidable (AddsLox path) := inferInstanceAs (Decidable (_ ∧ _))

instance (path : Bytes) : Decidable (AddsSO path) := inferInstanceAs (Decidable (_ ∧ _))

/-- The paths that the code looks at. -/
def tries (path : Bytes) : List Bytes :=
  path :: if AddsLox path then
    (path ++ lox) :: if AddsSO (path ++ lox) then [path ++ lox ++ so] else []
  else if AddsSO path then [path ++ so] else []

/-- The path is readable; or it is with `.lox`, where that is tried; or else it is not with `.so`,
unless the code did not try `.lox` first. -/
def ExtensionsAgree (readable : Bytes → Bool) (path : Bytes) : Prop :=
  readable path = true ∨
  (AddsLox path ∧ (readable (path ++ lox) = true ∨ readable (path ++ so) = false ∧
    (AddsSO (path ++ lox) → readable (path ++ lox ++ so) = false))) ∨
  (¬ AddsLox path ∧ readable (path ++ lox) = false ∧ (readable (path ++ so) = true → AddsSO path))

/-- In this directory the code finds what the load path says. -/
def AgreesIn (env : Env) (dir name path : Bytes) : Prop :=
  (KeepsRest env dir ∧ ExtensionsAgree env.fileReadable path) ∨
  (¬ KeepsRest env dir ∧ (∀ p ∈ tries path, env.fileReadable p = false) ∧
    ∀ p ∈ candidatesIn env dir name, env.fileReadable p = false)

/-- In all directories up to the one that the load path says the paths fit the buffer, and the
code finds what the load path says. A current directory that does not fit its buffer is asked for
once. -/
def Right (env : Env) (name : Bytes) : Bool → List (Option Bytes) → Prop
  | _, [] => True
  | asked, none :: els => Right env name asked els
  | asked, some dir :: els =>
    dir.length < scriptPathMax ∧
    match front env dir with
    | none => asked = false ∧ (∀ p ∈ candidatesIn env dir name, env.fileReadable p = false) ∧
        Right env name true els
    | some p => dir ≠ [] ∧ (p ++ separator dir ++ name).length < scriptPathMax ∧
        AgreesIn env dir name (p ++ separator dir ++ name) ∧
        ((∀ p ∈ candidatesIn env dir name, env.fileReadable p = false) → Right env name asked els)

/-! ## One directory -/

section

variable {env : Env} {path dir name : Bytes} {c : Curdir}

/-- The extensions in the order in which they are tried. -/
theorem readableCheck_eq (env : Env) (path : Bytes) :
    readableCheck env false false path = (tries path).find? env.fileReadable := by
  unfold tries
  rw [readableCheck, List.find?_cons]
  by_cases hpath : env.fileReadable path = true
  · rw [if_pos hpath, hpath]
  rw [if_neg hpath]
  rw [Bool.not_eq_true] at hpath
  rw [hpath]
  dsimp only
  by_cases hlox : AddsLox path
  · rw [if_pos ⟨rfl, hlox⟩, if_pos hlox, readableCheck, List.find?_cons]
    by_cases hreadable : env.fileReadable (path ++ lox) = true
    · rw [if_pos hreadable, hreadable]
    rw [if_neg hreadable, if_neg (fun h => Bool.noConfusion h.1)]
    rw [Bool.not_eq_true] at hreadable
    rw [hreadable]
    dsimp only
    by_cases hso : AddsSO (path ++ lox)
    · rw [if_pos ⟨rfl, hso⟩, if_pos hso, readableCheck, List.find?_singleton]
      by_cases hboth : env.fileReadable (path ++ lox ++ so) = true
      · rw [if_pos hboth, if_pos hboth]
      · rw [if_neg hboth, if_neg hboth, if_neg (fun h => Bool.noConfusion h.1),
          if_neg (fun h => Bool.noConfusion h.1)]
    · rw [if_neg (fun h => hso h.2), if_neg hso]
      rfl
  · rw [if_neg (fun h => hlox h.2), if_neg hlox]
    by_cases hso : AddsSO path
    · rw [if_pos ⟨rfl, hso⟩, if_pos hso, readableCheck, List.find?_singleton]
      -- what keeps `.lox` from being tried keeps it from being tried behind `.so`
      have hstill : ¬ AddsLox (path ++ so) := by
        intro h
        apply hlox
        refine ⟨fun hwithin => h.1 (hwithin.trans (List.prefix_append path so).isInfix), ?_⟩
        have := h.2
        rw [List.length_append] at this
        omega
      by_cases hreadable : env.fileReadable (path ++ so) = true
      · rw [if_pos hreadable, if_pos hreadable]
      · rw [if_neg hreadable, if_neg hreadable, if_neg (fun h => hstill h.2),
          if_neg (fun h => Bool.noConfusion h.1)]
    · rw [if_neg (fun h => hso h.2), if_neg hso]
      rfl

/-- Both find the same, if the paths are the same. -/
theorem extensionsAgree_iff (readable : Bytes → Bool) (path : Bytes) :
    (tries path).find? readable = (candidates path).find? readable ↔
      ExtensionsAgree readable path := by
  have hlox : lox ≠ so := by decide
  have hlox' : so ≠ lox := by decide
  have hboth : lox ++ so ≠ so := by decide
  unfold tries candidates ExtensionsAgree
  cases hpath : readable path with
  | true => simp [hpath]
  | false =>
    by_cases hadds : AddsLox path
    · rw [if_pos hadds]
      cases hl : readable (path ++ lox) with
      | true => simp [hpath, hl, hadds]
      | false =>
        by_cases hso : AddsSO (path ++ lox)
        · cases hs : readable (path ++ so) <;> cases hls : readable (path ++ lox ++ so) <;>
            simp_all
        · cases hs : readable (path ++ so) <;> simp [hpath, hl, hadds, hso, hs]
    · rw [if_neg hadds]
      cases hl : readable (path ++ lox) <;> cases hs : readable (path ++ so) <;>
        by_cases hso : AddsSO path <;> simp [hpath, hl, hadds, hso, hs, hlox']

/-- Where the rest of the directory is kept, the path is the one that the load path says. -/
theorem named_of_keepsRest {p : Bytes} (name : Bytes) (hkeeps : KeepsRest env dir)
    (hfront : front env dir = some p) :
    named env dir name = some (p ++ separator dir ++ name) := by
  unfold named expand
  unfold front at hfront
  rcases hkeeps with hdot | rfl | ⟨hpre, hcwd⟩
  · rw [if_neg hdot] at hfront
    cases hfront
    rw [if_neg]
    · rfl
    · rintro (rfl | hpre)
      · exact hdot rfl
      · rcases hpre with ⟨q, rfl⟩
        exact hdot rfl
  · rw [if_pos (by rfl)] at hfront
    rcases Option.map_eq_some_iff.mp hfront with ⟨curdir, hcurdir, rfl⟩
    rcases Option.filter_eq_some_iff.mp hcurdir with ⟨hcwd, -⟩
    have hroot := env.rooted curdir hcwd
    rcases curdir with _ | ⟨b, curdir⟩
    · cases hroot
    rw [if_pos (.inl rfl), hcwd]
    simp
  · rcases hpre with ⟨q, rfl⟩
    rw [if_pos (by rfl)] at hfront
    rcases Option.map_eq_some_iff.mp hfront with ⟨curdir, hcurdir, rfl⟩
    rcases Option.filter_eq_some_iff.mp hcurdir with ⟨hcwd', -⟩
    rw [hcwd] at hcwd'
    cases hcwd'
    rw [if_pos (.inr (List.prefix_append _ _)), hcwd]
    rfl

/-- The extensions have no separator. -/
theorem mem_tries {q : Bytes} (h : q ∈ tries path) :
    ∃ e, e.count pathSeparator = 0 ∧ q = path ++ e := by
  unfold tries at h
  rw [List.mem_cons] at h
  rcases h with rfl | h
  · exact ⟨[], rfl, (List.append_nil _).symm⟩
  split at h
  · rw [List.mem_cons] at h
    rcases h with rfl | h
    · exact ⟨lox, by decide, rfl⟩
    split at h
    · rw [List.mem_singleton] at h
      exact ⟨lox ++ so, by decide, by rw [h, List.append_assoc]⟩
    · simp at h
  split at h
  · rw [List.mem_singleton] at h
    exact ⟨so, by decide, h⟩
  · simp at h

theorem mem_candidates {q : Bytes} (h : q ∈ candidates path) :
    ∃ e, e.count pathSeparator = 0 ∧ q = path ++ e := by
  simp only [candidates, List.mem_cons, List.not_mem_nil, or_false] at h
  rcases h with rfl | rfl | rfl
  · exact ⟨[], rfl, (List.append_nil _).symm⟩
  · exact ⟨lox, by decide, rfl⟩
  · exact ⟨so, by decide, rfl⟩

/-- Where the rest is not kept, the code never looks at a path that the load path says: it begins
with the current directory instead of the dot, or has lost a separator. -/
theorem tries_ne_candidates {p q r : Bytes} (hloses : ¬ KeepsRest env dir)
    (hfront : front env dir = some p) (hq : q ∈ tries (p ++ separator dir ++ name))
    (hr : r ∈ candidatesIn env dir name) : q ≠ r := by
  unfold KeepsRest at hloses
  rw [not_or, not_not, not_or] at hloses
  rcases hloses with ⟨hdot, hne, hroot⟩
  unfold front at hfront
  rw [if_pos hdot] at hfront
  rcases Option.map_eq_some_iff.mp hfront with ⟨curdir, hcurdir, rfl⟩
  rcases Option.filter_eq_some_iff.mp hcurdir with ⟨hcwd, -⟩
  have hhead := env.rooted curdir hcwd
  rcases curdir with _ | ⟨b, curdir⟩
  · cases hhead
  cases hhead
  rcases mem_tries hq with ⟨e, he, rfl⟩
  unfold candidatesIn named expand at hr
  by_cases hpre : [dot, pathSeparator] <+: dir
  · rw [if_pos (.inr hpre), hcwd] at hr
    simp only [Option.map_some, Option.toList_some, List.flatMap_cons, List.flatMap_nil,
      List.append_nil] at hr
    rcases mem_candidates hr with ⟨e', he', rfl⟩
    rcases hpre with ⟨rest, rfl⟩
    rcases curdir with _ | ⟨b', curdir⟩
    · exact absurd ⟨List.prefix_append _ _, hcwd⟩ hroot
    intro heq
    -- the separator behind the dot is overwritten
    have hcount := congrArg (List.count pathSeparator) heq
    have hdrop : (rest.drop curdir.length).count pathSeparator ≤ rest.count pathSeparator :=
      (List.drop_sublist _ _).count_le _
    have hover : (([dot, pathSeparator] ++ rest).drop
        (pathSeparator :: b' :: curdir).length).count pathSeparator =
        (rest.drop curdir.length).count pathSeparator := rfl
    have hkept : (([dot, pathSeparator] ++ rest).drop 1).count pathSeparator =
        rest.count pathSeparator + 1 := List.count_cons_self
    simp only [List.count_append, he, he', hover, hkept] at hcount
    omega
  · rw [if_neg (not_or.mpr ⟨hne, hpre⟩)] at hr
    simp only [Option.map_some, Option.toList_some, List.flatMap_cons, List.flatMap_nil,
      List.append_nil] at hr
    rcases mem_candidates hr with ⟨e', he', rfl⟩
    intro heq
    have hheads := congrArg List.head? heq
    cases dir with
    | nil => cases hdot
    | cons d dir =>
      cases hdot
      have hsame : some pathSeparator = some dot := hheads
      exact absurd hsame (by decide)

/-- The code finds in a directory what the load path says exactly under the condition. -/
theorem agreesIn_iff {p : Bytes} (name : Bytes) (hfront : front env dir = some p) :
    (tries (p ++ separator dir ++ name)).find? env.fileReadable =
        (candidatesIn env dir name).find? env.fileReadable ↔
      AgreesIn env dir name (p ++ separator dir ++ name) := by
  unfold AgreesIn
  by_cases hkeeps : KeepsRest env dir
  · have hnamed := named_of_keepsRest name hkeeps hfront
    have hcandidates : candidatesIn env dir name = candidates (p ++ separator dir ++ name) := by
      unfold candidatesIn
      rw [hnamed]
      simp
    rw [hcandidates, extensionsAgree_iff]
    simp [hkeeps]
  · rw [eq_comm]
    constructor
    · intro heq
      refine .inr ⟨hkeeps, ?_⟩
      cases hfound : (tries (p ++ separator dir ++ name)).find? env.fileReadable with
      | some q =>
        rw [hfound] at heq
        exact absurd rfl (tries_ne_candidates hkeeps hfront (List.mem_of_find?_eq_some hfound)
          (List.mem_of_find?_eq_some heq))
      | none =>
        rw [hfound] at heq
        simp only [List.find?_eq_none, Bool.not_eq_true] at hfound heq
        exact ⟨hfound, heq⟩
    · rintro (⟨h, -⟩ | ⟨-, htries, hcandidates⟩)
      · exact absurd h hkeeps
      · rw [List.find?_eq_none.mpr (by simpa using hcandidates),
          List.find?_eq_none.mpr (by simpa using htries)]

/-! ## The loop -/

/-- What the two variables hold, when the current directory has been asked for (`asked`) or not. -/
def Known (env : Env) (asked : Bool) (c : Curdir) : Prop :=
  match env.getcwd scriptDirMax with
  | none => c = if asked then ⟨none, true⟩ else {}
  | some curdir => c = {} ∨ c = ⟨some curdir, true⟩

theorem fromCurdir_some {asked : Bool} {p : Bytes} (h : Known env asked c)
    (hfront : front env dir = some p) :
    ∃ c', fromCurdir env c dir = .ok (some p, c') ∧ Known env asked c' := by
  unfold fromCurdir
  unfold front at hfront
  split at hfront
  · rename_i hdot
    rcases Option.map_eq_some_iff.mp hfront with ⟨curdir, hcurdir, rfl⟩
    have hshort : curdir.length < scriptPathMax := by
      have := (Option.filter_eq_some_iff.mp hcurdir).2
      simp only [decide_eq_true_eq] at this
      unfold scriptDirMax at this
      unfold scriptPathMax
      omega
    unfold Known at h ⊢
    rw [hcurdir] at h ⊢
    rw [if_pos hdot]
    refine ⟨⟨some curdir, true⟩, ?_, .inr rfl⟩
    rcases h with rfl | rfl
    · simp [Curdir.asks, memcpy, hshort, Except.map]
    · simp [Curdir.asks, memcpy, hshort, Except.map]
  · rename_i hdot
    cases hfront
    exact ⟨c, if_neg hdot, h⟩

theorem fromCurdir_none {asked : Bool} (h : Known env asked c) (hfront : front env dir = none) :
    (asked = true → fromCurdir env c dir = .error .undefinedBehaviour) ∧
    (asked = false → ∃ c', fromCurdir env c dir = .ok (none, c') ∧ Known env true c') := by
  unfold fromCurdir
  unfold front at hfront
  split at hfront
  · rename_i hdot
    rw [Option.map_eq_none_iff] at hfront
    unfold Known at h ⊢
    rw [hfront] at h ⊢
    dsimp only at h ⊢
    rw [if_pos hdot]
    constructor
    · rintro rfl
      rw [if_pos rfl] at h
      rw [h]
      rfl
    · rintro rfl
      rw [if_neg Bool.false_ne_true] at h
      rw [h]
      exact ⟨⟨none, true⟩, rfl, rfl⟩
  · cases hfront

theorem addName_eq {p : Bytes} (hdir : dir ≠ []) :
    addName dir p name = if (p ++ separator dir ++ name).length < scriptPathMax
      then .ok (p ++ separator dir ++ name) else .error .undefinedBehaviour := by
  unfold addName separator
  rcases hlast : dir.getLast? with _ | b
  · exact absurd (List.getLast?_eq_none_iff.mp hlast) hdir
  dsimp only
  by_cases hb : b = pathSeparator
  · rw [if_neg (not_not.mpr hb), if_pos (congrArg some hb), List.append_nil]
    unfold strcat
    rw [List.length_append]
  · rw [if_pos hb, if_neg (fun h => hb (Option.some.inj h))]
    unfold strcat
    simp only [List.length_append, List.length_singleton]
    by_cases hfits : p.length + 1 + name.length < scriptPathMax
    · rw [if_pos (by omega), if_pos hfits]
      show (if (p ++ [pathSeparator]).length + name.length < scriptPathMax then _ else _) = _
      rw [if_pos (by simpa using hfits)]
    · rw [if_neg hfits]
      split
      · show (if (p ++ [pathSeparator]).length + name.length < scriptPathMax then _ else _) = _
        rw [if_neg (by simpa using hfits)]
      · rfl

/-- What is found is found in this round or in a later one. -/
theorem le_of_findScript {els : List (Option Bytes)} {i k : ℕ}
    (h : findScript env name k c els = .ok (some (i, path))) : k ≤ i := by
  induction els generalizing k c with
  | nil => cases h
  | cons el els ih =>
    cases el with
    | none => exact Nat.le_of_succ_le (ih h)
    | some dir =>
      unfold findScript at h
      rcases Except.bind_eq_ok.mp h with ⟨pathbuf, -, h⟩
      rcases Except.bind_eq_ok.mp h with ⟨found, -, h⟩
      split at h
      · exact Nat.le_of_succ_le (ih h)
      · rcases Except.bind_eq_ok.mp h with ⟨pathbuf, -, h⟩
        split at h
        · cases h
          exact le_rfl
        · exact Nat.le_of_succ_le (ih h)

theorem le_of_pick {els : List (Option Bytes)} {i k : ℕ}
    (h : pick env name k els = some (i, path)) : k ≤ i := by
  unfold pick at h
  rcases List.exists_of_findSome?_eq_some h with ⟨el, hel, hfound⟩
  rcases Option.bind_eq_some_iff.mp hfound with ⟨dir, -, hfound⟩
  rcases Option.map_eq_some_iff.mp hfound with ⟨path', -, heq⟩
  cases heq
  exact List.le_snd_of_mem_zipIdx hel

/-- The rounds of the loop find what the load path says exactly under the condition. -/
theorem findScript_iff {asked : Bool} {els : List (Option Bytes)} {i : ℕ} (h : Known env asked c) :
    findScript env name i c els = .ok (pick env name i els) ↔ Right env name asked els := by
  induction els generalizing asked i c with
  | nil =>
    simp only [Right, iff_true]
    rfl
  | cons el els ih =>
    cases el with
    | none =>
      show findScript env name (i + 1) c els = .ok (pick env name (i + 1) els) ↔ _
      exact ih h
    | some dir =>
      unfold findScript Right
      -- what the load path says: something in this directory, or what it says behind it
      have hpick : pick env name i (some dir :: els) =
          match (candidatesIn env dir name).find? env.fileReadable with
          | some path => some (i, path)
          | none => pick env name (i + 1) els := by
        unfold pick
        rw [List.zipIdx_cons, List.findSome?_cons]
        simp only [Option.bind_some]
        cases (candidatesIn env dir name).find? env.fileReadable <;> rfl
      by_cases hlong : dir.length < scriptPathMax
      swap
      · have hover : memcpy [] dir = .error .undefinedBehaviour := if_neg hlong
        rw [hover]
        simp [Except.bind, hlong]
      have hcopy : memcpy [] dir = .ok dir := by
        unfold memcpy
        rw [if_pos hlong, List.drop_nil, List.append_nil]
      rw [hcopy, hpick]
      show (fromCurdir env c dir).bind _ = _ ↔ _
      cases hfront : front env dir with
      | none =>
        dsimp only
        cases asked with
        | true =>
          rw [(fromCurdir_none h hfront).1 rfl]
          simp [Except.bind]
        | false =>
          rcases (fromCurdir_none h hfront).2 rfl with ⟨c', hc', hknown⟩
          rw [hc']
          show findScript env name (i + 1) c' els = _ ↔ _
          cases hfound : (candidatesIn env dir name).find? env.fileReadable with
          | none =>
            simp only [List.find?_eq_none, Bool.not_eq_true] at hfound
            rw [ih hknown]
            exact ⟨fun hright => ⟨hlong, rfl, hfound, hright⟩, fun hright => hright.2.2.2⟩
          | some path =>
            have hreadable := List.find?_some hfound
            have hmem := List.mem_of_find?_eq_some hfound
            constructor
            · intro heq
              exact absurd (le_of_findScript heq) (Nat.not_succ_le_self i)
            · rintro ⟨-, -, hnone, -⟩
              rw [hnone path hmem] at hreadable
              cases hreadable
      | some p =>
        dsimp only
        rcases fromCurdir_some h hfront with ⟨c', hc', hknown⟩
        rw [hc']
        show (addName dir p name).bind _ = _ ↔ _
        by_cases hdir : dir = []
        · have hunder : addName dir p name = .error .undefinedBehaviour := by rw [hdir]; rfl
          rw [hunder]
          simp [Except.bind, hdir]
        rw [addName_eq hdir]
        by_cases hfits : (p ++ separator dir ++ name).length < scriptPathMax
        swap
        · rw [if_neg hfits]
          exact ⟨fun heq => (by cases heq), fun hright => absurd hright.2.2.1 hfits⟩
        rw [if_pos hfits]
        show (match readableCheck env false false (p ++ separator dir ++ name) with
          | some path => Except.ok (some (i, path))
          | none => findScript env name (i + 1) c' els) = _ ↔ _
        rw [readableCheck_eq]
        have hagrees := agreesIn_iff name hfront
        cases htried : (tries (p ++ separator dir ++ name)).find? env.fileReadable with
        | some path =>
          rw [htried] at hagrees
          show Except.ok (some (i, path)) = _ ↔ _
          cases hfound : (candidatesIn env dir name).find? env.fileReadable with
          | some path' =>
            rw [hfound, Option.some.injEq] at hagrees
            have hreadable := List.find?_some hfound
            have hmem := List.mem_of_find?_eq_some hfound
            constructor
            · intro heq
              have hsame : path = path' := by simpa using heq
              refine ⟨hlong, hdir, hfits, hagrees.mp hsame, fun hnone => ?_⟩
              rw [hnone path' hmem] at hreadable
              cases hreadable
            · rintro ⟨-, -, -, hin, -⟩
              rw [hagrees.mpr hin]
          | none =>
            rw [hfound] at hagrees
            constructor
            · intro heq
              -- the load path says nothing before the next directory
              have hlater : pick env name (i + 1) els = some (i, path) :=
                (Except.ok.inj heq).symm
              exact absurd (le_of_pick hlater) (Nat.not_succ_le_self i)
            · rintro ⟨-, -, -, hin, -⟩
              cases hagrees.mpr hin
        | none =>
          rw [htried] at hagrees
          show findScript env name (i + 1) c' els = _ ↔ _
          cases hfound : (candidatesIn env dir name).find? env.fileReadable with
          | some path' =>
            rw [hfound] at hagrees
            constructor
            · intro heq
              exact absurd (le_of_findScript heq) (Nat.not_succ_le_self i)
            · rintro ⟨-, -, -, hin, -⟩
              cases hagrees.mpr hin
          | none =>
            rw [hfound] at hagrees
            simp only [List.find?_eq_none, Bool.not_eq_true] at hfound
            show findScript env name (i + 1) c' els = .ok (pick env name (i + 1) els) ↔ _
            rw [ih hknown]
            exact ⟨fun hright => ⟨hlong, hdir, hfits, hagrees.mp rfl, fun _ => hright⟩,
              fun hright => hright.2.2.2.2 hfound⟩

end

/-- The search finds what the load path says exactly for relative names, where the paths fit and
no directory makes a difference. -/
theorem follows_iff (env : Env) (loadPath : List (Option Bytes)) (fname : Bytes) :
    Follows env loadPath fname ↔ (cstr fname).head? ≠ some pathSeparator ∧
      Right env (cstr fname) false (loadPath.map (Option.map cstr)) := by
  have hknown : Known env false {} := by
    unfold Known
    split
    · rfl
    · exact .inl rfl
  unfold Follows search
  by_cases habs : (cstr fname).head? = some pathSeparator
  · rw [if_pos habs]
    refine ⟨fun h => ?_, fun h => absurd habs h.1⟩
    -- an absolute name is found in no directory
    rcases Except.map_eq_ok.mp h with ⟨path, -, heq⟩
    cases hpick : pick env (cstr fname) 0 (loadPath.map (Option.map cstr)) with
    | none =>
      rw [hpick] at heq
      cases heq
    | some found =>
      rw [hpick] at heq
      cases heq
  · rw [if_neg habs, ← findScript_iff hknown]
    constructor
    · intro h
      refine ⟨habs, ?_⟩
      rcases Except.map_eq_ok.mp h with ⟨found, hfound, heq⟩
      rw [hfound]
      congr 1
      refine Option.map_injective ?_ heq
      rintro ⟨i, p⟩ ⟨j, q⟩ hpair
      simpa using hpair
    · rintro ⟨-, h⟩
      rw [h]
      rfl

/-! ## Loading what was found -/

/-- `get_filename_ext` -/
def getFilenameExt (filename : Bytes) : Bytes :=
  let ext := (filename.reverse.takeWhile (· ≠ dot)).reverse
  if ext.length + 1 < filename.length then ext else []

/-- `hasSharedObjectExtension` -/
def hasSharedObjectExtension (path : Bytes) : Bool := so.tail.isPrefixOf (getFilenameExt path)

/-- What is in the files: scripts that compile, and shared objects in which `dlsym` finds their
`Init` function. -/
structure Files where
  compiles : Bytes → Bool
  initializes : Bytes → Bool

/-- What runs on behalf of a call of `loadScriptHelper`. -/
inductive Running where
  | script (path : Bytes)
  /-- `initFn()` -/
  | extension (path : Bytes) (checkLoaded : Bool)

/-- `vm.loadedScripts`, the calls of `loadScriptHelper` that have not returned, the innermost
first, and as a ghost the files that `requireScript` loaded. -/
structure Loader where
  loadedScripts : List Bytes := []
  running : List Running := []
  loads : List Bytes := []

/-- What a program does: it calls `loadScript` or (`checkLoaded`) `requireScript`, or what runs
returns or is left by an error. -/
inductive Act where
  | load (checkLoaded : Bool) (env : Env) (files : Files) (loadPath : List (Option Bytes))
      (fname : Bytes)
  | returns
  | throws

namespace Loader

/-- Ghost: the load is counted. -/
def count (s : Loader) (checkLoaded : Bool) (path : Bytes) : List Bytes :=
  if checkLoaded then s.loads ++ [path] else s.loads

/-- `vec_push(&vm.loadedScripts, OBJ_VAL(fpath))` -/
def note (s : Loader) (checkLoaded : Bool) (path : Bytes) : List Bytes :=
  if checkLoaded then s.loadedScripts ++ [path] else s.loadedScripts

/-- `loadScriptHelper` behind the search. An error that is thrown leaves the state. -/
def loadFound (s : Loader) (checkLoaded : Bool) (files : Files) (path : Bytes) : Loader :=
  if checkLoaded && s.loadedScripts.contains path then s
  else if hasSharedObjectExtension path then
    if files.initializes path then
      { s with
        running := .extension path checkLoaded :: s.running
        loads := s.count checkLoaded path }
    else s
  else if files.compiles path then
    { loadedScripts := s.note checkLoaded path
      running := .script path :: s.running
      loads := s.count checkLoaded path }
  else s

/-- One step; `none` where the search is undefined, or nothing runs that could return. -/
def step (s : Loader) : Act → Option Loader
  | .load checkLoaded env files loadPath fname =>
    match search env loadPath fname with
    | .error _ => none
    | .ok none => some s
    | .ok (some found) => some (s.loadFound checkLoaded files found.2)
  | .returns =>
    match s.running with
    | [] => none
    | .script _ :: running => some { s with running }
    | .extension path checkLoaded :: running =>
      some { s with loadedScripts := s.note checkLoaded path, running }
  | .throws =>
    match s.running with
    | [] => none
    | _ :: running => some { s with running }

def run (s : Loader) : List Act → Option Loader
  | [] => some s
  | a :: acts => (s.step a).bind fun s' => run s' acts

/-- `requireScript` loaded no file twice. -/
def LoadsOnce (s : Loader) : Prop := s.loads.Nodup

/-- No request of `requireScript` finds a shared object whose `Init` function was called before
and is not noted: it still runs, or was left by an error. -/
def Orderly (s : Loader) : Act → Prop
  | .load true env files loadPath fname => ∀ i path,
      search env loadPath fname = .ok (some (i, path)) → hasSharedObjectExtension path = true →
        files.initializes path = true → path ∈ s.loads → path ∈ s.loadedScripts
  | _ => True

/-- All requests along the run are orderly. -/
def OrderlyAlong (s : Loader) : List Act → Prop
  | [] => True
  | a :: acts => s.Orderly a ∧ ∀ s', s.step a = some s' → OrderlyAlong s' acts

/-- Every script that was loaded is noted. -/
def Noted (s : Loader) : Prop :=
  ∀ path ∈ s.loads, hasSharedObjectExtension path = false → path ∈ s.loadedScripts

variable {s s' : Loader} {a : Act} {files : Files} {path : Bytes}

theorem mem_note {checkLoaded : Bool} {p : Bytes} (h : p ∈ s.loadedScripts) :
    p ∈ s.note checkLoaded path := by
  unfold note
  split
  · exact List.mem_append_left _ h
  · exact h

theorem nodup_concat {l : List Bytes} (h : l.Nodup) : (l ++ [path]).Nodup ↔ path ∉ l := by
  rw [← List.concat_eq_append, List.nodup_concat]
  exact ⟨fun hboth => hboth.1, fun hnot => ⟨hnot, h⟩⟩

theorem prefix_count (s : Loader) (checkLoaded : Bool) (path : Bytes) :
    s.loads <+: s.count checkLoaded path := by
  unfold count
  split
  · exact List.prefix_append _ _
  · exact List.prefix_refl _

theorem step_grows (hstep : s.step a = some s') : s.loads <+: s'.loads := by
  cases a with
  | load checkLoaded env files loadPath fname =>
    unfold step at hstep
    dsimp only at hstep
    split at hstep
    · cases hstep
    · cases hstep
      exact List.prefix_refl _
    · cases hstep
      unfold loadFound
      split
      · exact List.prefix_refl _
      split
      · split
        · exact prefix_count _ _ _
        · exact List.prefix_refl _
      · split
        · exact prefix_count _ _ _
        · exact List.prefix_refl _
  | returns =>
    unfold step at hstep
    dsimp only at hstep
    split at hstep
    · cases hstep
    · cases hstep
      exact List.prefix_refl _
    · cases hstep
      exact List.prefix_refl _
  | throws =>
    unfold step at hstep
    dsimp only at hstep
    split at hstep
    · cases hstep
    · cases hstep
      exact List.prefix_refl _

theorem run_grows {acts : List Act} (h : s.run acts = some s') : s.loads <+: s'.loads := by
  induction acts generalizing s with
  | nil =>
    cases h
    exact List.prefix_refl _
  | cons a acts ih =>
    rcases Option.bind_eq_some_iff.mp h with ⟨s₁, hstep, hrest⟩
    exact (step_grows hstep).trans (ih hrest)

/-- What is loaded by one call. -/
theorem loadFound_true (h : s.Noted) (hnodup : s.LoadsOnce) :
    (s.loadFound true files path).Noted ∧
      ((s.loadFound true files path).LoadsOnce ↔ (hasSharedObjectExtension path = true →
        files.initializes path = true → path ∈ s.loads → path ∈ s.loadedScripts)) := by
  unfold loadFound
  rw [Bool.true_and]
  split
  · rename_i hloaded
    have hmem : path ∈ s.loadedScripts := by simpa using hloaded
    exact ⟨h, iff_of_true hnodup fun _ _ _ => hmem⟩
  rename_i hnew
  have hnew' : path ∉ s.loadedScripts := by simpa using hnew
  split
  · rename_i hso
    split
    · rename_i hinit
      constructor
      · intro p hp hp'
        rcases List.mem_append.mp hp with hp | hp
        · exact h p hp hp'
        · rw [List.mem_singleton.mp hp, hso] at hp'
          cases hp'
      · show (s.loads ++ [path]).Nodup ↔ _
        rw [nodup_concat hnodup]
        exact ⟨fun hnot _ _ hmem => absurd hmem hnot,
          fun horderly hmem => hnew' (horderly hso hinit hmem)⟩
    · rename_i hinit
      exact ⟨h, iff_of_true hnodup fun _ hi => absurd hi hinit⟩
  rename_i hscript
  rw [Bool.not_eq_true] at hscript
  have hno : hasSharedObjectExtension path = true → files.initializes path = true →
      path ∈ s.loads → path ∈ s.loadedScripts := by
    intro hso
    rw [hscript] at hso
    cases hso
  split
  · constructor
    · intro p hp hp'
      show p ∈ s.loadedScripts ++ [path]
      rcases List.mem_append.mp hp with hp | hp
      · exact List.mem_append_left _ (h p hp hp')
      · exact List.mem_append_right _ hp
    · -- a script that was loaded before is noted
      have hfirst : path ∉ s.loads := by
        intro hmem
        exact hnew' (h path hmem hscript)
      exact iff_of_true ((nodup_concat hnodup).mpr hfirst) hno
  · exact ⟨h, iff_of_true hnodup hno⟩

/-- `loadScript` is not counted. -/
theorem loadFound_false (h : s.Noted) :
    (s.loadFound false files path).Noted ∧ (s.loadFound false files path).loads = s.loads := by
  unfold loadFound
  rw [Bool.false_and, if_neg Bool.false_ne_true]
  split
  · split
    · exact ⟨h, rfl⟩
    · exact ⟨h, rfl⟩
  · split
    · exact ⟨h, rfl⟩
    · exact ⟨h, rfl⟩

/-- One step loads no file a second time exactly if it is orderly. -/
theorem step_loadsOnce_iff (h : s.Noted) (hnodup : s.LoadsOnce) (hstep : s.step a = some s') :
    s'.Noted ∧ (s'.LoadsOnce ↔ s.Orderly a) := by
  cases a with
  | load checkLoaded env files loadPath fname =>
    unfold step at hstep
    dsimp only at hstep
    rcases hsearch : search env loadPath fname with e | found
    · rw [hsearch] at hstep
      cases hstep
    rw [hsearch] at hstep
    rcases found with _ | ⟨i, path⟩
    · cases hstep
      refine ⟨h, iff_of_true hnodup ?_⟩
      cases checkLoaded with
      | false => trivial
      | true =>
        intro j p hp
        rw [hsearch] at hp
        cases hp
    cases hstep
    cases checkLoaded with
    | false =>
      rcases loadFound_false h with ⟨hnoted, hloads⟩
      refine ⟨hnoted, iff_of_true ?_ trivial⟩
      unfold LoadsOnce
      rw [hloads]
      exact hnodup
    | true =>
      rcases loadFound_true h hnodup with ⟨hnoted, hiff⟩
      refine ⟨hnoted, hiff.trans ?_⟩
      constructor
      · intro horderly j p hp
        rw [hsearch] at hp
        cases hp
        exact horderly
      · intro horderly
        exact horderly i path hsearch
  | returns =>
    unfold step at hstep
    dsimp only at hstep
    split at hstep
    · cases hstep
    · cases hstep
      exact ⟨h, iff_of_true hnodup trivial⟩
    · cases hstep
      exact ⟨fun p hp hp' => mem_note (h p hp hp'), iff_of_true hnodup trivial⟩
  | throws =>
    unfold step at hstep
    dsimp only at hstep
    split at hstep
    · cases hstep
    · cases hstep
      exact ⟨h, iff_of_true hnodup trivial⟩

/-- From a state in which no file was loaded twice. -/
theorem run_loadsOnce_iff {acts : List Act} (h : s.Noted) (hnodup : s.LoadsOnce)
    (hrun : s.run acts = some s') : s'.LoadsOnce ↔ s.OrderlyAlong acts := by
  induction acts generalizing s with
  | nil =>
    cases hrun
    exact iff_of_true hnodup trivial
  | cons a acts ih =>
    rcases Option.bind_eq_some_iff.mp hrun with ⟨s₁, hstep, hrest⟩
    rcases step_loadsOnce_iff h hnodup hstep with ⟨hnoted, hiff⟩
    constructor
    · intro hend
      -- a file that is loaded twice now stays so
      have hnow : s₁.LoadsOnce := hend.sublist (run_grows hrest).sublist
      refine ⟨hiff.mp hnow, fun s₂ hs₂ => ?_⟩
      rw [hstep] at hs₂
      cases hs₂
      exact (ih hnoted hnow hrest).mp hend
    · rintro ⟨hfirst, hlater⟩
      exact (ih hnoted (hiff.mpr hfirst) hrest).mpr (hlater s₁ hstep)

end Loader

/-! ## Lookup and loading -/

/-- The search finds what the load path says exactly for relative names and where no directory
makes a difference, and no file is loaded twice exactly if no `Init` function is cut short or
entered again. -/
theorem loading_iff (env : Env) (loadPath : List (Option Bytes)) (fname : Bytes)
    (acts : List Act) :
    (Follows env loadPath fname ↔ (cstr fname).head? ≠ some pathSeparator ∧
      Right env (cstr fname) false (loadPath.map (Option.map cstr))) ∧
    ∀ s, Loader.run {} acts = some s → (s.LoadsOnce ↔ Loader.OrderlyAlong {} acts) := by
  refine ⟨follows_iff env loadPath fname, fun s hrun => ?_⟩
  exact Loader.run_loadsOnce_iff (fun p hp => absurd hp List.not_mem_nil) List.nodup_nil hrun

/-- `/a/x.lox` and nothing else -/
def oneScript : Env where
  fileReadable p := p = [47, 97, 47, 120] ++ lox
  cwd := some [47, 97]
  rooted p hp := by
    cases hp
    rfl

/-- `/a/x.so` and nothing else -/
def oneExtension : Env where
  fileReadable p := p = [47, 97, 47, 120] ++ so
  cwd := some [47, 97]
  rooted p hp := by
    cases hp
    rfl

def allLoad : Files := ⟨fun _ => true, fun _ => true⟩

/-- `requireScript("x")` with the load path `["/a"]`, twice. -/
theorem loading_iff_oneScript :
    Follows oneScript [some [47, 97]] [120] ∧
      ∃ s, Loader.run {} [.load true oneScript allLoad [some [47, 97]] [120],
        .load true oneScript allLoad [some [47, 97]] [120], .returns] = some s ∧ s.LoadsOnce := by
  constructor
  · refine (loading_iff _ _ _ []).1.mpr ⟨by decide, ⟨by decide, ?_⟩⟩
    show _ ∧ _ ∧ _ ∧ (_ → True)
    refine ⟨by decide, by decide, .inl ⟨.inl (by decide), .inr (.inl ⟨?_, .inl ?_⟩)⟩,
      fun _ => trivial⟩
    · exact ⟨by decide +kernel, by decide⟩
    · decide
  · have hsearch : search oneScript [some [47, 97]] [120] =
        .ok (some (some 0, [47, 97, 47, 120] ++ lox)) := by decide +kernel
    have horderly : ∀ s : Loader,
        s.Orderly (.load true oneScript allLoad [some [47, 97]] [120]) := by
      intro s i path hfound hso
      rw [hsearch] at hfound
      cases hfound
      exact absurd hso (by decide +kernel)
    rcases hrun : Loader.run {} [.load true oneScript allLoad [some [47, 97]] [120],
        .load true oneScript allLoad [some [47, 97]] [120], .returns] with _ | s
    · have hends : (Loader.run {} [.load true oneScript allLoad [some [47, 97]] [120],
        .load true oneScript allLoad [some [47, 97]] [120], .returns]).isSome = true := by
        decide +kernel
      rw [hrun] at hends
      cases hends
    · refine ⟨s, rfl, ((loading_iff oneScript [] [] _).2 s hrun).mpr ?_⟩
      exact ⟨horderly _, fun s₁ _ => ⟨horderly _, fun s₂ _ => ⟨trivial, fun _ _ => trivial⟩⟩⟩

/-- An extension that is there is not found, `./b` is not looked for in the current directory, a
long name is written over the end of the buffer, and an extension whose `Init` function throws is
loaded again. -/
theorem extension_not_found :
    ¬ Follows oneExtension [some [47, 97]] [120] ∧
      ¬ Follows { oneScript with fileReadable := fun p => p = [47, 97, 47, 98, 47, 120] }
        [some [46, 47, 98]] [120] ∧
      ¬ Follows oneScript [some [47, 97]] (List.replicate 5000 120) ∧
      ∃ s, Loader.run {} [.load true oneExtension allLoad [some [47, 97]] ([120] ++ so), .throws,
        .load true oneExtension allLoad [some [47, 97]] ([120] ++ so)] = some s ∧
        ¬ s.LoadsOnce := by
  refine ⟨by unfold Follows; decide +kernel, by unfold Follows; decide +kernel,
    by unfold Follows; decide +kernel, ?_⟩
  refine ⟨{ running := [.extension ([47, 97, 47, 120] ++ so) true], loads :=
    [[47, 97, 47, 120] ++ so, [47, 97, 47, 120] ++ so] }, ?_, by unfold Loader.LoadsOnce; decide⟩
  have hsearch : search oneExtension [some [47, 97]] ([120] ++ so) =
      .ok (some (some 0, [47, 97, 47, 120] ++ so)) := by decide +kernel
  have hfirst : ∀ s : Loader, s.step (.load true oneExtension allLoad [some [47, 97]]
      ([120] ++ so)) = some (s.loadFound true allLoad ([47, 97, 47, 120] ++ so)) := by
    intro s
    unfold Loader.step
    dsimp only
    rw [hsearch]
  have hso : hasSharedObjectExtension ([47, 97, 47, 120] ++ so) = true := by decide +kernel
  have hinit : ∀ loads, Loader.loadFound { loads } true allLoad ([47, 97, 47, 120] ++ so) =
      { running := [.extension ([47, 97, 47, 120] ++ so) true],
        loads := loads ++ [[47, 97, 47, 120] ++ so] } := by
    intro loads
    unfold Loader.loadFound
    rw [hso]
    rfl
  unfold Loader.run
  rw [hfirst, hinit]
  show (Loader.step { loads := [[47, 97, 47, 120] ++ so] } _).bind _ = _
  rw [hfirst, hinit]
  rfl

end Clox.LoadPath
