import Clox.Runtime.Printing

/-! # Reading and writing descriptors

The loops of `io.c` and `file.c` around `write(2)`, `read(2)` and `fread(3)`, each with a buffer on
the C stack. What the system answers, call by call, is an argument.
-/

namespace Clox.Files

open Clox.Printing (Bytes)

/-! ## `IOWrite` -/

section Write

def writebufSz : ℕ := 4092

/-- `size_t` arithmetic -/
def sizeT : ℕ := UInt64.size

def sizeSub (a b : ℕ) : ℕ := (a + sizeT - b) % sizeT

/-- A C object, with a size that a `size_t` holds. -/
structure Buffer where
  bytes : Bytes
  size_lt : bytes.length < sizeT

/-- The answer of a system call: an `errno` or a number of bytes. -/
abbrev Answer := Except ℕ ℕ

structure Writing where
  chunkSz : ℕ
  written : ℕ
  /-- What `ioWritebuf` holds. -/
  chunk : Bytes
  /-- The bytes that `write` has taken. -/
  handed : Bytes
  /-- Nothing was read from behind `buf` or `ioWritebuf`. -/
  inBounds : Bool

inductive Written
  | returned (written : ℕ)
  /-- "Cannot write to stdin" -/
  | stdin
  /-- "Error during write: %s" -/
  | failed (errno : ℕ)
  /-- In the call of `write` behind the last answer. -/
  | waiting
  deriving DecidableEq

/-- `memcpy(ioWritebuf, buf+written, chunkSz > WRITEBUF_SZ ? WRITEBUF_SZ : chunkSz)` -/
def Writing.fill (buf : Buffer) (w : Writing) : Writing :=
  let m := if w.chunkSz > writebufSz then writebufSz else w.chunkSz
  { w with
    chunk := (buf.bytes.drop w.written).take m ++ w.chunk.drop m
    inBounds := w.inBounds && decide (w.written + m ≤ buf.bytes.length) }

/-- `write(fd, ioWritebuf, chunkSz)` is called. -/
def Writing.call (w : Writing) : Writing :=
  { w with inBounds := w.inBounds && decide (w.chunkSz ≤ writebufSz) }

/-- It returns `res`, and `written += res`. -/
def Writing.took (w : Writing) (res : ℕ) : Writing :=
  { w with handed := w.handed ++ w.chunk.take res, written := (w.written + res) % sizeT }

/-- The body of the loop. -/
def Writing.next (buf : Buffer) (w : Writing) : Writing :=
  Writing.fill buf { w with chunkSz := sizeSub w.chunkSz w.written }

/-- `(written += res) && written < count`, and before that `res > 0` -/
def Writing.goesOn (buf : Buffer) (w : Writing) (res : ℕ) : Bool :=
  res > 0 ∧ w.written ≠ 0 ∧ w.written < buf.bytes.length

def writeLoop (buf : Buffer) : List Answer → Writing → Written × Writing
  | [], w => (.waiting, w.call)
  | .error errno :: _, w => (.failed errno, w.call)
  | .ok res :: answers, w =>
    if (w.call.took res).goesOn buf res then
      writeLoop buf answers ((w.call.took res).next buf)
    else (.returned (w.call.took res).written, w.call.took res)

/-- At the entry; `ioWritebuf` is not initialized. -/
def Writing.start (buf : Buffer) (garbage : Bytes) : Writing :=
  { chunkSz := if buf.bytes.length > writebufSz then writebufSz else buf.bytes.length
    written := 0, chunk := garbage, handed := [], inBounds := true }

def ioWrite (fd : ℕ) (buf : Buffer) (garbage : Bytes) (answers : List Answer) :
    Written × Writing :=
  if fd = 0 then (.stdin, .start buf garbage)
  else writeLoop buf answers ((Writing.start buf garbage).fill buf)

/-- The answers are those of `write`, which takes as many bytes as it is given at most. -/
def Answers (buf : Buffer) : List Answer → Writing → Prop
  | [], _ => True
  | .error _ :: _, _ => True
  | .ok res :: answers, w => res ≤ w.chunkSz ∧
      ((w.call.took res).goesOn buf res → Answers buf answers ((w.call.took res).next buf))

/-- Every byte is written once and in order, all of them unless `write` fails, and no buffer is
left. -/
structure WritesOnce (buf : Buffer) (r : Written × Writing) : Prop where
  handed : r.2.handed <+: buf.bytes
  complete : ∀ n, r.1 = .returned n → r.2.handed = buf.bytes ∧ n = buf.bytes.length
  inBounds : r.2.inBounds = true

/-- As long as bytes are missing no write returns 0, and the sum of the totals after each write does
not exceed the first chunk. `total` bytes are written and `totals` is that sum so far. -/
def Keeps (count : ℕ) : ℕ → ℕ → List Answer → Prop
  | _, _, [] => True
  | _, _, .error _ :: _ => True
  | total, totals, .ok res :: answers =>
    total + res < count → res ≠ 0 ∧ totals + (total + res) ≤ min count writebufSz ∧
      Keeps count (total + res) (totals + (total + res)) answers

variable {buf : Buffer} {w : Writing} {answers : List Answer}

/-- The state in front of a call of `write`. -/
structure Sound (buf : Buffer) (total totals : ℕ) (w : Writing) : Prop where
  written : w.written = total
  chunkSz : w.chunkSz + totals = min buf.bytes.length writebufSz
  total_le : total ≤ totals
  handed : w.handed = buf.bytes.take total
  chunk : w.chunk.take w.chunkSz = (buf.bytes.drop total).take w.chunkSz
  inBounds : w.inBounds = true

/-- The bounds stay broken, and a chunk larger than the buffer breaks them. -/
theorem writeLoop_inBounds (h : (writeLoop buf answers w).2.inBounds = true) :
    w.inBounds = true ∧ w.chunkSz ≤ writebufSz := by
  induction answers generalizing w with
  | nil => simpa [writeLoop, Writing.call] using h
  | cons answer answers ih =>
    cases answer with
    | error errno => simpa [writeLoop, Writing.call] using h
    | ok res =>
      rw [writeLoop] at h
      split at h
      · have hnext := (ih h).1
        simp only [Writing.next, Writing.fill, Writing.took, Writing.call, Bool.and_eq_true,
          decide_eq_true_eq] at hnext
        exact ⟨hnext.1.1, hnext.1.2⟩
      · simpa [Writing.took, Writing.call] using h

theorem sound_start (buf : Buffer) (garbage : Bytes) :
    Sound buf 0 0 ((Writing.start buf garbage).fill buf) := by
  have hmin : (if buf.bytes.length > writebufSz then writebufSz else buf.bytes.length) =
      min buf.bytes.length writebufSz := by
    split <;> omega
  have hfill : (if min buf.bytes.length writebufSz > writebufSz then writebufSz
      else min buf.bytes.length writebufSz) = min buf.bytes.length writebufSz := by
    split <;> omega
  refine ⟨rfl, hmin, le_refl 0, rfl, ?_, ?_⟩
  · simp only [Writing.fill, Writing.start, hmin, hfill, List.drop_zero]
    rw [List.take_append_of_le_length (by simp), List.take_take, min_self]
  · simp only [Writing.fill, Writing.start, hmin, hfill, Bool.true_and, decide_eq_true_eq]
    omega

theorem Sound.call_inBounds {total totals : ℕ} (h : Sound buf total totals w) :
    w.call.inBounds = true := by
  have hsz := h.chunkSz
  simp only [Writing.call, h.inBounds, Bool.true_and, decide_eq_true_eq]
  omega

/-- What `write` took of the chunk are the next bytes of the buffer. -/
theorem Sound.took_handed {total totals res : ℕ} (h : Sound buf total totals w)
    (hres : res ≤ w.chunkSz) : (w.call.took res).handed = buf.bytes.take (total + res) := by
  have htaken : w.chunk.take res = (buf.bytes.drop total).take res := by
    have htake := congrArg (fun b : Bytes => b.take res) h.chunk
    simpa [List.take_take, min_eq_left hres] using htake
  simp only [Writing.took, Writing.call, h.handed, htaken]
  rw [← List.take_add]

/-- A write that leaves bytes missing and keeps the chunk size from going below zero. -/
theorem Sound.next {total totals res : ℕ} (h : Sound buf total totals w) (hres : res ≤ w.chunkSz)
    (hsum : totals + (total + res) ≤ min buf.bytes.length writebufSz) :
    Sound buf (total + res) (totals + (total + res)) ((w.call.took res).next buf) := by
  have hsize := buf.size_lt
  have htook := h.took_handed hres
  obtain ⟨hwritten, hchunkSz, hle, -, -, hinBounds⟩ := h
  have hmod : (w.written + res) % sizeT = total + res := by
    rw [hwritten]
    exact Nat.mod_eq_of_lt (by omega)
  have hsub : sizeSub w.chunkSz (total + res) = w.chunkSz - (total + res) := by
    have heq : w.chunkSz + sizeT - (total + res) = (w.chunkSz - (total + res)) + sizeT := by omega
    rw [sizeSub, heq, Nat.add_mod_right]
    exact Nat.mod_eq_of_lt (by omega)
  have hfill : ∀ m, m ≤ writebufSz → (if m > writebufSz then writebufSz else m) = m := by
    intro m hm
    rw [if_neg (by omega)]
  have hm : w.chunkSz - (total + res) ≤ writebufSz := by omega
  have hcall : w.chunkSz ≤ writebufSz := by omega
  refine ⟨?_, ?_, by omega, ?_, ?_, ?_⟩
  · simpa [Writing.next, Writing.fill, Writing.took, Writing.call] using hmod
  · simp only [Writing.next, Writing.fill, Writing.took, Writing.call, hmod, hsub]
    omega
  · exact htook
  · simp only [Writing.next, Writing.fill, Writing.took, Writing.call, hmod, hsub, hfill _ hm]
    rw [List.take_append_of_le_length (by simp only [List.length_take, List.length_drop]; omega),
      List.take_take, min_self]
  · simp only [Writing.next, Writing.fill, Writing.took, Writing.call, hmod, hsub, hfill _ hm,
      hinBounds, Bool.true_and, Bool.and_eq_true, decide_eq_true_eq]
    omega

/-- A call of `write` that does not return. -/
theorem Sound.stopped {total totals : ℕ} (h : Sound buf total totals w) (r : Written)
    (hr : ∀ n, r ≠ .returned n) : WritesOnce buf (r, w.call) := by
  refine ⟨?_, fun n hn => absurd hn (hr n), h.call_inBounds⟩
  have hhanded : w.call.handed = buf.bytes.take total := h.handed
  rw [hhanded]
  exact List.take_prefix _ _

/-- The loop from a sound state on. -/
theorem writeLoop_iff {total totals : ℕ} (h : Sound buf total totals w)
    (hanswers : Answers buf answers w) :
    WritesOnce buf (writeLoop buf answers w) ↔ Keeps buf.bytes.length total totals answers := by
  induction answers generalizing w total totals with
  | nil =>
    have hw := h.stopped .waiting (by simp)
    simpa [writeLoop, Keeps] using hw
  | cons answer answers ih =>
    cases answer with
    | error errno =>
      have hw := h.stopped (.failed errno) (by simp)
      simpa [writeLoop, Keeps] using hw
    | ok res =>
      have hres : res ≤ w.chunkSz := hanswers.1
      have hsize := buf.size_lt
      have hchunkSz := h.chunkSz
      have hle := h.total_le
      have hwritten : (w.call.took res).written = total + res := by
        simp only [Writing.took, Writing.call, h.written]
        exact Nat.mod_eq_of_lt (by omega)
      have hgoesOn : (w.call.took res).goesOn buf res = true ↔
          res ≠ 0 ∧ total + res < buf.bytes.length := by
        simp only [Writing.goesOn, hwritten, decide_eq_true_eq]
        omega
      rw [writeLoop, Keeps]
      by_cases hmore : res ≠ 0 ∧ total + res < buf.bytes.length
      · rw [if_pos (hgoesOn.mpr hmore)]
        have hnext := hanswers.2 (hgoesOn.mpr hmore)
        by_cases hsum : totals + (total + res) ≤ min buf.bytes.length writebufSz
        · have hsound := h.next hres hsum
          rw [ih hsound hnext]
          constructor
          · intro hkeeps _
            exact ⟨hmore.1, hsum, hkeeps⟩
          · intro hkeeps
            exact (hkeeps hmore.2).2.2
        · -- the chunk size wraps around
          constructor
          · intro hw
            have hbig := (writeLoop_inBounds hw.inBounds).2
            have hnextSz : ((w.call.took res).next buf).chunkSz =
                sizeSub w.chunkSz (total + res) := by
              rw [← hwritten]
              rfl
            rw [hnextSz, sizeSub] at hbig
            have hmod : (w.chunkSz + sizeT - (total + res)) % sizeT =
                w.chunkSz + sizeT - (total + res) := Nat.mod_eq_of_lt (by omega)
            rw [hmod] at hbig
            simp only [sizeT, UInt64.size, writebufSz] at hbig hchunkSz hsum
            omega
          · intro hkeeps
            exact absurd (hkeeps hmore.2).2.1 hsum
      · rw [if_neg (fun hgo => hmore (hgoesOn.mp hgo)), hwritten]
        constructor
        · intro hw hlt
          have hcount := (hw.complete (total + res) rfl).2
          omega
        · intro hkeeps
          have hdone : total + res = buf.bytes.length := by
            by_contra hne
            have hlt : total + res < buf.bytes.length := by omega
            exact hmore ⟨(hkeeps hlt).1, hlt⟩
          have hall : (w.call.took res).handed = buf.bytes := by
            rw [h.took_handed hres, hdone, List.take_length]
          refine ⟨?_, ?_, h.call_inBounds⟩
          · simp only [hall]
            exact List.prefix_rfl
          · intro n hn
            cases hn
            exact ⟨hall, hdone⟩

/-- `IOWrite` writes every byte once if and only if the answers keep the chunk size from going
below zero and from coming to nothing too early. -/
theorem ioWrite_iff (fd : ℕ) (buf : Buffer) (garbage : Bytes) (answers : List Answer)
    (hanswers : Answers buf answers ((Writing.start buf garbage).fill buf)) :
    WritesOnce buf (ioWrite fd buf garbage answers) ↔
      fd = 0 ∨ Keeps buf.bytes.length 0 0 answers := by
  rw [ioWrite]
  by_cases hfd : fd = 0
  · rw [if_pos hfd]
    have hstdin : WritesOnce buf (.stdin, .start buf garbage) := by
      refine ⟨List.nil_prefix, ?_, rfl⟩
      intro n hn
      cases hn
    exact ⟨fun _ => Or.inl hfd, fun _ => hstdin⟩
  · rw [if_neg hfd, writeLoop_iff (sound_start buf garbage) hanswers]
    simp [hfd]

/-- 5 bytes, all taken at once. -/
def fiveBytes : Buffer := { bytes := [1, 2, 3, 4, 5], size_lt := by decide }

theorem ioWrite_iff_fiveBytes : WritesOnce fiveBytes (ioWrite 1 fiveBytes [] [.ok 5]) ↔
    1 = 0 ∨ Keeps 5 0 0 [.ok 5] :=
  ioWrite_iff 1 fiveBytes [] [.ok 5] ⟨by decide, fun h => absurd h (by decide)⟩

/-- After a first write of 3 bytes and a second one of 1 byte, `chunkSz` is 2 - 4. -/
theorem ioWrite_reads_past : ¬ ∀ (fd : ℕ) (buf : Buffer) (garbage : Bytes) (answers : List Answer),
    Answers buf answers ((Writing.start buf garbage).fill buf) →
      WritesOnce buf (ioWrite fd buf garbage answers) := by
  intro hall
  have hw := hall 1 fiveBytes [] [.ok 3, .ok 1]
    ⟨by decide, fun _ => ⟨by decide, fun _ => trivial⟩⟩
  exact absurd hw.inBounds (by decide)

end Write

/-! ## `IOReadFd` -/

section Read

def readbufSz : ℕ := 4092

/-- `EWOULDBLOCK` on Linux -/
def ewouldblock : ℕ := 11

structure Reading where
  numBytes : ℕ
  maxRead : ℕ
  nread : ℕ
  retBuf : Bytes
  /-- What the descriptor still has, up to the end of the file. -/
  content : Bytes
  /-- The bytes that each `read` gave. -/
  chunks : List Bytes
  /-- `nread` and `maxRead` at each call of `read`. -/
  asked : List (ℕ × ℕ)
  /-- It ended with `EWOULDBLOCK`. -/
  blocked : Bool
  /-- Nothing was stored outside of `fileReadBuf`. -/
  inBounds : Bool

inductive ReadEnd
  | returned (retBuf : Bytes)
  | null
  /-- "IO error: cannot read from closed fd: %d" -/
  | closed
  /-- "Cannot read from stdout/stdin" -/
  | output
  /-- "IO Error during read: %s" -/
  | failed (errno : ℕ)
  /-- In the call of `read` behind the last answer. -/
  | waiting
  deriving DecidableEq

/-- `read(fd, fileReadBuf, maxRead)` is called. -/
def Reading.call (r : Reading) : Reading :=
  { r with
    asked := r.asked ++ [(r.nread, r.maxRead)]
    inBounds := r.inBounds && decide (r.maxRead ≤ readbufSz) }

/-- The body of the loop, with `fileReadBuf[justRead] = 0`. -/
def Reading.got (untilEOF : Bool) (r : Reading) (justRead : ℕ) : Reading :=
  let numBytes := sizeSub r.numBytes justRead
  { r with
    inBounds := r.inBounds && decide (justRead < readbufSz)
    retBuf := r.retBuf ++ r.content.take justRead
    chunks := r.chunks ++ [r.content.take justRead]
    content := r.content.drop justRead
    nread := r.nread + justRead
    numBytes := numBytes
    maxRead :=
      if untilEOF then readbufSz else if numBytes > readbufSz then readbufSz else numBytes }

def readLoop (untilEOF nonBlock : Bool) : List Answer → Reading → ReadEnd × Reading
  | [], r => (.waiting, r.call)
  | .error errno :: _, r =>
    if nonBlock ∧ errno = ewouldblock then
      (if r.nread = 0 then .null else .returned r.retBuf, { r.call with blocked := true })
    else (.failed errno, r.call)
  | .ok justRead :: answers, r =>
    if justRead > 0 then readLoop untilEOF nonBlock answers (r.call.got untilEOF justRead)
    else (.returned r.retBuf, r.call)

def Reading.start (content : Bytes) (numBytes : UInt64) (untilEOF : Bool) : Reading :=
  { numBytes := numBytes.toNat
    maxRead :=
      if untilEOF then readbufSz - 1
      else if numBytes.toNat > readbufSz - 1 then readbufSz - 1 else numBytes.toNat
    nread := 0, retBuf := [], content := content, chunks := [], asked := [], blocked := false
    inBounds := true }

def ioReadFd (content : Bytes) (numBytes : UInt64) (untilEOF nonBlock : Bool)
    (answers : List Answer) : ReadEnd × Reading :=
  readLoop untilEOF nonBlock answers (.start content numBytes untilEOF)

/-- A `LxFile` with what is behind its descriptor. -/
structure LxFile where
  fd : ℕ
  isOpen : Bool
  content : Bytes

def ioRead (f : LxFile) (numBytes : UInt64) (untilEOF nonBlock : Bool) (answers : List Answer) :
    ReadEnd × Reading :=
  if ¬ f.isOpen then (.closed, .start f.content numBytes untilEOF)
  else if f.fd = 1 ∨ f.fd = 2 then (.output, .start f.content numBytes untilEOF)
  else ioReadFd f.content numBytes untilEOF nonBlock answers

/-- `IOReadNonBlock` -/
def ioReadNonBlock (f : LxFile) (numBytes : UInt64) (untilEOF : Bool) (answers : List Answer) :
    ReadEnd × Reading :=
  ioRead f numBytes untilEOF true answers

/-- The answers are those of `read`: not more than was asked for or is there, and nothing only at
the end of the file or where nothing was asked for. -/
def ReadAnswers (untilEOF : Bool) : List Answer → Reading → Prop
  | [], _ => True
  | .error _ :: _, _ => True
  | .ok justRead :: answers, r =>
    justRead ≤ r.maxRead ∧ justRead ≤ r.content.length ∧
    (justRead = 0 → r.maxRead = 0 ∨ r.content = []) ∧
    (justRead > 0 → ReadAnswers untilEOF answers (r.call.got untilEOF justRead))

/-- What was asked for is returned: everything up to the end of the file or the first `numBytes` of
it, or where `read` would block, what had come so far. No call asks for more than is wanted, and
nothing is stored outside of the buffer. -/
structure ReadsExactly (content : Bytes) (numBytes : UInt64) (untilEOF : Bool)
    (r : ReadEnd × Reading) : Prop where
  chunks : ∀ text, r.1 = .returned text → text = r.2.chunks.flatten ∧
    content = text ++ r.2.content
  whole : ∀ text, r.1 = .returned text → r.2.blocked = false →
    text = if untilEOF then content else content.take numBytes.toNat
  null : r.1 = .null → r.2.blocked = true ∧ r.2.chunks.flatten = []
  asked : ∀ call ∈ r.2.asked, untilEOF = false → call.1 + call.2 ≤ numBytes.toNat
  inBounds : r.2.inBounds = true

/-- `read` gave bytes. -/
def isBytes : Answer → Bool
  | .ok justRead => justRead > 0
  | .error _ => false

variable {content : Bytes} {numBytes : UInt64} {untilEOF nonBlock : Bool} {answers : List Answer}
  {r : Reading}

/-- The state in front of a call of `read`. -/
structure ReadSound (content : Bytes) (numBytes : UInt64) (untilEOF : Bool) (r : Reading) :
    Prop where
  retBuf : r.retBuf = r.chunks.flatten
  content : content = r.retBuf ++ r.content
  nread : r.nread = r.retBuf.length
  wanted : untilEOF = false → r.numBytes + r.nread = numBytes.toNat ∧ r.maxRead ≤ r.numBytes ∧
    (r.maxRead = 0 → r.numBytes = 0)
  positive : untilEOF = true → 0 < r.maxRead
  maxRead : r.maxRead ≤ readbufSz
  asked : ∀ call ∈ r.asked, untilEOF = false → call.1 + call.2 ≤ numBytes.toNat
  blocked : r.blocked = false
  inBounds : r.inBounds = true

theorem readbufSz_pos : 1 < readbufSz := by decide

theorem readSound_start (content : Bytes) (numBytes : UInt64) (untilEOF : Bool) :
    ReadSound content numBytes untilEOF (.start content numBytes untilEOF) := by
  have hmin : (if numBytes.toNat > readbufSz - 1 then readbufSz - 1 else numBytes.toNat) =
      min numBytes.toNat (readbufSz - 1) := by
    split <;> omega
  have hpos := readbufSz_pos
  refine ⟨rfl, rfl, rfl, ?_, ?_, ?_, by simp [Reading.start], rfl, rfl⟩
  · rintro rfl
    simp only [Reading.start, hmin, if_neg Bool.false_ne_true]
    refine ⟨rfl, ?_, ?_⟩ <;> omega
  · rintro rfl
    simp only [Reading.start, if_true]
    omega
  · simp only [Reading.start, hmin]
    split <;> omega

/-- The store stays out of the buffer. -/
theorem readLoop_inBounds (h : (readLoop untilEOF nonBlock answers r).2.inBounds = true) :
    r.inBounds = true := by
  induction answers generalizing r with
  | nil =>
    simp only [readLoop, Reading.call, Bool.and_eq_true] at h
    exact h.1
  | cons answer answers ih =>
    cases answer with
    | error errno =>
      simp only [readLoop] at h
      split at h
      · simp only [Reading.call, Bool.and_eq_true] at h
        exact h.1
      · simp only [Reading.call, Bool.and_eq_true] at h
        exact h.1
    | ok justRead =>
      simp only [readLoop] at h
      split at h
      · have hgot := ih h
        simp only [Reading.got, Reading.call, Bool.and_eq_true] at hgot
        exact hgot.1.1
      · simp only [Reading.call, Bool.and_eq_true] at h
        exact h.1

theorem ReadSound.call_asked (h : ReadSound content numBytes untilEOF r) :
    ∀ call ∈ r.call.asked, untilEOF = false → call.1 + call.2 ≤ numBytes.toNat := by
  intro call hcall hlimited
  rcases List.mem_append.mp hcall with hmem | hmem
  · exact h.asked call hmem hlimited
  · obtain rfl := List.mem_singleton.mp hmem
    have hwanted := h.wanted hlimited
    simp only
    omega

theorem ReadSound.call_inBounds (h : ReadSound content numBytes untilEOF r) :
    r.call.inBounds = true := by
  have hmax := h.maxRead
  simp only [Reading.call, h.inBounds, Bool.true_and, decide_eq_true_eq]
  exact hmax

theorem got_blocked (r : Reading) (justRead : ℕ) :
    (r.call.got untilEOF justRead).blocked = r.blocked := by
  cases r
  rfl

/-- A `read` that gives bytes, but does not fill the buffer. -/
theorem ReadSound.got (h : ReadSound content numBytes untilEOF r) {justRead : ℕ}
    (hmax : justRead ≤ r.maxRead) (hcontent : justRead ≤ r.content.length)
    (hshort : justRead ≠ readbufSz) :
    ReadSound content numBytes untilEOF (r.call.got untilEOF justRead) := by
  have hbuf := h.maxRead
  have hpos := readbufSz_pos
  have hlt : justRead < readbufSz := by omega
  have hmin : ∀ n, (if n > readbufSz then readbufSz else n) = min n readbufSz := by
    intro n
    split <;> omega
  refine ⟨?_, ?_, ?_, ?_, ?_, ?_, ?_, ?_, ?_⟩
  · simp [Reading.got, Reading.call, h.retBuf]
  · simp only [Reading.got, Reading.call, List.append_assoc, List.take_append_drop]
    exact h.content
  · simp only [Reading.got, Reading.call, List.length_append, List.length_take, h.nread]
    omega
  · intro hlimited
    obtain ⟨hsum, hle, -⟩ := h.wanted hlimited
    have hsize : numBytes.toNat < sizeT := numBytes.toNat_lt_size
    have hsub : sizeSub r.numBytes justRead = r.numBytes - justRead := by
      have heq : r.numBytes + sizeT - justRead = (r.numBytes - justRead) + sizeT := by omega
      rw [sizeSub, heq, Nat.add_mod_right]
      exact Nat.mod_eq_of_lt (by omega)
    simp only [Reading.got, Reading.call, hsub, hlimited, if_neg Bool.false_ne_true, hmin]
    refine ⟨?_, ?_, ?_⟩ <;> omega
  · intro hall
    simp only [Reading.got, hall, if_true]
    omega
  · simp only [Reading.got]
    split
    · exact le_refl _
    · rw [hmin]
      omega
  · simp only [Reading.got]
    exact h.call_asked
  · rw [got_blocked]
    exact h.blocked
  · have hcall := h.call_inBounds
    simp only [Reading.got, hcall, Bool.true_and, decide_eq_true_eq]
    exact hlt

/-- The end of the file, or of what was wanted. -/
theorem ReadSound.ended (h : ReadSound content numBytes untilEOF r)
    (hend : r.maxRead = 0 ∨ r.content = []) :
    r.retBuf = if untilEOF then content else content.take numBytes.toNat := by
  have hcontent := h.content
  cases huntil : untilEOF with
  | true =>
    have hpos := h.positive huntil
    rcases hend with hzero | hnil
    · omega
    · rw [if_pos rfl, hcontent, hnil, List.append_nil]
  | false =>
    obtain ⟨hsum, -, hzero⟩ := h.wanted huntil
    rw [if_neg Bool.false_ne_true, hcontent]
    rcases hend with hmax | hnil
    · have hlen : numBytes.toNat = r.retBuf.length := by
        rw [← h.nread, ← hsum, hzero hmax, Nat.zero_add]
      rw [hlen, List.take_left]
    · have hlen : r.retBuf.length ≤ numBytes.toNat := by
        rw [← h.nread]
        omega
      rw [hnil, List.append_nil, List.take_of_length_le hlen]

/-- The loop from a sound state on. -/
theorem readLoop_iff (h : ReadSound content numBytes untilEOF r)
    (hanswers : ReadAnswers untilEOF answers r) :
    ReadsExactly content numBytes untilEOF (readLoop untilEOF nonBlock answers r) ↔
      .ok readbufSz ∉ answers.takeWhile isBytes := by
  induction answers generalizing r with
  | nil =>
    have hwait : ReadsExactly content numBytes untilEOF (.waiting, r.call) := by
      refine ⟨?_, ?_, ?_, h.call_asked, h.call_inBounds⟩
      · intro text htext
        cases htext
      · intro text htext
        cases htext
      · intro hnull
        cases hnull
    simpa [readLoop] using hwait
  | cons answer answers ih =>
    cases answer with
    | error errno =>
      have hexact : ReadsExactly content numBytes untilEOF
          (readLoop untilEOF nonBlock (.error errno :: answers) r) := by
        rw [readLoop]
        by_cases hblock : nonBlock = true ∧ errno = ewouldblock
        · rw [if_pos hblock]
          refine ⟨?_, ?_, ?_, h.call_asked, h.call_inBounds⟩
          · intro text htext
            by_cases hnone : r.nread = 0
            · simp [hnone] at htext
            · obtain rfl : r.retBuf = text := by simpa [hnone] using htext
              exact ⟨h.retBuf, h.content⟩
          · intro text htext hblocked
            cases hblocked
          · intro hnull
            refine ⟨rfl, ?_⟩
            by_cases hnone : r.nread = 0
            · have hlen := h.nread
              rw [hnone] at hlen
              rw [← List.eq_nil_of_length_eq_zero hlen.symm]
              exact h.retBuf.symm
            · simp [hnone] at hnull
        · rw [if_neg hblock]
          refine ⟨?_, ?_, ?_, h.call_asked, h.call_inBounds⟩
          · intro text htext
            cases htext
          · intro text htext
            cases htext
          · intro hnull
            cases hnull
      simpa [isBytes] using hexact
    | ok justRead =>
      obtain ⟨hmax, hcontent, hzero, hmore⟩ := hanswers
      rw [readLoop]
      by_cases hpos : justRead > 0
      · rw [if_pos hpos, List.takeWhile_cons_of_pos (by simpa [isBytes] using hpos)]
        by_cases hfull : justRead = readbufSz
        · -- the terminator is stored behind the buffer
          subst hfull
          constructor
          · intro hexact
            have hin := readLoop_inBounds hexact.inBounds
            simp [Reading.got] at hin
          · intro hnot
            exact absurd List.mem_cons_self hnot
        · rw [ih (h.got hmax hcontent hfull) (hmore hpos), List.mem_cons, not_or]
          constructor
          · intro hrest
            refine ⟨?_, hrest⟩
            intro heq
            exact hfull (Except.ok.inj heq).symm
          · intro hrest
            exact hrest.2
      · obtain rfl : justRead = 0 := by omega
        rw [if_neg hpos, List.takeWhile_cons_of_neg (by simp [isBytes])]
        have hexact : ReadsExactly content numBytes untilEOF (.returned r.retBuf, r.call) := by
          refine ⟨?_, ?_, ?_, h.call_asked, h.call_inBounds⟩
          · intro text htext
            cases htext
            exact ⟨h.retBuf, h.content⟩
          · intro text htext _
            cases htext
            exact h.ended (hzero rfl)
          · intro hnull
            cases hnull
        simpa using hexact

/-- `read` answers as it does for a descriptor, from the entry on. -/
theorem readFd_iff (content : Bytes) (numBytes : UInt64) (untilEOF nonBlock : Bool)
    (answers : List Answer)
    (hanswers : ReadAnswers untilEOF answers (.start content numBytes untilEOF)) :
    ReadsExactly content numBytes untilEOF
        (ioReadFd content numBytes untilEOF nonBlock answers) ↔
      .ok readbufSz ∉ (answers.takeWhile isBytes).tail := by
  rw [ioReadFd, readLoop_iff (readSound_start content numBytes untilEOF) hanswers]
  cases answers with
  | nil => simp
  | cons answer answers =>
    by_cases hbytes : isBytes answer = true
    · rw [List.takeWhile_cons_of_pos hbytes, List.tail_cons, List.mem_cons, not_or]
      constructor
      · intro hrest
        exact hrest.2
      · intro hrest
        refine ⟨?_, hrest⟩
        -- the first read asks for less
        rintro rfl
        have hmax : readbufSz ≤ (Reading.start content numBytes untilEOF).maxRead := hanswers.1
        have hpos := readbufSz_pos
        simp only [Reading.start] at hmax
        split at hmax
        · omega
        · split at hmax <;> omega
    · rw [List.takeWhile_cons_of_neg hbytes]
      simp

/-- `IORead` reads. -/
def LxFile.readable (f : LxFile) : Prop := f.isOpen = true ∧ f.fd ≠ 1 ∧ f.fd ≠ 2

/-- `IOReadFd` reads exactly what was asked for if and only if no `read` behind the first one fills
the buffer, and so does `IORead` where it does not refuse to read. -/
theorem ioReadFd_iff (f : LxFile) (numBytes : UInt64) (untilEOF nonBlock : Bool)
    (answers : List Answer)
    (hanswers : ReadAnswers untilEOF answers (.start f.content numBytes untilEOF)) :
    (ReadsExactly f.content numBytes untilEOF
        (ioReadFd f.content numBytes untilEOF nonBlock answers) ↔
      .ok readbufSz ∉ (answers.takeWhile isBytes).tail) ∧
    (ReadsExactly f.content numBytes untilEOF (ioRead f numBytes untilEOF nonBlock answers) ↔
      f.readable → .ok readbufSz ∉ (answers.takeWhile isBytes).tail) := by
  have hfd := @readFd_iff f.content numBytes untilEOF nonBlock answers hanswers
  have hrefused : ∀ e : ReadEnd, (∀ text, e ≠ .returned text) → e ≠ .null →
      ReadsExactly f.content numBytes untilEOF (e, .start f.content numBytes untilEOF) := by
    intro e hreturned hnull
    refine ⟨?_, ?_, ?_, by simp [Reading.start], rfl⟩
    · intro text htext
      exact absurd htext (hreturned text)
    · intro text htext
      exact absurd htext (hreturned text)
    · intro h
      exact absurd h hnull
  refine ⟨hfd, ?_⟩
  rw [ioRead]
  by_cases hopen : f.isOpen = true
  · rw [if_neg (by simpa using hopen)]
    by_cases houtput : f.fd = 1 ∨ f.fd = 2
    · rw [if_pos houtput]
      constructor
      · intro _ hreadable
        rcases houtput with h | h
        · exact absurd h hreadable.2.1
        · exact absurd h hreadable.2.2
      · intro _
        exact hrefused .output (by simp) (by simp)
    · rw [if_neg houtput, hfd]
      have hreadable : f.readable :=
        ⟨hopen, fun h => houtput (Or.inl h), fun h => houtput (Or.inr h)⟩
      constructor
      · intro hshort _
        exact hshort
      · intro hshort
        exact hshort hreadable
  · rw [if_pos (by simpa using hopen)]
    constructor
    · intro _ hreadable
      exact absurd hreadable.1 hopen
    · intro _
      exact hrefused .closed (by simp) (by simp)

/-- A file of two bytes. -/
def twoBytes : LxFile := { fd := 3, isOpen := true, content := [1, 2] }

/-- Three bytes of it are asked for. -/
theorem ioReadFd_iff_twoBytes :
    (ReadsExactly [1, 2] 3 false (ioReadFd [1, 2] 3 false false [.ok 2, .ok 0]) ↔
      .ok readbufSz ∉ (([.ok 2, .ok 0] : List Answer).takeWhile isBytes).tail) ∧
    (ReadsExactly [1, 2] 3 false (ioRead twoBytes 3 false false [.ok 2, .ok 0]) ↔
      twoBytes.readable →
        .ok readbufSz ∉ (([.ok 2, .ok 0] : List Answer).takeWhile isBytes).tail) :=
  ioReadFd_iff twoBytes 3 false false [.ok 2, .ok 0]
    ⟨by decide, by decide, by decide, fun _ => ⟨Nat.zero_le _, Nat.zero_le _, fun _ => Or.inr rfl,
      fun h => absurd h (by decide)⟩⟩

/-- The second `read` of a long file fills the buffer. -/
theorem ioReadFd_stores_past : ¬ ∀ (content : Bytes) (numBytes : UInt64) (untilEOF nonBlock : Bool)
    (answers : List Answer), ReadAnswers untilEOF answers (.start content numBytes untilEOF) →
      ReadsExactly content numBytes untilEOF
        (ioReadFd content numBytes untilEOF nonBlock answers) := by
  intro hall
  have hlen : (List.replicate (readbufSz + 1) (0 : UInt8)).length = readbufSz + 1 :=
    List.length_replicate
  generalize List.replicate (readbufSz + 1) (0 : UInt8) = content at hlen
  have hpos := readbufSz_pos
  have hanswers : ReadAnswers true [.ok 1, .ok readbufSz] (.start content 0 true) := by
    refine ⟨?_, ?_, fun h => absurd h (by decide), fun _ => ⟨?_, ?_, fun h => ?_, fun _ => trivial⟩⟩
    · simp only [Reading.start, if_true]
      omega
    · simp only [Reading.start]
      omega
    · simp only [Reading.got, if_true]
      exact le_refl _
    · simp only [Reading.got, Reading.call, Reading.start, List.length_drop]
      omega
    · omega
  have hexact := hall content 0 true false [.ok 1, .ok readbufSz] hanswers
  rw [ioReadFd, readLoop_iff (readSound_start content 0 true) hanswers] at hexact
  apply hexact
  rw [List.takeWhile_cons_of_pos (by decide), List.takeWhile_cons_of_pos (by decide)]
  simp

end Read

/-! ## `File.readLines` -/

section ReadLines

structure Lines where
  /-- `ary`; `line` is its last element. -/
  ary : List Bytes
  leftoverLine : Bool
  /-- Only bytes of the current `fread` have been looked at. -/
  within : Bool

/-- `*bufp` is looked at. -/
def Lines.look (nread bufp : ℕ) (s : Lines) : Lines :=
  { s with within := s.within && decide (bufp < nread) }

/-- The text from `bufpStart` on becomes a line, or the end of the last line. -/
def Lines.push (s : Lines) (text : Bytes) : Lines :=
  if s.leftoverLine then
    { s with ary := s.ary.dropLast ++ [s.ary.getLast?.getD [] ++ text], leftoverLine := false }
  else { s with ary := s.ary ++ [text] }

/-- `while (*bufp != 0 && *bufp != 10) bufp++;`: where it stops and the byte there, `none` if that
is behind the buffer. `nleft` is not 0 here, so that the `break` is never taken. -/
def scanLine (buf : Bytes) (bufp : ℕ) : Option (ℕ × UInt8) :=
  match h : buf[bufp]? with
  | none => none
  | some c => if c ≠ 0 ∧ c ≠ 10 then scanLine buf (bufp + 1) else some (bufp, c)
termination_by buf.length - bufp
decreasing_by
  have hlt := (List.getElem?_eq_some_iff.mp h).1
  omega

/-- `if (*bufp == 10) bufp++;` -/
def behind (q : ℕ) (c : UInt8) : ℕ := if c = 10 then q + 1 else q

variable {buf : Bytes} {nread bufp nleft : ℕ} {s : Lines}

end ReadLines

end Clox.Files
