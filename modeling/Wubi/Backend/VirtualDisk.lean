import Mathlib.Algebra.Ring.Int.Defs
import Mathlib.Algebra.Ring.Nat
import Mathlib.Data.List.Basic
import Wubi.Backend.Model

/-!
# Allocating a virtual disk

Model of `create_virtual_disk` and `zero_file` of
`src/wubi/backends/win32/virtualdisk.py`. A file is its size and its bytes: a
byte behind the end is what the file holds there when it grows, so nothing is
known of it.

**Calls.** Whether a call succeeds is up to the system, and the n-th `WriteFile`
writes what it wants of the bytes it is given, or fails; the count it reports is
then zero. On a file that could not be opened every call fails. The code logs a
failure and goes on.

Results:
* `zeroFileLoop_spec`: where the loop ends, it has written `clear_bytes` digits
  zero in a row.
* `createVirtualDisk_zeros`: if all calls succeed, both ends of the file hold the
  digit zero, and nothing is written behind the end.
* `not_zeroed`: so they do not hold the byte zero.
* `ends_iff_offered`: the functions end if and only if the calls write enough at
  some time.
-/
namespace Wubi.Backend

/-! ## Calls -/

/-- What a call of `WriteFile` does. -/
inductive WriteOutcome where
  | wrote (n : Nat)
  | failed
  deriving DecidableEq

/-- `n_bytes_written` behind the call. -/
def WriteOutcome.count (bytesToWrite : Nat) : WriteOutcome → Nat
  | wrote n => min n bytesToWrite
  | failed => 0

structure DiskCalls where
  createFile : Bool
  seekEnd : Bool
  setEndOfFile : Bool
  seekBegin : Bool
  seekBack : Bool
  writeFile : Nat → WriteOutcome

/-- Every call succeeds, and every `WriteFile` writes something. -/
structure DiskCalls.Succeed (env : DiskCalls) : Prop where
  createFile : env.createFile = true
  seekEnd : env.seekEnd = true
  setEndOfFile : env.setEndOfFile = true
  seekBegin : env.seekBegin = true
  seekBack : env.seekBack = true
  writeFile : ∀ i, ∃ n, 1 ≤ n ∧ env.writeFile i = .wrote n

/-- The file behind a handle. -/
structure DiskFile where
  opened : Bool
  size : Nat := 0
  byte : Nat → Nat
  pos : Nat := 0
  /-- The calls of `WriteFile`. -/
  calls : Nat := 0
  /-- Where each call wrote, and how many bytes. -/
  written : List (Nat × Nat) := []

/-- `QuadPart` -/
def longlong (n : Int) : Int := n.bmod (2 ^ 64)

/-- `SetFilePointerEx(.., FILE_BEGIN)`, which refuses a negative position. -/
def DiskFile.seek (ok : Bool) (distance : Int) (d : DiskFile) : DiskFile :=
  if d.opened ∧ ok ∧ 0 ≤ distance then { d with pos := distance.toNat } else d

def DiskFile.setEndOfFile (ok : Bool) (d : DiskFile) : DiskFile :=
  if d.opened ∧ ok then { d with size := d.pos } else d

/-- The number of bytes that the call writes. -/
def DiskFile.accepts (writes : Nat → WriteOutcome) (bytesToWrite : Nat) (d : DiskFile) : Nat :=
  if d.opened then (writes d.calls).count bytesToWrite else 0

def DiskFile.writeFile (writes : Nat → WriteOutcome) (buf : List Nat) (bytesToWrite : Nat)
    (d : DiskFile) : DiskFile :=
  let n := d.accepts writes bytesToWrite
  { d with
    size := if n = 0 then d.size else max d.size (d.pos + n)
    byte := fun i => if d.pos ≤ i ∧ i < d.pos + n then buf.getD (i - d.pos) 0 else d.byte i
    pos := d.pos + n
    calls := d.calls + 1
    written := d.written ++ [(d.pos, n)] }

/-! ## `zero_file` -/

def bufSize : Nat := 1000

/-- `"0"*buf_size` -/
def writeBuf : List Nat := List.replicate bufSize '0'.toNat

/-- mirrors src/wubi/backends/win32/virtualdisk.py:147-148 -/
def bytesToWrite (clearBytes bytesCleared : Int) : Nat :=
  if (bufSize : Int) > clearBytes - bytesCleared then (clearBytes - bytesCleared).toNat else bufSize

/-- The loop, if it ends within `fuel` tests of its condition.
mirrors src/wubi/backends/win32/virtualdisk.py:146-158 -/
def zeroFileLoop (writes : Nat → WriteOutcome) (clearBytes : Int) :
    Nat → Int → DiskFile → Option DiskFile
  | 0, _, _ => none
  | fuel + 1, bytesCleared, d =>
    if bytesCleared < clearBytes then
      let n := bytesToWrite clearBytes bytesCleared
      zeroFileLoop writes clearBytes fuel (bytesCleared + d.accepts writes n)
        (d.writeFile writes writeBuf n)
    else some d

/-- mirrors src/wubi/backends/win32/virtualdisk.py:140-158 -/
def zeroFile (writes : Nat → WriteOutcome) (clearBytes : Int) (fuel : Nat) (d : DiskFile) :
    Option DiskFile :=
  zeroFileLoop writes clearBytes fuel 0 d

/-! ## `create_virtual_disk` -/

/-- A byte string or a unicode object. -/
inductive PyPath where
  | bytes (s : Str)
  | unicode (s : Str)

/-- `unicode(path)` -/
def PyPath.decode : PyPath → Except PyErr Str
  | .bytes s => if s.all fun c => c.toNat < 128 then .ok s else .error .valueError
  | .unicode s => .ok s

def clearBytes : Int := 1000000

/-- The file as long as it shall be, at its beginning; `garbage` is what the
drive holds.
mirrors src/wubi/backends/win32/virtualdisk.py:45-80 -/
def allocate (env : DiskCalls) (garbage : Nat → Nat) (sizeMb : Int) : DiskFile :=
  let d : DiskFile := { opened := env.createFile, byte := garbage }
  let d := d.seek env.seekEnd (longlong (sizeMb * 1024 * 1024))
  let d := d.setEndOfFile env.setEndOfFile
  d.seek env.seekBegin (longlong 0)

/-- The file that is there at the end, if one is created; `none` outside where
the function does not end within the fuel.
mirrors src/wubi/backends/win32/virtualdisk.py:32-97 -/
def createVirtualDisk (env : DiskCalls) (garbage : Nat → Nat) (fuel : Nat) (path : PyPath)
    (sizeMb : Int) : Option (Except PyErr (Option DiskFile)) :=
  if sizeMb < 1 then some (.ok none)
  else
    match path.decode with
    | .error e => some (.error e)
    | .ok _ =>
      (zeroFile env.writeFile clearBytes fuel (allocate env garbage sizeMb)).bind fun d =>
        let d := d.seek env.seekBack (longlong (sizeMb * 1024 * 1024 - clearBytes))
        (zeroFile env.writeFile clearBytes fuel d).map fun d => .ok (some d)

/-! ## When the loop ends -/

/-- The bytes that `n` calls from `start` on write, if each is given a whole
buffer. -/
def offered (writes : Nat → WriteOutcome) (start : Nat) : Nat → Nat
  | 0 => 0
  | n + 1 => (writes start).count bufSize + offered writes (start + 1) n

/-- The same on this file. -/
def DiskFile.offered (writes : Nat → WriteOutcome) (d : DiskFile) (n : Nat) : Nat :=
  if d.opened then Backend.offered writes d.calls n else 0

variable {writes : Nat → WriteOutcome} {clear cleared : Int} {d d' : DiskFile} {n fuel : Nat}

@[simp] theorem DiskFile.writeFile_opened {buf : List Nat} :
    (d.writeFile writes buf n).opened = d.opened := rfl

@[simp] theorem DiskFile.writeFile_pos {buf : List Nat} :
    (d.writeFile writes buf n).pos = d.pos + d.accepts writes n := rfl

@[simp] theorem DiskFile.writeFile_calls {buf : List Nat} :
    (d.writeFile writes buf n).calls = d.calls + 1 := rfl

theorem DiskFile.offered_succ (k : Nat) : d.offered writes (n + 1) =
    d.accepts writes bufSize + (d.writeFile writes writeBuf k).offered writes n := by
  unfold DiskFile.offered DiskFile.accepts
  rw [writeFile_opened, writeFile_calls]
  split <;> rfl

theorem bytesToWrite_le (clear cleared : Int) : bytesToWrite clear cleared ≤ bufSize := by
  unfold bytesToWrite
  split <;> omega

theorem DiskFile.accepts_le (writes : Nat → WriteOutcome) (n : Nat) (d : DiskFile) :
    d.accepts writes n ≤ n := by
  unfold DiskFile.accepts WriteOutcome.count
  split
  · split <;> omega
  · exact Nat.zero_le n

/-- A call writes what it would write of a whole buffer, or all that is left. -/
theorem DiskFile.accepts_bytesToWrite (writes : Nat → WriteOutcome) (d : DiskFile)
    (h : cleared < clear) :
    d.accepts writes (bytesToWrite clear cleared) = d.accepts writes bufSize ∨
      cleared + d.accepts writes (bytesToWrite clear cleared) = clear ∧
        d.accepts writes (bytesToWrite clear cleared) ≤ d.accepts writes bufSize := by
  unfold DiskFile.accepts
  split
  · unfold WriteOutcome.count bytesToWrite
    split
    · split <;> omega
    · exact .inl rfl
  · exact .inl rfl

theorem zeroFileLoop_stop (h : clear ≤ cleared) :
    zeroFileLoop writes clear (fuel + 1) cleared d = some d := by
  rw [zeroFileLoop, if_neg (by omega)]

theorem zeroFileLoop_go (h : cleared < clear) :
    zeroFileLoop writes clear (fuel + 1) cleared d =
      zeroFileLoop writes clear fuel
        (cleared + d.accepts writes (bytesToWrite clear cleared))
        (d.writeFile writes writeBuf (bytesToWrite clear cleared)) := by
  rw [zeroFileLoop, if_pos h]

theorem zeroFileLoop_offered (h : zeroFileLoop writes clear fuel cleared d = some d') :
    ∃ n, n < fuel ∧ d'.calls = d.calls + n ∧ clear ≤ cleared + d.offered writes n := by
  induction fuel generalizing cleared d with
  | zero => cases h
  | succ fuel ih =>
    by_cases hlt : cleared < clear
    · rw [zeroFileLoop_go hlt] at h
      obtain ⟨n, hn, hcalls, hcleared⟩ := ih h
      refine ⟨n + 1, by omega, ?_, ?_⟩
      · rw [hcalls, DiskFile.writeFile_calls]
        omega
      · rw [DiskFile.offered_succ (bytesToWrite clear cleared)]
        have hcall := d.accepts_bytesToWrite writes hlt
        omega
    · rw [zeroFileLoop_stop (by omega)] at h
      obtain rfl := Option.some.inj h
      exact ⟨0, Nat.succ_pos fuel, rfl, by omega⟩

theorem isSome_of_offered (h : clear ≤ cleared + d.offered writes n) :
    (zeroFileLoop writes clear (n + 1) cleared d).isSome = true := by
  induction n generalizing cleared d with
  | zero =>
    have hzero : d.offered writes 0 = 0 := by
      unfold DiskFile.offered
      split <;> rfl
    rw [zeroFileLoop_stop (by omega)]
    rfl
  | succ n ih =>
    by_cases hlt : cleared < clear
    · rw [zeroFileLoop_go hlt]
      refine ih ?_
      rw [DiskFile.offered_succ (bytesToWrite clear cleared)] at h
      have hcall := d.accepts_bytesToWrite writes hlt
      omega
    · rw [zeroFileLoop_stop (by omega)]
      rfl

theorem zeroFileLoop_isSome_iff :
    (∃ fuel, (zeroFileLoop writes clear fuel cleared d).isSome = true) ↔
      ∃ n, clear ≤ cleared + d.offered writes n := by
  constructor
  · intro hboth
    obtain ⟨fuel, h⟩ := hboth
    obtain ⟨d', hd'⟩ := Option.isSome_iff_exists.1 h
    obtain ⟨n, -, -, hn⟩ := zeroFileLoop_offered hd'
    exact ⟨n, hn⟩
  · intro hboth
    obtain ⟨n, h⟩ := hboth
    exact ⟨n + 1, isSome_of_offered h⟩

/-- More fuel changes nothing. -/
theorem zeroFileLoop_mono (more : Nat) (h : zeroFileLoop writes clear fuel cleared d = some d') :
    zeroFileLoop writes clear (fuel + more) cleared d = some d' := by
  induction fuel generalizing cleared d with
  | zero => cases h
  | succ fuel ih =>
    rw [Nat.add_right_comm]
    by_cases hlt : cleared < clear
    · rw [zeroFileLoop_go hlt] at h ⊢
      exact ih h
    · rw [zeroFileLoop_stop (by omega)] at h ⊢
      exact h

/-! ## What the loop writes -/

/-- Every call writes something. -/
def Progresses (writes : Nat → WriteOutcome) : Prop :=
  ∀ i, ∃ n, 1 ≤ n ∧ writes i = .wrote n

theorem le_offered (h : Progresses writes) (start n : Nat) : n ≤ offered writes start n := by
  induction n generalizing start with
  | zero => exact Nat.zero_le _
  | succ n ih =>
    obtain ⟨k, hk, hw⟩ := h start
    have hrest := ih (start + 1)
    unfold offered WriteOutcome.count bufSize
    rw [hw]
    simp only
    omega

/-- `d'` is `d` behind a run of writes of the digit zero at `from` up to `to`. -/
structure Wrote (d : DiskFile) (len : Nat) (d' : DiskFile) : Prop where
  opened : d'.opened = d.opened
  pos : d'.pos = d.pos + len
  size : d'.size = if len = 0 then d.size else max d.size (d.pos + len)
  byte : ∀ i, d'.byte i = if d.pos ≤ i ∧ i < d.pos + len then '0'.toNat else d.byte i
  written : ∀ w ∈ d'.written, w ∈ d.written ∨ d.pos ≤ w.1 ∧ w.1 + w.2 ≤ d.pos + len
  calls : d.calls ≤ d'.calls

theorem Wrote.refl : Wrote d 0 d where
  opened := rfl
  pos := rfl
  size := rfl
  byte i := by rw [if_neg (by omega)]
  written w hw := .inl hw
  calls := Nat.le_refl _

theorem Wrote.trans {d₁ : DiskFile} {a b : Nat} (h : Wrote d a d₁) (h' : Wrote d₁ b d') :
    Wrote d (a + b) d' where
  opened := h'.opened.trans h.opened
  pos := by rw [h'.pos, h.pos, Nat.add_assoc]
  size := by
    rw [h'.size, h.size, h.pos]
    split_ifs <;> omega
  byte i := by
    rw [h'.byte, h.byte, h.pos]
    split_ifs <;> first | rfl | omega
  written w hw := by
    have hpos := h.pos
    rcases h'.written w hw with hw | hw
    · exact (h.written w hw).imp_right fun hr => by omega
    · exact .inr (by omega)
  calls := h.calls.trans h'.calls

/-- One call. -/
theorem wrote_writeFile (writes : Nat → WriteOutcome) (d : DiskFile) (h : n ≤ bufSize) :
    Wrote d (d.accepts writes n) (d.writeFile writes writeBuf n) where
  opened := rfl
  pos := rfl
  size := rfl
  byte i := by
    have hle := d.accepts_le writes n
    unfold DiskFile.writeFile
    simp only
    split
    · have hlt : i - d.pos < bufSize := by omega
      rw [writeBuf, List.getD_eq_getElem?_getD, List.getElem?_replicate_of_lt hlt]
      rfl
    · rfl
  written w hw := by
    unfold DiskFile.writeFile at hw
    rcases List.mem_append.1 hw with hw | hw
    · exact .inl hw
    · rw [List.mem_singleton.1 hw]
      exact .inr ⟨Nat.le_refl _, Nat.le_refl _⟩
  calls := Nat.le_succ _

/-- A call writes no more than is left. -/
theorem accepts_left (writes : Nat → WriteOutcome) (d : DiskFile) (h : cleared < clear) :
    cleared + d.accepts writes (bytesToWrite clear cleared) ≤ clear := by
  have hle := d.accepts_le writes (bytesToWrite clear cleared)
  have hleft : (bytesToWrite clear cleared : Int) ≤ clear - cleared := by
    unfold bytesToWrite
    split <;> omega
  omega

theorem zeroFileLoop_spec (h : zeroFileLoop writes clear fuel cleared d = some d')
    (hle : cleared ≤ clear) : Wrote d (clear - cleared).toNat d' := by
  induction fuel generalizing cleared d with
  | zero => cases h
  | succ fuel ih =>
    by_cases hlt : cleared < clear
    · rw [zeroFileLoop_go hlt] at h
      have hleft := accepts_left writes d hlt
      have hcall := wrote_writeFile writes d (bytesToWrite_le clear cleared)
      have hrun := hcall.trans (ih h hleft)
      have hlen : d.accepts writes (bytesToWrite clear cleared) +
          (clear - (cleared + d.accepts writes (bytesToWrite clear cleared))).toNat =
            (clear - cleared).toNat := by omega
      rwa [hlen] at hrun
    · rw [zeroFileLoop_stop (by omega)] at h
      obtain rfl := Option.some.inj h
      have hlen : (clear - cleared).toNat = 0 := by omega
      rw [hlen]
      exact Wrote.refl

/-! ## The whole function -/

section
variable {env : DiskCalls} {garbage : Nat → Nat} {path : PyPath} {sizeMb : Int}

theorem allocate_opened : (allocate env garbage sizeMb).opened = env.createFile := by
  unfold allocate DiskFile.seek DiskFile.setEndOfFile
  simp only
  split_ifs <;> rfl

theorem allocate_calls : (allocate env garbage sizeMb).calls = 0 := by
  unfold allocate DiskFile.seek DiskFile.setEndOfFile
  simp only
  split_ifs <;> rfl

theorem createVirtualDisk_eq {s : Str} (hsize : 1 ≤ sizeMb) (hpath : path.decode = .ok s) :
    createVirtualDisk env garbage fuel path sizeMb =
      (zeroFile env.writeFile clearBytes fuel (allocate env garbage sizeMb)).bind fun d =>
        (zeroFile env.writeFile clearBytes fuel
          (d.seek env.seekBack (longlong (sizeMb * 1024 * 1024 - clearBytes)))).map
            fun d => .ok (some d) := by
  rw [createVirtualDisk, if_neg (by omega), hpath]

theorem DiskFile.seek_opened {ok : Bool} {k : Int} : (d.seek ok k).opened = d.opened := by
  unfold DiskFile.seek
  split <;> rfl

theorem DiskFile.seek_calls {ok : Bool} {k : Int} : (d.seek ok k).calls = d.calls := by
  unfold DiskFile.seek
  split <;> rfl

theorem DiskFile.seek_byte {ok : Bool} {k : Int} : (d.seek ok k).byte = d.byte := by
  unfold DiskFile.seek
  split <;> rfl

theorem DiskFile.seek_ok {ok : Bool} {k : Int} (ho : d.opened = true) (hok : ok = true)
    (hk : 0 ≤ k) : d.seek ok k = { d with pos := k.toNat } := by
  rw [DiskFile.seek, if_pos ⟨ho, hok, hk⟩]

/-- Both loops have ended. -/
theorem createVirtualDisk_ok (hsize : 1 ≤ sizeMb)
    (h : createVirtualDisk env garbage fuel path sizeMb = some (.ok (some d))) :
    ∃ d₁, Wrote (allocate env garbage sizeMb) 1000000 d₁ ∧
      Wrote (d₁.seek env.seekBack (longlong (sizeMb * 1024 * 1024 - clearBytes))) 1000000 d := by
  cases hpath : path.decode with
  | error e => simp [createVirtualDisk, hpath, show ¬ sizeMb < 1 by omega] at h
  | ok s =>
    rw [createVirtualDisk_eq hsize hpath] at h
    obtain ⟨d₁, hd₁, h⟩ := Option.bind_eq_some_iff.1 h
    obtain ⟨d₂, hd₂, h⟩ := Option.map_eq_some_iff.1 h
    obtain rfl : d₂ = d := by simpa using h
    exact ⟨d₁, zeroFileLoop_spec hd₁ (by decide), zeroFileLoop_spec hd₂ (by decide)⟩

/-- The file has the size, its ends are zero bytes, and no write reached past
its end. -/
def Zeroed (env : DiskCalls) (garbage : Nat → Nat) (path : PyPath) (sizeMb : Int) : Prop :=
  ∃ fuel d, createVirtualDisk env garbage fuel path sizeMb = some (.ok (some d)) ∧
    (d.size : Int) = sizeMb * 1024 * 1024 ∧
    (∀ i, i < 1000000 → d.byte i = 0) ∧
    (∀ i, d.size ≤ i + 1000000 → i < d.size → d.byte i = 0) ∧
    ∀ w ∈ d.written, w.1 + w.2 ≤ d.size

theorem createVirtualDisk_first_byte (henv : env.Succeed) (hsize : 1 ≤ sizeMb)
    (hrun : createVirtualDisk env garbage fuel path sizeMb = some (.ok (some d))) :
    d.byte 0 = '0'.toNat := by
  obtain ⟨d₁, hfirst, hlast⟩ := createVirtualDisk_ok hsize hrun
  have hopened : ∀ {d : DiskFile}, (d.setEndOfFile env.setEndOfFile).opened = d.opened := by
    intro d
    unfold DiskFile.setEndOfFile
    split <;> rfl
  have hpos : (allocate env garbage sizeMb).pos = 0 := by
    rw [allocate, DiskFile.seek_ok _ henv.seekBegin (by decide)]
    · rfl
    · rw [hopened, DiskFile.seek_opened]
      exact henv.createFile
  rw [hlast.byte, DiskFile.seek_byte, hfirst.byte, hpos]
  split <;> rfl

/-- The first byte is the digit zero. -/
theorem not_zeroed (henv : env.Succeed) (hsize : 1 ≤ sizeMb) :
    ¬ Zeroed env garbage path sizeMb := by
  intro hboth
  obtain ⟨fuel, d, hrun, -, hzero, -, -⟩ := hboth
  have hbyte := createVirtualDisk_first_byte henv hsize hrun
  rw [hzero 0 (by decide)] at hbyte
  exact absurd hbyte (by decide)

/-- Every call succeeds, and each `WriteFile` writes `n` bytes if it is given as
many. -/
def steadyCalls (n : Nat) : DiskCalls where
  createFile := true
  seekEnd := true
  setEndOfFile := true
  seekBegin := true
  seekBack := true
  writeFile _ := .wrote n

theorem steadyCalls_succeed {n : Nat} (h : 1 ≤ n) : (steadyCalls n).Succeed :=
  ⟨rfl, rfl, rfl, rfl, rfl, fun _ => ⟨n, h, rfl⟩⟩

theorem not_zeroed_one_byte :
    ¬ Zeroed (steadyCalls 1) (fun _ => 0) (.bytes "C:\root.disk".toList) 256 :=
  not_zeroed (steadyCalls_succeed (by decide)) (by decide)

/-- Also where the drive holds zeros and every buffer is written at once. -/
theorem full_writes_not_zeroed : (steadyCalls 1000).Succeed ∧
    ¬ Zeroed (steadyCalls 1000) (fun _ => 0) (.bytes "C:\root.disk".toList) 1 := by
  refine ⟨steadyCalls_succeed (by decide), ?_⟩
  intro hboth
  obtain ⟨fuel, d, hrun, -, hzero, -, -⟩ := hboth
  have hbyte := createVirtualDisk_first_byte (steadyCalls_succeed (by decide)) (by decide) hrun
  rw [hzero 0 (by decide)] at hbyte
  exact absurd hbyte (by decide)

/-! ## Where all calls succeed -/

theorem longlong_eq {n : Int} (h : 0 ≤ n) (hlt : n < 2 ^ 63) : longlong n = n := by
  unfold longlong
  rw [Int.bmod_eq_of_le] <;> omega

theorem allocate_eq (henv : env.Succeed) (hsize : 1 ≤ sizeMb) (hlt : sizeMb < 2 ^ 43) :
    allocate env garbage sizeMb =
      { opened := true, size := (sizeMb * 1024 * 1024).toNat, byte := garbage } := by
  have hlong : longlong (sizeMb * 1024 * 1024) = sizeMb * 1024 * 1024 :=
    longlong_eq (by omega) (by omega)
  have hend : DiskFile.seek true (sizeMb * 1024 * 1024) { opened := true, byte := garbage } =
      { opened := true, byte := garbage, pos := (sizeMb * 1024 * 1024).toNat } :=
    DiskFile.seek_ok rfl rfl (by omega)
  rw [allocate, henv.createFile, henv.seekEnd, henv.setEndOfFile, henv.seekBegin, hlong, hend]
  rfl

/-- From any position the loop ends, as every call writes something. -/
theorem zeroFile_ends (h : Progresses writes) (ho : d.opened = true) (hclear : 0 ≤ clear) :
    ∃ d', zeroFile writes clear (clear.toNat + 1) d = some d' ∧ Wrote d clear.toNat d' := by
  have hle := le_offered h d.calls clear.toNat
  have henough : clear ≤ 0 + d.offered writes clear.toNat := by
    rw [DiskFile.offered, if_pos ho]
    omega
  obtain ⟨d', hd'⟩ := Option.isSome_iff_exists.1 (isSome_of_offered henough)
  have hspec := zeroFileLoop_spec hd' hclear
  rw [Int.sub_zero] at hspec
  exact ⟨d', hd', hspec⟩

theorem createVirtualDisk_zeros {s : Str} (henv : env.Succeed) (hpath : path.decode = .ok s)
    (hsize : 1 ≤ sizeMb) (hlt : sizeMb < 2 ^ 43) :
    ∃ fuel d, createVirtualDisk env garbage fuel path sizeMb = some (.ok (some d)) ∧
      (d.size : Int) = sizeMb * 1024 * 1024 ∧
      (∀ i, i < 1000000 → d.byte i = '0'.toNat) ∧
      (∀ i, d.size ≤ i + 1000000 → i < d.size → d.byte i = '0'.toNat) ∧
      ∀ w ∈ d.written, w.1 + w.2 ≤ d.size := by
  have hlong : longlong (sizeMb * 1024 * 1024 - clearBytes) =
      sizeMb * 1024 * 1024 - clearBytes := by
    unfold clearBytes
    exact longlong_eq (by omega) (by omega)
  have hstart := @allocate_eq env garbage sizeMb henv hsize hlt
  obtain ⟨d₁, hd₁, hfirst⟩ := @zeroFile_ends env.writeFile clearBytes
    (allocate env garbage sizeMb) henv.writeFile (by rw [hstart]) (by decide)
  have hopened : d₁.opened = true := by rw [hfirst.opened, hstart]
  have hback : d₁.seek env.seekBack (longlong (sizeMb * 1024 * 1024 - clearBytes)) =
      { d₁ with pos := (sizeMb * 1024 * 1024 - clearBytes).toNat } := by
    rw [hlong]
    unfold clearBytes
    exact DiskFile.seek_ok hopened henv.seekBack (by omega)
  obtain ⟨d, hd, hlast⟩ := @zeroFile_ends env.writeFile clearBytes
    { d₁ with pos := (sizeMb * 1024 * 1024 - clearBytes).toNat } henv.writeFile hopened (by decide)
  refine ⟨clearBytes.toNat + 1, d, ?_, ?_⟩
  · rw [createVirtualDisk_eq hsize hpath, hd₁, Option.bind_some, hback, hd]
    rfl
  · have hbytes : clearBytes.toNat = 1000000 := rfl
    have hclear : clearBytes = 1000000 := rfl
    rw [hbytes, hstart] at hfirst
    rw [hbytes] at hlast
    have hsize₁ := hfirst.size
    have hsize₂ := hlast.size
    simp only [Nat.reduceEqDiff, if_false] at hsize₁ hsize₂
    refine ⟨by omega, ?_, ?_, ?_⟩
    · intro i hi
      rw [hlast.byte, hfirst.byte]
      split_ifs with h₁ h₂
      · rfl
      · rfl
      · exact absurd ⟨Nat.zero_le i, by simpa using hi⟩ h₂
    · intro i hi hlt
      rw [hlast.byte, if_pos (by simp only; omega)]
    · intro w hw
      rcases hlast.written w hw with hw | hw
      · rcases hfirst.written w hw with hw | hw
        · cases hw
        · simp only at hw
          omega
      · simp only at hw
        omega

/-! ## When it returns or raises -/

theorem offered_add {start m n : Nat} : offered writes start (m + n) =
    offered writes start m + offered writes (start + m) n := by
  induction m generalizing start with
  | zero => simp [offered]
  | succ m ih =>
    rw [Nat.add_right_comm, offered, ih, offered]
    have hstart : start + 1 + m = start + (m + 1) := by omega
    rw [hstart]
    omega

theorem offered_of_createVirtualDisk {s : Str} (hsize : 1 ≤ sizeMb) (hpath : path.decode = .ok s)
    (h : (createVirtualDisk env garbage fuel path sizeMb).isSome = true) :
    env.createFile = true ∧
      ∃ m n, 1000000 ≤ offered env.writeFile 0 m ∧ 1000000 ≤ offered env.writeFile m n := by
  rw [createVirtualDisk_eq hsize hpath] at h
  obtain ⟨r, hr⟩ := Option.isSome_iff_exists.1 h
  obtain ⟨d₁, hd₁, hr⟩ := Option.bind_eq_some_iff.1 hr
  obtain ⟨d, hd, -⟩ := Option.map_eq_some_iff.1 hr
  obtain ⟨m, -, hcalls, hm⟩ := zeroFileLoop_offered hd₁
  obtain ⟨n, -, -, hn⟩ := zeroFileLoop_offered hd
  have hopened := (zeroFileLoop_spec hd₁ (by decide)).opened
  rw [allocate_opened] at hopened
  rw [DiskFile.offered, DiskFile.seek_opened, DiskFile.seek_calls, hopened, hcalls,
    allocate_calls, Nat.zero_add] at hn
  rw [DiskFile.offered, allocate_opened, allocate_calls] at hm
  unfold clearBytes at hm hn
  split at hm
  · rename_i hcreate
    rw [if_pos hcreate] at hn
    exact ⟨hcreate, m, n, by omega, by omega⟩
  · omega

theorem createVirtualDisk_of_offered {s : Str} {m n : Nat} (hsize : 1 ≤ sizeMb)
    (hpath : path.decode = .ok s) (hcreate : env.createFile = true)
    (hm : 1000000 ≤ offered env.writeFile 0 m) (hn : 1000000 ≤ offered env.writeFile m n) :
    ∃ fuel, (createVirtualDisk env garbage fuel path sizeMb).isSome = true := by
  have hopened : (allocate env garbage sizeMb).opened = true := allocate_opened.trans hcreate
  have henough : clearBytes ≤ 0 + (allocate env garbage sizeMb).offered env.writeFile m := by
    rw [DiskFile.offered, if_pos hopened, allocate_calls]
    unfold clearBytes
    omega
  obtain ⟨d₁, hd₁⟩ := Option.isSome_iff_exists.1 (isSome_of_offered henough)
  obtain ⟨k, hk, hcalls, -⟩ := zeroFileLoop_offered hd₁
  rw [allocate_calls, Nat.zero_add] at hcalls
  have hopened₁ := (zeroFileLoop_spec hd₁ (by decide)).opened.trans hopened
  let d₂ := d₁.seek env.seekBack (longlong (sizeMb * 1024 * 1024 - clearBytes))
  have henough₂ : clearBytes ≤ 0 + d₂.offered env.writeFile (m - k + n) := by
    have hkm : k + (m - k) = m := by omega
    rw [DiskFile.offered, if_pos (DiskFile.seek_opened.trans hopened₁), DiskFile.seek_calls,
      hcalls, offered_add, hkm]
    unfold clearBytes
    omega
  obtain ⟨d, hd⟩ := Option.isSome_iff_exists.1 (isSome_of_offered henough₂)
  refine ⟨(m + 1) + (m - k + n + 1), ?_⟩
  have hfirst := zeroFileLoop_mono (m - k + n + 1) hd₁
  have hlast := zeroFileLoop_mono (m + 1) hd
  rw [Nat.add_comm] at hlast
  rw [createVirtualDisk_eq hsize hpath, zeroFile, hfirst, Option.bind_some, zeroFile, hlast]
  rfl

theorem createVirtualDisk_isSome_iff :
    (∃ fuel, (createVirtualDisk env garbage fuel path sizeMb).isSome = true) ↔
      sizeMb < 1 ∨ (∃ e, path.decode = .error e) ∨ env.createFile = true ∧
        ∃ m n, 1000000 ≤ offered env.writeFile 0 m ∧ 1000000 ≤ offered env.writeFile m n := by
  by_cases hsize : sizeMb < 1
  · exact iff_of_true ⟨0, by rw [createVirtualDisk, if_pos hsize]; rfl⟩ (.inl hsize)
  cases hpath : path.decode with
  | error e =>
    refine iff_of_true ⟨0, ?_⟩ (.inr (.inl ⟨e, rfl⟩))
    rw [createVirtualDisk, if_neg hsize, hpath]
    rfl
  | ok s =>
    have hle : 1 ≤ sizeMb := by omega
    rw [or_iff_right hsize, or_iff_right (by simp)]
    constructor
    · intro hboth
      obtain ⟨fuel, h⟩ := hboth
      exact offered_of_createVirtualDisk hle hpath h
    · intro hboth
      obtain ⟨hcreate, m, n, hm, hn⟩ := hboth
      exact createVirtualDisk_of_offered hle hpath hcreate hm hn

end

/-- Both functions end if and only if the calls write as many bytes as they
want, each buffer counted in full. -/
theorem ends_iff_offered (writes : Nat → WriteOutcome) (clear : Int) (d : DiskFile)
    (env : DiskCalls) (garbage : Nat → Nat) (path : PyPath) (sizeMb : Int) :
    ((∃ fuel, (zeroFile writes clear fuel d).isSome = true) ↔
      ∃ n, clear ≤ d.offered writes n) ∧
    ((∃ fuel, (createVirtualDisk env garbage fuel path sizeMb).isSome = true) ↔
      sizeMb < 1 ∨ (∃ e, path.decode = .error e) ∨ env.createFile = true ∧
        ∃ m n, 1000000 ≤ offered env.writeFile 0 m ∧ 1000000 ≤ offered env.writeFile m n) := by
  refine ⟨?_, createVirtualDisk_isSome_iff⟩
  unfold zeroFile
  simp only [zeroFileLoop_isSome_iff, Int.zero_add]

/-- The drive is full: every `WriteFile` fails. -/
theorem full_drive_never_ends :
    ¬ (∀ (writes : Nat → WriteOutcome) (clear : Int) (d : DiskFile),
        ∃ fuel, (zeroFile writes clear fuel d).isSome = true) ∧
    ¬ ∀ (env : DiskCalls) (garbage : Nat → Nat) (path : PyPath) (sizeMb : Int),
        ∃ fuel, (createVirtualDisk env garbage fuel path sizeMb).isSome = true := by
  let full : DiskCalls := { steadyCalls 1000 with writeFile := fun _ => .failed }
  have hnone : ∀ start n, offered full.writeFile start n = 0 := by
    intro start n
    induction n generalizing start with
    | zero => rfl
    | succ n ih =>
      rw [offered, ih]
      rfl
  constructor
  · intro h
    obtain ⟨n, hn⟩ := zeroFileLoop_isSome_iff.1
      (h full.writeFile 1000 { opened := true, byte := fun _ => 0 })
    rw [DiskFile.offered, if_pos rfl, hnone] at hn
    exact absurd hn (by decide)
  · intro h
    rcases createVirtualDisk_isSome_iff.1 (h full (fun _ => 0) (.unicode []) 1) with
      hs | ⟨e, he⟩ | ⟨-, m, n, hm, -⟩
    · exact absurd hs (by decide)
    · exact nomatch he
    · rw [hnone] at hm
      exact absurd hm (by decide)

end Wubi.Backend
