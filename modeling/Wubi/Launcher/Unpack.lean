import Mathlib.Algebra.Ring.Nat
import Mathlib.Data.List.Basic

/-!
# Finding the archive behind the header

`src/pylauncher/pack.py` writes `header.exe`, the text `@@@pylauncher@@@` and
a 7z archive one after the other; `seek_beginning_of_archive` of
`src/pylauncher/unpack.c` finds the archive again by comparing 22 bytes at
every position of the file. The comparison buffer keeps its old bytes where a
read near the end of the file is short.

The Makefile builds with `-m32` and `-D_SZ_FILE_SIZE_32` and without
`USE_WINDOWS_FUNCTIONS`: a `CFileSize` has 32 bits, and `fseek` receives it as
a `long`, which is negative from 2^31 on.

Results:
* `scan_found`, `scan_none`: below 2^31 bytes the scan stops at the marker,
  and nowhere in a file without it.
* `unpack_offset_iff`: the archive is readable at every position exactly when
  the file is below 2^31 bytes.
-/
namespace Wubi.Launcher

abbrev Bytes := List UInt8

/-- mirrors src/pylauncher/pack.py:27 and unpack.c:230 -/
def pylauncher : Bytes :=
  [0x40, 0x40, 0x40, 0x70, 0x79, 0x6C, 0x61, 0x75, 0x6E, 0x63, 0x68, 0x65, 0x72, 0x40, 0x40, 0x40]

def k7zSignature : Bytes := [0x37, 0x7A, 0xBC, 0xAF, 0x27, 0x1C]

/-- `concatn(pylauncher, k7zSignature, k7zSignatureSize, false)`; no byte of it
is zero, so `strlen` gives its length.
mirrors src/pylauncher/str.c:17-28 -/
def signature : Bytes := pylauncher ++ k7zSignature

/-- The self-extracting file.
mirrors src/pylauncher/pack.py:42-61 -/
def cat (header archive : Bytes) : Bytes := header ++ pylauncher ++ archive

/-- A `FILE *` open for reading. -/
structure Stream where
  content : Bytes
  pos : Nat

/-- What is still to be read. -/
def Stream.rest (s : Stream) : Bytes := s.content.drop s.pos

/-- `fread` -/
def readFile (s : Stream) (size : Nat) : Bytes × Stream :=
  let data := s.rest.take size
  (data, { s with pos := s.pos + data.length })

/-- `fseek` fails on a negative `long` and leaves the position as it is.
mirrors src/pylauncher/unpack.c:148-173 -/
def seekFileImp (gOffset : Nat) (s : Stream) (pos : Nat) : Stream × Bool :=
  let pos := (pos + gOffset) % 2 ^ 32
  if pos < 2 ^ 31 then ({ s with pos }, true) else (s, false)

/-- The loop of `seek_beginning_of_archive`, with `n` rounds left: whether it
found the signature, and the `i` it ends with.
mirrors src/pylauncher/unpack.c:254-264 -/
def scan (s : Stream) (b : Bytes) : Nat → Nat → Bool × Nat
  | 0, i => (false, i)
  | n + 1, i =>
    let s := (seekFileImp 0 s i).1
    let (data, s) := readFile s signature.length
    if data = [] then (false, i)
    else
      let b := data ++ b.drop data.length
      if b = signature then (true, i) else scan s b n (i + 1)

/-- `fstat` gives the size as a `long`; `stat` is that value as a `size_t`.
`b` is what the buffer happens to contain.
mirrors src/pylauncher/unpack.c:226-270 -/
def seekBeginningOfArchive (stat : Nat → Nat) (b : Bytes) (s : Stream) : Bool × Nat :=
  let (isFound, i) := scan s b (stat s.content.length) 0
  (isFound, (i + pylauncher.length) % 2 ^ 32)

/-! ## The marker does not overlap itself -/

/-- Its last byte occurs nowhere else in it. -/
theorem signature_last : ∀ j < 21, signature[j]? ≠ some 0x1C := by decide

@[simp] theorem signature_length : signature.length = 22 := rfl

@[simp] theorem pylauncher_length : pylauncher.length = 16 := rfl

/-- The 22 bytes of `f` from `i` on. -/
def window (f : Bytes) (i : Nat) : Bytes := (f.drop i).take 22

theorem window_length {f : Bytes} {i : Nat} (h : i + 22 ≤ f.length) : (window f i).length = 22 := by
  simp [window]; omega

theorem window_infix {f : Bytes} {i : Nat} : window f i <:+: f :=
  (List.take_prefix _ _).isInfix.trans (List.drop_suffix _ _).isInfix

theorem window_cat {h a : Bytes} : window (h ++ (signature ++ a)) h.length = signature := by
  rw [window, List.drop_left]
  show (signature ++ a).take signature.length = signature
  exact List.take_left

/-- A match before the marker would lie in the header or overlap the marker. -/
theorem window_before {h a : Bytes} {i : Nat} (hno : ¬ signature <:+: h) (hi : i < h.length) :
    window (h ++ (signature ++ a)) i ≠ signature := by
  intro hw
  by_cases hin : i + 22 ≤ h.length
  · apply hno
    have hdrop : window (h ++ (signature ++ a)) i = window h i := by
      rw [window, window, List.drop_append_of_le_length (by omega),
        List.take_append_of_le_length (by simp; omega)]
    rw [← hw, hdrop]
    exact window_infix
  · have hlast : (window (h ++ (signature ++ a)) i)[21]? = some 0x1C := by rw [hw]; rfl
    have hidx : (window (h ++ (signature ++ a)) i)[21]? = signature[21 - (h.length - i)]? := by
      rw [window, List.getElem?_take_of_lt (by omega), List.getElem?_drop,
        List.getElem?_append_right (by omega), List.getElem?_append_left (by simp; omega)]
      congr 1; omega
    rw [hidx] at hlast
    exact signature_last _ (by omega) hlast

/-! ## One round -/

/-- The buffer after a round at `i`. -/
def refill (f b : Bytes) (i : Nat) : Bytes := window f i ++ b.drop (window f i).length

theorem scan_succ {f b : Bytes} {pos n i : Nat} (hi : i < f.length) (hlong : f.length ≤ 2 ^ 31) :
    scan ⟨f, pos⟩ b (n + 1) i =
      if refill f b i = signature then (true, i)
      else scan ⟨f, i + (window f i).length⟩ (refill f b i) n (i + 1) := by
  have hseek : (seekFileImp 0 ⟨f, pos⟩ i).1 = ⟨f, i⟩ := by
    have hmod : (i + 0) % 2 ^ 32 = i := by omega
    rw [seekFileImp, hmod, if_pos (by omega)]
  have hne : window f i ≠ [] := by
    intro h
    have := congrArg List.length h
    simp [window] at this
    omega
  rw [scan, hseek]
  exact if_neg hne

/-- In a short read the last byte of the buffer is the last byte of the file,
which is also the last byte read. -/
theorem refill_ne {f b : Bytes} {i : Nat} (hno : ¬ signature <:+: f) (hi : i < f.length)
    (hb : b.length = 22) (hstale : f.length < i + 22 → b[21]? = f[f.length - 1]?) :
    refill f b i ≠ signature := by
  intro hmatch
  have hlen : (window f i).length = min 22 (f.length - i) := by simp [window]
  by_cases hfull : i + 22 ≤ f.length
  · rw [refill, window_length hfull, List.drop_eq_nil_of_le (by omega), List.append_nil] at hmatch
    exact hno (hmatch ▸ window_infix)
  · have hend : (refill f b i)[21]? = f[f.length - 1]? := by
      rw [refill, List.getElem?_append_right (by omega), List.getElem?_drop, ← hstale (by omega)]
      congr 1; omega
    have hread : (refill f b i)[f.length - i - 1]? = f[f.length - 1]? := by
      rw [refill, List.getElem?_append_left (by omega), window, List.getElem?_take_of_lt (by omega),
        List.getElem?_drop]
      congr 1; omega
    rw [hmatch] at hend hread
    exact signature_last (f.length - i - 1) (by omega) (by rw [hread, ← hend]; rfl)

theorem refill_length {f b : Bytes} {i : Nat} (hb : b.length = 22) : (refill f b i).length = 22 := by
  simp [refill, window]; omega

theorem refill_stale {f b : Bytes} {i : Nat} (hi : i < f.length)
    (hstale : f.length < i + 22 → b[21]? = f[f.length - 1]?) (hshort : f.length < i + 1 + 22) :
    (refill f b i)[21]? = f[f.length - 1]? := by
  have hlen : (window f i).length = min 22 (f.length - i) := by simp [window]
  by_cases hfull : i + 22 ≤ f.length
  · rw [refill, List.getElem?_append_left (by omega), window, List.getElem?_take_of_lt (by omega),
      List.getElem?_drop]
    congr 1; omega
  · rw [refill, List.getElem?_append_right (by omega), List.getElem?_drop, ← hstale (by omega)]
    congr 1; omega

/-! ## The whole scan -/

theorem scan_none {f : Bytes} (hno : ¬ signature <:+: f) (hlong : f.length ≤ 2 ^ 31) {n : Nat} :
    ∀ {i pos : Nat} {b : Bytes}, i + n = f.length → b.length = 22 →
      (f.length < i + 22 → b[21]? = f[f.length - 1]?) → (scan ⟨f, pos⟩ b n i).1 = false := by
  induction n with
  | zero => intros; rfl
  | succ n ih =>
    intro i pos b hn hb hstale
    rw [scan_succ (by omega) hlong, if_neg (refill_ne hno (by omega) hb hstale)]
    exact ih (by omega) (refill_length hb) (refill_stale (by omega) hstale)

theorem scan_found {h a : Bytes} (hno : ¬ signature <:+: h)
    (hlong : (h ++ (signature ++ a)).length ≤ 2 ^ 31) {n k : Nat} :
    ∀ {i pos : Nat} {b : Bytes}, i + n = h.length → b.length = 22 →
      scan ⟨h ++ (signature ++ a), pos⟩ b (n + 1 + k) i = (true, h.length) := by
  have hlen : (h ++ (signature ++ a)).length = h.length + (22 + a.length) := by simp
  have hrefill : ∀ {b : Bytes} {i : Nat}, b.length = 22 → i ≤ h.length →
      refill (h ++ (signature ++ a)) b i = window (h ++ (signature ++ a)) i := by
    intro b i hb hi
    rw [refill, window_length (by omega), List.drop_eq_nil_of_le (by omega), List.append_nil]
  induction n with
  | zero =>
    intro i pos b hi hb
    have hi : i = h.length := hi
    rw [show 0 + 1 + k = k + 1 by omega, scan_succ (by omega) hlong,
      if_pos (by rw [hrefill hb (by omega), hi, window_cat]), hi]
  | succ n ih =>
    intro i pos b hi hb
    have hne : refill (h ++ (signature ++ a)) b i ≠ signature := by
      rw [hrefill hb (by omega)]; exact window_before hno (by omega)
    rw [show n + 1 + 1 + k = (n + 1 + k) + 1 by omega, scan_succ (by omega) hlong, if_neg hne]
    exact ih (by omega) (refill_length hb)

/-! ## The offset -/

/-- What `fstat` reports while the size fits a `long`. -/
def Reports (stat : Nat → Nat) : Prop := ∀ n < 2 ^ 31, stat n = n

/-- The scan returns the offset of the archive, and a seek to any position of
the archive works and reads on from there. -/
def Unpacks (stat : Nat → Nat) (b header archive : Bytes) : Prop :=
  seekBeginningOfArchive stat b ⟨cat header archive, 0⟩ = (true, header.length + 16) ∧
  ∀ pos ≤ archive.length, ∀ at', ∃ s,
    seekFileImp (header.length + 16) ⟨cat header archive, at'⟩ pos = (s, true) ∧
    s.rest = archive.drop pos

theorem cat_eq {h a : Bytes} (ha : k7zSignature <+: a) :
    ∃ rest, a = k7zSignature ++ rest ∧ cat h a = h ++ (signature ++ rest) := by
  obtain ⟨rest, rfl⟩ := ha
  exact ⟨rest, rfl, by simp [cat, signature]⟩

theorem cat_length {h a : Bytes} : (cat h a).length = h.length + 16 + a.length := by
  simp [cat]; omega

theorem cat_drop {h a : Bytes} {pos : Nat} : (cat h a).drop (h.length + 16 + pos) = a.drop pos := by
  have hlen : (h ++ pylauncher).length = h.length + 16 := by simp
  rw [cat, ← hlen, ← List.drop_drop, List.drop_left]

/-- The archive is found and can be read at every position, exactly when the
file is below 2^31 bytes; such a file without the marker gives no match. -/
theorem unpack_offset_iff {stat : Nat → Nat} (hstat : Reports stat) {b : Bytes}
    (hb : b.length = 22) :
    (∀ h a : Bytes, 22 ≤ h.length → ¬ signature <:+: h → k7zSignature <+: a →
      (cat h a).length < 2 ^ 32 → (Unpacks stat b h a ↔ (cat h a).length < 2 ^ 31)) ∧
    ∀ f : Bytes, 22 ≤ f.length → ¬ signature <:+: f → f.length < 2 ^ 31 →
      (seekBeginningOfArchive stat b ⟨f, 0⟩).1 = false := by
  constructor
  · intro h a _ hno ha hsize
    rw [cat_length] at hsize ⊢
    constructor
    · intro ⟨_, hread⟩
      obtain ⟨s, hs, -⟩ := hread a.length (Nat.le_refl _) 0
      by_contra hlong
      have hmod : (a.length + (h.length + 16)) % 2 ^ 32 = a.length + (h.length + 16) := by omega
      rw [seekFileImp, hmod, if_neg (by omega)] at hs
      cases hs
    · intro hlong
      constructor
      · obtain ⟨rest, -, hcat⟩ := cat_eq (h := h) ha
        have hrounds : (cat h a).length = h.length + 1 + (15 + a.length) := by
          rw [cat_length]; omega
        have hscan : scan ⟨h ++ (signature ++ rest), 0⟩ b (h.length + 1 + (15 + a.length)) 0 =
            (true, h.length) :=
          scan_found hno (by rw [← hcat, cat_length]; omega) (Nat.zero_add _) hb
        rw [← hcat, ← hrounds] at hscan
        have hsize : stat (cat h a).length = (cat h a).length := hstat _ (by rw [cat_length]; omega)
        simp only [seekBeginningOfArchive, hsize, hscan, pylauncher_length, Prod.mk.injEq, true_and]
        omega
      · intro pos hpos at'
        have hmod : (pos + (h.length + 16)) % 2 ^ 32 = h.length + 16 + pos := by omega
        refine ⟨⟨cat h a, h.length + 16 + pos⟩, ?_, cat_drop⟩
        rw [seekFileImp, hmod, if_pos (by omega)]
  · intro f hf hno hlong
    rw [seekBeginningOfArchive]
    simp only [hstat _ hlong]
    exact scan_none hno (by omega) (Nat.zero_add _) hb (by omega)

theorem unpack_offset_small :
    Unpacks id (List.replicate 22 0) (List.replicate 22 0) k7zSignature ∧
    (seekBeginningOfArchive id (List.replicate 22 0) ⟨List.replicate 22 1, 0⟩).1 = false := by
  have h := @unpack_offset_iff id (fun _ _ => rfl) (List.replicate 22 0) rfl
  exact ⟨(h.1 (List.replicate 22 0) k7zSignature (by decide) (by decide) (by decide) (by decide)).2
    (by decide), h.2 (List.replicate 22 1) (by decide) (by decide) (by decide)⟩

/-- An archive of 2 GiB: its end cannot be reached. -/
theorem large_archive_unreadable :
    ∃ h a : Bytes, 22 ≤ h.length ∧ ¬ signature <:+: h ∧ k7zSignature <+: a ∧
      (cat h a).length < 2 ^ 32 ∧ ∀ stat b, ¬ Unpacks stat b h a := by
  refine ⟨List.replicate 22 0, k7zSignature ++ List.replicate (2 ^ 31) 0, by decide, by decide,
    List.prefix_append _ _, ?_, fun stat b hunpacks => ?_⟩
  · rw [cat_length, List.length_append, List.length_replicate, List.length_replicate]; decide
  · obtain ⟨s, hs, -⟩ := hunpacks.2 (2 ^ 31)
      (by rw [List.length_append, List.length_replicate]; omega) 0
    rw [seekFileImp, List.length_replicate, if_neg (by decide)] at hs
    cases hs

end Wubi.Launcher
