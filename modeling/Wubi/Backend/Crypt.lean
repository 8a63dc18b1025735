import Mathlib.Data.Nat.Digits.Defs

/-!
# The password of the installed system

`md5_password` and the md5-crypt algorithm (`$1$`) that it has to follow. MD5 is
a parameter: any function from byte strings to 16 bytes.

**Reference.** `Crypt.crypt` is the algorithm as published: the alternate sum
goes in by blocks of at most 16 bytes, the bits of the length from the lowest
on, then a thousand rounds, and the final digest in groups of three bytes.

**Code.** `md5Password` repeats the alternate sum and cuts it instead, shifts
where the reference divides, and may raise: `password[0]` is an error for the
empty password, and there is an assertion.
-/
namespace Wubi.Backend

abbrev Bytes := List UInt8

/-- What `digest()` returns. -/
abbrev Digest := Vector UInt8 16

def ascii (s : String) : Bytes := s.toList.map fun c => UInt8.ofNat c.toNat

/-! ## md5-crypt -/

namespace Crypt

/-- `n` bytes of the alternate sum, in blocks. -/
def blocks (d : Bytes) (n : Nat) : Bytes :=
  if n = 0 then [] else d.take (min 16 n) ++ blocks d (n - 16)

/-- One byte for each bit of the length: NUL for 1, the password's first for 0. -/
def lengthBytes (password : Bytes) : Bytes :=
  (Nat.digits 2 password.length).map fun bit => if bit = 1 then 0 else password.headD 0

/-- The alphabet: dot, slash, digits, capital letters, small letters. -/
def letter (k : Nat) : UInt8 :=
  UInt8.ofNat (if k < 2 then '.'.toNat + k else if k < 12 then '0'.toNat + (k - 2)
    else if k < 38 then 'A'.toNat + (k - 12) else 'a'.toNat + (k - 38))

/-- The `n` lowest digits of `v` to base 64, the lowest first. -/
def letters (v n : Nat) : Bytes := (List.range n).map fun k => letter (v / 64 ^ k % 64)

/-- The bytes of each group of the digest, the highest first. -/
def groups : List (Fin 16 × Fin 16 × Fin 16) :=
  [(0, 6, 12), (1, 7, 13), (2, 8, 14), (3, 9, 15), (4, 10, 5)]

def encode (d : Digest) : Bytes :=
  (groups.flatMap fun g =>
    letters (d[g.1].toNat * 256 ^ 2 + d[g.2.1].toNat * 256 + d[g.2.2].toNat) 4) ++
  letters d[11].toNat 2

variable (md5 : Bytes → Digest) (salt password : Bytes)

def initial : Digest :=
  md5 (password ++ ascii "$1$" ++ salt ++
    blocks (md5 (password ++ salt ++ password)).toList password.length ++ lengthBytes password)

def round (i : Nat) (d : Digest) : Digest :=
  md5 ((if 2 ∣ i then d.toList else password) ++ (if 3 ∣ i then [] else salt) ++
    (if 7 ∣ i then [] else password) ++ (if 2 ∣ i then password else d.toList))

/-- The first `n` rounds. -/
def rounds : Nat → Digest
  | 0 => initial md5 salt password
  | n + 1 => round md5 salt password n (rounds n)

def crypt : Bytes := ascii "$1$" ++ salt ++ ascii "$" ++ encode (rounds md5 salt password 1000)

end Crypt

/-! ## `md5_password` -/

/-- `while i > 0`, on the bytes that the digest has been fed; none: IndexError.
mirrors src/wubi/backends/common/utils.py:103-109 -/
def lengthLoop (password hash : Bytes) (i : Nat) : Option Bytes :=
  if i = 0 then some hash
  else if i &&& 1 ≠ 0 then lengthLoop password (hash ++ [0]) (i >>> 1)
  else match password with
    | [] => none
    | c :: _ => lengthLoop password (hash ++ [c]) (i >>> 1)
termination_by i
decreasing_by
  all_goals
    rw [Nat.shiftRight_eq_div_pow]
    omega

/-- mirrors src/wubi/backends/common/utils.py:113-127 -/
def nthHash (md5 : Bytes → Digest) (salt password : Bytes) (hash : Digest) (i : Nat) : Digest :=
  let nthHash := if i % 2 ≠ 0 then password else hash.toList
  let nthHash := if i % 3 ≠ 0 then nthHash ++ salt else nthHash
  let nthHash := if i % 7 ≠ 0 then nthHash ++ password else nthHash
  let nthHash := if i % 2 ≠ 0 then nthHash ++ hash.toList else nthHash ++ password
  md5 nthHash

def base64 : Vector UInt8 64 :=
  ⟨(ascii "./0123456789ABCDEFGHIJKLMNOPQRSTUVWXYZabcdefghijklmnopqrstuvwxyz").toArray, by decide⟩

/-- The loop of `b64_three_char`. -/
def b64Loop : Nat → Nat → Bytes
  | 0, _ => []
  | n + 1, w =>
    have hw : w &&& 0x3f < 64 := Nat.lt_succ_of_le Nat.and_le_right
    base64[w &&& 0x3f] :: b64Loop n (w >>> 6)

/-- mirrors src/wubi/backends/common/utils.py:133-141 -/
def b64ThreeChar (char2 char1 char0 : UInt8) (n : Nat) : Bytes :=
  b64Loop n ((char2.toNat <<< 16) ||| (char1.toNat <<< 8) ||| char0.toNat)

/-- The salt is what the five calls of `random.choice` drew; none: it raised.
mirrors src/wubi/backends/common/utils.py:83-151 -/
def md5Password (md5 : Bytes → Digest) (salt password : Bytes) : Option Bytes :=
  let hash := password ++ ascii "$1$" ++ salt
  let secondHash := (md5 (password ++ salt ++ password)).toList
  let q := password.length / secondHash.length
  let r := password.length % secondHash.length
  let secondHash := (List.replicate q secondHash).flatten ++ secondHash.take r
  if secondHash.length ≠ password.length then none
  else do
    let hash ← lengthLoop password (hash ++ secondHash) password.length
    let hash := (List.range 1000).foldl (nthHash md5 salt password) (md5 hash)
    return ascii "$1$" ++ salt ++ ascii "$"
      ++ b64ThreeChar hash[0] hash[6] hash[12] 4
      ++ b64ThreeChar hash[1] hash[7] hash[13] 4
      ++ b64ThreeChar hash[2] hash[8] hash[14] 4
      ++ b64ThreeChar hash[3] hash[9] hash[15] 4
      ++ b64ThreeChar hash[4] hash[10] hash[5] 4
      ++ b64ThreeChar 0 0 hash[11] 2

/-! ## Each stage -/

namespace Crypt

/-- Repeating and cutting yields the blocks. -/
theorem blocks_eq {d : Bytes} (hd : d.length = 16) (n : Nat) :
    blocks d n = (List.replicate (n / 16) d).flatten ++ d.take (n % 16) := by
  induction n using Nat.strong_induction_on with
  | _ n ih =>
    unfold blocks
    by_cases h0 : n = 0
    · simp [h0]
    · rw [if_neg h0]
      rcases Nat.lt_or_ge n 16 with hlt | hge
      · have hrest : n - 16 = 0 := by omega
        have hdiv : n / 16 = 0 := by omega
        rw [hrest, Nat.min_eq_right (Nat.le_of_lt hlt), hdiv, Nat.mod_eq_of_lt hlt]
        simp [blocks]
      · have hdiv : n / 16 = (n - 16) / 16 + 1 := by omega
        have hmod : (n - 16) % 16 = n % 16 := by omega
        rw [ih (n - 16) (by omega), Nat.min_eq_left hge, hdiv, hmod, List.replicate_succ,
          List.flatten_cons, List.append_assoc, List.take_of_length_le (Nat.le_of_eq hd)]

theorem length_blocks {d : Bytes} (hd : d.length = 16) (n : Nat) : (blocks d n).length = n := by
  rw [blocks_eq hd]
  simp [hd]
  omega

/-- The loop over the length never looks at an empty password. -/
theorem lengthLoop_eq {password hash : Bytes} {i : Nat} (h : password = [] → i = 0) :
    lengthLoop password hash i =
      some (hash ++ (Nat.digits 2 i).map fun bit => if bit = 1 then 0 else password.headD 0) := by
  induction i using Nat.strong_induction_on generalizing hash with
  | _ i ih =>
    unfold lengthLoop
    by_cases h0 : i = 0
    · simp [h0]
    · have hshift : i >>> 1 = i / 2 := by rw [Nat.shiftRight_eq_div_pow, Nat.pow_one]
      have hrec : ∀ hash, lengthLoop password hash (i / 2) = some (hash ++
          (Nat.digits 2 (i / 2)).map fun bit => if bit = 1 then 0 else password.headD 0) :=
        fun hash => ih (i / 2) (by omega) fun hp => absurd (h hp) h0
      rw [if_neg h0, hshift, Nat.and_one_is_mod, Nat.digits_def' (by omega) (by omega)]
      rcases Nat.mod_two_eq_zero_or_one i with hbit | hbit
      · cases password with
        | nil => exact absurd (h rfl) h0
        | cons c password => simp [hbit, hrec]
      · simp [hbit, hrec]

theorem nthHash_eq {md5 : Bytes → Digest} {salt password : Bytes} {d : Digest} {i : Nat} :
    nthHash md5 salt password d i = round md5 salt password i d := by
  unfold nthHash round
  simp only [Nat.dvd_iff_mod_eq_zero]
  congr 1
  split_ifs <;> simp_all

theorem foldl_nthHash {md5 : Bytes → Digest} {salt password : Bytes} (n : Nat) :
    (List.range n).foldl (nthHash md5 salt password) (initial md5 salt password) =
      rounds md5 salt password n := by
  induction n with
  | zero => rfl
  | succ n ih => rw [List.range_succ, List.foldl_append, ih]; exact nthHash_eq

theorem base64_eq : ∀ k : Fin 64, base64[k] = letter k := by decide

theorem b64Loop_eq (n w : Nat) : b64Loop n w = letters w n := by
  induction n generalizing w with
  | zero => rfl
  | succ n ih =>
    have hshift : w >>> 6 = w / 64 := Nat.shiftRight_eq_div_pow w 6
    have hand : w &&& 0x3f = w % 64 := Nat.and_two_pow_sub_one_eq_mod w 6
    have hletter : base64[w % 64] = letter (w % 64) := base64_eq ⟨w % 64, Nat.mod_lt w (by omega)⟩
    unfold b64Loop letters
    rw [ih, hshift, List.range_succ_eq_map, List.map_cons, List.map_map]
    simp only [hand, hletter]
    simp [letters, Nat.div_div_eq_div_mul, Nat.pow_succ, Nat.mul_comm]

/-- Three bytes side by side. -/
theorem pack_eq (a b c : UInt8) :
    (a.toNat <<< 16) ||| (b.toNat <<< 8) ||| c.toNat = a.toNat * 256 ^ 2 + b.toNat * 256 + c.toNat := by
  have hb := b.toNat_lt
  have hc := c.toNat_lt
  have hlow : (b.toNat <<< 8) ||| c.toNat = b.toNat * 256 + c.toNat := by
    rw [← Nat.shiftLeft_add_eq_or_of_lt hc, Nat.shiftLeft_eq]
  rw [Nat.or_assoc, hlow, ← Nat.shiftLeft_add_eq_or_of_lt (by omega), Nat.shiftLeft_eq]
  omega

theorem b64ThreeChar_eq (a b c : UInt8) (n : Nat) :
    b64ThreeChar a b c n = letters (a.toNat * 256 ^ 2 + b.toNat * 256 + c.toNat) n := by
  rw [b64ThreeChar, pack_eq, b64Loop_eq]

/-- The permutation that the code spells out. -/
theorem encode_eq (d : Digest) :
    b64ThreeChar d[0] d[6] d[12] 4 ++ b64ThreeChar d[1] d[7] d[13] 4 ++
      b64ThreeChar d[2] d[8] d[14] 4 ++ b64ThreeChar d[3] d[9] d[15] 4 ++
      b64ThreeChar d[4] d[10] d[5] 4 ++ b64ThreeChar 0 0 d[11] 2 = encode d := by
  have hlast : b64ThreeChar 0 0 d[11] 2 = letters d[11].toNat 2 := by
    rw [b64ThreeChar_eq, UInt8.toNat_zero, Nat.zero_mul, Nat.zero_mul, Nat.zero_add]
  rw [hlast]
  simp only [b64ThreeChar_eq, encode, groups, List.flatMap_cons, List.flatMap_nil,
    List.append_assoc, List.nil_append]
  rfl

end Crypt

theorem md5Password_crypt (md5 : Bytes → Digest) (salt password : Bytes) :
    md5Password md5 salt password = some (Crypt.crypt md5 salt password) := by
  have hd : (md5 (password ++ salt ++ password)).toList.length = 16 := Vector.length_toList
  have hblocks := Crypt.blocks_eq hd password.length
  have hlength := Crypt.length_blocks hd password.length
  have hempty : password = [] → password.length = 0 := by rintro rfl; rfl
  have hinitial : md5 (password ++ ascii "$1$" ++ salt ++
      Crypt.blocks (md5 (password ++ salt ++ password)).toList password.length ++
      (Nat.digits 2 password.length).map fun bit => if bit = 1 then 0 else password.headD 0) =
      Crypt.initial md5 salt password := rfl
  unfold md5Password
  simp only [hd, ← hblocks, hlength, ne_eq, not_true_eq_false, if_false,
    Crypt.lengthLoop_eq hempty, Option.bind_eq_bind, Option.bind_some, hinitial,
    Crypt.foldl_nthHash]
  rw [Crypt.crypt, ← Crypt.encode_eq]
  simp only [Option.pure_def, List.append_assoc]

end Wubi.Backend
