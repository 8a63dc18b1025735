import Wubi.Bittorrent.Encrypter

/-!
# Which pieces a peer has

A `Bitfield` has a boolean for each piece and counts those that are false. On the wire
it is a string with eight booleans in a byte, the first in the highest bit; what is left
of the last byte is zero.

**Results.**
* `ofString_iff`: the strings that are accepted are those that `tostring` gives, and the
  bitfield is the one that it was called on; `numfalse` is the number of pieces that are
  missing.
-/
namespace Wubi.Bittorrent

/-! ## Bytes -/

/-- The loop of `_int_to_booleans`, `k` times. -/
def intToBooleansLoop : Nat → Nat → List Bool
  | 0, _ => []
  | k + 1, x => decide (x &&& 0x80 ≠ 0) :: intToBooleansLoop k (x <<< 1)

/-- mirrors src/bittorrent/bitfield.py:17-22 -/
def intToBooleans (x : Nat) : List Bool := intToBooleansLoop 8 x

/-- `reverse_lookup_table[bs]`; the table is filled from 0 on, and no key comes twice
(`intToBooleans_inj`).
mirrors src/bittorrent/bitfield.py:24-28 -/
def reverseLookup (bs : List Bool) : Option UInt8 :=
  ((List.range 256).find? fun i => intToBooleans i == bs).map UInt8.ofNat

def booleansToInt (bs : List Bool) : Nat := bs.foldl (fun n b => 2 * n + b.toNat) 0

theorem booleansToInt_intToBooleans : ∀ i : Fin 256, booleansToInt (intToBooleans i) = i := by
  decide +kernel

theorem intToBooleans_booleansToInt : ∀ a b c d e f g h : Bool,
    intToBooleans (booleansToInt [a, b, c, d, e, f, g, h]) = [a, b, c, d, e, f, g, h] ∧
      booleansToInt [a, b, c, d, e, f, g, h] < 256 := by
  decide +kernel

@[simp] theorem length_intToBooleans (x : Nat) : (intToBooleans x).length = 8 := rfl

theorem intToBooleans_inj {i j : Nat} (hi : i < 256) (hj : j < 256)
    (h : intToBooleans i = intToBooleans j) : i = j := by
  have hi' := booleansToInt_intToBooleans ⟨i, hi⟩
  have hj' := booleansToInt_intToBooleans ⟨j, hj⟩
  rw [h] at hi'
  exact hi'.symm.trans hj'

theorem exists_of_length_eight (bs : List Bool) (h : bs.length = 8) :
    ∃ i < 256, intToBooleans i = bs := by
  rcases bs with _ | ⟨a, _ | ⟨b, _ | ⟨c, _ | ⟨d, _ | ⟨e, _ | ⟨f, _ | ⟨g, _ | ⟨i, _ | ⟨x, bs⟩⟩⟩⟩⟩⟩⟩⟩⟩
  case cons.cons.cons.cons.cons.cons.cons.cons.nil =>
    obtain ⟨hbits, hlt⟩ := intToBooleans_booleansToInt a b c d e f g i
    exact ⟨_, hlt, hbits⟩
  all_goals simp at h

theorem reverseLookup_iff {bs : List Bool} {c : UInt8} :
    reverseLookup bs = some c ↔ intToBooleans c.toNat = bs := by
  have hfind : ∀ i < 256, intToBooleans i = bs →
      (List.range 256).find? (fun i => intToBooleans i == bs) = some i := by
    intro i hi hbs
    cases hf : (List.range 256).find? fun i => intToBooleans i == bs with
    | none =>
      have hno := List.find?_eq_none.1 hf i (List.mem_range.2 hi)
      simp [hbs] at hno
    | some j =>
      have hj := List.mem_range.1 (List.mem_of_find?_eq_some hf)
      have hjs := List.find?_some hf
      rw [beq_iff_eq, ← hbs] at hjs
      rw [intToBooleans_inj hj hi hjs]
  constructor
  · intro h
    obtain ⟨i, hi, rfl⟩ := Option.map_eq_some_iff.1 h
    have hlt := List.mem_range.1 (List.mem_of_find?_eq_some hi)
    have hbs := List.find?_some hi
    rw [beq_iff_eq] at hbs
    rw [UInt8.toNat_ofNat', Nat.mod_eq_of_lt hlt]
    exact hbs
  · intro h
    rw [reverseLookup, hfind c.toNat c.toNat_lt h]
    simp

/-! ## Bitfields -/

structure Bitfield where
  length : Nat
  array : List Bool
  numfalse : Int
deriving DecidableEq

/-- mirrors src/bittorrent/bitfield.py:11-16 -/
def negsum (a : List Bool) : Int := a.length - (a.map Bool.toNat).sum

namespace Bitfield

/-- `none` where `ValueError` is raised.
mirrors src/bittorrent/bitfield.py:31-47 -/
def ofString (length : Nat) (bitstring : Bytes) : Option Bitfield :=
  let extra : Int := bitstring.length * 8 - length
  if extra < 0 ∨ extra ≥ 8 then none
  else
    let r := bitstring.flatMap fun c => intToBooleans c.toNat
    let kept := r.length - extra.toNat
    if extra > 0 ∧ r.drop kept ≠ List.replicate extra.toNat false then none
    else some {
      length := length
      array := r.take kept
      numfalse := negsum (r.take kept) }

/-- mirrors src/bittorrent/bitfield.py:63-70 -/
def tostring (b : Bitfield) : Option Bytes := do
  let s := b.array.length % 8
  let r ← (List.range ((b.array.length - s) / 8)).mapM fun x =>
    reverseLookup ((b.array.drop (8 * x)).take 8)
  if s = 0 then some r
  else do
    let c ← reverseLookup (b.array.drop (b.array.length - s) ++ List.replicate (8 - s) false)
    some (r ++ [c])

/-- `numfalse` counts the pieces that are missing. -/
structure Counted (b : Bitfield) : Prop where
  length_array : b.array.length = b.length
  numfalse_eq : b.numfalse = b.array.countP (· = false)

/-! ## Packing -/

/-- The bits of `s` are those of `a`, and zeros up to the end of the last byte. -/
def Packs (a : List Bool) (s : Bytes) : Prop :=
  a.length ≤ 8 * s.length ∧ 8 * s.length < a.length + 8 ∧
    s.flatMap (fun c => intToBooleans c.toNat) =
      a ++ List.replicate (8 * s.length - a.length) false

theorem length_bits (s : Bytes) :
    (s.flatMap fun c => intToBooleans c.toNat).length = 8 * s.length := by
  simp [List.length_flatMap, Nat.mul_comm]

theorem bits_inj {s t : Bytes} (h : s.flatMap (fun c => intToBooleans c.toNat) =
    t.flatMap fun c => intToBooleans c.toNat) : s = t := by
  induction s generalizing t with
  | nil =>
    have hlen := congrArg List.length h
    rw [length_bits, length_bits] at hlen
    exact (List.length_eq_zero_iff.1 (by rw [List.length_nil] at hlen; omega)).symm
  | cons c s ih =>
    cases t with
    | nil =>
      have hlen := congrArg List.length h
      rw [length_bits, length_bits] at hlen
      simp at hlen
    | cons d t =>
      rw [List.flatMap_cons, List.flatMap_cons] at h
      obtain ⟨hhead, htail⟩ := List.append_inj h rfl
      rw [ih htail, UInt8.toNat_inj.1 (intToBooleans_inj c.toNat_lt d.toNat_lt hhead)]

theorem Packs.unique {a : List Bool} {s t : Bytes} (hs : Packs a s) (ht : Packs a t) : s = t := by
  obtain ⟨hle, hlt, hbits⟩ := hs
  obtain ⟨hle', hlt', hbits'⟩ := ht
  have hlen : s.length = t.length := by omega
  exact bits_inj (by rw [hbits, hbits', hlen])

/-- The whole bytes. -/
theorem exists_whole (a : List Bool) (m : Nat) (h : 8 * m ≤ a.length) :
    ∃ r, (List.range m).mapM (fun x => reverseLookup ((a.drop (8 * x)).take 8)) = some r ∧
      r.length = m ∧ r.flatMap (fun c => intToBooleans c.toNat) = a.take (8 * m) := by
  induction m with
  | zero => exact ⟨[], rfl, rfl, by simp⟩
  | succ m ih =>
    obtain ⟨r, hr, hlen, hbits⟩ := ih (by omega)
    obtain ⟨i, hi, hgroup⟩ := exists_of_length_eight ((a.drop (8 * m)).take 8) (by simp; omega)
    have hlook : reverseLookup ((a.drop (8 * m)).take 8) = some (UInt8.ofNat i) := by
      rw [reverseLookup_iff, UInt8.toNat_ofNat', Nat.mod_eq_of_lt hi]
      exact hgroup
    refine ⟨r ++ [UInt8.ofNat i], ?_, by simp [hlen], ?_⟩
    · rw [List.range_succ, List.mapM_append, hr]
      simp [hlook]
    · rw [List.flatMap_append, hbits, List.flatMap_singleton, reverseLookup_iff.1 hlook,
        show 8 * (m + 1) = 8 * m + 8 by omega, List.take_add]

theorem exists_tostring (b : Bitfield) : ∃ s, b.tostring = some s ∧ Packs b.array s := by
  have hmod := Nat.mod_lt b.array.length (by decide : 0 < 8)
  have hdiv := Nat.div_add_mod b.array.length 8
  obtain ⟨r, hr, hlen, hbits⟩ := exists_whole b.array ((b.array.length - b.array.length % 8) / 8)
    (by omega)
  rw [tostring, hr]
  by_cases hs : b.array.length % 8 = 0
  · refine ⟨r, by simp [hs], by omega, by omega, ?_⟩
    rw [hbits, show 8 * r.length - b.array.length = 0 by omega, List.replicate_zero,
      List.append_nil, List.take_of_length_le (by omega)]
  · obtain ⟨i, hi, hgroup⟩ := exists_of_length_eight
      (b.array.drop (b.array.length - b.array.length % 8) ++
        List.replicate (8 - b.array.length % 8) false) (by simp; omega)
    have hlook : reverseLookup (b.array.drop (b.array.length - b.array.length % 8) ++
        List.replicate (8 - b.array.length % 8) false) = some (UInt8.ofNat i) := by
      rw [reverseLookup_iff, UInt8.toNat_ofNat', Nat.mod_eq_of_lt hi]
      exact hgroup
    refine ⟨r ++ [UInt8.ofNat i], by simp [hs, hlook], by simp; omega, by simp; omega, ?_⟩
    rw [List.flatMap_append, hbits, List.flatMap_singleton, reverseLookup_iff.1 hlook,
      ← List.append_assoc, show 8 * ((b.array.length - b.array.length % 8) / 8) =
        b.array.length - b.array.length % 8 by omega, List.take_append_drop, List.length_append,
      List.length_singleton, show 8 * (r.length + 1) - b.array.length =
        8 - b.array.length % 8 by omega]

theorem tostring_iff {b : Bitfield} {s : Bytes} : b.tostring = some s ↔ Packs b.array s := by
  obtain ⟨t, ht, hpacks⟩ := exists_tostring b
  rw [ht, Option.some.injEq]
  exact ⟨fun h => h ▸ hpacks, fun h => hpacks.unique h⟩

/-! ## Counting -/

theorem negsum_eq (a : List Bool) : negsum a = a.countP (· = false) := by
  induction a with
  | nil => rfl
  | cons x a ih =>
    rw [negsum] at ih ⊢
    cases x
    · rw [List.countP_cons_of_pos (by rfl)]
      simp at ih ⊢
      omega
    · rw [List.countP_cons_of_neg (by simp)]
      simp at ih ⊢
      omega

/-! ## On the wire -/

/-- The strings that are accepted are those that `tostring` gives. -/
theorem ofString_iff {n : Nat} {s : Bytes} {b : Bitfield} :
    ofString n s = some b ↔ b.length = n ∧ b.Counted ∧ b.tostring = some s := by
  rw [tostring_iff, ofString]
  dsimp only
  rw [length_bits]
  constructor
  · intro h
    split at h
    · cases h
    · rename_i hextra
      have hlen : (List.take (8 * s.length - ((s.length : Int) * 8 - n).toNat)
          (s.flatMap fun c => intToBooleans c.toNat)).length = n := by
        rw [List.length_take, length_bits]
        omega
      split at h
      · cases h
      · rename_i hzero
        cases h
        refine ⟨rfl, ⟨hlen, negsum_eq _⟩, by rw [hlen]; omega, by rw [hlen]; omega, ?_⟩
        dsimp only
        rw [hlen, show 8 * s.length - n = ((s.length : Int) * 8 - n).toNat by omega]
        rw [not_and_or, not_ne_iff] at hzero
        rcases hzero with hzero | hzero
        · rw [show ((s.length : Int) * 8 - n).toNat = 0 by omega, List.replicate_zero,
            List.append_nil, List.take_of_length_le (by rw [length_bits]; omega)]
        · rw [← hzero, List.take_append_drop]
  · rintro ⟨rfl, hcounted, hle, hlt, hbits⟩
    rw [hcounted.length_array] at hle hlt hbits
    have hextra : ((s.length : Int) * 8 - b.length).toNat = 8 * s.length - b.length := by omega
    have hkept : 8 * s.length - (8 * s.length - b.length) = b.array.length := by
      rw [hcounted.length_array]
      omega
    rw [if_neg (by omega), hextra, hkept, hbits, List.take_left, List.drop_left,
      if_neg (by simp), negsum_eq, ← hcounted.numfalse_eq]

end Bitfield

end Wubi.Bittorrent
