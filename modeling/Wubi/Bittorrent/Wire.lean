import Wubi.Bittorrent.Bitfield

/-!
# The messages of peers

The first byte of a message says what it is; numbers follow in four bytes each.
`Connection` writes the messages (`encode`), and `Connecter.got_message` takes them
apart (`parse`). It closes the connection for a message that it does not accept.

**Results.**
* `parse_iff`: the messages that are accepted are those that are sent for a piece that
  there is, and each is understood as what was sent.
-/
namespace Wubi.Bittorrent

open Encrypter

inductive Wire
  | choke
  | unchoke
  | interested
  | notInterested
  | have (index : Nat)
  | bitfield (b : Bitfield)
  | request (index start length : Nat)
  | piece (index start : Nat) (block : Bytes)
  | cancel (index start length : Nat)
deriving DecidableEq

namespace Wire

/-- `send_choke` and the others; `none` where `tostring` raises an exception.
mirrors src/bittorrent/Connecter.py:53-84 -/
def encode : Wire → Option Bytes
  | choke => some [0]
  | unchoke => some [1]
  | interested => some [2]
  | notInterested => some [3]
  | .have index => some (4 :: tobinary index)
  | bitfield b => b.tostring.map (5 :: ·)
  | request index start length =>
    some (6 :: (tobinary index ++ tobinary start ++ tobinary length))
  | piece index start block => some (7 :: (tobinary index ++ tobinary start ++ block))
  | cancel index start length =>
    some (8 :: (tobinary index ++ tobinary start ++ tobinary length))

/-- mirrors src/bittorrent/Connecter.py:175-183 -/
def parseHave (numPieces : Nat) (message : Bytes) : Option Wire :=
  if message.length ≠ 5 then none
  else
    let i := toint (message.drop 1)
    if numPieces ≤ i then none else some (.have i)

/-- A `REQUEST` or a `CANCEL`.
mirrors src/bittorrent/Connecter.py:191-210 -/
def parseBlock (numPieces : Nat) (make : Nat → Nat → Nat → Wire) (message : Bytes) :
    Option Wire :=
  if message.length ≠ 13 then none
  else
    let i := toint ((message.drop 1).take 4)
    if numPieces ≤ i then none
    else some (make i (toint ((message.drop 5).take 4)) (toint (message.drop 9)))

/-- mirrors src/bittorrent/Connecter.py:211-219 -/
def parsePiece (numPieces : Nat) (message : Bytes) : Option Wire :=
  if message.length ≤ 9 then none
  else
    let i := toint ((message.drop 1).take 4)
    if numPieces ≤ i then none
    else some (piece i (toint ((message.drop 5).take 4)) (message.drop 9))

/-- What `got_message` takes a message for that is not empty; `none` where it closes the
connection. `gotAnything` says that it is not the first one.
mirrors src/bittorrent/Connecter.py:156-223 -/
def parse (numPieces : Nat) (gotAnything : Bool) : Bytes → Option Wire
  | [] => none
  | t :: rest =>
    let message := t :: rest
    if t = 5 ∧ gotAnything = true then none
    else if t ∈ [0, 1, 2, 3] ∧ message.length ≠ 1 then none
    else if t = 0 then some choke
    else if t = 1 then some unchoke
    else if t = 2 then some interested
    else if t = 3 then some notInterested
    else if t = 4 then parseHave numPieces message
    else if t = 5 then (Bitfield.ofString numPieces (message.drop 1)).map bitfield
    else if t = 6 then parseBlock numPieces request message
    else if t = 8 then parseBlock numPieces cancel message
    else if t = 7 then parsePiece numPieces message
    else none

/-- The piece is there, the numbers have four bytes, and a block is not empty. A bitfield is
for so many pieces, and comes first. -/
def Accepted (numPieces : Nat) (gotAnything : Bool) : Wire → Prop
  | choke | unchoke | interested | notInterested => True
  | .have index => index < numPieces ∧ index < 2 ^ 32
  | bitfield b => gotAnything = false ∧ b.length = numPieces ∧ b.Counted
  | request index start length | cancel index start length =>
    index < numPieces ∧ index < 2 ^ 32 ∧ start < 2 ^ 32 ∧ length < 2 ^ 32
  | piece index start block =>
    index < numPieces ∧ index < 2 ^ 32 ∧ start < 2 ^ 32 ∧ block ≠ []

variable {numPieces : Nat} {gotAnything : Bool}

/-- Eight bytes are two numbers, and the rest. -/
theorem exists_numbers (rest : Bytes) (h : 8 ≤ rest.length) : ∃ i start tail,
    i < 2 ^ 32 ∧ start < 2 ^ 32 ∧ rest = tobinary i ++ tobinary start ++ tail := by
  have hfst : (rest.take 4).length = 4 := by rw [List.length_take]; omega
  have hsnd : ((rest.drop 4).take 4).length = 4 := by
    rw [List.length_take, List.length_drop]
    omega
  refine ⟨_, _, rest.drop 8, toint_lt hfst, toint_lt hsnd, ?_⟩
  rw [tobinary_toint hfst, tobinary_toint hsnd, List.append_assoc,
    show rest.drop 8 = (rest.drop 4).drop 4 by rw [List.drop_drop], List.take_append_drop,
    List.take_append_drop]

theorem exists_number (rest : Bytes) (h : rest.length = 4) :
    ∃ i, i < 2 ^ 32 ∧ rest = tobinary i := ⟨_, toint_lt h, (tobinary_toint h).symm⟩

/-- The parts of a message with two numbers. -/
theorem parts (t : UInt8) (i start : Nat) (tail : Bytes) :
    ((t :: (tobinary i ++ tobinary start ++ tail)).drop 1).take 4 = tobinary i ∧
      ((t :: (tobinary i ++ tobinary start ++ tail)).drop 5).take 4 = tobinary start ∧
      (t :: (tobinary i ++ tobinary start ++ tail)).drop 9 = tail := ⟨rfl, rfl, rfl⟩

theorem parseBlock_iff {make : Nat → Nat → Nat → Wire} {t : UInt8} {rest : Bytes} {w : Wire} :
    parseBlock numPieces make (t :: rest) = some w ↔ ∃ i start len,
      i < numPieces ∧ i < 2 ^ 32 ∧ start < 2 ^ 32 ∧ len < 2 ^ 32 ∧ w = make i start len ∧
        rest = tobinary i ++ tobinary start ++ tobinary len := by
  rw [parseBlock]
  constructor
  · intro h
    split at h
    · cases h
    · rename_i hlen
      rw [not_ne_iff, List.length_cons] at hlen
      obtain ⟨i, start, tail, hi, hstart, rfl⟩ := exists_numbers rest (by omega)
      obtain ⟨len, hlen', rfl⟩ := exists_number tail (by
        simp only [List.length_append, length_tobinary] at hlen
        omega)
      obtain ⟨hfst, hsnd, htail⟩ := parts t i start (tobinary len)
      dsimp only at h
      rw [hfst, hsnd, htail, toint_tobinary hi, toint_tobinary hstart, toint_tobinary hlen'] at h
      split at h
      · cases h
      · rename_i hnum
        cases h
        exact ⟨i, start, len, by omega, hi, hstart, hlen', rfl, rfl⟩
  · rintro ⟨i, start, len, hnum, hi, hstart, hlen, rfl, rfl⟩
    obtain ⟨hfst, hsnd, htail⟩ := parts t i start (tobinary len)
    rw [if_neg (by simp)]
    dsimp only
    rw [hfst, hsnd, htail, toint_tobinary hi, toint_tobinary hstart, toint_tobinary hlen,
      if_neg (by omega)]

theorem parseHave_iff {t : UInt8} {rest : Bytes} {w : Wire} :
    parseHave numPieces (t :: rest) = some w ↔
      ∃ i, i < numPieces ∧ i < 2 ^ 32 ∧ w = .have i ∧ rest = tobinary i := by
  rw [parseHave]
  dsimp only
  rw [List.drop_one, List.tail_cons]
  constructor
  · intro h
    split at h
    · cases h
    · rename_i hlen
      rw [not_ne_iff, List.length_cons] at hlen
      obtain ⟨i, hi, rfl⟩ := exists_number rest (by omega)
      rw [toint_tobinary hi] at h
      split at h
      · cases h
      · rename_i hnum
        cases h
        exact ⟨i, by omega, hi, rfl, rfl⟩
  · rintro ⟨i, hnum, hi, rfl, rfl⟩
    rw [if_neg (by simp), toint_tobinary hi, if_neg (by omega)]

theorem parsePiece_iff {t : UInt8} {rest : Bytes} {w : Wire} :
    parsePiece numPieces (t :: rest) = some w ↔ ∃ i start block,
      i < numPieces ∧ i < 2 ^ 32 ∧ start < 2 ^ 32 ∧ block ≠ [] ∧ w = piece i start block ∧
        rest = tobinary i ++ tobinary start ++ block := by
  rw [parsePiece]
  constructor
  · intro h
    split at h
    · cases h
    · rename_i hlen
      rw [List.length_cons] at hlen
      obtain ⟨i, start, block, hi, hstart, rfl⟩ := exists_numbers rest (by omega)
      obtain ⟨hfst, hsnd, htail⟩ := parts t i start block
      dsimp only at h
      rw [hfst, hsnd, htail, toint_tobinary hi, toint_tobinary hstart] at h
      split at h
      · cases h
      · rename_i hnum
        cases h
        refine ⟨i, start, block, by omega, hi, hstart, fun hblock => ?_, rfl, rfl⟩
        rw [hblock] at hlen
        simp at hlen
  · rintro ⟨i, start, block, hnum, hi, hstart, hblock, rfl, rfl⟩
    obtain ⟨hfst, hsnd, htail⟩ := parts t i start block
    have hpos := List.length_pos_iff.2 hblock
    rw [if_neg (by simp; omega)]
    dsimp only
    rw [hfst, hsnd, htail, toint_tobinary hi, toint_tobinary hstart, if_neg (by omega)]

theorem parse_sound {m : Bytes} {w : Wire} (h : parse numPieces gotAnything m = some w) :
    w.Accepted numPieces gotAnything ∧ w.encode = some m := by
  cases m with
  | nil => cases h
  | cons t rest =>
    rw [parse] at h
    by_cases hfirst : t = 5 ∧ gotAnything = true
    · rw [if_pos hfirst] at h
      cases h
    rw [if_neg hfirst] at h
    by_cases hlong : t ∈ [0, 1, 2, 3] ∧ (t :: rest).length ≠ 1
    · rw [if_pos hlong] at h
      cases h
    rw [if_neg hlong] at h
    have hnil : t ∈ [0, 1, 2, 3] → rest = [] := by
      intro ht
      by_contra hrest
      exact hlong ⟨ht, by simpa using hrest⟩
    by_cases ht : t = 0
    · rw [if_pos ht] at h
      cases h
      rw [ht, hnil (by simp [ht])]
      exact ⟨trivial, rfl⟩
    rw [if_neg ht] at h
    by_cases ht : t = 1
    · rw [if_pos ht] at h
      cases h
      rw [ht, hnil (by simp [ht])]
      exact ⟨trivial, rfl⟩
    rw [if_neg ht] at h
    by_cases ht : t = 2
    · rw [if_pos ht] at h
      cases h
      rw [ht, hnil (by simp [ht])]
      exact ⟨trivial, rfl⟩
    rw [if_neg ht] at h
    by_cases ht : t = 3
    · rw [if_pos ht] at h
      cases h
      rw [ht, hnil (by simp [ht])]
      exact ⟨trivial, rfl⟩
    rw [if_neg ht] at h
    by_cases ht : t = 4
    · rw [if_pos ht, parseHave_iff] at h
      obtain ⟨i, hnum, hi, rfl, rfl⟩ := h
      exact ⟨⟨hnum, hi⟩, by rw [ht, encode]⟩
    rw [if_neg ht] at h
    by_cases ht : t = 5
    · rw [if_pos ht] at h
      obtain ⟨b, hb, rfl⟩ := Option.map_eq_some_iff.1 h
      obtain ⟨hlen, hcounted, hstring⟩ := Bitfield.ofString_iff.1 hb
      refine ⟨⟨by simpa [ht] using hfirst, hlen, hcounted⟩, ?_⟩
      rw [encode, hstring, ht]
      rfl
    rw [if_neg ht] at h
    by_cases ht : t = 6
    · rw [if_pos ht, parseBlock_iff] at h
      obtain ⟨i, start, len, hnum, hi, hstart, hlen, rfl, rfl⟩ := h
      exact ⟨⟨hnum, hi, hstart, hlen⟩, by rw [ht, encode]⟩
    rw [if_neg ht] at h
    by_cases ht : t = 8
    · rw [if_pos ht, parseBlock_iff] at h
      obtain ⟨i, start, len, hnum, hi, hstart, hlen, rfl, rfl⟩ := h
      exact ⟨⟨hnum, hi, hstart, hlen⟩, by rw [ht, encode]⟩
    rw [if_neg ht] at h
    by_cases ht : t = 7
    · rw [if_pos ht, parsePiece_iff] at h
      obtain ⟨i, start, block, hnum, hi, hstart, hblock, rfl, rfl⟩ := h
      exact ⟨⟨hnum, hi, hstart, hblock⟩, by rw [ht, encode]⟩
    rw [if_neg ht] at h
    cases h

/-- A message is accepted exactly if it is one that is sent, and it is understood. -/
theorem parse_iff {m : Bytes} {w : Wire} :
    parse numPieces gotAnything m = some w ↔
      w.Accepted numPieces gotAnything ∧ w.encode = some m := by
  refine ⟨parse_sound, fun h => ?_⟩
  obtain ⟨hok, hsent⟩ := h
  cases w with
  | choke | unchoke | interested | notInterested =>
    cases hsent
    rfl
  | «have» index =>
    cases hsent
    exact parseHave_iff.2 ⟨index, hok.1, hok.2, rfl, rfl⟩
  | bitfield b =>
    obtain ⟨hfirst, hlen, hcounted⟩ := hok
    obtain ⟨s, hs, rfl⟩ := Option.map_eq_some_iff.1 hsent
    rw [parse, if_neg (by simp [hfirst])]
    have hread := Bitfield.ofString_iff.2 ⟨hlen, hcounted, hs⟩
    exact congrArg (Option.map bitfield) hread
  | request index start len =>
    cases hsent
    exact parseBlock_iff.2 ⟨index, start, len, hok.1, hok.2.1, hok.2.2.1, hok.2.2.2, rfl, rfl⟩
  | cancel index start len =>
    cases hsent
    exact parseBlock_iff.2 ⟨index, start, len, hok.1, hok.2.1, hok.2.2.1, hok.2.2.2, rfl, rfl⟩
  | piece index start block =>
    cases hsent
    exact parsePiece_iff.2 ⟨index, start, block, hok.1, hok.2.1, hok.2.2.1, hok.2.2.2, rfl, rfl⟩

end Wire

end Wubi.Bittorrent
