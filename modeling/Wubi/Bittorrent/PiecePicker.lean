import Mathlib.Algebra.BigOperators.Group.Finset.Basic
import Wubi.Core.Chance
import Wubi.Core.Positions

/-!
# Which piece to ask for next

`PiecePicker` keeps the pieces that are missing in `interests`, by the number of
peers that have them. `pos_in_interests` says where a piece is in its list, so that
it is found without a search.

An index is taken as Python does: from the end of the list if it is negative, and
`none` stands for `IndexError`.
-/
namespace Wubi.Bittorrent

open Function

structure Picker where
  interests : List (List Nat)
  posInInterests : Nat → Nat
  /-- `None` for a piece that is complete -/
  numinterests : Nat → Option Int
  started : List Nat
  seedstarted : List Nat
  numgot : Nat
  scrambled : List Nat

namespace Picker

/-- Which element `l[i]` is, in a list of that length. -/
def pyIndex (length : Nat) (i : Int) : Option Nat :=
  if 0 ≤ i then if i < length then some i.toNat else none
  else if 0 ≤ i + length then some (i + length).toNat else none

variable (ch : Chance) (d : Nat)

/-- mirrors src/bittorrent/PiecePicker.py:7-17 -/
def fresh (numpieces : Nat) : Picker where
  interests := [List.range numpieces]
  posInInterests := id
  numinterests _ := some 0
  started := []
  seedstarted := []
  numgot := 0
  scrambled := ch.shuffle d (List.range numpieces)

variable (pk : Picker)

/-- The list number `i`. -/
def bucket (i : Nat) : List Nat := pk.interests.getD i []

/-- `l[p] = l[-1]`, `pos_in_interests[l[-1]] = p` and `del l[-1]`, for the place `p` of the
piece in the list `i`.
mirrors src/bittorrent/PiecePicker.py:36-39 and :60-64 -/
def takeOut (piece i : Nat) : Option Picker :=
  let p := pk.posInInterests piece
  match (pk.bucket i).getLast? with
  | none => none
  | some z =>
    if p < (pk.bucket i).length then
      some { pk with
        interests := pk.interests.set i ((pk.bucket i).set p z).dropLast
        posInInterests := update pk.posInInterests z p }
    else none

/-- mirrors src/bittorrent/PiecePicker.py:40-49 -/
def putIn (piece i newp : Nat) : Option Picker :=
  let len := (pk.bucket i).length
  if newp = len then
    some { pk with
      interests := pk.interests.set i (pk.bucket i ++ [piece])
      posInInterests := update pk.posInInterests piece len }
  else
    match (pk.bucket i)[newp]? with
    | none => none
    | some old =>
      some { pk with
        interests := pk.interests.set i ((pk.bucket i ++ [old]).set newp piece)
        posInInterests := update (update pk.posInInterests old len) piece newp }

/-- mirrors src/bittorrent/PiecePicker.py:35-49 -/
def shiftOver (piece : Nat) (i j : Int) : Option Picker :=
  match pyIndex pk.interests.length i, pyIndex pk.interests.length j with
  | some i, some j =>
    match pk.takeOut piece i with
    | none => none
    | some pk => pk.putIn piece j (ch.randrange d ((pk.bucket j).length + 1))
  | _, _ => none

/-- mirrors src/bittorrent/PiecePicker.py:19-26 -/
def gotHave (piece : Nat) : Option Picker :=
  match pk.numinterests piece with
  | none => some pk
  | some numint =>
    let interests :=
      if numint = (pk.interests.length : Int) - 1 then pk.interests ++ [[]] else pk.interests
    shiftOver ch d { pk with
      interests := interests
      numinterests := update pk.numinterests piece (some (numint + 1)) } piece numint (numint + 1)

/-- mirrors src/bittorrent/PiecePicker.py:28-33 -/
def lostHave (piece : Nat) : Option Picker :=
  match pk.numinterests piece with
  | none => some pk
  | some numint =>
    shiftOver ch d { pk with
      numinterests := update pk.numinterests piece (some (numint - 1)) } piece numint (numint - 1)

/-- mirrors src/bittorrent/PiecePicker.py:51-55 -/
def requested (piece : Nat) (seed : Bool) : Picker :=
  { pk with
    started := if piece ∈ pk.started then pk.started else pk.started ++ [piece]
    seedstarted :=
      if seed = true ∧ piece ∉ pk.seedstarted then pk.seedstarted ++ [piece] else pk.seedstarted }

/-- mirrors src/bittorrent/PiecePicker.py:57-70 -/
def complete (piece : Nat) : Option Picker :=
  match pk.numinterests piece with
  | none => none
  | some numint =>
    match pyIndex pk.interests.length numint with
    | none => none
    | some i =>
      match pk.takeOut piece i with
      | none => none
      | some pk => some { pk with
          numgot := pk.numgot + 1
          numinterests := update pk.numinterests piece none
          started := pk.started.erase piece
          -- reached only where `started.remove` does not raise
          seedstarted := if piece ∈ pk.started then pk.seedstarted.erase piece else pk.seedstarted }

/-- `a < b` in Python 2, where `None` is less than every number. -/
def less : Option Int → Option Int → Bool
  | none, none => false
  | none, some _ => true
  | some _, none => false
  | some a, some b => a < b

/-- One round of the first loop of `next`, for `bests` and `bestnum`; `none` where
`bests.append` finds no list.
mirrors src/bittorrent/PiecePicker.py:80-85 -/
def consider (havefunc : Nat → Bool) (acc : Option (List Nat) × Option Int) (i : Nat) :
    Option (Option (List Nat) × Option Int) :=
  if havefunc i then
    if less (pk.numinterests i) acc.2 then some (some [i], pk.numinterests i)
    else if pk.numinterests i = acc.2 then acc.1.map fun bests => (some (bests ++ [i]), acc.2)
    else some acc
  else some acc

/-- The piece to ask for, if there is one; the outer `none` is an exception.
mirrors src/bittorrent/PiecePicker.py:72-97 -/
def next (cutoff : Nat) (havefunc : Nat → Bool) (seed : Bool) : Option (Option Nat) :=
  let s := if seed then pk.seedstarted else pk.started
  match s.foldlM (pk.consider havefunc) (none, some (2 ^ 30)) with
  | none => none
  | some (some bests, _) => (ch.choice d bests).map some
  | some (none, _) =>
    if pk.numgot < cutoff then some (pk.scrambled.find? havefunc)
    else some (((pk.interests.take (2 ^ 30)).drop 1).flatten.find? havefunc)

/-- mirrors src/bittorrent/PiecePicker.py:99-100 -/
def amIComplete (numpieces : Nat) : Bool := pk.numgot == numpieces

/-- mirrors src/bittorrent/PiecePicker.py:102-108 -/
def bump (piece : Nat) : Option Picker :=
  match pk.numinterests piece with
  | none => none
  | some numint =>
    match pyIndex pk.interests.length numint with
    | none => none
    | some i =>
      let pos := pk.posInInterests piece
      if pos < (pk.bucket i).length then
        let l := (pk.bucket i).eraseIdx pos ++ [piece]
        some { pk with
          interests := pk.interests.set i l
          posInInterests := Positions.recount l pos pk.posInInterests }
      else none

/-! ## The lists and the positions -/

/-- Every piece knows its place, and is in one list. -/
structure Filed (pk : Picker) : Prop where
  positions : ∀ i, Positions (pk.bucket i) pk.posInInterests
  apart : ∀ {i j p}, p ∈ pk.bucket i → p ∈ pk.bucket j → i = j

variable {pk} {piece i : Nat}

theorem lt_of_mem (h : piece ∈ pk.bucket i) : i < pk.interests.length := by
  by_contra hge
  rw [bucket, List.getD_eq_getElem?_getD, List.getElem?_eq_none (by omega)] at h
  cases h

theorem bucket_set {pk' : Picker} {l : List Nat} (h : pk'.interests = pk.interests.set i l)
    (hi : i < pk.interests.length) (k : Nat) :
    pk'.bucket k = if k = i then l else pk.bucket k := by
  rw [bucket, bucket, h, List.getD_eq_getElem?_getD, List.getD_eq_getElem?_getD]
  split
  · rename_i heq
    rw [heq, List.getElem?_set_self hi, Option.getD_some]
  · rename_i hne
    rw [List.getElem?_set_ne (Ne.symm hne)]

theorem takeOut_spec (h : pk.Filed) (hmem : piece ∈ pk.bucket i) :
    ∃ interests pos, pk.takeOut piece i = some { pk with
        interests := interests, posInInterests := pos } ∧
      interests.length = pk.interests.length ∧
      Filed { pk with interests := interests, posInInterests := pos } ∧
      ∀ k q, q ∈ bucket { pk with interests := interests, posInInterests := pos } k ↔
        q ∈ pk.bucket k ∧ q ≠ piece := by
  have hi := lt_of_mem hmem
  have hat := (h.positions i).getElem hmem
  have hplt := (List.getElem?_eq_some_iff.1 hat).1
  cases hlast : (pk.bucket i).getLast? with
  | none => rw [List.getLast?_eq_none_iff.1 hlast] at hmem; cases hmem
  | some z =>
    obtain ⟨init, hinit⟩ := List.getLast?_eq_some_iff.1 hlast
    have hout := (hinit ▸ h.positions i).swapOut (hinit ▸ hmem)
    rw [← hinit] at hout
    obtain ⟨hpos, hmemq⟩ := hout
    have hz : z ∈ pk.bucket i := by rw [hinit]; simp
    let l := ((pk.bucket i).set (pk.posInInterests piece) z).dropLast
    let pk' : Picker := { pk with
      interests := pk.interests.set i l
      posInInterests := update pk.posInInterests z (pk.posInInterests piece) }
    have hbucket : ∀ k, pk'.bucket k = if k = i then l else pk.bucket k := bucket_set rfl hi
    have hiff : ∀ k q, q ∈ pk'.bucket k ↔ q ∈ pk.bucket k ∧ q ≠ piece := by
      intro k q
      rw [hbucket]
      split
      · rename_i hk
        rw [hk, hmemq]
      · rename_i hk
        refine ⟨fun hq => ⟨hq, ?_⟩, (·.1)⟩
        rintro rfl
        exact hk (h.apart hq hmem)
    refine ⟨_, _, ?_, List.length_set, ⟨fun k => ?_, fun {k k' q} hq hq' => ?_⟩, hiff⟩
    · rw [takeOut, hlast]
      exact if_pos hplt
    · change Positions (pk'.bucket k) _
      rw [hbucket]
      split
      · exact hpos
      · rename_i hk
        refine (h.positions k).congr fun q hq => update_of_ne ?_ ..
        rintro rfl
        exact hk (h.apart hq hz)
    · exact h.apart ((hiff k q).1 hq).1 ((hiff k' q).1 hq').1

theorem putIn_spec (h : pk.Filed) (hi : i < pk.interests.length)
    (hnot : ∀ k, piece ∉ pk.bucket k) {newp : Nat} (hnewp : newp ≤ (pk.bucket i).length) :
    ∃ interests pos, pk.putIn piece i newp = some { pk with
        interests := interests, posInInterests := pos } ∧
      interests.length = pk.interests.length ∧
      Filed { pk with interests := interests, posInInterests := pos } ∧
      ∀ k q, q ∈ bucket { pk with interests := interests, posInInterests := pos } k ↔
        q ∈ pk.bucket k ∨ k = i ∧ q = piece := by
  -- what either branch makes of the list, and of the positions
  have hfiled : ∀ (l : List Nat) (pos : Nat → Nat), Positions l pos →
      (∀ q, q ∈ l ↔ q = piece ∨ q ∈ pk.bucket i) →
      (∀ k, k ≠ i → ∀ q ∈ pk.bucket k, pos q = pk.posInInterests q) →
      Filed { pk with interests := pk.interests.set i l, posInInterests := pos } ∧
        ∀ k q, q ∈ bucket { pk with
          interests := pk.interests.set i l, posInInterests := pos } k ↔
          q ∈ pk.bucket k ∨ k = i ∧ q = piece := by
    intro l pos hl hmem hpos
    let pk' : Picker := { pk with interests := pk.interests.set i l, posInInterests := pos }
    have hbucket : ∀ k, pk'.bucket k = if k = i then l else pk.bucket k := bucket_set rfl hi
    have hiff : ∀ k q, q ∈ pk'.bucket k ↔ q ∈ pk.bucket k ∨ k = i ∧ q = piece := by
      intro k q
      rw [hbucket]
      split
      · rename_i hk
        rw [hmem, hk]
        simp only [true_and]
        exact or_comm
      · rename_i hk
        simp [hk]
    refine ⟨⟨fun k => ?_, fun {k k' q} hq hq' => ?_⟩, hiff⟩
    · change Positions (pk'.bucket k) pos
      rw [hbucket]
      split
      · exact hl
      · rename_i hk
        exact (h.positions k).congr (hpos k hk)
    · obtain hk | ⟨hk, hqp⟩ := (hiff k q).1 hq <;> obtain hk' | ⟨hk', hqp'⟩ := (hiff k' q).1 hq'
      · exact h.apart hk hk'
      · exact absurd (hqp' ▸ hk) (hnot k)
      · exact absurd (hqp ▸ hk') (hnot k')
      · rw [hk, hk']
  rw [putIn]
  by_cases hend : newp = (pk.bucket i).length
  · obtain ⟨hfile, hiff⟩ := hfiled _ _ ((h.positions i).concat (hnot i)) (fun q => by
      rw [List.mem_append, List.mem_singleton]; exact or_comm) fun k _ q hq => by
        refine update_of_ne ?_ ..
        rintro rfl
        exact hnot k hq
    exact ⟨_, _, if_pos hend, List.length_set, hfile, hiff⟩
  · have hlt : newp < (pk.bucket i).length := by omega
    have hold : (pk.bucket i)[newp]? = some (pk.bucket i)[newp] := List.getElem?_eq_getElem hlt
    obtain ⟨hpos, hmem⟩ := (h.positions i).putIn (hnot i) hold
    obtain ⟨hfile, hiff⟩ := hfiled _ _ hpos hmem fun k hk q hq => by
      have hqp : q ≠ piece := by
        rintro rfl
        exact hnot k hq
      rw [update_of_ne hqp, update_of_ne]
      rintro rfl
      exact hk (h.apart hq (List.getElem_mem hlt))
    refine ⟨_, _, ?_, List.length_set, hfile, hiff⟩
    simp only [hold]
    exact if_neg hend

theorem pyIndex_natCast {length : Nat} (h : i < length) : pyIndex length (i : Int) = some i := by
  rw [pyIndex, if_pos (Int.natCast_nonneg i), if_pos (by exact_mod_cast h), Int.toNat_natCast]

/-- A piece goes from one list to another. -/
theorem shiftOver_spec (h : pk.Filed) {j : Nat} (hmem : piece ∈ pk.bucket i)
    (hj : j < pk.interests.length) :
    ∃ interests pos, shiftOver ch d pk piece i j = some { pk with
        interests := interests, posInInterests := pos } ∧
      interests.length = pk.interests.length ∧
      Filed { pk with interests := interests, posInInterests := pos } ∧
      ∀ k q, q ∈ bucket { pk with interests := interests, posInInterests := pos } k ↔
        q ∈ pk.bucket k ∧ q ≠ piece ∨ k = j ∧ q = piece := by
  obtain ⟨interests, pos, hout, hlen, hfiled, hiff⟩ := takeOut_spec h hmem
  have hnot : ∀ k, piece ∉ bucket { pk with interests := interests, posInInterests := pos } k :=
    fun k hk => ((hiff k piece).1 hk).2 rfl
  have hdraw := ch.randrange_lt d (Nat.succ_pos (bucket { pk with
    interests := interests, posInInterests := pos } j).length)
  obtain ⟨interests', pos', hin, hlen', hfiled', hiff'⟩ :=
    putIn_spec hfiled (hlen ▸ hj) hnot (Nat.le_of_lt_succ hdraw)
  refine ⟨interests', pos', ?_, hlen'.trans hlen, hfiled', fun k q => ?_⟩
  · rw [shiftOver, pyIndex_natCast (lt_of_mem hmem), pyIndex_natCast hj]
    simp only [hout]
    exact hin
  · rw [hiff', hiff]

/-! ## The invariant -/

/-- `count` is the number of peers that have the piece. -/
structure Sorted (n : Nat) (count : Nat → Nat) (pk : Picker) : Prop extends Filed pk where
  mem_bucket : ∀ {i p}, p ∈ pk.bucket i ↔ p < n ∧ pk.numinterests p = some (i : Int)
  counted : ∀ p < n, pk.numinterests p ≠ none → pk.numinterests p = some (count p : Int)
  scrambled : pk.scrambled.Perm (List.range n)
  numgot : pk.numgot = (List.range n).countP fun p => pk.numinterests p == none
  started : ∀ p ∈ pk.started, p < n ∧ pk.numinterests p ≠ none
  started_nodup : pk.started.Nodup
  seedstarted : pk.seedstarted ⊆ pk.started
  seedstarted_nodup : pk.seedstarted.Nodup

theorem sorted_fresh (n : Nat) : Sorted n (fun _ => 0) (fresh ch d n) := by
  have hbucket : ∀ i, (fresh ch d n).bucket i = if i = 0 then List.range n else [] := by
    intro i
    cases i with
    | zero => rfl
    | succ i => rfl
  refine ⟨⟨fun i => ?_, fun {i j p} hi hj => ?_⟩, fun {i p} => ?_, fun p _ _ => rfl,
    ch.shuffle_perm d _, ?_, fun p hp => absurd hp List.not_mem_nil, List.nodup_nil,
    List.nil_subset _, List.nodup_nil⟩
  · rw [hbucket]
    refine ⟨fun {j p} hj => ?_⟩
    split at hj
    · obtain ⟨hlt, rfl⟩ := List.getElem?_eq_some_iff.1 hj
      rw [List.getElem_range]
      rfl
    · cases hj
  · rw [hbucket] at hi hj
    split at hi
    · rename_i hi0
      split at hj
      · rename_i hj0
        rw [hi0, hj0]
      · cases hj
    · cases hi
  · rw [hbucket]
    split
    · rename_i hi
      simp [hi, fresh]
    · rename_i hi
      simp only [List.not_mem_nil, fresh, Option.some.injEq, false_iff, not_and]
      intro _
      omega
  · simp [fresh]

variable {n : Nat} {count : Nat → Nat}

theorem Sorted.mem_count (h : Sorted n count pk) {p : Nat} (hp : p < n)
    (hleft : pk.numinterests p ≠ none) : p ∈ pk.bucket (count p) :=
  h.mem_bucket.2 ⟨hp, h.counted p hp hleft⟩

/-- The invariant when a piece has gone from one list to another. -/
theorem Sorted.shifted (h : Sorted n count pk) {pk' : Picker} {j : Nat} {count' : Nat → Nat}
    (hpiece : piece < n) (hleft : pk.numinterests piece ≠ none) (hfiled : pk'.Filed)
    (hiff : ∀ k q, q ∈ pk'.bucket k ↔ q ∈ pk.bucket k ∧ q ≠ piece ∨ k = j ∧ q = piece)
    (hnum : pk'.numinterests = update pk.numinterests piece (some (j : Int)))
    (hcount : count' = update count piece j)
    (hrest : pk' = { pk with
      interests := pk'.interests
      posInInterests := pk'.posInInterests
      numinterests := pk'.numinterests }) : Sorted n count' pk' := by
  have hnone : ∀ p, pk'.numinterests p = none ↔ pk.numinterests p = none := by
    intro p
    rw [hnum]
    rcases eq_or_ne p piece with rfl | hpp
    · simp [hleft]
    · rw [update_of_ne hpp]
  have hstarted : pk'.started = pk.started := by rw [hrest]
  have hseed : pk'.seedstarted = pk.seedstarted := by rw [hrest]
  have hgot : pk'.numgot = pk.numgot := by rw [hrest]
  have hscrambled : pk'.scrambled = pk.scrambled := by rw [hrest]
  refine ⟨hfiled, fun {i p} => ?_, fun p hp hl => ?_, by rw [hscrambled]; exact h.scrambled, ?_,
    fun p hp => ?_, by rw [hstarted]; exact h.started_nodup,
    by rw [hseed, hstarted]; exact h.seedstarted, by rw [hseed]; exact h.seedstarted_nodup⟩
  · rw [hiff, hnum, h.mem_bucket]
    rcases eq_or_ne p piece with rfl | hpp
    · simp only [ne_eq, not_true_eq_false, and_false, and_true, false_or, hpiece, true_and,
        update_self, Option.some.injEq]
      omega
    · simp [hpp]
  · rw [hnum, hcount]
    rcases eq_or_ne p piece with rfl | hpp
    · rw [update_self, update_self]
    · rw [update_of_ne hpp, update_of_ne hpp]
      exact h.counted p hp fun hn => hl ((hnone p).2 hn)
  · rw [hgot, h.numgot]
    refine List.countP_congr fun p _ => ?_
    simp only [beq_iff_eq, hnone]
  · rw [hstarted] at hp
    exact ⟨(h.started p hp).1, fun hn => (h.started p hp).2 ((hnone p).1 hn)⟩

/-- An empty list more changes no list. -/
theorem getD_append_nil (l : List (List Nat)) (k : Nat) : (l ++ [[]]).getD k [] = l.getD k [] := by
  rw [List.getD_eq_getElem?_getD, List.getD_eq_getElem?_getD]
  rcases Nat.lt_trichotomy k l.length with h | rfl | h
  · rw [List.getElem?_append_left h]
  · rw [List.getElem?_concat_length, List.getElem?_eq_none (Nat.le_refl _)]
    rfl
  · rw [List.getElem?_eq_none (Nat.le_of_lt h), List.getElem?_eq_none]
    rw [List.length_append, List.length_singleton]
    exact h

/-- A peer more has the piece. -/
theorem Sorted.gotHave (h : Sorted n count pk) (hpiece : piece < n) :
    ∃ pk', pk.gotHave ch d piece = some pk' ∧
      Sorted n (update count piece (count piece + 1)) pk' ∧
      ∀ p, pk'.numinterests p = none ↔ pk.numinterests p = none := by
  cases hnum : pk.numinterests piece with
  | none =>
    refine ⟨pk, by rw [Picker.gotHave, hnum], ⟨h.toFiled, h.mem_bucket, fun p hp hl => ?_,
      h.scrambled, h.numgot, h.started, h.started_nodup, h.seedstarted, h.seedstarted_nodup⟩,
      fun _ => Iff.rfl⟩
    rw [update_of_ne]
    · exact h.counted p hp hl
    · rintro rfl
      exact hl hnum
  | some numint =>
    have hleft : pk.numinterests piece ≠ none := by rw [hnum]; exact Option.some_ne_none _
    obtain rfl : numint = count piece :=
      Option.some_inj.1 (hnum.symm.trans (h.counted piece hpiece hleft))
    have hmem := h.mem_count hpiece hleft
    have hlt := lt_of_mem hmem
    -- with a list more at the end, where the piece is in the last one
    let grown : List (List Nat) :=
      if (count piece : Int) = (pk.interests.length : Int) - 1 then pk.interests ++ [[]]
      else pk.interests
    let pk₁ : Picker := { pk with
      interests := grown
      numinterests := update pk.numinterests piece (some ((count piece : Int) + 1)) }
    have hbucket : ∀ k, pk₁.bucket k = pk.bucket k := by
      intro k
      change grown.getD k [] = pk.interests.getD k []
      dsimp only [grown]
      split
      · exact getD_append_nil _ k
      · rfl
    have hlong : count piece + 1 < grown.length := by
      dsimp only [grown]
      split
      · rw [List.length_append, List.length_singleton]
        omega
      · omega
    have hfiled : pk₁.Filed := by
      refine ⟨fun k => ?_, fun {k k' q} hq hq' => ?_⟩
      · rw [hbucket]
        exact h.positions k
      · rw [hbucket] at hq hq'
        exact h.apart hq hq'
    obtain ⟨interests, pos, heq, -, hfiled', hiff⟩ :=
      shiftOver_spec ch d hfiled (j := count piece + 1) (hbucket _ ▸ hmem) hlong
    refine ⟨_, by rw [Picker.gotHave, hnum]; exact heq, h.shifted hpiece hleft hfiled'
      (fun k q => by rw [hiff, hbucket]) rfl rfl rfl, fun p => ?_⟩
    change update pk.numinterests piece _ p = none ↔ _
    rcases eq_or_ne p piece with rfl | hpp
    · simp [hleft]
    · rw [update_of_ne hpp]

/-- A peer that has the piece is lost. -/
theorem Sorted.lostHave (h : Sorted n count pk) (hpiece : piece < n) (hpos : 0 < count piece) :
    ∃ pk', pk.lostHave ch d piece = some pk' ∧
      Sorted n (update count piece (count piece - 1)) pk' ∧
      ∀ p, pk'.numinterests p = none ↔ pk.numinterests p = none := by
  cases hnum : pk.numinterests piece with
  | none =>
    refine ⟨pk, by rw [Picker.lostHave, hnum], ⟨h.toFiled, h.mem_bucket, fun p hp hl => ?_,
      h.scrambled, h.numgot, h.started, h.started_nodup, h.seedstarted, h.seedstarted_nodup⟩,
      fun _ => Iff.rfl⟩
    rw [update_of_ne]
    · exact h.counted p hp hl
    · rintro rfl
      exact hl hnum
  | some numint =>
    have hleft : pk.numinterests piece ≠ none := by rw [hnum]; exact Option.some_ne_none _
    obtain rfl : numint = count piece :=
      Option.some_inj.1 (hnum.symm.trans (h.counted piece hpiece hleft))
    have hmem := h.mem_count hpiece hleft
    have hlt := lt_of_mem hmem
    let pk₁ : Picker := { pk with
      numinterests := update pk.numinterests piece (some ((count piece : Int) - 1)) }
    have hfiled : pk₁.Filed := ⟨h.positions, h.apart⟩
    have hcast : ((count piece - 1 : Nat) : Int) = (count piece : Int) - 1 := by omega
    obtain ⟨interests, pos, heq, -, hfiled', hiff⟩ :=
      shiftOver_spec ch d hfiled (j := count piece - 1) hmem (by dsimp only [pk₁]; omega)
    rw [hcast] at heq
    refine ⟨_, by rw [Picker.lostHave, hnum]; exact heq, h.shifted hpiece hleft hfiled' hiff
      (by rw [hcast]) rfl rfl, fun p => ?_⟩
    change update pk.numinterests piece _ p = none ↔ _
    rcases eq_or_ne p piece with rfl | hpp
    · simp [hleft]
    · rw [update_of_ne hpp]

/-- The piece is asked for. -/
theorem Sorted.requested (h : Sorted n count pk) (hpiece : piece < n)
    (hleft : pk.numinterests piece ≠ none) (seed : Bool) :
    Sorted n count (pk.requested piece seed) := by
  refine ⟨⟨h.positions, h.apart⟩, h.mem_bucket, h.counted, h.scrambled, h.numgot, fun p hp => ?_,
    ?_, fun p hp => ?_, ?_⟩
  · dsimp only [Picker.requested] at hp
    split at hp
    · exact h.started p hp
    · rcases List.mem_append.1 hp with hp | hp
      · exact h.started p hp
      · obtain rfl := List.mem_singleton.1 hp
        exact ⟨hpiece, hleft⟩
  · dsimp only [Picker.requested]
    split
    · exact h.started_nodup
    · rename_i hnot
      exact List.nodup_append.2 ⟨h.started_nodup, List.nodup_singleton _, fun a ha b hb => by
        rintro rfl
        exact hnot (List.mem_singleton.1 hb ▸ ha)⟩
  · dsimp only [Picker.requested] at hp ⊢
    have hin : p ∈ pk.seedstarted ∨ p = piece := by
      split at hp
      · exact (List.mem_append.1 hp).imp_right List.mem_singleton.1
      · exact .inl hp
    split
    · rename_i hstarted
      rcases hin with hin | rfl
      · exact h.seedstarted hin
      · exact hstarted
    · rcases hin with hin | rfl
      · exact List.mem_append_left _ (h.seedstarted hin)
      · exact List.mem_append_right _ (List.mem_singleton_self p)
  · dsimp only [Picker.requested]
    split
    · rename_i hnot
      exact List.nodup_append.2 ⟨h.seedstarted_nodup, List.nodup_singleton _, fun a ha b hb => by
        rintro rfl
        exact hnot.2 (List.mem_singleton.1 hb ▸ ha)⟩
    · exact h.seedstarted_nodup

/-- The piece is complete. -/
theorem Sorted.complete (h : Sorted n count pk) (hpiece : piece < n)
    (hleft : pk.numinterests piece ≠ none) :
    ∃ pk', pk.complete piece = some pk' ∧ Sorted n count pk' ∧
      pk'.numinterests = update pk.numinterests piece none := by
  have hnum := h.counted piece hpiece hleft
  have hmem := h.mem_count hpiece hleft
  obtain ⟨interests, pos, heq, -, hfiled, hiff⟩ := takeOut_spec h.toFiled hmem
  have hother : ∀ {p}, p ≠ piece → update pk.numinterests piece none p = pk.numinterests p :=
    fun hpp => update_of_ne hpp ..
  let pk' : Picker := { pk with
    interests := interests
    posInInterests := pos
    numgot := pk.numgot + 1
    numinterests := update pk.numinterests piece none
    started := pk.started.erase piece
    seedstarted := if piece ∈ pk.started then pk.seedstarted.erase piece else pk.seedstarted }
  refine ⟨pk', by simp only [Picker.complete, hnum, pyIndex_natCast (lt_of_mem hmem), heq, pk'],
    ⟨⟨hfiled.positions, hfiled.apart⟩, fun {i p} => ?_, fun p hp hl => ?_, h.scrambled, ?_,
      fun p hp => ?_, h.started_nodup.erase _, fun p hp => ?_, ?_⟩, rfl⟩
  · refine (hiff i p).trans ?_
    rw [h.mem_bucket]
    change _ ↔ p < n ∧ update pk.numinterests piece none p = some (i : Int)
    rcases eq_or_ne p piece with rfl | hpp
    · simp
    · simp [hpp]
  · change update pk.numinterests piece none p = _
    change update pk.numinterests piece none p ≠ none at hl
    rcases eq_or_ne p piece with rfl | hpp
    · rw [update_self] at hl
      exact absurd rfl hl
    · rw [hother hpp] at hl ⊢
      exact h.counted p hp hl
  · change pk.numgot + 1 = (List.range n).countP fun p =>
      update pk.numinterests piece none p == none
    have hrange : piece ∈ List.range n := List.mem_range.2 hpiece
    have hsplit := List.perm_cons_erase hrange
    have hnodup := (List.nodup_cons.1 (hsplit.nodup_iff.1 List.nodup_range)).1
    rw [h.numgot, hsplit.countP_eq, hsplit.countP_eq, List.countP_cons_of_neg (by simpa using hleft),
      List.countP_cons_of_pos (by simp)]
    congr 1
    refine List.countP_congr fun p hp => ?_
    rw [hother]
    rintro rfl
    exact hnodup hp
  · have hp' : p ∈ pk.started.erase piece := hp
    have hpp : p ≠ piece := fun heq => h.started_nodup.not_mem_erase (heq ▸ hp')
    have hold := h.started p (List.mem_of_mem_erase hp')
    refine ⟨hold.1, ?_⟩
    change update pk.numinterests piece none p ≠ none
    rw [hother hpp]
    exact hold.2
  · change p ∈ pk.started.erase piece
    change p ∈ (if piece ∈ pk.started then pk.seedstarted.erase piece else pk.seedstarted) at hp
    split at hp
    · have hpp : p ≠ piece := fun heq => h.seedstarted_nodup.not_mem_erase (heq ▸ hp)
      exact (List.mem_erase_of_ne hpp).2 (h.seedstarted (List.mem_of_mem_erase hp))
    · rename_i hnot
      rw [List.erase_of_not_mem hnot]
      exact h.seedstarted hp
  · change List.Nodup (if _ then _ else _)
    split
    · exact h.seedstarted_nodup.erase _
    · exact h.seedstarted_nodup

/-- The piece was broken: it goes to the end of its list. -/
theorem Sorted.bump (h : Sorted n count pk) (hpiece : piece < n)
    (hleft : pk.numinterests piece ≠ none) :
    ∃ pk', pk.bump piece = some pk' ∧ Sorted n count pk' ∧ pk'.numinterests = pk.numinterests := by
  have hnum := h.counted piece hpiece hleft
  have hmem := h.mem_count hpiece hleft
  have hi := lt_of_mem hmem
  obtain ⟨hpos, hperm⟩ := (h.positions (count piece)).toEnd hmem
  have hlt := (List.getElem?_eq_some_iff.1 ((h.positions (count piece)).getElem hmem)).1
  let pos := pk.posInInterests piece
  let l := (pk.bucket (count piece)).eraseIdx pos ++ [piece]
  let pk' : Picker := { pk with
    interests := pk.interests.set (count piece) l
    posInInterests := Positions.recount l pos pk.posInInterests }
  have hbucket : ∀ k, pk'.bucket k = if k = count piece then l else pk.bucket k :=
    bucket_set rfl hi
  have hiff : ∀ k q, q ∈ pk'.bucket k ↔ q ∈ pk.bucket k := by
    intro k q
    rw [hbucket]
    split
    · rename_i hk
      rw [hk]
      exact hperm.mem_iff
    · exact Iff.rfl
  refine ⟨pk', by
    simp only [Picker.bump, hnum, pyIndex_natCast hi]
    exact if_pos hlt, ⟨⟨fun k => ?_, fun {k k' q} hq hq' => ?_⟩, fun {i p} => ?_, h.counted,
      h.scrambled, h.numgot, h.started, h.started_nodup, h.seedstarted, h.seedstarted_nodup⟩, rfl⟩
  · rw [hbucket]
    split
    · exact hpos
    · rename_i hk
      refine (h.positions k).congr fun q hq => Positions.recount_of_not_mem ?_
      intro hql
      exact hk (h.apart hq (hperm.mem_iff.1 hql))
  · exact h.apart ((hiff k q).1 hq) ((hiff k' q).1 hq')
  · exact (hiff i p).trans h.mem_bucket

/-! ## The choice -/

/-- What the first loop of `next` has found among the pieces `s`. -/
def Best (count : Nat → Nat) (want : Nat → Bool) (s : List Nat) :
    Option (List Nat) × Option Int → Prop
  | (none, m) => m = some (2 ^ 30) ∧ ∀ i ∈ s, want i = false
  | (some bests, m) => bests ≠ [] ∧ ∃ k : Nat, m = some (k : Int) ∧
      (∀ i ∈ bests, i ∈ s ∧ want i = true ∧ count i = k) ∧ ∀ i ∈ s, want i = true → k ≤ count i

variable {want : Nat → Bool}

theorem Best.consider {s : List Nat} {acc : Option (List Nat) × Option Int} {i : Nat}
    (h : Best count want s acc)
    (hcount : want i = true → pk.numinterests i = some (count i : Int) ∧ count i < 2 ^ 30) :
    ∃ acc', pk.consider want acc i = some acc' ∧ Best count want (s ++ [i]) acc' := by
  cases hwant : want i with
  | false =>
    have hmem : ∀ j ∈ s ++ [i], want j = true → j ∈ s := by
      intro j hj hwj
      refine (List.mem_append.1 hj).resolve_right fun hji => ?_
      rw [List.mem_singleton.1 hji, hwant] at hwj
      cases hwj
    refine ⟨acc, by rw [Picker.consider, hwant]; exact if_neg Bool.false_ne_true, ?_⟩
    obtain ⟨_ | bests, m⟩ := acc
    · refine ⟨h.1, fun j hj => ?_⟩
      by_contra hwj
      exact hwj (h.2 j (hmem j hj (Bool.not_eq_false _ ▸ hwj)))
    · obtain ⟨hne, k, hm, hbests, hmin⟩ := h
      exact ⟨hne, k, hm, fun j hj => ⟨List.mem_append_left _ (hbests j hj).1, (hbests j hj).2⟩,
        fun j hj hwj => hmin j (hmem j hj hwj) hwj⟩
  | true =>
    obtain ⟨hnum, hfew⟩ := hcount hwant
    have hself : i ∈ s ++ [i] := List.mem_append_right _ (List.mem_singleton_self i)
    rw [Picker.consider, if_pos hwant, hnum]
    obtain ⟨_ | bests, m⟩ := acc
    · obtain ⟨rfl, hnone⟩ := h
      have hless : less (some (count i : Int)) (some (2 ^ 30)) = true := by
        simp only [less, decide_eq_true_eq]
        omega
      rw [if_pos hless]
      refine ⟨_, rfl, List.cons_ne_nil _ _, count i, rfl, fun j hj => ?_, fun j hj hwj => ?_⟩
      · rw [List.mem_singleton.1 hj]
        exact ⟨hself, hwant, rfl⟩
      · rcases List.mem_append.1 hj with hj | hj
        · rw [hnone j hj] at hwj
          cases hwj
        · exact Nat.le_of_eq (by rw [List.mem_singleton.1 hj])
    · obtain ⟨hne, k, rfl, hbests, hmin⟩ := h
      have hless : less (some (count i : Int)) (some (k : Int)) = decide (count i < k) := by
        simp [less]
      rw [hless]
      rcases Nat.lt_trichotomy (count i) k with hlt | heq | hgt
      · rw [if_pos (by simpa using hlt)]
        refine ⟨_, rfl, List.cons_ne_nil _ _, count i, rfl, fun j hj => ?_, fun j hj hwj => ?_⟩
        · rw [List.mem_singleton.1 hj]
          exact ⟨hself, hwant, rfl⟩
        · rcases List.mem_append.1 hj with hj | hj
          · have hle := hmin j hj hwj
            omega
          · exact Nat.le_of_eq (by rw [List.mem_singleton.1 hj])
      · rw [if_neg (by simp; omega), if_pos (by rw [heq])]
        refine ⟨_, rfl, by simp, k, rfl, fun j hj => ?_, fun j hj hwj => ?_⟩
        · rcases List.mem_append.1 hj with hj | hj
          · exact ⟨List.mem_append_left _ (hbests j hj).1, (hbests j hj).2⟩
          · rw [List.mem_singleton.1 hj]
            exact ⟨hself, hwant, heq⟩
        · rcases List.mem_append.1 hj with hj | hj
          · exact hmin j hj hwj
          · exact Nat.le_of_eq (by rw [List.mem_singleton.1 hj, heq])
      · rw [if_neg (by simp; omega), if_neg (by simp; omega)]
        refine ⟨_, rfl, hne, k, rfl, fun j hj => ?_, fun j hj hwj => ?_⟩
        · exact ⟨List.mem_append_left _ (hbests j hj).1, (hbests j hj).2⟩
        · rcases List.mem_append.1 hj with hj | hj
          · exact hmin j hj hwj
          · rw [List.mem_singleton.1 hj]
            omega

theorem Best.foldlM {s t : List Nat} {acc : Option (List Nat) × Option Int}
    (h : Best count want s acc) (hcount : ∀ i ∈ t, want i = true →
      pk.numinterests i = some (count i : Int) ∧ count i < 2 ^ 30) :
    ∃ acc', t.foldlM (pk.consider want) acc = some acc' ∧ Best count want (s ++ t) acc' := by
  induction t generalizing s acc with
  | nil => exact ⟨acc, rfl, by rwa [List.append_nil]⟩
  | cons i t ih =>
    obtain ⟨acc₁, heq, hbest⟩ := h.consider (hcount i List.mem_cons_self)
    obtain ⟨acc₂, heq', hbest'⟩ := ih hbest fun j hj => hcount j (List.mem_cons_of_mem i hj)
    refine ⟨acc₂, ?_, by rwa [List.append_assoc] at hbest'⟩
    rw [List.foldlM_cons, heq]
    exact heq'

/-- The second loop of `next` comes to the lists in the order of their numbers. -/
theorem Sorted.find (h : Sorted n count pk) (hwant : ∀ p, want p = true →
      p < n ∧ pk.numinterests p ≠ none ∧ 0 < count p ∧ count p < 2 ^ 30) :
    match ((pk.interests.take (2 ^ 30)).drop 1).flatten.find? want with
    | none => ∀ p, want p = false
    | some p => want p = true ∧ ∀ q, want q = true → count p ≤ count q := by
  -- the list of a wanted piece is the one of its number, the first of them left out
  have hat : ∀ q, want q = true →
      ((pk.interests.take (2 ^ 30)).drop 1)[count q - 1]? = some (pk.bucket (count q)) ∧
        q ∈ pk.bucket (count q) := by
    intro q hq
    obtain ⟨hqn, hleft, hpos, hfew⟩ := hwant q hq
    have hmem := h.mem_count hqn hleft
    have hlt := lt_of_mem hmem
    refine ⟨?_, hmem⟩
    rw [List.getElem?_drop, show 1 + (count q - 1) = count q by omega,
      List.getElem?_take_of_lt hfew, bucket, List.getD_eq_getElem?_getD,
      List.getElem?_eq_getElem hlt, Option.getD_some]
  rw [List.find?_flatten]
  cases hfind : ((pk.interests.take (2 ^ 30)).drop 1).findSome? fun l => l.find? want with
  | none =>
    intro q
    by_contra hq
    have hq := Bool.not_eq_false _ ▸ hq
    obtain ⟨hget, hmem⟩ := hat q hq
    have hno := List.findSome?_eq_none_iff.1 hfind _ (List.mem_of_getElem? hget)
    exact List.find?_eq_none.1 hno q hmem hq
  | some p =>
    obtain ⟨l₁, l, l₂, hsplit, hl, hbefore⟩ := List.findSome?_eq_some_iff.1 hfind
    have hwp : want p = true := List.find?_some hl
    refine ⟨hwp, fun q hq => ?_⟩
    obtain ⟨hgetp, hmemp⟩ := hat p hwp
    obtain ⟨hgetq, hmemq⟩ := hat q hq
    have hposq := (hwant q hq).2.2.1
    have hlget : ((pk.interests.take (2 ^ 30)).drop 1)[l₁.length]? = some l := by
      rw [hsplit, List.getElem?_append_right (Nat.le_refl _), Nat.sub_self, List.getElem?_cons_zero]
    have hnum : count p = l₁.length + 1 := by
      have hpl : p ∈ pk.bucket (l₁.length + 1) := by
        rw [List.getElem?_drop] at hlget
        have htake := (List.getElem?_eq_some_iff.1 hlget).1
        rw [List.length_take] at htake
        rw [List.getElem?_take_of_lt (by omega), Nat.add_comm] at hlget
        rw [bucket, List.getD_eq_getElem?_getD, hlget, Option.getD_some]
        exact List.mem_of_find?_eq_some hl
      exact h.apart hmemp hpl
    by_contra hlt
    have hin : pk.bucket (count q) ∈ l₁ := by
      rw [hsplit, List.getElem?_append_left (by omega)] at hgetq
      exact List.mem_of_getElem? hgetq
    exact List.find?_eq_none.1 (hbefore _ hin) q hmemq hq

/-- A piece is found if one is wanted: the rarest of those that were started, or else, once
enough pieces are there, the rarest of all. -/
theorem Sorted.next (h : Sorted n count pk) (cutoff : Nat) (seed : Bool)
    (hwant : ∀ p, want p = true →
      p < n ∧ pk.numinterests p ≠ none ∧ 0 < count p ∧ count p < 2 ^ 30) :
    (pk.next ch d cutoff want seed = some none ∧ ∀ p, want p = false) ∨
    ∃ p, pk.next ch d cutoff want seed = some (some p) ∧ want p = true ∧
      (∀ q ∈ if seed then pk.seedstarted else pk.started, want q = true →
        p ∈ (if seed then pk.seedstarted else pk.started) ∧ count p ≤ count q) ∧
      ((∀ q ∈ if seed then pk.seedstarted else pk.started, want q = false) →
        cutoff ≤ pk.numgot → ∀ q, want q = true → count p ≤ count q) := by
  have hnum : ∀ p, want p = true →
      pk.numinterests p = some (count p : Int) ∧ count p < 2 ^ 30 := fun p hp =>
    ⟨h.counted p (hwant p hp).1 (hwant p hp).2.1, (hwant p hp).2.2.2⟩
  rw [Picker.next]
  generalize (if seed then pk.seedstarted else pk.started) = s
  have hnil : Best count want [] (none, some (2 ^ 30)) :=
    ⟨rfl, fun i hi => absurd hi List.not_mem_nil⟩
  obtain ⟨⟨bests, m⟩, heq, hbest⟩ := hnil.foldlM (t := s) fun i _ => hnum i
  rw [List.nil_append] at hbest
  simp only [heq]
  cases bests with
  | some bests =>
    obtain ⟨hne, k, -, hbests, hmin⟩ := hbest
    obtain ⟨p, hp, hchoice⟩ := ch.choice_mem (d := d) hne
    obtain ⟨hps, hwp, hpk⟩ := hbests p hp
    refine .inr ⟨p, by dsimp only; rw [hchoice]; rfl, hwp, fun q hq hwq => ⟨hps, ?_⟩, fun hnone => ?_⟩
    · rw [hpk]
      exact hmin q hq hwq
    · rw [hnone p hps] at hwp
      cases hwp
  | none =>
    have hnone := hbest.2
    have hvac : ∀ p, ∀ q ∈ s, want q = true → p ∈ s ∧ count p ≤ count q := fun p q hq hwq => by
      rw [hnone q hq] at hwq
      cases hwq
    by_cases hearly : pk.numgot < cutoff
    · simp only [if_pos hearly]
      cases hfind : pk.scrambled.find? want with
      | none =>
        refine .inl ⟨rfl, fun p => ?_⟩
        by_contra hp
        have hp := Bool.not_eq_false _ ▸ hp
        have hmem := h.scrambled.mem_iff.2 (List.mem_range.2 (hwant p hp).1)
        exact List.find?_eq_none.1 hfind p hmem hp
      | some p => exact .inr ⟨p, rfl, List.find?_some hfind, hvac p, fun _ hlate => by omega⟩
    · simp only [if_neg hearly]
      have hfound := h.find hwant
      cases hfind : ((pk.interests.take (2 ^ 30)).drop 1).flatten.find? want with
      | none =>
        rw [hfind] at hfound
        exact .inl ⟨rfl, hfound⟩
      | some p =>
        rw [hfind] at hfound
        exact .inr ⟨p, rfl, hfound.1, hvac p, fun _ _ => hfound.2⟩

end Picker

end Wubi.Bittorrent
