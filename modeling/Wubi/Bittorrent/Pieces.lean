import Mathlib.Algebra.BigOperators.Group.Finset.Basic
import Mathlib.Algebra.BigOperators.Intervals
import Mathlib.Data.List.Perm.Subperm
import Wubi.Bittorrent.StorageWrapper
import Wubi.Core.Placement

/-!
# Pieces that are moved

The storage as `numPieces` slots of `pieceSize` bytes, the last of which may be
shorter. `InSlots` is the instance of `Slots` that `StorageWrapper` keeps up, and
`made` says what the first half of `_piece_came_in` does: the new piece has a
place, and every other piece has its bytes as before, wherever it went (`Moved`).
-/
namespace Wubi.Bittorrent

open Function

variable {D : Type} {c : Setup D}

namespace Setup

/-! ## Lengths -/

theorem pieceLen_eq {p : Nat} (h : p + 1 < c.numPieces) : c.pieceLen p = c.pieceSize := if_pos h

theorem pieceLen_last {p : Nat} (h : p + 1 = c.numPieces) :
    c.pieceLen p = c.totalLength - p * c.pieceSize := if_neg (by omega)

/-- The last piece is neither empty nor too long. -/
theorem last_bounds {p : Nat} (h : p + 1 = c.numPieces) :
    p * c.pieceSize < c.totalLength ∧ c.totalLength ≤ p * c.pieceSize + c.pieceSize := by
  have hlen : c.hashes.length = p + 1 := h.symm
  have hsmall := c.not_too_small
  have hbig := c.not_too_big
  rw [hlen] at hsmall hbig
  rw [Nat.mul_succ, Nat.mul_comm c.pieceSize] at hbig
  refine ⟨?_, hbig⟩
  have hcast : ((p * c.pieceSize : Nat) : Int) < c.totalLength := by
    rw [Nat.mul_comm]
    simpa using hsmall
  exact_mod_cast hcast

/-- A piece before the last one ends where the next one begins. -/
theorem next_le {p : Nat} (h : p + 1 < c.numPieces) :
    p * c.pieceSize + c.pieceSize < c.totalLength := by
  have hlast := (last_bounds (c := c) (p := c.numPieces - 1) (by omega)).1
  have hmul : (p + 1) * c.pieceSize ≤ (c.numPieces - 1) * c.pieceSize :=
    Nat.mul_le_mul_right _ (by omega)
  rw [Nat.succ_mul] at hmul
  omega

theorem pieceLen_le {p : Nat} (hp : p < c.numPieces) : c.pieceLen p ≤ c.pieceSize := by
  rcases Nat.lt_or_ge (p + 1) c.numPieces with h | h
  · exact (pieceLen_eq h).le
  · have hb := last_bounds (c := c) (p := p) (by omega)
    rw [pieceLen_last (by omega)]
    omega

theorem pieceLen_pos {p : Nat} (hp : p < c.numPieces) : 0 < c.pieceLen p := by
  rcases Nat.lt_or_ge (p + 1) c.numPieces with h | h
  · rw [pieceLen_eq h]
    exact c.pieceSize_pos
  · have hb := last_bounds (c := c) (p := p) (by omega)
    rw [pieceLen_last (by omega)]
    omega

/-- A piece in its own slot ends within the file. -/
theorem end_le {v : Nat} (hv : v < c.numPieces) :
    v * c.pieceSize + c.pieceLen v ≤ c.totalLength := by
  rcases Nat.lt_or_ge (v + 1) c.numPieces with h | h
  · have hn := next_le (c := c) h
    rw [pieceLen_eq h]
    omega
  · have hb := last_bounds (c := c) (p := v) (by omega)
    rw [pieceLen_last (by omega)]
    omega

theorem min_pieceSize {p : Nat} (hp : p < c.numPieces) :
    min c.pieceSize (c.totalLength - p * c.pieceSize) = c.pieceLen p := by
  rcases Nat.lt_or_ge (p + 1) c.numPieces with h | h
  · have hn := next_le (c := c) h
    rw [pieceLen_eq h]
    omega
  · have hb := last_bounds (c := c) (p := p) (by omega)
    rw [pieceLen_last (by omega)]
    omega

/-- The last piece is as long as the others. -/
def Roomy (c : Setup D) : Prop := c.pieceLen (c.numPieces - 1) = c.pieceSize

theorem Roomy.pieceLen {v : Nat} (hv : v < c.numPieces) (h : v + 1 = c.numPieces → c.Roomy) :
    c.pieceLen v = c.pieceSize := by
  rcases Nat.lt_or_ge (v + 1) c.numPieces with hlt | hge
  · exact pieceLen_eq hlt
  · have hlast : v = c.numPieces - 1 := by omega
    rw [hlast]
    exact h (by omega)

/-- A piece fits into the slot of any other, but the last slot if that is shorter. -/
theorem pieceLen_le_pieceLen {p v : Nat} (hp : p < c.numPieces) (hv : v < c.numPieces)
    (hlast : v + 1 = c.numPieces → p = v ∨ c.Roomy) : c.pieceLen p ≤ c.pieceLen v := by
  by_cases hsame : p = v
  · rw [hsame]
  · rw [Roomy.pieceLen hv fun h => (hlast h).resolve_left hsame]
    exact pieceLen_le hp

theorem sum_pieceLen_of_lt {k : Nat} (hk : k < c.numPieces) :
    ∑ p ∈ Finset.range k, c.pieceLen p = k * c.pieceSize := by
  induction k with
  | zero => simp
  | succ k ih => rw [Finset.sum_range_succ, ih (by omega), pieceLen_eq hk, Nat.succ_mul]

/-- The pieces make up the file. -/
theorem sum_pieceLen : ∑ p ∈ Finset.range c.numPieces, c.pieceLen p = c.totalLength := by
  rcases Nat.eq_zero_or_pos c.numPieces with h | h
  · have hbig := c.not_too_big
    have hlen : c.hashes.length = 0 := h
    rw [hlen, Nat.mul_zero] at hbig
    rw [h, Finset.sum_range_zero]
    omega
  · obtain ⟨k, hk⟩ := Nat.exists_eq_add_one.2 h
    have hb := last_bounds (c := c) (p := k) (by omega)
    rw [hk, Finset.sum_range_succ, sum_pieceLen_of_lt (by omega), pieceLen_last (by omega)]
    omega

/-! ## Blocks -/

theorem blocks_eq {p : Nat} (hp : p < c.numPieces) : c.blocks p = c.blocksFrom (c.pieceLen p) 0 := by
  rw [blocks, Nat.mul_comm c.pieceSize, min_pieceSize hp]

theorem blocksFrom_bounds (length x : Nat) (hx : x ≤ length) :
    ∀ b ∈ c.blocksFrom length x, x ≤ b.1 ∧ b.1 + b.2 ≤ length := by
  induction x using blocksFrom.induct (c := c) length with
  | case1 x hlt ih =>
    rw [blocksFrom, if_pos hlt]
    intro b hb
    obtain rfl | hb := List.mem_cons.1 hb
    · exact ⟨Nat.le_refl _, hlt.le⟩
    · have hrest := ih hlt.le b hb
      omega
  | case2 x hlt =>
    rw [blocksFrom, if_neg hlt]
    intro b hb
    obtain rfl := List.mem_singleton.1 hb
    dsimp only
    omega

/-- The blocks do not overlap. -/
theorem blocksFrom_apart (length x : Nat) (hx : x ≤ length) :
    (c.blocksFrom length x).Pairwise fun a b => a.1 + a.2 ≤ b.1 := by
  induction x using blocksFrom.induct (c := c) length with
  | case1 x hlt ih =>
    rw [blocksFrom, if_pos hlt, List.pairwise_cons]
    exact ⟨fun b hb => (blocksFrom_bounds length _ hlt.le b hb).1, ih hlt.le⟩
  | case2 x hlt =>
    rw [blocksFrom, if_neg hlt]
    exact List.pairwise_singleton _ _

theorem blocksFrom_nodup (length x : Nat) (hx : x ≤ length) : (c.blocksFrom length x).Nodup := by
  induction x using blocksFrom.induct (c := c) length with
  | case1 x hlt ih =>
    rw [blocksFrom, if_pos hlt, List.nodup_cons]
    refine ⟨fun hmem => ?_, ih hlt.le⟩
    have hle := (blocksFrom_bounds length _ hlt.le _ hmem).1
    have hpos := c.requestSize_pos
    dsimp only at hle
    omega
  | case2 x hlt =>
    rw [blocksFrom, if_neg hlt]
    exact List.nodup_singleton _

/-- Every byte of the piece is in one of its blocks. -/
theorem blocksFrom_cover (length x : Nat) {o : Nat} (hx : x ≤ o) (ho : o < length) :
    ∃ b ∈ c.blocksFrom length x, b.1 ≤ o ∧ o < b.1 + b.2 := by
  induction x using blocksFrom.induct (c := c) length with
  | case1 x hlt ih =>
    rw [blocksFrom, if_pos hlt]
    rcases Nat.lt_or_ge o (x + c.requestSize) with h | h
    · exact ⟨_, List.mem_cons_self, hx, h⟩
    · obtain ⟨b, hb, hob⟩ := ih h
      exact ⟨b, List.mem_cons_of_mem _ hb, hob⟩
  | case2 x hlt =>
    rw [blocksFrom, if_neg hlt]
    exact ⟨_, List.mem_singleton_self _, hx, by dsimp only; omega⟩

theorem blocksFrom_pos (length x : Nat) (hx : x < length) : ∀ b ∈ c.blocksFrom length x, 0 < b.2 := by
  induction x using blocksFrom.induct (c := c) length with
  | case1 x hlt ih =>
    rw [blocksFrom, if_pos hlt]
    intro b hb
    obtain rfl | hb := List.mem_cons.1 hb
    · exact c.requestSize_pos
    · exact ih hlt b hb
  | case2 x hlt =>
    rw [blocksFrom, if_neg hlt]
    intro b hb
    obtain rfl := List.mem_singleton.1 hb
    exact Nat.sub_pos_of_lt hx

theorem sum_blocksFrom (length x : Nat) (hx : x ≤ length) :
    ((c.blocksFrom length x).map Prod.snd).sum = length - x := by
  induction x using blocksFrom.induct (c := c) length with
  | case1 x hlt ih =>
    rw [blocksFrom, if_pos hlt, List.map_cons, List.sum_cons, ih hlt.le]
    omega
  | case2 x hlt =>
    rw [blocksFrom, if_neg hlt]
    simp

theorem blocksFrom_ne_nil (length x : Nat) : c.blocksFrom length x ≠ [] := by
  rw [blocksFrom]
  split
  · exact List.cons_ne_nil _ _
  · exact List.cons_ne_nil _ _

theorem blocks_nodup {p : Nat} (hp : p < c.numPieces) : (c.blocks p).Nodup := by
  rw [blocks_eq hp]
  exact blocksFrom_nodup _ _ (Nat.zero_le _)

theorem blocks_ne_nil {p : Nat} (hp : p < c.numPieces) : c.blocks p ≠ [] := by
  rw [blocks_eq hp]
  exact blocksFrom_ne_nil _ _

theorem blocks_bounds {p : Nat} (hp : p < c.numPieces) {b : Nat × Nat} (hb : b ∈ c.blocks p) :
    b.1 + b.2 ≤ c.pieceLen p := by
  rw [blocks_eq hp] at hb
  exact (blocksFrom_bounds _ _ (Nat.zero_le _) b hb).2

theorem blocks_pos {p : Nat} (hp : p < c.numPieces) {b : Nat × Nat} (hb : b ∈ c.blocks p) :
    0 < b.2 := by
  rw [blocks_eq hp] at hb
  exact blocksFrom_pos _ _ (pieceLen_pos hp) b hb

theorem blocks_apart {p : Nat} (hp : p < c.numPieces) {a b : Nat × Nat} (ha : a ∈ c.blocks p)
    (hb : b ∈ c.blocks p) (hne : a ≠ b) : a.1 + a.2 ≤ b.1 ∨ b.1 + b.2 ≤ a.1 := by
  rw [blocks_eq hp] at ha hb
  obtain ⟨i, hi, rfl⟩ := List.getElem_of_mem ha
  obtain ⟨j, hj, rfl⟩ := List.getElem_of_mem hb
  have hapart := List.pairwise_iff_getElem.1
    (blocksFrom_apart (c := c) (c.pieceLen p) 0 (Nat.zero_le _))
  rcases Nat.lt_trichotomy i j with h | rfl | h
  · exact .inl (hapart i j hi hj h)
  · exact absurd rfl hne
  · exact .inr (hapart j i hj hi h)

end Setup

namespace Store

/-! ## Slots on the disk -/

/-- The byte `o` of the slot `v`. -/
def byte (c : Setup D) (s : Store) (v o : Nat) : UInt8 := s.disk (c.pieceSize * v + o)

theorem read_eq (s : Store) {v : Nat} (start len : Nat) (hv : v < c.numPieces)
    (hlen : start + len ≤ c.pieceLen v) :
    s.read c (c.pieceSize * v + start) len = (List.range len).map fun o => s.byte c v (start + o) := by
  have hend := Setup.end_le (c := c) hv
  rw [Nat.mul_comm v] at hend
  have hmin : min len (c.totalLength - (c.pieceSize * v + start)) = len := by omega
  rw [read, hmin, Medium.read]
  simp only [byte, Nat.add_assoc]

/-- What is written into a slot leaves the others as they are. -/
theorem byte_write_of_ne (s : Store) {v w o : Nat} (start : Nat) {data : List UInt8} (hne : w ≠ v)
    (hfit : start + data.length ≤ c.pieceSize) (ho : o < c.pieceSize) :
    (s.write c (c.pieceSize * v + start) data).byte c w o = s.byte c w o := by
  refine Medium.write_apart _ ?_
  rw [List.length_take]
  rcases Nat.lt_or_gt_of_ne hne with h | h
  · have hmul := Nat.mul_le_mul_left c.pieceSize h
    rw [Nat.mul_succ] at hmul
    omega
  · have hmul := Nat.mul_le_mul_left c.pieceSize h
    rw [Nat.mul_succ] at hmul
    omega

theorem byte_write_of_before (s : Store) {v start o : Nat} {data : List UInt8}
    (ho : o < start ∨ start + data.length ≤ o) :
    (s.write c (c.pieceSize * v + start) data).byte c v o = s.byte c v o := by
  refine Medium.write_apart _ ?_
  rw [List.length_take]
  omega

theorem byte_write_self (s : Store) {v i : Nat} (start : Nat) {data : List UInt8} (hv : v < c.numPieces)
    (hi : i < data.length) (hlen : start + i < c.pieceLen v) :
    (s.write c (c.pieceSize * v + start) data).byte c v (start + i) = data[i] := by
  have hend := Setup.end_le (c := c) hv
  rw [Nat.mul_comm v] at hend
  have htake : i < (data.take (c.totalLength - (c.pieceSize * v + start))).length := by
    rw [List.length_take]
    omega
  rw [byte, ← Nat.add_assoc]
  refine (Medium.write_at _ htake).trans ?_
  rw [List.getElem_take]

/-- The slot `v` after `len` bytes of the slot `w` have been copied there. -/
theorem byte_copy_self (s : Store) {v w len o : Nat} (hv : v < c.numPieces) (hw : w < c.numPieces)
    (ho : o < len) (hov : o < c.pieceLen v) (how : o < c.pieceLen w) :
    (s.write c (c.pieceSize * v) (s.read c (c.pieceSize * w) len)).byte c v o = s.byte c w o := by
  have hend := Setup.end_le (c := c) hw
  rw [Nat.mul_comm w] at hend
  have hlen : o < (s.read c (c.pieceSize * w) len).length := by
    rw [read, Medium.length_read]
    omega
  have hself := byte_write_self s 0 hv hlen (by omega)
  rw [Nat.add_zero, Nat.zero_add] at hself
  rw [hself]
  simp [read, Medium.read, byte]

theorem byte_copy_of_ne (s : Store) {v w u len o : Nat} (hne : u ≠ v) (hlen : len ≤ c.pieceSize)
    (ho : o < c.pieceSize) :
    (s.write c (c.pieceSize * v) (s.read c (c.pieceSize * w) len)).byte c u o = s.byte c u o := by
  refine byte_write_of_ne s 0 hne ?_ ho
  rw [read, Medium.length_read]
  omega

/-- The bytes of the piece `p`, in the slot `v`. -/
def content (c : Setup D) (s : Store) (v p : Nat) : List UInt8 :=
  s.read c (c.pieceSize * v) (c.pieceLen p)

theorem content_eq (s : Store) {v p : Nat} (hv : v < c.numPieces)
    (hlen : c.pieceLen p ≤ c.pieceLen v) :
    s.content c v p = (List.range (c.pieceLen p)).map (s.byte c v) := by
  have hread := s.read_eq (c := c) (v := v) 0 (c.pieceLen p) hv (by omega)
  simp only [Nat.add_zero, Nat.zero_add] at hread
  exact hread

/-- A part of a piece is read. -/
theorem read_content (s : Store) {v p start len : Nat} (hv : v < c.numPieces)
    (hfit : c.pieceLen p ≤ c.pieceLen v) (hlen : start + len ≤ c.pieceLen p) :
    s.read c (c.pieceSize * v + start) len = ((s.content c v p).drop start).take len := by
  rw [content_eq s hv hfit, read_eq s start len hv (by omega)]
  refine List.ext_getElem (by simp; omega) fun o ho ho' => ?_
  simp

theorem content_congr {s s' : Store} {v v' p : Nat} (hv : v < c.numPieces) (hv' : v' < c.numPieces)
    (hlen : c.pieceLen p ≤ c.pieceLen v) (hlen' : c.pieceLen p ≤ c.pieceLen v')
    (h : ∀ o < c.pieceLen p, s'.byte c v' o = s.byte c v o) :
    s'.content c v' p = s.content c v p := by
  rw [content_eq s hv hlen, content_eq s' hv' hlen']
  exact List.map_congr_left fun o ho => h o (List.mem_range.1 ho)

/-- What lies in the slots, one after the other, is what lies in the file. -/
theorem flatten_content (s : Store) {k : Nat} (hk : k ≤ c.numPieces) :
    ((List.range k).map fun p => s.content c p p).flatten =
      s.disk.read 0 (∑ p ∈ Finset.range k, c.pieceLen p) := by
  induction k with
  | zero => rfl
  | succ k ih =>
    have hend := Setup.end_le (c := c) (v := k) hk
    rw [Nat.mul_comm k] at hend
    rw [List.range_succ, List.map_append, List.flatten_append, ih (by omega),
      Finset.sum_range_succ, Medium.read_add, Setup.sum_pieceLen_of_lt hk, Nat.zero_add]
    simp only [List.map_cons, List.map_nil, List.flatten_cons, List.flatten_nil, List.append_nil]
    rw [content, read, Nat.min_eq_left (by omega), Nat.mul_comm k]

/-! ## A place for a piece -/

/-- The pieces in the slots, with room for each. -/
abbrev InSlots (c : Setup D) (s : Store) : Prop := Slots c.numPieces c.Roomy s.places [] s.holes

theorem fits {places : Nat → Option Nat} {spare holes : List Nat}
    (h : Slots c.numPieces c.Roomy places spare holes) {p v : Nat} (hp : places p = some v) :
    c.pieceLen p ≤ c.pieceLen v :=
  Setup.pieceLen_le_pieceLen (h.item_lt hp) (h.slot_lt hp) (h.last hp)

/-- Every piece that had a place has one with the same bytes, and nothing but
places, holes and bytes has changed. -/
structure Moved (c : Setup D) (s s' : Store) : Prop where
  bytes : ∀ {p v}, s.places p = some v →
    ∃ v', s'.places p = some v' ∧ ∀ o < c.pieceLen p, s'.byte c v' o = s.byte c v o
  rest : s' = { s with places := s'.places, holes := s'.holes, disk := s'.disk }

theorem Moved.trans {s s' s'' : Store} (h : Moved c s s') (h' : Moved c s' s'') :
    Moved c s s'' := by
  refine ⟨fun {p v} hp => ?_, by rw [h'.rest, h.rest]⟩
  obtain ⟨v', hv', hbytes⟩ := h.bytes hp
  obtain ⟨v'', hv'', hbytes'⟩ := h'.bytes hv'
  exact ⟨v'', hv'', fun o ho => (hbytes' o ho).trans (hbytes o ho)⟩

theorem moved_open {s : Store} (holes : List Nat) : Moved c s { s with holes := holes } :=
  ⟨fun {_ v} hp => ⟨v, hp, fun _ _ => rfl⟩, rfl⟩

theorem moved_put {s : Store} {index f : Nat} (hnone : s.places index = none) :
    Moved c s { s with places := update s.places index (some f) } := by
  refine ⟨fun {p v} hp => ⟨v, ?_, fun _ _ => rfl⟩, rfl⟩
  change update s.places index (some f) p = some v
  rw [update_of_ne, hp]
  rintro rfl
  rw [hnone] at hp
  cases hp

theorem pieceAt_eq {places : Nat → Option Nat} {spare holes : List Nat}
    (h : Slots c.numPieces c.Roomy places spare holes) {p v : Nat} (hp : places p = some v) :
    pieceAt c places v = some p := by
  have hmem : p ∈ List.range c.numPieces := List.mem_range.2 (h.item_lt hp)
  have hsome : (pieceAt c places v).isSome := by
    rw [pieceAt, List.find?_isSome]
    exact ⟨p, hmem, by simp [hp]⟩
  obtain ⟨q, hq⟩ := Option.isSome_iff_exists.1 hsome
  have hqv : places q = some v := by simpa using List.find?_some hq
  rw [hq, h.inj hqv hp]

/-- The piece takes its own slot, and its guest goes to the slot `f`. -/
theorem moveAside_spec {s : Store} {index f len : Nat} (h : Slots c.numPieces c.Roomy s.places [f] s.holes)
    (hi : index < c.numPieces) (hnone : s.places index = none) (hif : index ≠ f)
    (hhole : index ∉ s.holes) (howner : s.places f = none) (hlast : f + 1 = c.numPieces → c.Roomy)
    (hlen : c.pieceLen f ≤ len) (hlen' : len ≤ c.pieceSize) :
    ∃ s', s.moveAside c index f len = .ok s' ∧ InSlots c s' ∧ s'.places index = some index ∧
      Moved c s s' := by
  have hf := h.empty.1 (List.mem_append_left s.holes (List.mem_singleton_self f))
  obtain ⟨p, hp⟩ := h.occupied hi (by simpa [hif] using hhole)
  have hpi : index ≠ p := by rintro rfl; rw [hnone] at hp; cases hp
  have hpf : p ≠ f := by rintro rfl; rw [howner] at hp; cases hp
  have hfull : c.pieceLen f = c.pieceSize := Setup.Roomy.pieceLen hf.1 hlast
  have hguest := h.move (h.item_lt hp)
    (.inr ((List.mem_cons.1 (h.home hp hpi)).resolve_left hpf)) (.inr howner)
    fun heq => .inr (hlast heq)
  rw [hp] at hguest
  have hslots := hguest.move hi (.inl rfl) (.inl rfl) fun _ => .inl rfl
  rw [update_of_ne hpi, hnone, update_comm hpi.symm] at hslots
  refine ⟨_, by rw [moveAside, pieceAt_eq h hp], hslots, ?_, ?_, rfl⟩
  · change update (update s.places index (some index)) p (some f) index = some index
    rw [update_of_ne hpi, update_self]
  · intro q v hq
    change ∃ v', update (update s.places index (some index)) p (some f) q = some v' ∧ _
    have hqlen := Setup.pieceLen_le (c := c) (h.item_lt hq)
    rcases eq_or_ne q p with rfl | hqp
    · obtain rfl : v = index := Option.some_inj.1 (hq.symm.trans hp)
      have hfit := fits h hq
      refine ⟨f, update_self .., fun o ho => ?_⟩
      exact byte_copy_self s hf.1 hi (by omega) (by omega) (by omega)
    · have hqi : q ≠ index := by rintro rfl; rw [hnone] at hq; cases hq
      have hvf : v ≠ f := fun heq => hf.2 q (heq ▸ hq)
      refine ⟨v, by rw [update_of_ne hqp, update_of_ne hqi, hq], fun o ho => ?_⟩
      exact byte_copy_of_ne s hvf hlen' (by omega)

/-- What `makePlace` does, for a piece without a place: it is given one, unless a piece
that has to move for it turns out to be corrupt. -/
inductive Made [DecidableEq D] (c : Setup D) (s : Store) (index : Nat) : Prop
  | corrupt (p v : Nat) (hhas : s.has p = true) (hplace : s.places p = some v)
      (hhash : c.hashes[p]? ≠ some (c.sha (s.content c v p)))
      (heq : s.makePlace c index = .error (.failed corruptedOnDisk))
  | done (s' : Store) (v : Nat) (heq : s.makePlace c index = .ok s') (hslots : InSlots c s')
      (hput : s'.places index = some v) (hmoved : Moved c s s')

/-- The first hole's owner waits elsewhere, and goes home first. -/
theorem made_of_guest [DecidableEq D] {s : Store} {index n old : Nat} {holes : List Nat}
    (h : Slots c.numPieces c.Roomy s.places [] (n :: holes)) (hholes : s.holes = n :: holes)
    (hi : index < c.numPieces) (hnone : s.places index = none) (hplace : s.places n = some old) :
    Made c s index := by
  have hn := h.empty.1 (List.mem_cons_self (a := n) (l := holes))
  have hni : index ≠ n := by rintro rfl; rw [hnone] at hplace; cases hplace
  have holdn : old ≠ n := fun heq => hn.2 n (heq ▸ hplace)
  have hlast : old + 1 = c.numPieces → c.Roomy := h.roomy_of_guest hplace
  have hold := h.slot_lt hplace
  have hsettled := h.opened.move hn.1 (.inl rfl) (.inl rfl) fun _ => .inl rfl
  rw [hplace] at hsettled
  let home : Store := { s.write c (c.pieceSize * n) (s.content c old n) with
    places := update s.places n (some n), holes := holes }
  have hnone' : home.places index = none := (update_of_ne hni ..).trans hnone
  have howner : home.places old = none :=
    (update_of_ne holdn ..).trans (h.owner_missing hplace)
  have hmoved : Moved c s home := by
    refine ⟨fun {q v} hq => ?_, rfl⟩
    rcases eq_or_ne q n with rfl | hqn
    · obtain rfl : v = old := Option.some_inj.1 (hq.symm.trans hplace)
      have hfit := fits h hq
      exact ⟨q, update_self .., fun o ho => byte_copy_self s hn.1 hold ho ho (by omega)⟩
    · have hvn : v ≠ n := fun heq => hn.2 q (heq ▸ hq)
      have hqlen := Setup.pieceLen_le (c := c) (h.item_lt hq)
      exact ⟨v, (update_of_ne hqn ..).trans hq, fun o ho =>
        byte_copy_of_ne s hvn (Setup.pieceLen_le hn.1) (by omega)⟩
  by_cases hcorrupt : s.has n = true ∧ c.hashes[n]? ≠ some (c.sha (s.content c old n))
  · refine .corrupt n old hcorrupt.1 hplace hcorrupt.2 ?_
    simp only [makePlace, hholes, hplace]
    exact if_pos hcorrupt
  by_cases hslot : index = old ∨ index ∈ holes
  · have hput := hsettled.move hi hslot (.inr howner) fun heq => .inr (hlast heq)
    rw [show update s.places n (some n) index = none from hnone'] at hput
    refine .done { home with places := update home.places index (some old) } old ?_ hput
      (update_self ..) (hmoved.trans (moved_put hnone'))
    simp only [makePlace, hholes, hplace]
    exact (if_neg hcorrupt).trans (if_pos hslot)
  · have hne := not_or.1 hslot
    obtain ⟨s', hs', hslots, hput, hmove⟩ := moveAside_spec (s := home) hsettled hi hnone'
      hne.1 hne.2 howner hlast (Setup.pieceLen_le hold) (Nat.le_refl _)
    refine .done s' index ?_ hslots hput (hmoved.trans hmove)
    simp only [makePlace, hholes, hplace]
    exact ((if_neg hcorrupt).trans (if_neg hslot)).trans hs'

/-- The first hole's owner is missing too. -/
theorem made_of_missing [DecidableEq D] {s : Store} {index n : Nat} {holes : List Nat}
    (h : Slots c.numPieces c.Roomy s.places [] (n :: holes)) (hholes : s.holes = n :: holes)
    (hi : index < c.numPieces) (hnone : s.places index = none) (hplace : s.places n = none) :
    Made c s index := by
  have hn := h.empty.1 (List.mem_cons_self (a := n) (l := holes))
  have hlast : n + 1 = c.numPieces → index = n := h.eq_of_opened_last hplace hi hnone
  by_cases hslot : index ∈ holes ∨ index = n
  · have hput := h.opened.move hi hslot.symm (.inr hplace) fun heq => .inl (hlast heq)
    rw [hnone] at hput
    let filled : Store := if c.wasPreallocated n then { s with holes := holes }
      else Store.write c { s with holes := holes } (c.pieceSize * n)
        (List.replicate (c.pieceLen n) 0xFF)
    have hrest : filled = { s with holes := holes, disk := filled.disk } := by
      dsimp only [filled]
      split
      · rfl
      · rfl
    have hbyte : ∀ v o, v ≠ n → o < c.pieceSize → filled.byte c v o = s.byte c v o := by
      intro v o hv ho
      dsimp only [filled]
      split
      · rfl
      · refine byte_write_of_ne { s with holes := holes } 0 hv ?_ ho
        rw [List.length_replicate, Nat.zero_add]
        exact Setup.pieceLen_le hn.1
    have hfilled : Moved c s filled := by
      refine ⟨fun {q v} hq => ?_, by rw [hrest]⟩
      have hqlen := Setup.pieceLen_le (c := c) (h.item_lt hq)
      refine ⟨v, by rw [hrest]; exact hq, fun o ho => hbyte v o ?_ (by omega)⟩
      exact fun heq => hn.2 q (heq ▸ hq)
    have hplaces : filled.places = s.places := by rw [hrest]
    refine .done { filled with places := update filled.places index (some n) } n ?_ ?_
      (update_self ..) (hfilled.trans (moved_put (hplaces ▸ hnone)))
    · simp only [makePlace, hholes, hplace]
      exact if_pos hslot
    · rw [hplaces, hrest]
      exact hput
  · have hne := not_or.1 hslot
    have hnlast : n + 1 = c.numPieces → c.Roomy := fun heq => absurd (hlast heq) hne.2
    obtain ⟨s', hs', hslots, hput, hmove⟩ := moveAside_spec (s := { s with holes := holes })
      h.opened hi hnone hne.2 hne.1 hplace hnlast (Nat.le_refl _) (Setup.pieceLen_le hn.1)
    refine .done s' index ?_ hslots hput ((moved_open holes).trans hmove)
    simp only [makePlace, hholes, hplace]
    exact (if_neg hslot).trans hs'

theorem made [DecidableEq D] {s : Store} {index : Nat} (h : InSlots c s)
    (hi : index < c.numPieces) (hnone : s.places index = none) : Made c s index := by
  cases hholes : s.holes with
  | nil => exact absurd hholes (h.exists_hole hi hnone)
  | cons n holes =>
    rw [InSlots, hholes] at h
    cases hplace : s.places n with
    | some old => exact made_of_guest h hholes hi hnone hplace
    | none => exact made_of_missing h hholes hi hnone hplace

end Store

end Wubi.Bittorrent
