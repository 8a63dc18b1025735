import Mathlib.Data.List.Sort
import Wubi.Bittorrent.Blocks

/-!
# What is found on the disk

The loop of `__init__` looks at the slots one after the other. `Found` is what
holds when it has looked at the first `i` of them; a slot that is there holds its
own piece, a piece whose slot is not there (`Found.mark`), or nothing that is
known (`Found.keep`).

A piece on the list of `targets` is missing, except for the last one, when that is
shorter than the others: it was found by its own length. `kept_start` is the
invariant of the running program when the loop has come to its end.
-/
namespace Wubi.Bittorrent

open Function

variable {D : Type} {c : Setup D}

namespace Store

/-- The first `i` slots have been looked at. -/
structure Found (c : Setup D) (i : Nat) (s : Store) (targets : D → List Nat) : Prop where
  numactive : ∀ p, s.numactive p = 0
  waschecked : ∀ p, s.waschecked p = c.checkHashes
  finished : s.finished = 0
  flunked : s.flunked = 0
  came : s.came = []
  endgame : s.endgame = false
  holes : s.holes = (List.range i).filter fun v => !c.wasPreallocated v
  requests : ∀ p, s.inactiveRequests p = if s.has p then .none else .one
  left : s.amountLeft = (∑ p ∈ Finset.range c.numPieces, missing c s p : Nat)
  inactive : s.amountInactive = s.amountLeft
  placed : ∀ {p v}, s.places p = some v → v < i ∧ p < c.numPieces ∧ c.wasPreallocated v = true ∧
    (p = v ∨ c.wasPreallocated p = false ∧ s.has p = true)
  inj : ∀ {p q v}, s.places p = some v → s.places q = some v → p = q
  occupied : ∀ v < i, c.wasPreallocated v = true → ∃ p, s.places p = some v
  last : ∀ {p v}, s.places p = some v → v + 1 = c.numPieces → p = v ∨ c.Roomy
  has_placed : ∀ p, s.has p = true → ∃ v, s.places p = some v
  verified : c.checkHashes = true → ∀ {p v}, s.has p = true → s.places p = some v →
    c.hashes[p]? = some (c.sha (s.content c v p))
  wanted : ∀ {h q}, q ∈ targets h → q < c.numPieces ∧ c.wasPreallocated q = false ∧
    c.hashes[q]? = some h ∧ (s.has q = true → q + 1 = c.numPieces ∧ ¬c.Roomy)
  ordered : ∀ h, (targets h).Pairwise (· < ·)
  wanted_last : c.wasPreallocated (c.numPieces - 1) = false → s.has (c.numPieces - 1) = false →
    ∀ h, c.hashes[c.numPieces - 1]? = some h → c.numPieces - 1 ∈ targets h

theorem found_fresh [DecidableEq D] (disk : Medium UInt8) :
    Found c 0 (fresh c disk) (targets c) := by
  refine ⟨fun _ => rfl, fun _ => rfl, rfl, rfl, rfl, rfl, rfl, fun _ => rfl, ?_, rfl, fun hp => ?_,
    fun hp => ?_, fun v hv => ?_, fun hp => ?_, fun _ hp => ?_, fun _ _ _ hp => ?_,
    fun {h q} hq => ?_,
    fun h => List.pairwise_lt_range.filter _, fun hpre _ h hh => ?_⟩
  · have hsum := Setup.sum_pieceLen (c := c)
    exact congrArg Int.ofNat hsum.symm
  · cases hp
  · cases hp
  · exact absurd hv (Nat.not_lt_zero v)
  · cases hp
  · cases hp
  · cases hp
  · simp only [targets, List.mem_filter, List.mem_range, Bool.and_eq_true, Bool.not_eq_true',
      beq_iff_eq] at hq
    exact ⟨hq.1, hq.2.1, hq.2.2, fun hhas => by cases hhas⟩
  · obtain ⟨hlt, -⟩ := List.getElem?_eq_some_iff.1 hh
    simp only [targets, List.mem_filter, List.mem_range, Bool.and_eq_true, Bool.not_eq_true',
      beq_iff_eq]
    exact ⟨hlt, hpre, hh⟩

variable {i : Nat} {s : Store} {targets : D → List Nat}

/-- The slot `i` is not there. -/
theorem Found.hole (h : Found c i s targets) (hpre : c.wasPreallocated i = false) :
    Found c (i + 1) { s with holes := s.holes ++ [i] } targets := by
  refine ⟨h.numactive, h.waschecked, h.finished, h.flunked, h.came, h.endgame, ?_, h.requests,
    h.left, h.inactive, fun hp => ?_, h.inj, fun v hv hvpre => ?_, h.last, h.has_placed,
    h.verified, h.wanted,
    h.ordered, h.wanted_last⟩
  · simp [h.holes, List.range_succ, hpre]
  · have hold := h.placed hp
    exact ⟨by omega, hold.2⟩
  · refine h.occupied v (lt_of_le_of_ne (Nat.le_of_lt_succ hv) ?_) hvpre
    rintro rfl
    rw [hpre] at hvpre
    cases hvpre

theorem Found.holes_succ (h : Found c i s targets) (hpre : c.wasPreallocated i = true) :
    s.holes = (List.range (i + 1)).filter fun v => !c.wasPreallocated v := by
  simp [h.holes, List.range_succ, hpre]

/-- A piece that is missing, or whose own slot comes next, has no place yet. -/
theorem Found.unplaced (h : Found c i s targets) {p : Nat} (hpre : c.wasPreallocated i = true)
    (howner : p = i ∨ c.wasPreallocated p = false ∧ s.has p = false) : s.places p = none := by
  cases hp : s.places p with
  | none => rfl
  | some v =>
    obtain ⟨hv, -, hvpre, hrest⟩ := h.placed hp
    obtain rfl | ⟨hppre, hhas⟩ := howner
    · obtain rfl | hrest := hrest
      · omega
      · rw [hpre] at hrest
        cases hrest.1
    · obtain rfl | hrest := hrest
      · rw [hppre] at hvpre
        cases hvpre
      · rw [hhas] at hrest
        cases hrest.2

theorem Found.missing_owner (h : Found c i s targets) (hpre : c.wasPreallocated i = true) :
    s.has i = false := by
  by_contra hhas
  obtain ⟨v, hv⟩ := h.has_placed i (Bool.not_eq_false _ ▸ hhas)
  rw [h.unplaced hpre (.inl rfl)] at hv
  cases hv

/-- Where a piece goes to the slot `i`, every other one is where it was. -/
theorem Found.put (h : Found c i s targets) {p q v : Nat}
    (hq : update s.places p (some i) q = some v) :
    q = p ∧ v = i ∨ q ≠ p ∧ v ≠ i ∧ s.places q = some v := by
  rcases eq_or_ne q p with rfl | hqp
  · rw [update_self] at hq
    exact .inl ⟨rfl, (Option.some_inj.1 hq).symm⟩
  · rw [update_of_ne hqp] at hq
    have hv := (h.placed hq).1
    exact .inr ⟨hqp, by omega, hq⟩

/-- What the slot `i` holds is not known. -/
theorem Found.keep (h : Found c i s targets) (hi : i < c.numPieces)
    (hpre : c.wasPreallocated i = true) :
    Found c (i + 1) { s with places := update s.places i (some i) } targets := by
  have hnone := h.unplaced hpre (.inl rfl)
  have hput : ∀ {q v}, update s.places i (some i) q = some v →
      q = i ∧ v = i ∨ q ≠ i ∧ v ≠ i ∧ s.places q = some v := h.put
  have hself : update s.places i (some i) i = some i := update_self ..
  refine ⟨h.numactive, h.waschecked, h.finished, h.flunked, h.came, h.endgame, h.holes_succ hpre,
    h.requests, h.left, h.inactive, fun {q v} hq => ?_, fun {q r v} hq hr => ?_,
    fun v hv hvpre => ?_, fun {q v} hq hv => ?_,
    fun q hq => ?_, fun hcheck {q v} hq hv => ?_, h.wanted, h.ordered, h.wanted_last⟩
  · obtain ⟨rfl, rfl⟩ | ⟨-, -, hq⟩ := hput hq
    · exact ⟨Nat.lt_succ_self _, hi, hpre, .inl rfl⟩
    · have hold := h.placed hq
      exact ⟨by omega, hold.2⟩
  · obtain ⟨rfl, rfl⟩ | ⟨-, hvi, hq⟩ := hput hq <;> obtain ⟨rfl, hv⟩ | ⟨-, hvi', hr⟩ := hput hr
    · rfl
    · exact absurd rfl hvi'
    · exact absurd hv hvi
    · exact h.inj hq hr
  · rcases Nat.lt_succ_iff_lt_or_eq.1 hv with hv | rfl
    · obtain ⟨q, hq⟩ := h.occupied v hv hvpre
      refine ⟨q, (update_of_ne ?_ ..).trans hq⟩
      rintro rfl
      rw [hnone] at hq
      cases hq
    · exact ⟨v, hself⟩
  · obtain ⟨rfl, rfl⟩ | ⟨-, -, hq⟩ := hput hq
    · exact .inl rfl
    · exact h.last hq hv
  · obtain ⟨v, hv⟩ := h.has_placed q hq
    refine ⟨v, (update_of_ne ?_ ..).trans hv⟩
    rintro rfl
    rw [hnone] at hv
    cases hv
  · obtain ⟨rfl, rfl⟩ | ⟨-, -, hv⟩ := hput hv
    · rw [h.missing_owner hpre] at hq
      cases hq
    · exact h.verified hcheck hq hv

/-- The slot `i` holds the piece `p`. -/
theorem Found.mark (h : Found c i s targets) {p : Nat} (hi : i < c.numPieces)
    (hp : p < c.numPieces) (hpre : c.wasPreallocated i = true)
    (howner : p = i ∨ c.wasPreallocated p = false ∧ s.has p = false)
    (hroom : i + 1 = c.numPieces → p = i ∨ c.Roomy)
    (hhash : c.checkHashes = true → c.hashes[p]? = some (c.sha (s.content c i p)))
    {targets' : D → List Nat} (hsub : ∀ h, (targets' h).Sublist (targets h))
    (hpop : ∀ h, p ∈ targets' h → p + 1 = c.numPieces ∧ ¬c.Roomy)
    (hlast : p ≠ c.numPieces - 1 → ∀ h, c.numPieces - 1 ∈ targets h →
      c.numPieces - 1 ∈ targets' h) :
    Found c (i + 1) (s.markgot c p i) targets' := by
  have hnone := h.unplaced hpre howner
  have hhas : s.has p = false := howner.elim (fun heq => heq ▸ h.missing_owner hpre) (·.2)
  have hput : ∀ {q v}, update s.places p (some i) q = some v →
      q = p ∧ v = i ∨ q ≠ p ∧ v ≠ i ∧ s.places q = some v := h.put
  have hmissing : missing c s p = c.pieceLen p := by
    rw [missing, hhas]
    rfl
  have hsum := sum_change (f := missing c s) (g := missing c (s.markgot c p i)) hp
    fun q _ hqp => by
      rw [missing, missing, show (s.markgot c p i).has q = s.has q from update_of_ne hqp ..]
  have hgone : missing c (s.markgot c p i) p = 0 := by
    rw [missing, if_pos (show (s.markgot c p i).has p = true from update_self ..)]
  have hleft := h.left
  refine ⟨h.numactive, fun q => ?_, h.finished, h.flunked, h.came, h.endgame, h.holes_succ hpre,
    fun q => ?_, ?_, ?_, fun {q v} hq => ?_, fun {q r v} hq hr => ?_, fun v hv hvpre => ?_,
    fun {q v} hq hv => ?_,
    fun q hq => ?_, fun hcheck {q v} hq hv => ?_, fun {g q} hq => ?_,
    fun g => (h.ordered g).sublist (hsub g), fun hlpre hlhas g hg => ?_⟩
  · rcases eq_or_ne q p with rfl | hqp
    · exact update_self ..
    · exact (update_of_ne hqp ..).trans (h.waschecked q)
  · change update s.inactiveRequests p .none q = if update s.has p true q = true then _ else _
    rcases eq_or_ne q p with rfl | hqp
    · rw [update_self, update_self, if_pos rfl]
    · rw [update_of_ne hqp, update_of_ne hqp]
      exact h.requests q
  · change s.amountLeft - (c.pieceLen p : Int) = _
    omega
  · exact congrArg (· - (c.pieceLen p : Int)) h.inactive
  · change _ ∧ _ ∧ _ ∧ (q = v ∨ _ ∧ update s.has p true q = true)
    obtain ⟨rfl, rfl⟩ | ⟨hqp, -, hq⟩ := hput hq
    · refine ⟨Nat.lt_succ_self _, hp, hpre, howner.imp_right fun hmiss => ⟨hmiss.1, ?_⟩⟩
      exact update_self ..
    · have hold := h.placed hq
      rw [update_of_ne hqp]
      exact ⟨by omega, hold.2⟩
  · obtain ⟨hqp, rfl⟩ | ⟨-, hvi, hq⟩ := hput hq <;> obtain ⟨hrp, hv⟩ | ⟨-, hvi', hr⟩ := hput hr
    · rw [hqp, hrp]
    · exact absurd rfl hvi'
    · exact absurd hv hvi
    · exact h.inj hq hr
  · rcases Nat.lt_succ_iff_lt_or_eq.1 hv with hv | rfl
    · obtain ⟨q, hq⟩ := h.occupied v hv hvpre
      refine ⟨q, (update_of_ne ?_ ..).trans hq⟩
      rintro rfl
      rw [hnone] at hq
      cases hq
    · exact ⟨p, update_self ..⟩
  · obtain ⟨rfl, rfl⟩ | ⟨-, -, hq⟩ := hput hq
    · exact hroom hv
    · exact h.last hq hv
  · rcases eq_or_ne q p with rfl | hqp
    · exact ⟨i, update_self ..⟩
    · obtain ⟨v, hv⟩ := h.has_placed q ((update_of_ne hqp ..).symm.trans hq)
      exact ⟨v, (update_of_ne hqp ..).trans hv⟩
  · obtain ⟨rfl, rfl⟩ | ⟨hqp, -, hv⟩ := hput hv
    · exact hhash hcheck
    · exact h.verified hcheck ((update_of_ne hqp ..).symm.trans hq) hv
  · obtain ⟨hqn, hqpre, hqg, hqhas⟩ := h.wanted ((hsub g).subset hq)
    refine ⟨hqn, hqpre, hqg, fun hgot => ?_⟩
    rcases eq_or_ne q p with rfl | hqp
    · exact hpop g hq
    · exact hqhas ((update_of_ne hqp ..).symm.trans hgot)
  · have hne : p ≠ c.numPieces - 1 := by
      rintro rfl
      exact Bool.false_ne_true (hlhas.symm.trans (update_self ..))
    exact hlast hne g (h.wanted_last hlpre ((update_of_ne hne.symm ..).symm.trans hlhas) g hg)

/-! ## One round -/

/-- The last piece is the shortest. -/
theorem last_le (hi : i < c.numPieces) : c.pieceLen (c.numPieces - 1) ≤ c.pieceLen i :=
  Setup.pieceLen_le_pieceLen (by omega) hi fun h => .inl (by omega)

/-- The two parts that are read of a slot. -/
theorem read_parts (s : Store) (hi : i < c.numPieces) :
    s.read c (c.pieceSize * i) (c.pieceLen (c.numPieces - 1)) ++
      s.read c (c.pieceSize * i + c.pieceLen (c.numPieces - 1))
        (c.pieceLen i - c.pieceLen (c.numPieces - 1)) = s.content c i i := by
  have hle := last_le hi
  have hend := Setup.end_le (c := c) hi
  rw [Nat.mul_comm i] at hend
  rw [content, read, read, read, Nat.min_eq_left (by omega), Nat.min_eq_left (by omega),
    Nat.min_eq_left (by omega), ← Medium.read_add, Nat.add_sub_cancel' hle]

/-- The slot holds a piece of the same length whose own slot is not there. -/
theorem Found.target [DecidableEq D] (h : Found c i s targets) (hi : i < c.numPieces)
    (hpre : c.wasPreallocated i = true) {p : Nat}
    (hp : (targets (c.sha (s.content c i i))).getLast? = some p)
    (hlen : c.pieceLen i = c.pieceLen p) :
    Found c (i + 1) (s.markgot c p i) (update targets (c.sha (s.content c i i))
      (targets (c.sha (s.content c i i))).dropLast) := by
  generalize hg : c.sha (s.content c i i) = g at hp ⊢
  obtain ⟨l, hl⟩ := List.getLast?_eq_some_iff.1 hp
  have hdrop : (targets g).dropLast = l := by rw [hl, List.dropLast_concat]
  obtain ⟨hpn, hppre, hpg, hphas⟩ := h.wanted (h := g) (q := p) (by simp [hl])
  have hpi : p ≠ i := by
    rintro rfl
    rw [hpre] at hppre
    cases hppre
  -- of two different pieces one at least has the full length
  have hroom : p + 1 = c.numPieces ∨ i + 1 = c.numPieces → c.Roomy := by
    rintro (hlast | hlast)
    · rw [Setup.Roomy, show c.numPieces - 1 = p by omega, ← hlen, Setup.pieceLen_eq (by omega)]
    · rw [Setup.Roomy, show c.numPieces - 1 = i by omega, hlen, Setup.pieceLen_eq (by omega)]
  have hmissing : s.has p = false := by
    by_contra hhas
    obtain ⟨hlast, hshort⟩ := hphas (Bool.not_eq_false _ ▸ hhas)
    exact hshort (hroom (.inl hlast))
  refine h.mark hi hpn hpre (.inr ⟨hppre, hmissing⟩) (fun hlast => .inr (hroom (.inr hlast)))
    (fun _ => ?_) (fun g' => ?_) (fun g' hmem => ?_) fun hne g' hmem => ?_
  · rw [content, ← hlen, hpg, ← hg, content]
  · rcases eq_or_ne g' g with rfl | hgg
    · rw [update_self]
      exact List.dropLast_sublist _
    · rw [update_of_ne hgg]
  · rcases eq_or_ne g' g with rfl | hgg
    · rw [update_self, hdrop] at hmem
      have hord := h.ordered g'
      rw [hl, List.pairwise_append] at hord
      exact absurd (hord.2.2 p hmem p (List.mem_singleton_self p)) (Nat.lt_irrefl p)
    · rw [update_of_ne hgg] at hmem
      have hpg' := (h.wanted hmem).2.2.1
      exact absurd (Option.some_inj.1 (hpg'.symm.trans hpg)) hgg
  · rcases eq_or_ne g' g with rfl | hgg
    · rw [hl] at hmem
      rw [update_self, hdrop]
      exact (List.mem_append.1 hmem).resolve_right fun hlast =>
        hne (List.mem_singleton.1 hlast).symm
    · rw [update_of_ne hgg]
      exact hmem

/-- The beginning of the slot is the last piece. -/
theorem Found.short (h : Found c i s targets) (hi : i < c.numPieces)
    (hpre : c.wasPreallocated i = true)
    (hno : ∀ p, (targets (c.sha (s.content c i i))).getLast? = some p →
      c.pieceLen i ≠ c.pieceLen p)
    (hmissing : s.has (c.numPieces - 1) = false)
    (hhash : c.hashes[c.numPieces - 1]? = some (c.sha (s.content c i (c.numPieces - 1))))
    (hown : i = c.numPieces - 1 ∨ c.wasPreallocated (c.numPieces - 1) = false) :
    Found c (i + 1) (s.markgot c (c.numPieces - 1) i) targets := by
  refine h.mark hi (by omega) hpre (hown.imp Eq.symm (⟨·, hmissing⟩))
    (fun hlast => .inl (by omega)) (fun _ => hhash) (fun _ => .refl _) (fun g hmem => ?_)
    fun _ _ hmem => hmem
  refine ⟨by omega, fun hroomy => ?_⟩
  -- were it as long as the others it would have been found as one of the targets
  have hsame : c.pieceLen i = c.pieceLen (c.numPieces - 1) := by
    rw [hroomy]
    exact Setup.Roomy.pieceLen hi fun _ => hroomy
  have hlast := h.wanted_last (h.wanted hmem).2.1 hmissing (c.sha (s.content c i i)) (by
    rw [hhash, content, content, hsame])
  cases hget : (targets (c.sha (s.content c i i))).getLast? with
  | none =>
    rw [List.getLast?_eq_none_iff.1 hget] at hlast
    cases hlast
  | some p =>
    obtain ⟨l, hl⟩ := List.getLast?_eq_some_iff.1 hget
    have hp := (h.wanted (h := c.sha (s.content c i i)) (q := p) (by simp [hl])).1
    have hord := h.ordered (c.sha (s.content c i i))
    rw [hl, List.pairwise_append] at hord
    rw [hl, List.mem_append, List.mem_singleton] at hlast
    refine hno p hget (hsame.trans (congrArg _ ?_))
    obtain hlast | hlast := hlast
    · have hlt := hord.2.2 _ hlast p (List.mem_singleton_self p)
      omega
    · exact hlast

theorem Found.checkSlot [DecidableEq D] (h : Found c i s targets) (hi : i < c.numPieces) :
    Found c (i + 1) (checkSlot c (s, targets) i).1 (checkSlot c (s, targets) i).2 := by
  have howned : ∀ g, i ∈ targets g → c.wasPreallocated i = false := fun g hmem =>
    (h.wanted hmem).2.1
  by_cases hpre : c.wasPreallocated i = false
  · rw [Store.checkSlot, if_pos hpre]
    exact h.hole hpre
  have hthere : c.wasPreallocated i = true := Bool.not_eq_false _ ▸ hpre
  have hmine : (c.checkHashes = true → c.hashes[i]? = some (c.sha (s.content c i i))) →
      Found c (i + 1) (s.markgot c i i) targets := fun hhash =>
    h.mark hi hi hthere (.inl rfl) (fun _ => .inl rfl) hhash (fun _ => .refl _)
      (fun g hmem => absurd (howned g hmem) hpre) fun _ _ hmem => hmem
  by_cases hcheck : c.checkHashes = false
  · rw [Store.checkSlot, if_neg hpre, if_pos hcheck]
    exact hmine fun htrue => absurd (hcheck.symm.trans htrue) Bool.false_ne_true
  simp only [Store.checkSlot, if_neg hpre, if_neg hcheck, read_parts s hi]
  by_cases hhash : c.hashes[i]? = some (c.sha (s.content c i i))
  · rw [if_pos hhash]
    exact hmine fun _ => hhash
  rw [if_neg hhash]
  cases hget : (targets (c.sha (s.content c i i))).getLast? with
  | none =>
    dsimp only
    split
    · rename_i hshort
      exact h.short hi hthere (fun p hp => by rw [hget] at hp; cases hp) hshort.1 hshort.2.1
        hshort.2.2
    · exact h.keep hi hthere
  | some p =>
    dsimp only
    by_cases hlen : c.pieceLen i = c.pieceLen p
    · rw [if_pos hlen]
      exact h.target hi hthere hget hlen
    · rw [if_neg hlen]
      split
      · rename_i hshort
        refine h.short hi hthere (fun q hq => ?_) hshort.1 hshort.2.1 hshort.2.2
        rw [hget] at hq
        cases hq
        exact hlen
      · exact h.keep hi hthere

/-! ## The whole loop -/

theorem found_foldl [DecidableEq D] (disk : Medium UInt8) {k : Nat} (hk : k ≤ c.numPieces) :
    Found c k ((List.range k).foldl (Store.checkSlot c) (fresh c disk, Store.targets c)).1
      ((List.range k).foldl (Store.checkSlot c) (fresh c disk, Store.targets c)).2 := by
  induction k with
  | zero => exact found_fresh disk
  | succ k ih =>
    rw [List.range_succ, List.foldl_append]
    exact (ih (by omega)).checkSlot hk

theorem Found.slots (h : Found c c.numPieces s targets) : InSlots c s := by
  have hmem : ∀ {v}, v ∈ s.holes ↔ v < c.numPieces ∧ c.wasPreallocated v = false := by
    intro v
    rw [h.holes]
    simp
  refine ⟨fun hp => (h.placed hp).2.1, fun hp => (h.placed hp).1, h.inj, fun {v} => ?_, ?_,
    fun {p v} hp hne => ?_, ?_, h.last⟩
  · rw [List.nil_append, hmem]
    refine and_congr_right fun hv => ⟨fun hpre p hp => ?_, fun hfree => ?_⟩
    · rw [(h.placed hp).2.2.1] at hpre
      cases hpre
    · by_contra hpre
      obtain ⟨p, hp⟩ := h.occupied v hv (Bool.not_eq_false _ ▸ hpre)
      exact hfree p hp
  · rw [h.holes]
    exact List.nodup_range.filter _
  · obtain ⟨-, hpn, -, hrest⟩ := h.placed hp
    exact hmem.2 ⟨hpn, (hrest.resolve_left hne.symm).1⟩
  · rw [h.holes]
    exact List.pairwise_lt_range.filter _

theorem Found.kept (h : Found c c.numPieces s targets) :
    Kept c (if s.amountLeft = 0 then { s with finished := 1 } else s) [] := by
  have hamount : ∀ p, (s.inactiveRequests p).amount c p = missing c s p := by
    intro p
    rw [h.requests, missing]
    split
    · rfl
    · rfl
  have hkept : Kept c { s with finished := if s.amountLeft = 0 then 1 else 0 } [] := by
    refine ⟨h.slots, h.has_placed, fun hcheck p => (h.waschecked p).trans hcheck,
      fun {p v} hp hcheck hv => ?_, fun r hr => absurd hr List.not_mem_nil,
      fun p _ => h.numactive p, fun p hp => ?_, h.left, ?_, ?_⟩
    · exact h.verified ((h.waschecked p).symm.trans hcheck) hp hv
    · dsimp only
      rw [h.requests, h.came]
      cases hhas : s.has p with
      | true => exact ⟨rfl, rfl⟩
      | false => exact ⟨rfl, rfl, rfl⟩
    · dsimp only
      rw [h.inactive, h.left, Finset.sum_congr rfl fun p _ => hamount p]
    · have hall := sum_missing_eq_zero (c := c) s
      dsimp only
      rw [h.left]
      simp only [Int.natCast_eq_zero, hall]
  split
  · rename_i hzero
    rw [if_pos hzero] at hkept
    exact hkept
  · rename_i hpos
    rw [if_neg hpos, ← h.finished] at hkept
    exact hkept

/-- Whatever lay on the disk, the client starts with what it has checked. -/
theorem kept_start [DecidableEq D] (disk : Medium UInt8) : Kept c (start c disk) [] :=
  (found_foldl disk (Nat.le_refl _)).kept

/-- No piece that is missing was asked for yet. -/
theorem start_requests [DecidableEq D] (disk : Medium UInt8) :
    (start c disk).flunked = 0 ∧ (start c disk).endgame = false ∧
      ∀ p, (start c disk).inactiveRequests p = if (start c disk).has p then .none else .one := by
  have hfound := found_foldl (c := c) disk (Nat.le_refl _)
  rw [start]
  split
  · exact ⟨hfound.flunked, hfound.endgame, hfound.requests⟩
  · exact ⟨hfound.flunked, hfound.endgame, hfound.requests⟩

end Store

end Wubi.Bittorrent
