import Mathlib.Algebra.Order.BigOperators.Group.Finset
import Wubi.Bittorrent.Pieces

/-!
# Blocks on their way

`Kept` relates the fields of a `Store` to each other and to the blocks that were
handed out by `new_request` and have neither come in nor been given up.

Each operation keeps it (`Kept.newRequest`, `Kept.requestLost`,
`Kept.pieceCameIn`, `Kept.getPiece`). The caller's part is that only a block on
its way comes in or is given up, and that blocks are asked for only where
`do_I_have_requests` says so.
-/
namespace Wubi.Bittorrent

open Function

/-- `(index, begin, length)` -/
abbrev Block := Nat × Nat × Nat

variable {D : Type} {c : Setup D}

/-- The blocks of the piece `p` among those on their way. -/
def blocksOf (out : List Block) (p : Nat) : List (Nat × Nat) :=
  (out.filter fun r => r.1 == p).map Prod.snd

@[simp] theorem blocksOf_nil (p : Nat) : blocksOf [] p = [] := rfl

theorem blocksOf_cons_self (p : Nat) (b : Nat × Nat) (out : List Block) :
    blocksOf ((p, b) :: out) p = b :: blocksOf out p := by simp [blocksOf]

theorem blocksOf_cons_of_ne {p q : Nat} (h : q ≠ p) (b : Nat × Nat) (out : List Block) :
    blocksOf ((q, b) :: out) p = blocksOf out p := by simp [blocksOf, h]

theorem blocksOf_filter_self (p : Nat) (out : List Block) :
    blocksOf (out.filter fun r => r.1 != p) p = [] := by
  rw [blocksOf, List.filter_filter]
  simp

theorem blocksOf_filter_of_ne {p q : Nat} (h : p ≠ q) (out : List Block) :
    blocksOf (out.filter fun r => r.1 != q) p = blocksOf out p := by
  rw [blocksOf, blocksOf, List.filter_filter]
  refine congrArg _ (List.filter_congr fun r _ => ?_)
  by_cases hr : r.1 = p
  · simp [hr, h]
  · simp [hr]

theorem mem_blocksOf {out : List Block} {p : Nat} {b : Nat × Nat} :
    b ∈ blocksOf out p ↔ (p, b) ∈ out := by
  simp [blocksOf]

theorem blocksOf_perm {out out' : List Block} (h : out.Perm out') (p : Nat) :
    (blocksOf out p).Perm (blocksOf out' p) := (h.filter _).map _

theorem blocksOf_erase_self {out : List Block} {p : Nat} {b : Nat × Nat} (h : (p, b) ∈ out) :
    (b :: blocksOf (out.erase (p, b)) p).Perm (blocksOf out p) := by
  rw [← blocksOf_cons_self]
  exact blocksOf_perm (List.perm_cons_erase h).symm p

theorem blocksOf_erase_of_ne {out : List Block} {p q : Nat} {b : Nat × Nat} (hne : q ≠ p)
    (h : (q, b) ∈ out) : (blocksOf (out.erase (q, b)) p).Perm (blocksOf out p) := by
  rw [← blocksOf_cons_of_ne hne b (out.erase (q, b))]
  exact blocksOf_perm (List.perm_cons_erase h).symm p

/-! ## Sums over the pieces -/

theorem sum_change {f g : Nat → Nat} {n i : Nat} (hi : i < n) (h : ∀ p < n, p ≠ i → g p = f p) :
    ∑ p ∈ Finset.range n, g p + f i = ∑ p ∈ Finset.range n, f p + g i := by
  have hmem : i ∈ Finset.range n := Finset.mem_range.2 hi
  have hrest : ∑ p ∈ (Finset.range n).erase i, g p = ∑ p ∈ (Finset.range n).erase i, f p := by
    refine Finset.sum_congr rfl fun p hp => ?_
    rw [Finset.mem_erase, Finset.mem_range] at hp
    exact h p hp.2 hp.1
  have hf := Finset.sum_erase_add (Finset.range n) f hmem
  have hg := Finset.sum_erase_add (Finset.range n) g hmem
  omega

/-- How many bytes are still to be asked for. -/
def Requests.amount (c : Setup D) (p : Nat) : Requests → Nat
  | .one => c.pieceLen p
  | .none => 0
  | .list l => (l.map Prod.snd).sum

/-- How many bytes of the piece are still missing. -/
def missing (c : Setup D) (s : Store) (p : Nat) : Nat := if s.has p then 0 else c.pieceLen p

/-! ## The invariant -/

/-- A piece that is missing was not asked for yet, or has blocks to ask for or on
their way, which with those that came in are its blocks, each of them once. -/
def Accounted (c : Setup D) (p : Nat) (has : Bool) (active came : List (Nat × Nat)) :
    Requests → Prop
  | .one => has = false ∧ active = [] ∧ came = []
  | .none => has = true ∧ active = []
  | .list l => has = false ∧ l ++ active ≠ [] ∧ (l ++ active ++ came).Perm (c.blocks p)

structure Kept (c : Setup D) (s : Store) (out : List Block) : Prop where
  slots : Store.InSlots c s
  has_placed : ∀ p, s.has p = true → ∃ v, s.places p = some v
  checked : c.checkHashes = true → ∀ p, s.waschecked p = true
  verified : ∀ {p v}, s.has p = true → s.waschecked p = true → s.places p = some v →
    c.hashes[p]? = some (c.sha (s.content c v p))
  out_lt : ∀ r ∈ out, r.1 < c.numPieces
  numactive : ∀ p < c.numPieces, s.numactive p = (blocksOf out p).length
  accounted : ∀ p < c.numPieces,
    Accounted c p (s.has p) (blocksOf out p) (blocksOf s.came p) (s.inactiveRequests p)
  left : s.amountLeft = (∑ p ∈ Finset.range c.numPieces, missing c s p : Nat)
  inactive : s.amountInactive =
    (∑ p ∈ Finset.range c.numPieces, (s.inactiveRequests p).amount c p : Nat)
  finished : s.finished = if ∀ p < c.numPieces, s.has p = true then 1 else 0

/-- Nothing is left if and only if every piece is had. -/
theorem sum_missing_eq_zero (s : Store) :
    ∑ p ∈ Finset.range c.numPieces, missing c s p = 0 ↔ ∀ p < c.numPieces, s.has p = true := by
  rw [Finset.sum_eq_zero_iff]
  refine forall_congr' fun p => ?_
  rw [Finset.mem_range]
  refine imp_congr_right fun hp => ?_
  have hpos := Setup.pieceLen_pos (c := c) hp
  cases hhas : s.has p with
  | true => simp [missing, hhas]
  | false => simpa [missing, hhas] using hpos.ne'

theorem Kept.left_eq_zero {s : Store} {out : List Block} (h : Kept c s out) :
    s.amountLeft = 0 ↔ ∀ p < c.numPieces, s.has p = true := by
  rw [h.left, Int.natCast_eq_zero, sum_missing_eq_zero]

/-- The blocks of a piece that can be asked for. -/
def pending (c : Setup D) (s : Store) (p : Nat) : List (Nat × Nat) :=
  match s.inactiveRequests p with
  | .one => c.blocks p
  | .none => []
  | .list l => l

theorem wants_iff {s : Store} {p : Nat} (hp : p < c.numPieces) :
    s.doIHaveRequests p = true ↔ pending c s p ≠ [] := by
  have hne := Setup.blocks_ne_nil (c := c) hp
  rw [pending, Store.doIHaveRequests]
  cases s.inactiveRequests p with
  | one => simp [hne, Requests.toBool]
  | none => simp [Requests.toBool]
  | list l => simp [Requests.toBool]

theorem amount_eq {s : Store} {p : Nat} (hp : p < c.numPieces) :
    (s.inactiveRequests p).amount c p = ((pending c s p).map Prod.snd).sum := by
  rw [pending]
  cases s.inactiveRequests p with
  | one =>
    dsimp only
    rw [Setup.blocks_eq hp, Setup.sum_blocksFrom _ _ (Nat.zero_le _)]
    rfl
  | none => rfl
  | list l => rfl

/-- Every block of a missing piece is to be asked for, on its way or there, and only once. -/
theorem Kept.pending_perm {s : Store} {out : List Block} (h : Kept c s out) {p : Nat}
    (hp : p < c.numPieces) (hmiss : s.has p = false) :
    (pending c s p ++ blocksOf out p ++ blocksOf s.came p).Perm (c.blocks p) := by
  have hacc := h.accounted p hp
  rw [pending]
  cases hreq : s.inactiveRequests p with
  | one => rw [hreq] at hacc; simp [hacc.2.1, hacc.2.2]
  | none =>
    rw [hreq] at hacc
    exact absurd (hmiss.symm.trans hacc.1) Bool.false_ne_true
  | list l => rw [hreq] at hacc; exact hacc.2.2

theorem Kept.has_iff {s : Store} {out : List Block} (h : Kept c s out) {p : Nat}
    (hp : p < c.numPieces) : s.has p = true ↔ pending c s p ++ blocksOf out p = [] := by
  have hacc := h.accounted p hp
  rw [pending]
  cases hreq : s.inactiveRequests p with
  | one =>
    rw [hreq] at hacc
    simp [hacc.1, Setup.blocks_ne_nil hp]
  | none => rw [hreq] at hacc; simp [hacc.1, hacc.2]
  | list l =>
    rw [hreq] at hacc
    rw [hacc.1]
    exact ⟨fun htrue => absurd htrue Bool.false_ne_true, fun hnil => absurd hnil hacc.2.1⟩

theorem Kept.pending_subperm {s : Store} {out : List Block} (h : Kept c s out) {p : Nat}
    (hp : p < c.numPieces) : (pending c s p ++ blocksOf out p).Subperm (c.blocks p) := by
  cases hhas : s.has p with
  | true =>
    rw [(h.has_iff hp).1 hhas]
    exact List.nil_subperm
  | false =>
    have hsub := (List.sublist_append_left (pending c s p ++ blocksOf out p) (blocksOf s.came p)).subperm
    exact hsub.trans (h.pending_perm hp hhas).subperm

/-- The blocks on their way lie within their piece. -/
theorem Kept.out_bounds {s : Store} {out : List Block} (h : Kept c s out) {p start len : Nat}
    (hr : (p, start, len) ∈ out) : start + len ≤ c.pieceLen p := by
  have hp := h.out_lt _ hr
  exact Setup.blocks_bounds hp
    ((h.pending_subperm hp).subset (List.mem_append_right _ (mem_blocksOf.2 hr)))

theorem Accounted.perm {p : Nat} {has : Bool} {active active' came : List (Nat × Nat)}
    {r : Requests} (h : Accounted c p has active came r) (hperm : active'.Perm active) :
    Accounted c p has active' came r := by
  cases r with
  | one => exact ⟨h.1, List.perm_nil.1 (h.2.1 ▸ hperm), h.2.2⟩
  | none => exact ⟨h.1, List.perm_nil.1 (h.2 ▸ hperm)⟩
  | list l =>
    have happ := hperm.append_left l
    exact ⟨h.1, fun hnil => h.2.1 (List.perm_nil.1 (hnil ▸ happ.symm)),
      (happ.append_right came).trans h.2.2⟩

/-- A piece of which a block is on its way is missing. -/
theorem Kept.has_of_out {s : Store} {out : List Block} (h : Kept c s out) {r : Block}
    (hr : r ∈ out) : s.has r.1 = false := by
  by_contra hhas
  have hnil := (h.has_iff (h.out_lt r hr)).1 (Bool.not_eq_false _ ▸ hhas)
  have hmem : r.2 ∈ blocksOf out r.1 := mem_blocksOf.2 hr
  rw [(List.append_eq_nil_iff.1 hnil).2] at hmem
  cases hmem

/-- The blocks of such a piece that may still be asked for are a list. -/
theorem Kept.list_of_out {s : Store} {out : List Block} (h : Kept c s out)
    {index start len : Nat} (hr : (index, start, len) ∈ out) :
    ∃ l, s.inactiveRequests index = .list l ∧
      (l ++ blocksOf out index ++ blocksOf s.came index).Perm (c.blocks index) := by
  have hacc := h.accounted index (h.out_lt _ hr)
  have hmem := mem_blocksOf.2 hr
  cases hreq : s.inactiveRequests index with
  | one => rw [hreq] at hacc; rw [hacc.2.1] at hmem; cases hmem
  | none => rw [hreq] at hacc; rw [hacc.2] at hmem; cases hmem
  | list l =>
    rw [hreq] at hacc
    exact ⟨l, rfl, hacc.2.2⟩

/-- Blocks that are different for each piece are different. -/
theorem nodup_of_blocksOf {out : List Block} (h : ∀ r ∈ out, (blocksOf out r.1).Nodup) :
    out.Nodup := by
  rw [List.nodup_iff_count_le_one]
  intro ⟨p, b⟩
  by_contra hlt
  have hmem : (p, b) ∈ out := List.count_pos_iff.1 (by omega)
  have hagain : (p, b) ∈ out.erase (p, b) := by
    rw [← List.count_pos_iff, List.count_erase_self]
    omega
  have hnodup := (blocksOf_erase_self hmem).nodup_iff.2 (h _ hmem)
  exact (List.nodup_cons.1 hnodup).1 (mem_blocksOf.2 hagain)

theorem nodup_of_subperm {p : Nat} (hp : p < c.numPieces) {l : List (Nat × Nat)}
    (h : l.Subperm (c.blocks p)) : l.Nodup := by
  obtain ⟨l', hperm, hsub⟩ := h
  exact hperm.nodup_iff.1 ((Setup.blocks_nodup hp).sublist hsub)

/-- No block is on its way twice. -/
theorem Kept.out_nodup {s : Store} {out : List Block} (h : Kept c s out) : out.Nodup :=
  nodup_of_blocksOf fun r hr =>
    (nodup_of_subperm (h.out_lt r hr) (h.pending_subperm (h.out_lt r hr))).of_append_right

namespace Store

/-! ## Asking -/

theorem foldl_minPair_mem (l : List (Nat × Nat)) (b : Nat × Nat) :
    l.foldl minPair b ∈ b :: l := by
  induction l generalizing b with
  | nil => exact List.mem_singleton_self b
  | cons a l ih =>
    have hmem := ih (minPair b a)
    rw [List.foldl_cons]
    obtain heq | hmem := List.mem_cons.1 hmem
    · rw [heq, minPair]
      split
      · exact List.mem_cons_of_mem _ List.mem_cons_self
      · exact List.mem_cons_self
    · exact List.mem_cons_of_mem _ (List.mem_cons_of_mem _ hmem)

theorem exists_minBlock {l : List (Nat × Nat)} (h : l ≠ []) : ∃ b ∈ l, minBlock l = some b := by
  cases l with
  | nil => exact absurd rfl h
  | cons b l => exact ⟨_, foldl_minPair_mem l b, rfl⟩

/-- Asking takes the least block off the list, which is made if the piece was not asked for
yet. -/
theorem newRequest_eq {s : Store} {index : Nat} {b : Nat × Nat}
    (hmin : minBlock (pending c s index) = some b) :
    s.newRequest c index = .ok (b, { s with
      inactiveRequests := update s.inactiveRequests index (.list ((pending c s index).erase b))
      numactive := update s.numactive index (s.numactive index + 1)
      amountInactive := s.amountInactive - b.2
      endgame := s.endgame || s.amountInactive - (b.2 : Int) == 0 }) := by
  rw [pending] at hmin ⊢
  cases hreq : s.inactiveRequests index with
  | one =>
    rw [hreq] at hmin
    simp only [newRequest, hreq, hmin]
  | none => rw [hreq] at hmin; cases hmin
  | list l =>
    rw [hreq] at hmin
    simp only [newRequest, hreq, hmin]

end Store

/-- The invariant after a change of the requests for one piece. -/
theorem Kept.of_requests {s : Store} {out out' : List Block} (h : Kept c s out) {i : Nat}
    (hi : i < c.numPieces) (hlt : ∀ r ∈ out', r.1 < c.numPieces)
    (hother : ∀ p, p ≠ i → (blocksOf out' p).Perm (blocksOf out p)) {r : Requests} {k m : Int}
    (hk : k = (blocksOf out' i).length)
    (hm : m + (s.inactiveRequests i).amount c i = s.amountInactive + r.amount c i)
    {l : List Block} (hcame : ∀ p, p ≠ i → blocksOf l p = blocksOf s.came p)
    (hacc : Accounted c i (s.has i) (blocksOf out' i) (blocksOf l i) r) (endgame : Bool)
    (flunked : Nat) :
    Kept c { s with
      inactiveRequests := update s.inactiveRequests i r
      numactive := update s.numactive i k
      amountInactive := m
      endgame := endgame
      flunked := flunked
      came := l } out' := by
  refine ⟨h.slots, h.has_placed, h.checked, h.verified, hlt, ?_, ?_, h.left, ?_, h.finished⟩
  · intro p hp
    rcases eq_or_ne p i with rfl | hpi
    · exact (update_self ..).trans hk
    · refine (update_of_ne hpi ..).trans ((h.numactive p hp).trans ?_)
      rw [(hother p hpi).length_eq]
  · intro p hp
    dsimp only
    rcases eq_or_ne p i with rfl | hpi
    · rw [update_self]
      exact hacc
    · rw [update_of_ne hpi, hcame p hpi]
      exact (h.accounted p hp).perm (hother p hpi)
  · have hsum := sum_change (f := fun p => (s.inactiveRequests p).amount c p)
      (g := fun p => (update s.inactiveRequests i r p).amount c p) hi fun p _ hpi => by
        rw [update_of_ne hpi]
    simp only [update_self] at hsum
    have hold := h.inactive
    dsimp only
    omega

/-- The counter of a piece when one of its blocks is on its way no more. -/
theorem Kept.numactive_erase {s : Store} {out : List Block} (h : Kept c s out)
    {index start len : Nat} (hr : (index, start, len) ∈ out) :
    s.numactive index - 1 = (blocksOf (out.erase (index, start, len)) index).length := by
  rw [h.numactive index (h.out_lt _ hr), ← (blocksOf_erase_self hr).length_eq, List.length_cons]
  push_cast
  omega

/-- One block is on its way no more. -/
theorem Kept.of_erase {s : Store} {out : List Block} (h : Kept c s out) {index start len : Nat}
    (hr : (index, start, len) ∈ out) {r : Requests} {m : Int}
    (hm : m + (s.inactiveRequests index).amount c index = s.amountInactive + r.amount c index)
    {l : List Block} (hcame : ∀ p, p ≠ index → blocksOf l p = blocksOf s.came p)
    (hacc : Accounted c index (s.has index) (blocksOf (out.erase (index, start, len)) index)
      (blocksOf l index) r) (endgame : Bool) (flunked : Nat) :
    Kept c { s with
      inactiveRequests := update s.inactiveRequests index r
      numactive := update s.numactive index (s.numactive index - 1)
      amountInactive := m
      endgame := endgame
      flunked := flunked
      came := l } (out.erase (index, start, len)) :=
  h.of_requests (h.out_lt _ hr) (fun r hr' => h.out_lt r (List.mem_of_mem_erase hr'))
    (fun _ hpi => blocksOf_erase_of_ne hpi.symm hr) (h.numactive_erase hr) hm hcame hacc endgame flunked

/-- Asking for a block, where there is one to ask for. -/
theorem Kept.newRequest {s : Store} {out : List Block} (h : Kept c s out) {index : Nat}
    (hi : index < c.numPieces) (hwant : s.doIHaveRequests index = true) :
    ∃ b s', s.newRequest c index = .ok (b, s') ∧ Kept c s' ((index, b) :: out) := by
  have hne := (wants_iff hi).1 hwant
  obtain ⟨b, hb, hmin⟩ := Store.exists_minBlock hne
  have heq := Store.newRequest_eq hmin
  have hperm : ((pending c s index).erase b ++ b :: blocksOf out index).Perm
      (pending c s index ++ blocksOf out index) :=
    List.perm_middle.trans ((List.perm_cons_erase hb).symm.append_right _)
  refine ⟨b, _, heq, h.of_requests (l := s.came) hi ?_ ?_ ?_ ?_ (fun _ _ => rfl) ?_ _ _⟩
  · intro r hr
    obtain rfl | hr := List.mem_cons.1 hr
    · exact hi
    · exact h.out_lt r hr
  · intro p hpi
    rw [blocksOf_cons_of_ne hpi.symm]
  · rw [blocksOf_cons_self, h.numactive index hi, List.length_cons]
    push_cast
    rfl
  · have hsum := ((List.perm_cons_erase hb).map Prod.snd).sum_eq
    rw [List.map_cons, List.sum_cons] at hsum
    rw [amount_eq hi, Requests.amount]
    omega
  · have hhas : s.has index = false := by
      by_contra hhas
      exact hne (List.append_eq_nil_iff.1 ((h.has_iff hi).1 (Bool.not_eq_false _ ▸ hhas))).1
    rw [blocksOf_cons_self]
    refine ⟨hhas, fun hnil => ?_, (hperm.append_right _).trans (h.pending_perm hi hhas)⟩
    exact List.cons_ne_nil _ _ (List.append_eq_nil_iff.1 hnil).2

/-- A block that is given up is on the list again. -/
theorem Kept.requestLost {s : Store} {out : List Block} (h : Kept c s out) {index start len : Nat}
    (hr : (index, start, len) ∈ out) :
    ∃ s', s.requestLost index start len = .ok s' ∧ Kept c s' (out.erase (index, start, len)) := by
  have hhas : s.has index = false := h.has_of_out hr
  obtain ⟨l, hreq, hall⟩ := h.list_of_out hr
  have hperm : (l ++ [(start, len)] ++ blocksOf (out.erase (index, start, len)) index).Perm
      (l ++ blocksOf out index) := by
    rw [List.append_assoc]
    exact (blocksOf_erase_self hr).append_left l
  refine ⟨_, by simp only [Store.requestLost, hreq], h.of_erase hr (l := s.came)
    (r := .list (l ++ [(start, len)])) (m := s.amountInactive + len) ?_ (fun _ _ => rfl) ?_
    s.endgame s.flunked⟩
  · rw [hreq]
    simp only [Requests.amount, List.map_append, List.map_cons, List.map_nil, List.sum_append,
      List.sum_cons, List.sum_nil, Nat.add_zero]
    omega
  · refine ⟨hhas, fun hnil => ?_, (hperm.append_right _).trans hall⟩
    rw [List.append_assoc, List.append_eq_nil_iff] at hnil
    exact List.cons_ne_nil _ _ hnil.2

/-! ## Blocks that come in -/

/-- The invariant when pieces have been moved. -/
theorem Kept.moved {s s' : Store} {out : List Block} (h : Kept c s out) (hmoved : Store.Moved c s s')
    (hslots : Store.InSlots c s') : Kept c s' out := by
  have hhas : s'.has = s.has := by rw [hmoved.rest]
  have hchecked : s'.waschecked = s.waschecked := by rw [hmoved.rest]
  have hreq : s'.inactiveRequests = s.inactiveRequests := by rw [hmoved.rest]
  have hmissing : missing c s' = missing c s := by
    funext p
    rw [missing, missing, hhas]
  refine ⟨hslots, ?_, ?_, ?_, h.out_lt, ?_, ?_, ?_, ?_, ?_⟩
  · intro p hp
    rw [hhas] at hp
    obtain ⟨v, hv⟩ := h.has_placed p hp
    obtain ⟨v', hv', -⟩ := hmoved.bytes hv
    exact ⟨v', hv'⟩
  · rw [hchecked]
    exact h.checked
  · intro p v' hp hcheck hv'
    rw [hhas] at hp
    rw [hchecked] at hcheck
    obtain ⟨v, hv⟩ := h.has_placed p hp
    obtain ⟨v'', hv'', hbytes⟩ := hmoved.bytes hv
    obtain rfl : v' = v'' := Option.some_inj.1 (hv'.symm.trans hv'')
    rw [Store.content_congr (h.slots.slot_lt hv) (hslots.slot_lt hv') (Store.fits h.slots hv)
      (Store.fits hslots hv') hbytes]
    exact h.verified hp hcheck hv
  · intro p hp
    have hactive : s'.numactive = s.numactive := by rw [hmoved.rest]
    rw [hactive, h.numactive p hp]
  · intro p hp
    have hcame : s'.came = s.came := by rw [hmoved.rest]
    rw [hhas, hreq, hcame]
    exact h.accounted p hp
  · have hleft : s'.amountLeft = s.amountLeft := by rw [hmoved.rest]
    rw [hleft, hmissing, h.left]
  · have hamount : s'.amountInactive = s.amountInactive := by rw [hmoved.rest]
    rw [hamount, hreq, h.inactive]
  · have hfinished : s'.finished = s.finished := by rw [hmoved.rest]
    rw [hfinished, hhas, h.finished]

/-- The invariant when a block of a missing piece has been written. -/
theorem Kept.write {s : Store} {out : List Block} (h : Kept c s out) {index v : Nat}
    (hv : s.places index = some v) (hhas : s.has index = false) (start : Nat) (piece : List UInt8)
    (hfit : start + piece.length ≤ c.pieceSize) :
    Kept c (s.write c (v * c.pieceSize + start) piece) out := by
  refine ⟨h.slots, h.has_placed, h.checked, ?_, h.out_lt, h.numactive, h.accounted, h.left,
    h.inactive, h.finished⟩
  intro p w hp hcheck hw
  have hpi : p ≠ index := by
    rintro rfl
    exact Bool.false_ne_true (hhas.symm.trans hp)
  have hwv : w ≠ v := fun heq => hpi (h.slots.inj hw (heq ▸ hv))
  have hwn := h.slots.slot_lt hw
  have hlen := Setup.pieceLen_le (c := c) (h.slots.item_lt hw)
  rw [Nat.mul_comm, Store.content_congr hwn hwn (Store.fits h.slots hw) (Store.fits h.slots hw)
    fun o ho => Store.byte_write_of_ne s start hwv hfit (by omega)]
  exact h.verified hp hcheck hw

/-- The invariant when the last block of a piece is in and its hash is right. -/
theorem Kept.complete {s : Store} {out : List Block} (h : Kept c s out) {i v start len : Nat}
    (hr : (i, start, len) ∈ out) (hv : s.places i = some v) (hhas : s.has i = false)
    (hlist : s.inactiveRequests i = .list [])
    (hhash : c.hashes[i]? = some (c.sha (s.content c v i)))
    (hdone : blocksOf (out.erase (i, start, len)) i = [])
    {came : List Block} (hcame : ∀ p, p ≠ i → blocksOf came p = blocksOf s.came p) :
    Kept c { s with
      numactive := update s.numactive i (s.numactive i - 1)
      has := update s.has i true
      inactiveRequests := update s.inactiveRequests i .none
      waschecked := update s.waschecked i true
      amountLeft := s.amountLeft - c.pieceLen i
      finished := if s.amountLeft - c.pieceLen i = 0 then s.finished + 1 else s.finished
      came := came } (out.erase (i, start, len)) := by
  have hi : i < c.numPieces := h.out_lt _ hr
  let s' : Store := { s with has := update s.has i true }
  have hnew : missing c s' i = 0 := by
    rw [missing, if_pos (update_self ..)]
  have hold : missing c s i = c.pieceLen i := by
    rw [missing, hhas]
    rfl
  have hsum := sum_change (f := missing c s) (g := missing c s') hi fun p _ hpi => by
    rw [missing, missing, show s'.has p = s.has p from update_of_ne hpi ..]
  have hleft : s.amountLeft - c.pieceLen i =
      (∑ p ∈ Finset.range c.numPieces, missing c s' p : Nat) := by
    have hbefore := h.left
    omega
  refine ⟨h.slots, ?_, ?_, ?_, fun r hr' => h.out_lt r (List.mem_of_mem_erase hr'), ?_, ?_, hleft,
    ?_, ?_⟩
  · intro p hp
    rcases eq_or_ne p i with rfl | hpi
    · exact ⟨v, hv⟩
    · exact h.has_placed p ((update_of_ne hpi ..).symm.trans hp)
  · intro hall p
    rcases eq_or_ne p i with rfl | hpi
    · exact update_self ..
    · exact (update_of_ne hpi ..).trans (h.checked hall p)
  · intro p w hp hcheck hw
    rcases eq_or_ne p i with rfl | hpi
    · obtain rfl : w = v := Option.some_inj.1 (hw.symm.trans hv)
      exact hhash
    · exact h.verified ((update_of_ne hpi ..).symm.trans hp)
        ((update_of_ne hpi ..).symm.trans hcheck) hw
  · intro p hp
    rcases eq_or_ne p i with rfl | hpi
    · exact (update_self ..).trans (h.numactive_erase hr)
    · refine (update_of_ne hpi ..).trans ((h.numactive p hp).trans ?_)
      rw [(blocksOf_erase_of_ne hpi.symm hr).length_eq]
  · intro p hp
    change Accounted c p (update s.has i true p) _ (blocksOf came p)
      (update s.inactiveRequests i .none p)
    rcases eq_or_ne p i with rfl | hpi
    · rw [update_self, update_self]
      exact ⟨rfl, hdone⟩
    · rw [update_of_ne hpi, update_of_ne hpi, hcame p hpi]
      exact (h.accounted p hp).perm (blocksOf_erase_of_ne hpi.symm hr)
  · have hamount := sum_change (f := fun p => (s.inactiveRequests p).amount c p)
      (g := fun p => (update s.inactiveRequests i .none p).amount c p) hi fun p _ hpi => by
        rw [update_of_ne hpi]
    have hnothing : (s.inactiveRequests i).amount c i = 0 := by rw [hlist]; rfl
    have hnone : Requests.none.amount c i = 0 := rfl
    simp only [update_self, hnothing, hnone] at hamount
    have hbefore := h.inactive
    dsimp only
    omega
  · have hzero : s.finished = 0 := by
      rw [h.finished, if_neg fun hall => ?_]
      exact Bool.false_ne_true (hhas.symm.trans (hall i hi))
    have hall := sum_missing_eq_zero (c := c) s'
    dsimp only
    rw [hleft, hzero]
    simp only [Int.natCast_eq_zero, hall]
    rfl

/-- A block on its way comes in, for a piece that has a place. -/
theorem Kept.writeBlock [DecidableEq D] {s : Store} {out : List Block} (h : Kept c s out)
    {index v start : Nat} {piece : List UInt8} (hr : (index, start, piece.length) ∈ out)
    (hv : s.places index = some v) :
    Kept c (s.writeBlock c index v start piece).2 (out.erase (index, start, piece.length)) := by
  have hi : index < c.numPieces := h.out_lt _ hr
  have hhas : s.has index = false := h.has_of_out hr
  have hbounds := h.out_bounds hr
  have hlen := Setup.pieceLen_le (c := c) hi
  have hactive := h.numactive_erase hr
  obtain ⟨l, hreq, hall⟩ := h.list_of_out hr
  have hwritten := h.write hv hhas start piece (by omega)
  let came : List Block := (index, start, piece.length) :: s.came
  have hcame : ∀ p, p ≠ index → blocksOf came p = blocksOf s.came p :=
    fun p hpi => blocksOf_cons_of_ne (Ne.symm hpi) _ _
  have hnow : (l ++ blocksOf (out.erase (index, start, piece.length)) index ++
      blocksOf came index).Perm (c.blocks index) := by
    refine List.Perm.trans ?_ hall
    rw [show blocksOf came index = (start, piece.length) :: blocksOf s.came index from
      blocksOf_cons_self .., List.append_assoc, List.append_assoc]
    exact (List.perm_middle.trans ((blocksOf_erase_self hr).append_right _)).append_left l
  unfold Store.writeBlock
  dsimp only
  split
  · rename_i hlast
    obtain ⟨hempty, hzero⟩ := hlast
    have hnil : l = [] := by
      simpa [Store.doIHaveRequests, Store.write, hreq, Requests.toBool] using hempty
    have hcount : s.numactive index - 1 = 0 := (update_self ..).symm.trans hzero
    have hdone : blocksOf (out.erase (index, start, piece.length)) index = [] := by
      rw [hactive] at hcount
      exact List.eq_nil_of_length_eq_zero (by omega)
    subst hnil
    split
    · rename_i hhash
      exact hwritten.complete hr hv hhas hreq hhash hdone hcame
    · refine hwritten.of_erase hr (r := .one) (l := came.filter fun r => r.1 != index) ?_
        (fun p hpi => ?_) ⟨hhas, hdone, blocksOf_filter_self index came⟩
        s.endgame (s.flunked + c.pieceLen index)
      · rw [show (s.write c _ piece).inactiveRequests index = .list [] from hreq]
        exact Int.add_zero _
      · exact (blocksOf_filter_of_ne hpi came).trans (hcame p hpi)
  · rename_i hmore
    have hkept := hwritten.of_erase hr (r := .list l) (m := s.amountInactive)
      (by rw [show (s.write c _ piece).inactiveRequests index = .list l from hreq]; rfl)
      hcame ⟨hhas, fun hnil => hmore ?_, hnow⟩ s.endgame s.flunked
    · have hsame : update (s.write c (v * c.pieceSize + start) piece).inactiveRequests index
          (.list l) = s.inactiveRequests := by
        rw [← hreq]
        exact update_eq_self ..
      rw [hsame] at hkept
      exact hkept
    · obtain ⟨hl, hb⟩ := List.append_eq_nil_iff.1 hnil
      constructor
      · simp [Store.doIHaveRequests, Store.write, hreq, hl, Requests.toBool]
      · rw [hb] at hactive
        exact (update_self ..).trans hactive

namespace Store

/-- A block is written into the slot of its piece, once that has one. -/
theorem tryPieceCameIn_eq [DecidableEq D] {s : Store} {index : Nat} (h : InSlots c s)
    (hi : index < c.numPieces) (start : Nat) (piece : List UInt8) :
    (∃ p v, s.has p = true ∧ s.places p = some v ∧ c.hashes[p]? ≠ some (c.sha (s.content c v p)) ∧
      s.tryPieceCameIn c index start piece = .error (.failed corruptedOnDisk)) ∨
    ∃ s₁ v, Moved c s s₁ ∧ InSlots c s₁ ∧ s₁.places index = some v ∧
      s.tryPieceCameIn c index start piece = .ok (s₁.writeBlock c index v start piece) := by
  cases hplace : s.places index with
  | some v =>
    exact .inr ⟨s, v, ⟨fun {_ v} hp => ⟨v, hp, fun _ _ => rfl⟩, rfl⟩, h, hplace, by
      simp only [tryPieceCameIn, hplace]⟩
  | none =>
    cases made h hi hplace with
    | corrupt p v hhas hv hhash heq =>
      exact .inl ⟨p, v, hhas, hv, hhash, by simp only [tryPieceCameIn, hplace, heq]⟩
    | done s₁ v heq hslots hput hmoved =>
      exact .inr ⟨s₁, v, hmoved, hslots, hput, by simp only [tryPieceCameIn, hplace, heq, hput]⟩

end Store

/-- What a block that comes in changes, apart from the disk. -/
structure CameIn (c : Setup D) (s s' : Store) (index : Nat) (ok : Bool) : Prop where
  endgame : s'.endgame = s.endgame
  has : s'.has = s.has ∨ ok = true ∧ s'.has = update s.has index true
  good : ok = true → ∀ p, pending c s' p = pending c s p ∨ pending c s' p = []
  bad : ok = false → pending c s' index = c.blocks index ∧
    ∀ p, p ≠ index → pending c s' p = pending c s p

theorem Store.writeBlock_fields [DecidableEq D] (s : Store) (index v start : Nat)
    (piece : List UInt8) :
    CameIn c s (s.writeBlock c index v start piece).2 index
      (s.writeBlock c index v start piece).1 := by
  unfold Store.writeBlock
  dsimp only
  split
  · split
    · refine ⟨rfl, .inr ⟨rfl, rfl⟩, fun _ p => ?_, fun h => by cases h⟩
      rcases eq_or_ne p index with rfl | hp
      · right
        rw [pending]
        dsimp only
        rw [update_self]
      · left
        rw [pending, pending]
        dsimp only
        rw [update_of_ne hp]
        rfl
    · refine ⟨rfl, .inl rfl, fun h => by (cases h), fun _ => ⟨?_, fun p hp => ?_⟩⟩
      · rw [pending]
        dsimp only
        rw [update_self]
      · rw [pending, pending]
        dsimp only
        rw [update_of_ne hp]
        rfl
  · exact ⟨rfl, .inl rfl, fun _ _ => .inl rfl, fun h => by cases h⟩

theorem Store.tryPieceCameIn_fields [DecidableEq D] {s s' : Store} (h : InSlots c s) {index : Nat}
    (hi : index < c.numPieces) {start : Nat} {piece : List UInt8} {ok : Bool}
    (heq : s.tryPieceCameIn c index start piece = .ok (ok, s')) : CameIn c s s' index ok := by
  rcases tryPieceCameIn_eq h hi start piece with ⟨-, -, -, -, -, heq'⟩ | ⟨s₁, v, hmoved, -, -, heq'⟩
  · rw [heq'] at heq
    cases heq
  · rw [heq', Except.ok.injEq] at heq
    have hfields := s₁.writeBlock_fields (c := c) index v start piece
    rw [heq] at hfields
    have hend : s₁.endgame = s.endgame := by rw [hmoved.rest]
    have hhas : s₁.has = s.has := by rw [hmoved.rest]
    have hpending : pending c s₁ = pending c s := by
      funext p
      rw [pending, pending, hmoved.rest]
    refine ⟨hfields.endgame.trans hend, ?_, ?_, ?_⟩
    · rw [← hhas]
      exact hfields.has
    · rw [← hpending]
      exact hfields.good
    · rw [← hpending]
      exact hfields.bad

/-- A block on its way comes in. -/
theorem Kept.tryPieceCameIn [DecidableEq D] {s : Store} {out : List Block} (h : Kept c s out)
    {index start : Nat} {piece : List UInt8} (hr : (index, start, piece.length) ∈ out) :
    (c.checkHashes = false ∧
      s.tryPieceCameIn c index start piece = .error (.failed corruptedOnDisk)) ∨
    ∃ ok s', s.tryPieceCameIn c index start piece = .ok (ok, s') ∧
      Kept c s' (out.erase (index, start, piece.length)) := by
  rcases Store.tryPieceCameIn_eq h.slots (h.out_lt _ hr) start piece with
    ⟨p, v, hhas, hv, hhash, heq⟩ | ⟨s₁, v, hmoved, hslots, hv, heq⟩
  · refine .inl ⟨?_, heq⟩
    by_contra hcheck
    exact hhash (h.verified hhas (h.checked (Bool.not_eq_false _ ▸ hcheck) p) hv)
  · exact .inr ⟨_, _, heq, (h.moved hmoved hslots).writeBlock hr hv⟩

theorem Kept.pieceCameIn [DecidableEq D] {s : Store} {out : List Block} (h : Kept c s out)
    (io : Option String) {index start : Nat} {piece : List UInt8}
    (hr : (index, start, piece.length) ∈ out) :
    (∃ f, f.Excused c ∧ s.pieceCameIn c io index start piece = .error f) ∨
    ∃ ok s', s.pieceCameIn c io index start piece = .ok (ok, s') ∧
      CameIn c s s' index ok ∧ Kept c s' (out.erase (index, start, piece.length)) := by
  cases io with
  | some e => exact .inl ⟨_, .inl ⟨e, rfl⟩, rfl⟩
  | none =>
    rcases h.tryPieceCameIn hr with ⟨hcheck, heq⟩ | ⟨ok, s', heq, hkept⟩
    · exact .inl ⟨_, .inr ⟨hcheck, .inl rfl⟩, heq⟩
    · exact .inr ⟨ok, s', heq, Store.tryPieceCameIn_fields h.slots (h.out_lt _ hr) heq, hkept⟩

/-! ## Giving pieces away -/

/-- Reading a piece changes nothing but what has been checked. -/
theorem Store.tryGetPiece_state [DecidableEq D] {s s' : Store} {index start len : Nat}
    {data : Option (List UInt8)} (heq : s.tryGetPiece c index start len = .ok (data, s')) :
    ∃ checked, s' = { s with waschecked := checked } := by
  rw [Store.tryGetPiece] at heq
  split at heq
  · cases heq
    exact ⟨_, rfl⟩
  · split at heq
    · cases heq
    · split at heq
      · cases heq
      · dsimp only at heq
        split at heq
        · cases heq
          exact ⟨_, rfl⟩
        · cases heq
          exact ⟨_, rfl⟩

theorem Store.getPiece_state [DecidableEq D] {s s' : Store} {io : Option String}
    {index start len : Nat} {data : Option (List UInt8)}
    (heq : s.getPiece c io index start len = .ok (data, s')) :
    ∃ checked, s' = { s with waschecked := checked } := by
  unfold Store.getPiece at heq
  split at heq
  · split at heq
    · cases heq
    · exact Store.tryGetPiece_state heq
  · exact Store.tryGetPiece_state heq

/-- What is given away is part of a piece whose hash is right. -/
theorem Kept.tryGetPiece [DecidableEq D] {s : Store} {out : List Block} (h : Kept c s out)
    {index : Nat} (hi : index < c.numPieces) (start len : Nat) :
    (c.checkHashes = false ∧ s.tryGetPiece c index start len = .error (.failed failedHashCheck)) ∨
    ∃ data s', s.tryGetPiece c index start len = .ok (data, s') ∧ Kept c s' out ∧
      ∀ bytes, data = some bytes → s.has index = true ∧ start + len ≤ c.pieceLen index ∧
        ∃ v, s.places index = some v ∧ c.hashes[index]? = some (c.sha (s.content c v index)) ∧
          bytes = ((s.content c v index).drop start).take len := by
  cases hhas : s.has index with
  | false =>
    refine .inr ⟨none, s, ?_, h, fun _ hnone => by cases hnone⟩
    rw [Store.tryGetPiece, if_pos hhas]
  | true =>
    obtain ⟨v, hv⟩ := h.has_placed index hhas
    by_cases hwrong : s.waschecked index = false ∧
        c.hashes[index]? ≠ some (c.sha (s.content c v index))
    · refine .inl ⟨?_, ?_⟩
      · by_contra hcheck
        have hchecked := h.checked (Bool.not_eq_false _ ▸ hcheck) index
        exact Bool.false_ne_true (hwrong.1.symm.trans hchecked)
      · simp only [Store.tryGetPiece, hhas, hv]
        exact (if_neg Bool.false_ne_true.symm).trans (if_pos hwrong)
    · have hright : c.hashes[index]? = some (c.sha (s.content c v index)) := by
        by_contra hne
        cases hcheck : s.waschecked index with
        | false => exact hwrong ⟨hcheck, hne⟩
        | true => exact hne (h.verified hhas hcheck hv)
      have hkept : Kept c { s with waschecked := update s.waschecked index true } out := by
        refine ⟨h.slots, h.has_placed, fun hall p => ?_, fun {p w} hp hcheck hw => ?_, h.out_lt,
          h.numactive, h.accounted, h.left, h.inactive, h.finished⟩
        · rcases eq_or_ne p index with rfl | hpi
          · exact update_self ..
          · exact (update_of_ne hpi ..).trans (h.checked hall p)
        · rcases eq_or_ne p index with rfl | hpi
          · obtain rfl : w = v := Option.some_inj.1 (hw.symm.trans hv)
            exact hright
          · exact h.verified hp ((update_of_ne hpi ..).symm.trans hcheck) hw
      by_cases hlong : c.pieceLen index < start + len
      · refine .inr ⟨none, _, ?_, hkept, fun _ hnone => by cases hnone⟩
        simp only [Store.tryGetPiece, hhas, hv]
        exact ((if_neg Bool.false_ne_true.symm).trans (if_neg hwrong)).trans (if_pos hlong)
      · have hle : start + len ≤ c.pieceLen index := by omega
        refine .inr ⟨some (s.read c (c.pieceSize * v + start) len), _, ?_, hkept, fun bytes hbytes =>
          ⟨rfl, hle, v, hv, hright, ?_⟩⟩
        · simp only [Store.tryGetPiece, hhas, hv]
          exact ((if_neg Bool.false_ne_true.symm).trans (if_neg hwrong)).trans (if_neg hlong)
        · cases hbytes
          exact s.read_content (h.slots.slot_lt hv) (Store.fits h.slots hv) hle

theorem Kept.getPiece [DecidableEq D] {s : Store} {out : List Block} (h : Kept c s out)
    (io : Option String) {index : Nat} (hi : index < c.numPieces) (start len : Nat) :
    (∃ f, f.Excused c ∧ s.getPiece c io index start len = .error f) ∨
    ∃ data s', s.getPiece c io index start len = .ok (data, s') ∧ Kept c s' out ∧
      ∀ bytes, data = some bytes → s.has index = true ∧ start + len ≤ c.pieceLen index ∧
        ∃ v, s.places index = some v ∧ c.hashes[index]? = some (c.sha (s.content c v index)) ∧
          bytes = ((s.content c v index).drop start).take len := by
  have htry := (h.tryGetPiece hi start len).imp_left fun hwrong =>
    (⟨_, .inr ⟨hwrong.1, .inr rfl⟩, hwrong.2⟩ :
      ∃ f, f.Excused c ∧ s.tryGetPiece c index start len = .error f)
  unfold Store.getPiece
  split
  · split
    · exact .inl ⟨_, .inl ⟨_, rfl⟩, rfl⟩
    · exact htry
  · exact htry

/-! ## The whole file -/

/-- When every piece is had and was checked, the file is put together from pieces with the
right hashes, in their order. -/
theorem Kept.verified_file {s : Store} {out : List Block} (h : Kept c s out)
    (hcheck : c.checkHashes = true) (hall : ∀ p < c.numPieces, s.has p = true) :
    ∃ pieces : List (List UInt8), pieces.map c.sha = c.hashes ∧
      pieces.flatten = s.disk.read 0 c.totalLength := by
  refine ⟨(List.range c.numPieces).map fun p => s.content c p p, ?_, ?_⟩
  · refine List.ext_getElem? fun p => ?_
    rcases Nat.lt_or_ge p c.numPieces with hp | hp
    · have hhome := h.slots.home_of_full (fun q hq => h.has_placed q (hall q hq)) hp
      rw [h.verified (hall p hp) (h.checked hcheck p) hhome]
      simp [hp]
    · rw [List.getElem?_eq_none (by simpa using hp), List.getElem?_eq_none hp]
  · rw [Store.flatten_content s (Nat.le_refl _), Setup.sum_pieceLen]

end Wubi.Bittorrent
