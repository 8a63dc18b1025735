import Wubi.Bittorrent.Client

/-!
# Downloads from honest peers

`truth` is the file as it should be: its pieces have the hashes that are asked for.
If every block that comes in is a part of it, a piece is right when its last block
is in. `Filled` says why: a block of a missing piece is on its list, or on its way,
or it came in and lies where it belongs.
-/
namespace Wubi.Bittorrent

open Function

variable {D : Type} {c : Setup D} {truth : Medium UInt8}

/-- `came` are the blocks that have come in. -/
structure Filled (c : Setup D) (truth : Medium UInt8) (s : Store) (out came : List Block) :
    Prop where
  flunked : s.flunked = 0
  came_lt : ∀ r ∈ came, r.1 < c.numPieces
  parted : ∀ p < c.numPieces, s.has p = false →
    (pending c s p ++ (blocksOf out p ++ blocksOf came p)).Perm (c.blocks p)
  had : ∀ p < c.numPieces, s.has p = true → (blocksOf came p).Subperm (c.blocks p)
  bytes : ∀ {p b}, s.has p = false → b ∈ blocksOf came p → ∃ v, s.places p = some v ∧
    ∀ o, b.1 ≤ o → o < b.1 + b.2 → s.byte c v o = truth (c.pieceSize * p + o)

/-- `Filled` after a change of the requests for one piece. -/
theorem Filled.of_requests {s s' : Store} {out out' came : List Block}
    (h : Filled c truth s out came) {i : Nat}
    (hflunked : s'.flunked = s.flunked) (hhas : s'.has = s.has) (hplaces : s'.places = s.places)
    (hdisk : s'.disk = s.disk) (hpending : ∀ p, p ≠ i → pending c s' p = pending c s p)
    (hother : ∀ p, p ≠ i → (blocksOf out' p).Perm (blocksOf out p))
    (hself : (pending c s' i ++ blocksOf out' i).Perm (pending c s i ++ blocksOf out i)) :
    Filled c truth s' out' came := by
  refine ⟨hflunked.trans h.flunked, h.came_lt, fun p hp hmiss => ?_, fun p hp hgot => ?_,
    fun {p b} hmiss hb => ?_⟩
  · rw [hhas] at hmiss
    refine List.Perm.trans ?_ (h.parted p hp hmiss)
    rw [← List.append_assoc, ← List.append_assoc]
    rcases eq_or_ne p i with rfl | hpi
    · exact hself.append_right _
    · rw [hpending p hpi]
      exact ((hother p hpi).append_left _).append_right _
  · rw [hhas] at hgot
    exact h.had p hp hgot
  · rw [hhas] at hmiss
    obtain ⟨v, hv, hbytes⟩ := h.bytes hmiss hb
    refine ⟨v, by rw [hplaces, hv], fun o hlo hhi => ?_⟩
    rw [Store.byte, hdisk]
    exact hbytes o hlo hhi

theorem pending_update {s s' : Store} {i : Nat} {r : Requests}
    (hreq : s'.inactiveRequests = update s.inactiveRequests i r) {p : Nat} (hpi : p ≠ i) :
    pending c s' p = pending c s p := by
  rw [pending, pending, hreq, update_of_ne hpi]

/-- `Filled` when a piece is had. -/
theorem Filled.complete {s s' : Store} {out came : List Block} (h : Filled c truth s out came)
    {i : Nat} (hflunked : s'.flunked = s.flunked) (hhas : s'.has = update s.has i true)
    (hreq : s'.inactiveRequests = update s.inactiveRequests i .none)
    (hplaces : s'.places = s.places) (hdisk : s'.disk = s.disk)
    (hall : (blocksOf came i).Subperm (c.blocks i)) : Filled c truth s' out came := by
  have hother : ∀ {p}, s'.has p = false → p ≠ i ∧ s.has p = false := by
    intro p hp
    rw [hhas] at hp
    rcases eq_or_ne p i with rfl | hpi
    · rw [update_self] at hp
      cases hp
    · rw [update_of_ne hpi] at hp
      exact ⟨hpi, hp⟩
  refine ⟨hflunked.trans h.flunked, h.came_lt, fun p hp hmiss => ?_, fun p hp hgot => ?_,
    fun {p b} hmiss hb => ?_⟩
  · obtain ⟨hpi, hmiss⟩ := hother hmiss
    rw [pending_update hreq hpi]
    exact h.parted p hp hmiss
  · rcases eq_or_ne p i with rfl | hpi
    · exact hall
    · rw [hhas, update_of_ne hpi] at hgot
      exact h.had p hp hgot
  · obtain ⟨v, hv, hbytes⟩ := h.bytes (hother hmiss).2 hb
    refine ⟨v, by rw [hplaces, hv], fun o hlo hhi => ?_⟩
    rw [Store.byte, hdisk]
    exact hbytes o hlo hhi

theorem Filled.newRequest {s s' : Store} {out came : List Block} (h : Filled c truth s out came)
    {index : Nat} {b : Nat × Nat} (hi : index < c.numPieces)
    (hwant : s.doIHaveRequests index = true) (heq : s.newRequest c index = .ok (b, s')) :
    Filled c truth s' ((index, b) :: out) came := by
  obtain ⟨b', hb, hmin⟩ := Store.exists_minBlock ((wants_iff hi).1 hwant)
  cases (Store.newRequest_eq hmin).symm.trans heq
  refine h.of_requests (i := index) rfl rfl rfl rfl (fun p => pending_update rfl)
    (fun p hpi => by rw [blocksOf_cons_of_ne hpi.symm]) ?_
  rw [blocksOf_cons_self]
  have hnow : ∀ s' : Store, s'.inactiveRequests index = .list ((pending c s index).erase b) →
      pending c s' index = (pending c s index).erase b := fun s' hs' => by rw [pending, hs']
  rw [hnow _ (update_self ..)]
  exact List.perm_middle.trans ((List.perm_cons_erase hb).symm.append_right _)

theorem Filled.requestLost {s s' : Store} {out came : List Block} (h : Filled c truth s out came)
    {index start len : Nat} (hr : (index, start, len) ∈ out)
    (heq : s.requestLost index start len = .ok s') :
    Filled c truth s' (out.erase (index, start, len)) came := by
  cases hreq : s.inactiveRequests index with
  | one => simp only [Store.requestLost, hreq] at heq; cases heq
  | none => simp only [Store.requestLost, hreq] at heq; cases heq
  | list l =>
    simp only [Store.requestLost, hreq] at heq
    cases heq
    refine h.of_requests (i := index) rfl rfl rfl rfl (fun p => pending_update rfl)
      (fun p hpi => blocksOf_erase_of_ne hpi.symm hr) ?_
    have hold : pending c s index = l := by rw [pending, hreq]
    have hnow : ∀ s' : Store, s'.inactiveRequests index = .list (l ++ [(start, len)]) →
        pending c s' index = l ++ [(start, len)] := fun s' hs' => by rw [pending, hs']
    rw [hnow _ (update_self ..), hold, List.append_assoc]
    exact (blocksOf_erase_self hr).append_left l

theorem Filled.getPiece [DecidableEq D] {s s' : Store} {out came : List Block}
    (h : Filled c truth s out came) {io : Option String} {index start len : Nat}
    {data : Option (List UInt8)} (heq : s.getPiece c io index start len = .ok (data, s')) :
    Filled c truth s' out came := by
  obtain ⟨checked, rfl⟩ := Store.getPiece_state heq
  exact ⟨h.flunked, h.came_lt, h.parted, h.had, h.bytes⟩

/-! ## A block comes in -/

theorem Filled.moved {s s' : Store} {out came : List Block} (hkept : Kept c s out)
    (h : Filled c truth s out came) (hmoved : Store.Moved c s s') :
    Filled c truth s' out came := by
  have hflunked : s'.flunked = s.flunked := by rw [hmoved.rest]
  have hhas : s'.has = s.has := by rw [hmoved.rest]
  have hpending : pending c s' = pending c s := by
    funext p
    rw [pending, pending, hmoved.rest]
  refine ⟨hflunked.trans h.flunked, h.came_lt, fun p hp hmiss => ?_, fun p hp hgot => ?_,
    fun {p b} hmiss hb => ?_⟩
  · rw [hhas] at hmiss
    rw [hpending]
    exact h.parted p hp hmiss
  · rw [hhas] at hgot
    exact h.had p hp hgot
  · rw [hhas] at hmiss
    obtain ⟨v, hv, hbytes⟩ := h.bytes hmiss hb
    obtain ⟨v', hv', hsame⟩ := hmoved.bytes hv
    refine ⟨v', hv', fun o hlo hhi => ?_⟩
    have hp := hkept.slots.item_lt hv
    have hbound := Setup.blocks_bounds hp ((h.parted p hp hmiss).subset
      (List.mem_append_right _ (List.mem_append_right _ hb)))
    rw [hsame o (by omega)]
    exact hbytes o hlo hhi

/-- The blocks of a missing piece that have come in are where they belong, the new one
among them. -/
theorem Filled.write {s : Store} {out came : List Block} (hkept : Kept c s out)
    (h : Filled c truth s out came) {index v start : Nat} {piece : List UInt8}
    (hr : (index, start, piece.length) ∈ out) (hv : s.places index = some v)
    (hmiss : s.has index = false)
    (hpiece : piece = truth.read (c.pieceSize * index + start) piece.length) :
    Filled c truth (s.write c (v * c.pieceSize + start) piece)
      (out.erase (index, start, piece.length)) ((index, start, piece.length) :: came) := by
  have hi : index < c.numPieces := hkept.out_lt _ hr
  have hbounds := hkept.out_bounds hr
  have hlen := Setup.pieceLen_le (c := c) hi
  have hfit := Store.fits hkept.slots hv
  have hvn := hkept.slots.slot_lt hv
  have hparted := h.parted index hi hmiss
  have hself := blocksOf_erase_self hr
  have hcame : ∀ p, p ≠ index →
      blocksOf ((index, start, piece.length) :: came) p = blocksOf came p :=
    fun p hpi => blocksOf_cons_of_ne hpi.symm _ _
  rw [Nat.mul_comm]
  refine ⟨h.flunked, fun r hr' => ?_, fun p hp hmiss' => ?_, fun p hp hgot => ?_,
    fun {p b} hmiss' hb => ?_⟩
  · obtain rfl | hr' := List.mem_cons.1 hr'
    · exact hi
    · exact h.came_lt r hr'
  · refine List.Perm.trans (List.Perm.append_left _ ?_) (h.parted p hp hmiss')
    rcases eq_or_ne p index with rfl | hpi
    · rw [blocksOf_cons_self]
      exact List.perm_middle.trans (hself.append_right _)
    · rw [hcame p hpi]
      exact (blocksOf_erase_of_ne hpi.symm hr).append_right _
  · have hpi : p ≠ index := by
      rintro rfl
      exact Bool.false_ne_true (hmiss.symm.trans hgot)
    rw [hcame p hpi]
    exact h.had p hp hgot
  · rcases eq_or_ne p index with rfl | hpi
    · refine ⟨v, hv, fun o hlo hhi => ?_⟩
      rw [blocksOf_cons_self] at hb
      obtain rfl | hb := List.mem_cons.1 hb
      · obtain ⟨i, rfl⟩ := Nat.exists_eq_add_of_le hlo
        have hin : i < piece.length := by dsimp only at hhi; omega
        dsimp only at hhi ⊢
        rw [Store.byte_write_self s start hvn hin (by omega), List.getElem_of_eq hpiece]
        simp [Medium.read, Nat.add_assoc]
      · -- another block: they do not overlap
        obtain ⟨w, hw, hbytes⟩ := h.bytes hmiss hb
        obtain rfl : v = w := Option.some_inj.1 (hv.symm.trans hw)
        have hmem := List.mem_append_right (pending c s p) (List.mem_append_right (blocksOf out p) hb)
        have hnew := List.mem_append_right (pending c s p)
          (List.mem_append_left (blocksOf came p) (mem_blocksOf.2 hr))
        have hnodup := (nodup_of_subperm hi hparted.subperm).of_append_right
        have hne : b ≠ (start, piece.length) := fun heq =>
          (List.nodup_append.1 hnodup).2.2 _ (mem_blocksOf.2 hr) _ hb heq.symm
        rw [Store.byte_write_of_before]
        · exact hbytes o hlo hhi
        · have hap := Setup.blocks_apart hi (hparted.subset hmem) (hparted.subset hnew) hne
          dsimp only at hap
          omega
    · rw [hcame p hpi] at hb
      obtain ⟨w, hw, hbytes⟩ := h.bytes hmiss' hb
      refine ⟨w, hw, fun o hlo hhi => ?_⟩
      have hp := hkept.slots.item_lt hw
      have hbound := Setup.blocks_bounds hp ((h.parted p hp hmiss').subset
        (List.mem_append_right _ (List.mem_append_right _ hb)))
      have hple := Setup.pieceLen_le (c := c) hp
      have hwv : w ≠ v := fun heq => hpi (hkept.slots.inj hw (heq ▸ hv))
      rw [Store.byte_write_of_ne s start hwv (by omega) (by omega)]
      exact hbytes o hlo hhi

/-- A piece whose blocks have all come in is right. -/
theorem Filled.content_eq {s : Store} {out came : List Block} (hslots : Store.InSlots c s)
    (h : Filled c truth s out came) {index v : Nat} (hi : index < c.numPieces)
    (hv : s.places index = some v) (hmiss : s.has index = false)
    (hpending : pending c s index = []) (hdone : blocksOf out index = []) :
    s.content c v index = truth.read (c.pieceSize * index) (c.pieceLen index) := by
  have hparted := h.parted index hi hmiss
  rw [hpending, hdone, List.nil_append, List.nil_append] at hparted
  rw [Store.content_eq s (hslots.slot_lt hv) (Store.fits hslots hv)]
  refine List.map_congr_left fun o ho => ?_
  obtain ⟨b, hb, hlo, hhi⟩ := Setup.blocksFrom_cover (c := c) (c.pieceLen index) 0
    (Nat.zero_le o) (List.mem_range.1 ho)
  rw [← Setup.blocks_eq hi] at hb
  obtain ⟨w, hw, hbytes⟩ := h.bytes hmiss (hparted.mem_iff.2 hb)
  obtain rfl : v = w := Option.some_inj.1 (hv.symm.trans hw)
  exact hbytes o hlo hhi

theorem Filled.came_nodup {s : Store} {out came : List Block} (h : Filled c truth s out came) :
    came.Nodup := by
  refine nodup_of_blocksOf fun r hr => ?_
  have hp := h.came_lt r hr
  cases hhas : s.has r.1 with
  | true => exact nodup_of_subperm hp (h.had r.1 hp hhas)
  | false =>
    have hnodup := nodup_of_subperm hp (h.parted r.1 hp hhas).subperm
    exact hnodup.of_append_right.of_append_right

variable [DecidableEq D]

theorem Filled.writeBlock {s : Store} {out came : List Block} (hkept : Kept c s out)
    (h : Filled c truth s out came)
    (hright : ∀ p < c.numPieces,
      c.hashes[p]? = some (c.sha (truth.read (c.pieceSize * p) (c.pieceLen p))))
    {index v start : Nat} {piece : List UInt8} (hr : (index, start, piece.length) ∈ out)
    (hv : s.places index = some v)
    (hpiece : piece = truth.read (c.pieceSize * index + start) piece.length) :
    Filled c truth (s.writeBlock c index v start piece).2
      (out.erase (index, start, piece.length)) ((index, start, piece.length) :: came) := by
  have hi : index < c.numPieces := hkept.out_lt _ hr
  have hbounds := hkept.out_bounds hr
  have hlen := Setup.pieceLen_le (c := c) hi
  have hmiss : s.has index = false := hkept.has_of_out hr
  have hwritten := h.write hkept hr hv hmiss hpiece
  have hstill := hkept.write hv hmiss start piece (by omega)
  unfold Store.writeBlock
  dsimp only
  split
  · rename_i hlast
    obtain ⟨hempty, hzero⟩ := hlast
    have hpending : pending c s index = [] := by
      by_contra hne
      exact Bool.false_ne_true (hempty.symm.trans ((wants_iff hi).2 hne))
    have hdone : blocksOf (out.erase (index, start, piece.length)) index = [] := by
      have hcount : s.numactive index - 1 = 0 := (update_self ..).symm.trans hzero
      rw [hkept.numactive index hi, ← (blocksOf_erase_self hr).length_eq, List.length_cons]
        at hcount
      exact List.eq_nil_of_length_eq_zero (by omega)
    have hcontent := hwritten.content_eq hstill.slots hi hv hmiss hpending hdone
    have hhash := hright index hi
    rw [← hcontent] at hhash
    have hall := hwritten.parted index hi hmiss
    rw [show pending c (s.write c _ piece) index = [] from hpending, hdone] at hall
    split
    · exact hwritten.complete rfl rfl rfl rfl rfl hall.subperm
    · rename_i hwrong
      exact absurd hhash hwrong
  · exact ⟨hwritten.flunked, hwritten.came_lt, hwritten.parted, hwritten.had, hwritten.bytes⟩

/-! ## Whole runs -/

/-- What comes in is what should. -/
def Call.Honest (c : Setup D) (truth : Medium UInt8) : Call → Prop
  | .pieceCameIn _ index start piece =>
    piece = truth.read (c.pieceSize * index + start) piece.length
  | _ => True

/-- The block that has come in. -/
def Call.came : Call → Option Block
  | .pieceCameIn _ index start piece => some (index, start, piece.length)
  | _ => none

def Client.Filled (c : Setup D) (truth : Medium UInt8) (came : List Block) : Client → Prop
  | .running s out => Bittorrent.Filled c truth s out came
  | .down _ => True

theorem Client.Filled.step {st st' : Client} {l : Call} {came : List Block}
    (hright : ∀ p < c.numPieces,
      c.hashes[p]? = some (c.sha (truth.read (c.pieceSize * p) (c.pieceLen p))))
    (hok : Client.Ok c st) (h : Client.Filled c truth came st) (hst : Client.Step c st l st')
    (hhonest : l.Honest c truth) : Client.Filled c truth (l.came.toList ++ came) st' := by
  obtain @⟨s, out, l, hallowed⟩ := hst
  replace hok : Kept c s out := hok
  replace h : Bittorrent.Filled c truth s out came := h
  cases l with
  | newRequest index =>
    obtain ⟨b, s', heq, -⟩ := hok.newRequest hallowed.1 hallowed.2
    rw [Call.result, heq]
    exact h.newRequest hallowed.1 hallowed.2 heq
  | pieceCameIn io index start piece =>
    cases io with
    | some e => trivial
    | none =>
      rcases Store.tryPieceCameIn_eq hok.slots (hok.out_lt _ hallowed) start piece with
        ⟨-, -, -, -, -, heq⟩ | ⟨s₁, v, hmoved, hslots, hv, heq⟩
      · rw [Call.result, Store.pieceCameIn, heq]
        trivial
      · rw [Call.result, Store.pieceCameIn, heq]
        exact (h.moved hok hmoved).writeBlock (hok.moved hmoved hslots) hright hallowed hv hhonest
  | requestLost index start length =>
    obtain ⟨s', heq, -⟩ := hok.requestLost hallowed
    rw [Call.result, heq]
    exact h.requestLost hallowed heq
  | getPiece io index start length =>
    rcases hok.getPiece io hallowed start length with ⟨f, -, heq⟩ | ⟨data, s', heq, -, -⟩
    · rw [Call.result, heq]
      trivial
    · rw [Call.result, heq]
      exact h.getPiece heq

theorem filled_start (disk : Medium UInt8) : Filled c truth (Store.start c disk) [] [] := by
  obtain ⟨hflunked, -, hreq⟩ := Store.start_requests (c := c) disk
  refine ⟨hflunked, fun r hr => absurd hr List.not_mem_nil, fun p _ hmiss => ?_,
    fun p _ _ => List.nil_subperm, fun _ hb => absurd hb List.not_mem_nil⟩
  rw [pending, hreq, hmiss]
  simp

theorem filled_of_run {disk : Medium UInt8} {st st' : Client} {ls : List Call}
    {came : List Block}
    (hright : ∀ p < c.numPieces,
      c.hashes[p]? = some (c.sha (truth.read (c.pieceSize * p) (c.pieceLen p))))
    (hrun : (download c disk).Run st ls st') (hok : Client.Ok c st)
    (h : Client.Filled c truth came st) (hhonest : ∀ l ∈ ls, l.Honest c truth) :
    Client.Filled c truth ((ls.filterMap Call.came).reverse ++ came) st' := by
  induction hrun generalizing came with
  | nil => exact h
  | @cons _ _ _ l ls hst _ ih =>
    have hstep := h.step hright hok hst (hhonest l List.mem_cons_self)
    have hrest := ih (hok.step hst) hstep fun l' hl' => hhonest l' (List.mem_cons_of_mem l hl')
    cases hcame : l.came with
    | none =>
      rw [List.filterMap_cons_none hcame]
      rw [hcame] at hrest
      exact hrest
    | some b =>
      rw [List.filterMap_cons_some hcame, List.reverse_cons, List.append_assoc]
      rw [hcame] at hrest
      exact hrest

/-- If every block that comes in is right, no piece is thrown away, and no block comes in
twice: what was given up and asked for again had not come in. -/
theorem honest_download {disk : Medium UInt8} {s : Store} {out : List Block} {ls : List Call}
    (hright : ∀ p < c.numPieces,
      c.hashes[p]? = some (c.sha (truth.read (c.pieceSize * p) (c.pieceLen p))))
    (hrun : (download c disk).Run (.running (Store.start c disk) []) ls (.running s out))
    (hhonest : ∀ l ∈ ls, l.Honest c truth) :
    s.flunked = 0 ∧ (ls.filterMap Call.came).Nodup := by
  have hfilled : Filled c truth s out ((ls.filterMap Call.came).reverse ++ []) :=
    filled_of_run hright hrun (Store.kept_start disk) (filled_start disk) hhonest
  rw [List.append_nil] at hfilled
  exact ⟨hfilled.flunked, List.nodup_reverse.1 hfilled.came_nodup⟩

/-- The piece `abc` is asked for and comes in. -/
theorem honest_download_abc : ∃ s : Store, ∃ b : Nat × Nat, s.flunked = 0 ∧
    ([Call.newRequest 0, .pieceCameIn none 0 b.1 (abcd.read b.1 b.2)].filterMap
      Call.came).Nodup := by
  let c := twoPieces fun _ => false
  have hkept := Store.kept_start (c := c) abcd
  have hwant : (Store.start c abcd).doIHaveRequests 0 = true := rfl
  obtain ⟨b, s₁, hask, hkept₁⟩ := hkept.newRequest (by decide) hwant
  have hlen : (abcd.read b.1 b.2).length = b.2 := abcd.length_read _ _
  have hmem : (0, b.1, (abcd.read b.1 b.2).length) ∈ [(0, b)] := by simp [hlen]
  obtain ⟨hcheck, -⟩ | ⟨ok, s₂, hcame, -⟩ := hkept₁.tryPieceCameIn hmem
  · cases hcheck
  have hfirst := Client.Step.call (show (Call.newRequest 0).Allowed c (Store.start c abcd) [] from
    ⟨by decide, hwant⟩)
  rw [Call.result, hask] at hfirst
  have hsecond := Client.Step.call
    (show (Call.pieceCameIn none 0 b.1 (abcd.read b.1 b.2)).Allowed c s₁ [(0, b)] from hmem)
  rw [Call.result, Store.pieceCameIn, hcame] at hsecond
  have hright : ∀ p < c.numPieces,
      c.hashes[p]? = some (c.sha (abcd.read (c.pieceSize * p) (c.pieceLen p))) := by
    intro p hp
    obtain rfl | rfl : p = 0 ∨ p = 1 := Nat.le_one_iff_eq_zero_or_eq_one.1 (Nat.le_of_lt_succ hp)
    · rfl
    · rfl
  refine ⟨s₂, b, honest_download hright (.cons hfirst (.cons hsecond (.nil _))) fun l hl => ?_⟩
  simp only [List.mem_cons, List.not_mem_nil, or_false] at hl
  obtain rfl | rfl := hl
  · trivial
  · change abcd.read b.1 b.2 = abcd.read (3 * 0 + b.1) (abcd.read b.1 b.2).length
    rw [hlen, Nat.mul_zero, Nat.zero_add]

end Wubi.Bittorrent
