import Wubi.Bittorrent.Downloader
import Wubi.Core.Ensures

/-!
# Who is connected, and what he has

A peer comes to the downloader when it is connected, and goes when its connection is
closed. Nothing else that the downloader does changes who is there, and only the peer
itself changes what it has (`Fewer`).
-/
namespace Wubi.Bittorrent

variable {D : Type} {t : Torrent D}

namespace Downloader

def roll (s : Downloader) : List (Nat × (Nat → Bool)) := s.downloads.map fun d => (d.id, d.has)

/-- Some of the peers may be gone. -/
def Fewer (s s' : Downloader) : Prop := s'.roll.Sublist s.roll

/-- A call after which some of the peers may be gone. -/
abbrev Loses {α : Type} (s : Downloader) (x : Except Fault α) (P : α → Downloader) : Prop :=
  Ensures (fun _ => True) x fun a => s.Fewer (P a)

theorem Fewer.refl (s : Downloader) : s.Fewer s := List.Sublist.refl _

theorem Fewer.trans {s s' s'' : Downloader} (h : s.Fewer s') (h' : s'.Fewer s'') : s.Fewer s'' :=
  List.Sublist.trans h' h

theorem Fewer.ids {s s' : Downloader} (h : s.Fewer s') : s'.ids.Sublist s.ids := by
  have hids : ∀ s : Downloader, s.ids = s.roll.map Prod.fst := fun s => by
    rw [roll, List.map_map]
    rfl
  rw [hids, hids]
  exact List.Sublist.map Prod.fst h

theorem fewer_modify (s : Downloader) (id : Nat) {f : Download → Download}
    (hf : ∀ d, (f d).id = d.id ∧ (f d).has = d.has) : s.Fewer (s.modify id f) := by
  have heq : (s.modify id f).roll = s.roll := by
    rw [roll, modify, List.map_map, roll]
    refine List.map_congr_left fun d _ => ?_
    rw [Function.comp_apply]
    split
    · rw [(hf d).1, (hf d).2]
    · rfl
  rw [Fewer, heq]

theorem loses_foldlM {α : Type} {f : Downloader → α → Except Fault Downloader} (s : Downloader)
    (l : List α) (hf : ∀ (s : Downloader) a, s.Loses (f s a) fun s => s) : s.Loses (l.foldlM f s) fun s => s :=
  Ensures.foldlM (I := fun s' => s.Fewer s') (Fewer.refl s) fun a _ s' hs' =>
    (hf s' a).mono fun _ h => hs'.trans h

theorem fewer_foldl {α : Type} {f : Downloader → α → Downloader} (s : Downloader) (l : List α)
    (hf : ∀ (s : Downloader) a, s.Fewer (f s a)) : s.Fewer (l.foldl f s) :=
  foldl_inv (I := fun s' => s.Fewer s') (Fewer.refl s) fun a _ s' hs' => hs'.trans (hf s' a)

theorem fewer_ite {s s₁ s₂ : Downloader} {p : Prop} [Decidable p] (h₁ : s.Fewer s₁)
    (h₂ : s.Fewer s₂) : s.Fewer (if p then s₁ else s₂) := by
  split
  · exact h₁
  · exact h₂

/-! ## Asking -/

theorem fewer_fixDownloadEndgame (s : Downloader) (id : Nat) :
    s.Fewer (s.fixDownloadEndgame t id) := by
  rw [fixDownloadEndgame]
  split
  · exact Fewer.refl s
  · rename_i d _
    dsimp only
    split
    · exact fewer_modify s id fun _ => ⟨rfl, rfl⟩
    · split
      · exact fewer_ite (fewer_modify s id fun _ => ⟨rfl, rfl⟩) (Fewer.refl s)
      · refine Fewer.trans ?_ (fewer_foldl _ _ fun s b => Fewer.refl s)
        refine Fewer.trans ?_ (fewer_modify _ id fun _ => ⟨rfl, rfl⟩)
        exact fewer_ite (fewer_modify s id fun _ => ⟨rfl, rfl⟩) (Fewer.refl s)

theorem fewer_fixAll (s : Downloader) : s.Fewer (fixAll t s) :=
  fewer_foldl s s.ids fewer_fixDownloadEndgame

theorem loses_pick (s : Downloader) (d : Download) (indices : Option (List Nat)) :
    s.Loses (s.pick t d indices) Prod.snd := by
  cases indices with
  | none =>
    rw [pick]
    split
    · trivial
    · exact Fewer.refl s
  | some indices => exact Fewer.refl s

theorem loses_requestLoop (id : Nat) (indices : Option (List Nat)) (k : Nat) (s : Downloader)
    (lost : List Nat) : s.Loses (requestLoop t id indices k s lost) Prod.fst := by
  induction k generalizing s lost with
  | zero => exact Fewer.refl s
  | succ k ih =>
    rw [requestLoop]
    split
    · trivial
    · rename_i d _
      refine (loses_pick s d indices).bind fun r hr => ?_
      obtain ⟨interest, s₁⟩ := r
      cases interest with
      | none => exact hr
      | some i =>
        dsimp only at hr ⊢
        refine Ensures.bind (P := fun _ => True) ?_ fun r _ => ?_
        · cases s₁.store.newRequest t.toSetup i <;> trivial
        · refine (ih _ _).mono fun r hr' => hr.trans (Fewer.trans ?_ hr')
          refine Fewer.trans ?_ (fewer_modify _ id fun _ => ⟨rfl, rfl⟩)
          exact fewer_ite (Fewer.refl s₁) (Fewer.refl s₁)

theorem loses_loseInterest (lost : List Nat) (s : Downloader) (id : Nat) :
    s.Loses (loseInterest t lost s id) fun s => s := by
  rw [loseInterest]
  split
  · trivial
  · rename_i d _
    refine .ite (fun _ => Fewer.refl s) fun _ => .ite (fun _ => Fewer.refl s) fun _ =>
      .ite (fun _ => Fewer.refl s) fun _ => ?_
    refine (loses_pick s d none).bind fun r hr => ?_
    obtain ⟨interest, s₁⟩ := r
    cases interest with
    | none => exact Fewer.trans hr (fewer_modify s₁ id fun _ => ⟨rfl, rfl⟩)
    | some i => exact Fewer.trans hr (fewer_modify s₁ id fun _ => ⟨rfl, rfl⟩)

theorem fewer_stopInterest (s : Downloader) (id : Nat) : s.Fewer (s.stopInterest id) := by
  rw [stopInterest]
  split
  · exact Fewer.refl s
  · exact fewer_ite (fewer_modify s id fun _ => ⟨rfl, rfl⟩) (Fewer.refl s)

theorem loses_requestMore (s : Downloader) (id : Nat) (indices : Option (List Nat)) :
    s.Loses (s.requestMore t id indices) fun s => s := by
  rw [requestMore]
  split
  · trivial
  · refine .ite (fun _ => trivial) fun _ => .ite (fun _ => Fewer.refl s) fun _ =>
      .ite (fun _ => fewer_fixDownloadEndgame s id) fun _ => ?_
    refine (loses_requestLoop id indices _ s []).bind fun r hr => ?_
    obtain ⟨s₁, lost⟩ := r
    have hlose : s.Loses (loseInterests t lost (s₁.stopInterest id)) fun s => s := by
      have hstop := Fewer.trans hr (fewer_stopInterest s₁ id)
      rw [loseInterests]
      refine .ite (fun _ => hstop) fun _ => ?_
      exact (loses_foldlM _ _ (loses_loseInterest lost)).mono fun _ h => hstop.trans h
    refine hlose.bind fun s₂ hs₂ => ?_
    exact .ite (fun _ => hs₂.trans (fewer_fixAll (t := t) { s₂ with allRequests := _ })) fun _ => hs₂

theorem loses_requestAll (s : Downloader) (indices : List Nat) :
    s.Loses (s.requestAll t indices) fun s => s :=
  loses_foldlM { s with draws := s.draws + 1 } _ fun s id => loses_requestMore s id (some indices)

/-! ## Letting go -/

theorem fewer_showInterest (lost : List Nat) (s : Downloader) (id : Nat) :
    s.Fewer (showInterest lost s id) := by
  rw [showInterest]
  split
  · exact Fewer.refl s
  · exact fewer_ite (fewer_modify s id fun _ => ⟨rfl, rfl⟩) (Fewer.refl s)

theorem loses_letgo (s : Downloader) (id : Nat) (active : List Block) :
    s.Loses (s.letgo t id active) fun s => s := by
  have hmod := fewer_modify s id (f := fun d => { d with activeRequests := [] }) fun _ => ⟨rfl, rfl⟩
  rw [letgo]
  refine .ite (fun _ => hmod) fun _ => ?_
  refine Ensures.bind (P := fun _ => True) ?_ fun store _ => ?_
  · cases active.foldlM (fun store r => Store.requestLost store r.1 r.2.1 r.2.2) _ <;> trivial
  · refine (loses_requestAll { s.modify id _ with store := store } _).bind fun s₁ hs₁ => ?_
    exact (hmod.trans hs₁).trans (fewer_foldl s₁ _ fun s id => fewer_showInterest _ s id)

/-- The peer `id` may have more, and some of the peers may be gone. -/
structure FewerOthers (id : Nat) (s s' : Downloader) : Prop where
  ids : s'.ids.Sublist s.ids
  has : (s'.roll.filter fun e => e.1 != id).Sublist (s.roll.filter fun e => e.1 != id)

theorem Fewer.others {s s' : Downloader} (h : s.Fewer s') (id : Nat) : s.FewerOthers id s' :=
  ⟨h.ids, List.Sublist.filter _ h⟩

theorem FewerOthers.trans {id : Nat} {s s' s'' : Downloader} (h : s.FewerOthers id s')
    (h' : s'.FewerOthers id s'') : s.FewerOthers id s'' :=
  ⟨h'.ids.trans h.ids, h'.has.trans h.has⟩

theorem FewerOthers.of_mem {id : Nat} {s s' : Downloader} (h : s.FewerOthers id s')
    {d' : Download} (hd' : d' ∈ s'.downloads) (hne : d'.id ≠ id) :
    ∃ d ∈ s.downloads, d.id = d'.id ∧ d.has = d'.has := by
  have hmem : (d'.id, d'.has) ∈ s.roll.filter fun e => e.1 != id :=
    h.has.subset (List.mem_filter.2 ⟨List.mem_map_of_mem hd', by simpa using hne⟩)
  obtain ⟨d, hd, heq⟩ := List.mem_map.1 (List.mem_filter.1 hmem).1
  exact ⟨d, hd, congrArg Prod.fst heq, congrArg Prod.snd heq⟩

theorem others_modify (s : Downloader) (id : Nat) {f : Download → Download}
    (hf : ∀ d, (f d).id = d.id) : s.FewerOthers id (s.modify id f) := by
  have hids : (s.modify id f).ids = s.ids := by
    rw [ids, modify, List.map_map, ids]
    refine List.map_congr_left fun d _ => ?_
    rw [Function.comp_apply]
    split
    · exact hf d
    · rfl
  have hroll : ∀ l : List Download,
      ((l.map fun d => if d.id = id then f d else d).map fun d => (d.id, d.has)).filter
        (fun e => e.1 != id) = (l.map fun d => (d.id, d.has)).filter fun e => e.1 != id := by
    intro l
    induction l with
    | nil => rfl
    | cons d l ih =>
      simp only [List.map_cons, List.filter_cons, ih]
      by_cases hd : d.id = id
      · simp [hd, hf]
      · simp [hd]
  refine ⟨by rw [hids], ?_⟩
  rw [roll, modify, hroll, roll]

/-! ## What a peer does -/

theorem loses_lostHave (s : Downloader) (index : Nat) :
    s.Loses (lostHave t s index) fun s => s := by
  rw [lostHave]
  split
  · trivial
  · exact Fewer.refl s

theorem loses_gotHavePicker (s : Downloader) (index : Nat) :
    s.Loses (gotHavePicker t s index) fun s => s := by
  rw [gotHavePicker]
  split
  · trivial
  · exact Fewer.refl s

theorem loses_disconnected (s : Downloader) (id : Nat) :
    Ensures (fun _ => True) (disconnected t s id) fun s' => s.Fewer s' ∧ id ∉ s'.ids := by
  rw [disconnected]
  split
  · trivial
  · have hfilter : s.Fewer { s with downloads := s.downloads.filter fun d => d.id != id } :=
      List.Sublist.map _ List.filter_sublist
    have hgone : id ∉ ids { s with downloads := s.downloads.filter fun d => d.id != id } := by
      intro hmem
      obtain ⟨d, hd, hid⟩ := List.mem_map.1 hmem
      simpa [hid] using (List.mem_filter.1 hd).2
    refine (loses_foldlM _ _ loses_lostHave).bind fun s₁ hs₁ => ?_
    refine (loses_letgo s₁ id _).mono fun s₂ hs₂ => ⟨(hfilter.trans hs₁).trans hs₂, fun hmem => ?_⟩
    exact hgone ((hs₁.trans hs₂).ids.subset hmem)

theorem loses_gotChoke (s : Downloader) (id : Nat) : s.Loses (s.gotChoke t id) fun s => s := by
  rw [gotChoke]
  split
  · trivial
  · refine .ite (fun _ => Fewer.refl s) fun _ => ?_
    have hmod := fewer_modify s id (f := fun d => { d with choked := true }) fun _ => ⟨rfl, rfl⟩
    exact (loses_letgo _ id _).mono fun s' hs' => hmod.trans hs'

theorem loses_gotUnchoke (s : Downloader) (id : Nat) : s.Loses (s.gotUnchoke t id) fun s => s := by
  rw [gotUnchoke]
  split
  · trivial
  · have hmod := fewer_modify s id (f := fun d => { d with choked := false }) fun _ => ⟨rfl, rfl⟩
    refine .ite (fun _ => ?_) fun _ => Fewer.refl s
    exact .ite (fun _ => (loses_requestMore _ id none).mono fun s' hs' => hmod.trans hs')
      fun _ => hmod

/-- What is done once the peer is known to have more. -/
theorem others_gotHave (s : Downloader) (id index : Nat) :
    Ensures (fun _ => True) (s.gotHave t id index) (s.FewerOthers id) := by
  rw [gotHave]
  split
  · trivial
  · refine .ite (fun _ => (Fewer.refl s).others id) fun _ => ?_
    rename_i d _ _
    have hmod := others_modify s id (f := fun e => { e with has := Function.update d.has index true })
      fun _ => rfl
    refine (loses_gotHavePicker _ index).bind fun s₁ hs₁ => ?_
    have hmod' := hmod.trans (hs₁.others id)
    refine .ite (fun _ => ?_) fun _ => .ite (fun _ => ?_) fun _ => .ite (fun _ => ?_) fun _ => hmod'
    · exact (loses_disconnected s₁ id).mono fun s₂ hs₂ => hmod'.trans (hs₂.1.others id)
    · exact hmod'.trans ((fewer_fixDownloadEndgame s₁ id).others id)
    · refine .ite (fun _ => ?_) fun _ => .ite (fun _ => hmod') fun _ => ?_
      · exact (loses_requestMore s₁ id _).mono fun s₂ hs₂ => hmod'.trans (hs₂.others id)
      · have htold := hmod'.trans (others_modify s₁ id (f := fun d => { d with interested := true })
          fun _ => rfl)
        exact ⟨htold.ids, htold.has⟩

theorem others_gotHaveBitfield (s : Downloader) (id : Nat) (has : Nat → Bool) :
    Ensures (fun _ => True) (s.gotHaveBitfield t id has) (s.FewerOthers id) := by
  rw [gotHaveBitfield]
  split
  · trivial
  · have hmod := others_modify s id (f := fun d => { d with has := has }) fun _ => rfl
    refine (loses_foldlM _ _ loses_gotHavePicker).bind fun s₁ hs₁ => ?_
    have hmod' := hmod.trans (hs₁.others id)
    have htold := hmod'.trans (others_modify s₁ id (f := fun d => { d with interested := true })
      fun _ => rfl)
    refine .ite (fun _ => ?_) fun _ => .ite (fun _ => ⟨htold.ids, htold.has⟩) fun _ =>
      .ite (fun _ => ⟨htold.ids, htold.has⟩) fun _ => hmod'
    exact (loses_disconnected s₁ id).mono fun s₂ hs₂ => hmod'.trans (hs₂.1.others id)

/-! ## A block comes in -/

theorem loses_requestBroken (index k : Nat) (s : Downloader) :
    s.Loses (requestBroken t index k s) fun s => s := by
  induction k generalizing s with
  | zero => exact Fewer.refl s
  | succ k ih =>
    rw [requestBroken]
    refine .ite (fun _ => ?_) fun _ => Fewer.refl s
    refine Ensures.bind (P := fun _ => True) ?_ fun r _ => ?_
    · cases s.store.newRequest t.toSetup index <;> trivial
    · exact ih { s with store := r.2, allRequests := _ }

theorem fewer_cancelOther (self : Nat) (r : Block) (s : Downloader) (id : Nat) :
    s.Fewer (cancelOther t self r s id) := by
  rw [cancelOther]
  split
  · exact Fewer.refl s
  · refine fewer_ite (Fewer.refl s) (fewer_ite (fewer_fixDownloadEndgame s id)
      (fewer_ite ?_ (Fewer.refl s)))
    have hmod := fewer_modify s id
      (f := fun d => { d with activeRequests := d.activeRequests.erase r }) fun _ => ⟨rfl, rfl⟩
    exact hmod.trans (fewer_fixDownloadEndgame (t := t) (Downloader.send _ id _) id)

theorem loses_completePiece (s : Downloader) (index : Nat) :
    s.Loses (completePiece s index) fun s => s := by
  rw [completePiece]
  refine .ite (fun _ => ?_) fun _ => Fewer.refl s
  split
  · trivial
  · exact Fewer.refl s

theorem loses_closeSeeds (s : Downloader) : s.Loses (closeSeeds t s) fun s => s := by
  rw [closeSeeds]
  refine .ite (fun _ => ?_) fun _ => Fewer.refl s
  exact loses_foldlM s _ fun s id => (loses_disconnected s id).mono fun _ h => h.1

theorem loses_pieceBroken (s : Downloader) (index : Nat) :
    s.Loses (pieceBroken t s index) Prod.snd := by
  rw [pieceBroken]
  refine .ite (fun _ => ?_) fun _ => ?_
  · exact (loses_requestBroken index _ s).bind fun s₁ hs₁ => hs₁.trans (fewer_fixAll s₁)
  · split
    · trivial
    · exact (loses_requestAll { s with picker := _ } _).bind fun s₁ hs₁ => hs₁

theorem loses_pieceWritten (s : Downloader) (id : Nat) (r : Block) :
    s.Loses (pieceWritten t s id r) Prod.snd := by
  rw [pieceWritten]
  refine (loses_completePiece s r.1).bind fun s₁ hs₁ => ?_
  have hcancel := hs₁.trans (fewer_ite (p := s₁.store.endgame = true)
    (fewer_foldl s₁ s₁.ids (fewer_cancelOther (t := t) id r)) (Fewer.refl s₁))
  refine (loses_requestMore _ id none).bind fun s₂ hs₂ => ?_
  refine (loses_closeSeeds s₂).bind fun s₃ hs₃ => ?_
  exact (hcancel.trans hs₂).trans hs₃

theorem loses_writePiece [DecidableEq D] (s : Downloader) (io : Option String)
    (id index start : Nat) (piece : List UInt8) :
    s.Loses (s.writePiece t io id index start piece) Prod.snd := by
  rw [writePiece]
  refine Ensures.bind (P := fun _ => True) ?_ fun r _ => ?_
  · cases s.store.pieceCameIn t.toSetup io index start piece <;> trivial
  · exact .ite (fun _ => loses_pieceBroken { s with store := r.2 } index)
      fun _ => loses_pieceWritten { s with store := r.2 } id _

theorem loses_gotPiece [DecidableEq D] (s : Downloader) (io : Option String)
    (id index start : Nat) (piece : List UInt8) :
    s.Loses (s.gotPiece t io id index start piece) Prod.snd := by
  rw [gotPiece]
  split
  · trivial
  · refine .ite (fun _ => Fewer.refl s) fun _ => ?_
    split
    · trivial
    · rename_i s₁ hoff
      have hmod := fewer_modify s id
        (f := fun d => { d with activeRequests := d.activeRequests.erase (index, start, piece.length) })
        fun _ => ⟨rfl, rfl⟩
      have hs₁ : s.Fewer s₁ := by
        rw [takeOff] at hoff
        split at hoff
        · split at hoff
          · cases hoff
            exact hmod
          · cases hoff
        · cases hoff
          exact hmod
      exact (loses_writePiece s₁ io id index start piece).mono fun _ hs₂ => hs₁.trans hs₂

end Downloader

end Wubi.Bittorrent
