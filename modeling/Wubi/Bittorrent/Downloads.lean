import Wubi.Bittorrent.Downloader
import Wubi.Core.Ensures

/-!
# What the downloads have asked for

`Shape` is what holds of the downloads and the picker at any time. `Asking` and
`Ending` say how the requests of the peers make up the blocks that are on their way,
before and in the endgame; `Sound` is the one or the other.

Each function has one lemma: what it is called with, and that it ends with `Sound`
and the peers as they were (`roster`).
-/
namespace Wubi.Bittorrent

open Function

variable {D : Type} {t : Torrent D}

structure Download.Ok (t : Torrent D) (d : Download) : Prop where
  choked : d.choked = true → d.activeRequests = []
  interested : d.activeRequests ≠ [] → d.interested = true
  backlog : d.activeRequests.length ≤ t.backlog
  has : ∀ r ∈ d.activeRequests, d.has r.1 = true
  nodup : d.activeRequests.Nodup
  has_lt : ∀ p, d.has p = true → p < t.numPieces

/-- How many peers have the piece. -/
def count (ds : List Download) (p : Nat) : Nat := ds.countP fun d => d.has p

/-- The blocks that the peers have been asked for. -/
def actives (ds : List Download) : List Block := ds.flatMap Download.activeRequests

/-- What a peer has said of itself. -/
def roster (ds : List Download) : List (Nat × Bool × (Nat → Bool)) :=
  ds.map fun d => (d.id, d.choked, d.has)

structure Shape (t : Torrent D) (store : Store) (picker : Picker) (ds : List Download) : Prop where
  ids : (ds.map Download.id).Nodup
  ok : ∀ d ∈ ds, d.Ok t
  sorted : picker.Sorted t.numPieces (count ds)
  complete : ∀ p < t.numPieces, picker.numinterests p = none ↔ store.has p = true
  few : ds.length < 2 ^ 30

theorem Shape.store {store store' : Store} {picker : Picker} {ds : List Download}
    (h : Shape t store picker ds) (hhas : store'.has = store.has) : Shape t store' picker ds :=
  ⟨h.ids, h.ok, h.sorted, fun p hp => by rw [hhas]; exact h.complete p hp, h.few⟩

/-! ## One download among the others -/

theorem get_of_mem {s : Downloader} {id : Nat} (h : id ∈ s.ids) : ∃ d, s.get id = some d := by
  obtain ⟨d, hd, rfl⟩ := List.mem_map.1 h
  have hsome : (s.get d.id).isSome := by
    rw [Downloader.get, List.find?_isSome]
    exact ⟨d, hd, by simp⟩
  exact Option.isSome_iff_exists.1 hsome

theorem mem_of_get {s : Downloader} {id : Nat} {d : Download} (h : s.get id = some d) :
    d ∈ s.downloads ∧ d.id = id := by
  refine ⟨List.mem_of_find?_eq_some h, ?_⟩
  simpa using List.find?_some h

theorem ids_of_get {s : Downloader} {id : Nat} {d : Download} (h : s.get id = some d) :
    id ∈ s.ids := List.mem_map.2 ⟨d, mem_of_get h⟩

theorem modify_split {s : Downloader} {id : Nat} {d : Download}
    (hids : (s.downloads.map Download.id).Nodup) (h : s.get id = some d) :
    ∃ l₁ l₂, s.downloads = l₁ ++ d :: l₂ ∧
      ∀ f, (s.modify id f).downloads = l₁ ++ f d :: l₂ := by
  obtain ⟨hmem, rfl⟩ := mem_of_get h
  obtain ⟨l₁, l₂, hsplit⟩ := List.append_of_mem hmem
  refine ⟨l₁, l₂, hsplit, fun f => ?_⟩
  rw [hsplit, List.map_append, List.map_cons, List.nodup_append, List.nodup_cons] at hids
  obtain ⟨-, ⟨hafter, -⟩, hbefore⟩ := hids
  have hother : ∀ l : List Download, (∀ e ∈ l, e.id ≠ d.id) →
      l.map (fun e => if e.id = d.id then f e else e) = l := fun l hl =>
    (List.map_congr_left fun e he => if_neg (hl e he)).trans (List.map_id l)
  rw [Downloader.modify, hsplit]
  dsimp only
  rw [List.map_append, List.map_cons, if_pos rfl, hother l₁ fun e he heq => ?_,
    hother l₂ fun e he heq => hafter (heq ▸ List.mem_map_of_mem he)]
  exact hbefore _ (List.mem_map_of_mem he) _ List.mem_cons_self heq

theorem get_modify {s : Downloader} {id : Nat} {d : Download} (h : s.get id = some d)
    {f : Download → Download} (hid : (f d).id = d.id) : (s.modify id f).get id = some (f d) := by
  rw [Downloader.get] at h
  obtain ⟨l₁, l₂, hsplit, hbefore⟩ := (List.find?_eq_some_iff_append.1 h).2
  have hd : d.id = id := (mem_of_get h).2
  rw [Downloader.get, List.find?_eq_some_iff_append]
  refine ⟨by simp [hid, hd], l₁.map fun d => if d.id = id then f d else d,
    l₂.map fun d => if d.id = id then f d else d, ?_, fun e he => ?_⟩
  · rw [Downloader.modify, hsplit]
    dsimp only
    rw [List.map_append, List.map_cons, if_pos hd]
  · obtain ⟨e', he', rfl⟩ := List.mem_map.1 he
    have hne := hbefore e' he'
    have hne' : e'.id ≠ id := by simpa using hne
    rw [if_neg hne']
    exact hne

theorem actives_split (l₁ l₂ : List Download) (d : Download) :
    (actives (l₁ ++ d :: l₂)).Perm (d.activeRequests ++ (actives l₁ ++ actives l₂)) := by
  rw [actives, List.flatMap_append, List.flatMap_cons]
  exact (List.perm_append_comm_assoc _ _ _)

theorem actives_sublist {ds : List Download} {d : Download} (h : d ∈ ds) :
    d.activeRequests.Sublist (actives ds) := by
  obtain ⟨l₁, l₂, rfl⟩ := List.append_of_mem h
  rw [actives, List.flatMap_append, List.flatMap_cons]
  exact (List.sublist_append_left _ _).trans (List.sublist_append_right _ _)

theorem Shape.replace {store : Store} {picker : Picker} {l₁ l₂ : List Download} {d d' : Download}
    (h : Shape t store picker (l₁ ++ d :: l₂)) (hid : d'.id = d.id) (hhas : d'.has = d.has)
    (hok : d'.Ok t) : Shape t store picker (l₁ ++ d' :: l₂) := by
  have hcount : count (l₁ ++ d' :: l₂) = count (l₁ ++ d :: l₂) := by
    funext p
    simp only [count, List.countP_append, List.countP_cons, hhas]
  refine ⟨?_, fun e he => ?_, hcount ▸ h.sorted, h.complete, ?_⟩
  · have hids := h.ids
    simp only [List.map_append, List.map_cons, hid] at hids ⊢
    exact hids
  · rcases List.mem_append.1 he with he | he
    · exact h.ok e (List.mem_append_left _ he)
    · obtain rfl | he := List.mem_cons.1 he
      · exact hok
      · exact h.ok e (List.mem_append_right _ (List.mem_cons_of_mem _ he))
  · have hfew := h.few
    simp only [List.length_append, List.length_cons] at hfew ⊢
    exact hfew

theorem roster_modify (s : Downloader) (id : Nat) {f : Download → Download}
    (hf : ∀ d, (f d).id = d.id ∧ (f d).choked = d.choked ∧ (f d).has = d.has) :
    roster (s.modify id f).downloads = roster s.downloads := by
  rw [roster, roster, Downloader.modify, List.map_map]
  refine List.map_congr_left fun d _ => ?_
  rw [Function.comp_apply]
  split
  · rw [(hf d).1, (hf d).2.1, (hf d).2.2]
  · rfl

theorem roster_replace {l₁ l₂ : List Download} {d d' : Download} (hid : d'.id = d.id)
    (hchoked : d'.choked = d.choked) (hhas : d'.has = d.has) :
    roster (l₁ ++ d' :: l₂) = roster (l₁ ++ d :: l₂) := by
  simp only [roster, List.map_append, List.map_cons, hid, hchoked, hhas]

theorem ids_of_roster {ds ds' : List Download} (h : roster ds' = roster ds) :
    ds'.map Download.id = ds.map Download.id := by
  have hmap := congrArg (List.map Prod.fst) h
  rw [roster, roster, List.map_map, List.map_map] at hmap
  exact hmap

/-- A peer is as it was. -/
theorem get_of_roster {s s' : Downloader} (h : roster s'.downloads = roster s.downloads)
    (hids : (s.downloads.map Download.id).Nodup) {id : Nat} {d : Download}
    (hd : s.get id = some d) :
    ∃ d', s'.get id = some d' ∧ d'.choked = d.choked ∧ d'.has = d.has := by
  obtain ⟨hmem, hid⟩ := mem_of_get hd
  have hids' := ids_of_roster h
  have hin : id ∈ s'.ids := by
    rw [Downloader.ids, hids']
    exact List.mem_map.2 ⟨d, hmem, hid⟩
  obtain ⟨d', hd'⟩ := get_of_mem hin
  obtain ⟨hmem', hid'⟩ := mem_of_get hd'
  have hentry : (d'.id, d'.choked, d'.has) ∈ roster s.downloads := by
    rw [← h]
    exact List.mem_map.2 ⟨d', hmem', rfl⟩
  obtain ⟨e, he, heq⟩ := List.mem_map.1 hentry
  simp only [Prod.mk.injEq] at heq
  have hsame : e = d := List.inj_on_of_nodup_map hids he hmem (by rw [heq.1, hid', hid])
  exact ⟨d', hd', by rw [← heq.2.1, hsame], by rw [← heq.2.2, hsame]⟩

theorem Kept.perm {c : Setup D} {s : Store} {out out' : List Block} (h : Kept c s out)
    (hperm : out.Perm out') : Kept c s out' := by
  refine ⟨h.slots, h.has_placed, h.checked, h.verified, fun r hr => h.out_lt r (hperm.mem_iff.2 hr),
    fun p hp => ?_, fun p hp => ?_, h.left, h.inactive, h.finished⟩
  · rw [h.numactive p hp, (blocksOf_perm hperm p).length_eq]
  · exact (h.accounted p hp).perm (blocksOf_perm hperm p).symm

/-- When nothing is inactive, no block is to be asked for. -/
theorem Kept.pending_nil {c : Setup D} {s : Store} {out : List Block} (h : Kept c s out)
    (hzero : s.amountInactive = 0) {p : Nat} (hp : p < c.numPieces) : pending c s p = [] := by
  have hsum := h.inactive
  rw [hzero] at hsum
  have hall := Finset.sum_eq_zero_iff.1 (Int.natCast_eq_zero.1 hsum.symm) p (Finset.mem_range.2 hp)
  rw [amount_eq hp, List.sum_eq_zero_iff] at hall
  rw [List.eq_nil_iff_forall_not_mem]
  intro b hb
  have hpos := Setup.blocks_pos hp ((h.pending_subperm hp).subset (List.mem_append_left _ hb))
  rw [hall b.2 (List.mem_map_of_mem hb)] at hpos
  exact Nat.lt_irrefl 0 hpos

/-! ## The two phases -/

/-- No block is to be asked for. -/
def Exhausted (t : Torrent D) (s : Store) : Prop :=
  ∀ p < t.numPieces, pending t.toSetup s p = []

/-- The blocks on their way are those that the peers have been asked for. The endgame
has begun when there are no others. -/
structure Asking (t : Torrent D) (s : Downloader) : Prop where
  shape : Shape t s.store s.picker s.downloads
  kept : Kept t.toSetup s.store (actives s.downloads)
  exhausted : s.store.endgame = true → Exhausted t s.store

/-- The endgame: the blocks on their way are in `all_requests`, and a peer has been asked
for some of them, or for a block in `R`. -/
structure Ending (t : Torrent D) (R : Nat → Block → Prop) (s : Downloader) : Prop where
  shape : Shape t s.store s.picker s.downloads
  kept : Kept t.toSetup s.store s.allRequests
  exhausted : Exhausted t s.store
  endgame : s.store.endgame = true
  asked : ∀ d ∈ s.downloads, ∀ r ∈ d.activeRequests, r ∈ s.allRequests ∨ R d.id r

/-- Nothing but what is in `all_requests`. -/
def Nothing (_ : Nat) (_ : Block) : Prop := False

def Sound (t : Torrent D) (s : Downloader) : Prop :=
  s.store.endgame = false ∧ Asking t s ∨ Ending t Nothing s

theorem Sound.shape {s : Downloader} (h : Sound t s) : Shape t s.store s.picker s.downloads :=
  h.elim (·.2.shape) (·.shape)

/-- The blocks on their way, in either phase: a peer has been asked for no others. -/
theorem Sound.kept_asked {s : Downloader} (h : Sound t s) :
    ∃ out, Kept t.toSetup s.store out ∧ ∀ d ∈ s.downloads, ∀ r ∈ d.activeRequests, r ∈ out := by
  rcases h with ⟨-, hs⟩ | hs
  · exact ⟨_, hs.kept, fun d hd r hr => (actives_sublist hd).subset hr⟩
  · exact ⟨_, hs.kept, fun d hd r hr => (hs.asked d hd r hr).resolve_right fun hno => hno⟩

/-- `Sound`, and the peers are as they were. -/
def SoundAs (t : Torrent D) (r : List (Nat × Bool × (Nat → Bool))) (s : Downloader) : Prop :=
  Sound t s ∧ roster s.downloads = r

theorem Ending.sent {R : Nat → Block → Prop} {s : Downloader} (h : Ending t R s)
    (draws : Nat) (sent : List (Nat × Message)) :
    Ending t R { s with draws := draws, sent := sent } :=
  ⟨h.shape, h.kept, h.exhausted, h.endgame, h.asked⟩

theorem Asking.sent {s : Downloader} (h : Asking t s) (draws : Nat)
    (sent : List (Nat × Message)) : Asking t { s with draws := draws, sent := sent } :=
  ⟨h.shape, h.kept, h.exhausted⟩

/-- One download changes, in the endgame. -/
theorem Ending.modify {R : Nat → Block → Prop} {s : Downloader} (h : Ending t R s) {id : Nat}
    {d : Download} (hd : s.get id = some d) {f : Download → Download} (hid : (f d).id = d.id)
    (hhas : (f d).has = d.has) (hok : (f d).Ok t)
    (hasked : ∀ r ∈ (f d).activeRequests, r ∈ s.allRequests ∨ R d.id r) :
    Ending t R (s.modify id f) := by
  obtain ⟨l₁, l₂, hsplit, hmod⟩ := modify_split h.shape.ids hd
  have hshape := h.shape
  have hall := h.asked
  rw [hsplit] at hshape hall
  refine ⟨?_, h.kept, h.exhausted, h.endgame, fun e he r hr => ?_⟩
  · rw [hmod]
    exact hshape.replace hid hhas hok
  · rw [hmod] at he
    rcases List.mem_append.1 he with he | he
    · exact hall e (List.mem_append_left _ he) r hr
    · obtain rfl | he := List.mem_cons.1 he
      · rw [hid]
        exact hasked r hr
      · exact hall e (List.mem_append_right _ (List.mem_cons_of_mem _ he)) r hr

/-- One download changes what it takes an interest in, before the endgame. -/
theorem Asking.modify {s : Downloader} (h : Asking t s) {id : Nat}
    {d : Download} (hd : s.get id = some d) {f : Download → Download} (hid : (f d).id = d.id)
    (hhas : (f d).has = d.has) (hactive : (f d).activeRequests = d.activeRequests)
    (hok : (f d).Ok t) : Asking t (s.modify id f) := by
  obtain ⟨l₁, l₂, hsplit, hmod⟩ := modify_split h.shape.ids hd
  have hshape := h.shape
  have hkept := h.kept
  rw [hsplit] at hshape hkept
  refine ⟨?_, ?_, h.exhausted⟩
  · rw [hmod]
    exact hshape.replace hid hhas hok
  · rw [hmod]
    refine hkept.perm ((actives_split _ _ _).trans ?_)
    rw [← hactive]
    exact (actives_split _ _ _).symm

theorem Download.Ok.interest {d : Download} (h : d.Ok t) {interested : Bool}
    (hi : d.activeRequests ≠ [] → interested = true) : { d with interested := interested }.Ok t :=
  ⟨h.choked, hi, h.backlog, h.has, h.nodup, h.has_lt⟩

theorem foldl_send (s : Downloader) (id : Nat) (l : List Block) :
    ∃ sent, l.foldl (fun s b => s.send id (.request b)) s = { s with sent := sent } := by
  induction l generalizing s with
  | nil => exact ⟨s.sent, rfl⟩
  | cons b l ih =>
    obtain ⟨sent, hsent⟩ := ih (s.send id (.request b))
    exact ⟨sent, by rw [List.foldl_cons, hsent]; rfl⟩

/-! ## The endgame -/

/-- `fix_download_endgame` asks for blocks of `all_requests` only. -/
theorem Ending.fixDownloadEndgame {R : Nat → Block → Prop} {s : Downloader} (h : Ending t R s)
    (id : Nat) :
    Ending t R (s.fixDownloadEndgame t id) ∧
      roster (s.fixDownloadEndgame t id).downloads = roster s.downloads := by
  rw [Downloader.fixDownloadEndgame]
  cases hd : s.get id with
  | none => exact ⟨h, rfl⟩
  | some d =>
    have hmem := mem_of_get hd
    have hok := h.shape.ok d hmem.1
    have hasked := h.asked d hmem.1
    dsimp only
    split
    · rename_i hnone
      have hmod := h.modify hd (f := fun d => { d with interested := false })
        rfl rfl (hok.interest fun hne => absurd hnone.2.1 hne) hasked
      exact ⟨hmod.sent _ _, roster_modify s id fun _ => ⟨rfl, rfl, rfl⟩⟩
    · rename_i hsome
      generalize hwant : s.allRequests.filter (fun a => d.has a.1 && decide (a ∉ d.activeRequests)) =
        want at hsome ⊢
      -- the peer has been told that we are interested, if it is asked for anything
      have htold : ∃ s₁ : Downloader, ∃ d₁ : Download,
          (if d.interested = false ∧ want ≠ [] then
            (s.modify id fun d => { d with interested := true }).send id .interested else s) = s₁ ∧
          Ending t R s₁ ∧ roster s₁.downloads = roster s.downloads ∧ s₁.get id = some d₁ ∧
          s₁.allRequests = s.allRequests ∧
          d₁.activeRequests = d.activeRequests ∧ d₁.has = d.has ∧ d₁.choked = d.choked ∧
          d₁.id = d.id ∧ (want ≠ [] → d₁.interested = true) := by
        by_cases htell : d.interested = false ∧ want ≠ []
        · rw [if_pos htell]
          have hmod := h.modify hd (f := fun d => { d with interested := true })
            rfl rfl (hok.interest fun _ => rfl) hasked
          exact ⟨_, { d with interested := true }, rfl, hmod.sent _ _,
            roster_modify s id fun _ => ⟨rfl, rfl, rfl⟩, get_modify hd rfl, rfl, rfl, rfl, rfl, rfl, fun _ => rfl⟩
        · rw [if_neg htell]
          refine ⟨s, d, rfl, h, rfl, hd, rfl, rfl, rfl, rfl, rfl, fun hne => ?_⟩
          by_contra hint
          exact htell ⟨Bool.not_eq_true _ ▸ hint, hne⟩
      obtain ⟨s₁, d₁, heq, h₁, hroster, hd₁, hall, hactive, hhas, hchoked, hid, hint⟩ := htold
      rw [heq]
      split
      · exact ⟨h₁, hroster⟩
      · rename_i hunchoked
        have hsub : ∀ b ∈ t.chance.shuffle s₁.draws want,
            b ∈ s.allRequests ∧ d.has b.1 = true ∧ b ∉ d.activeRequests := by
          intro b hb
          rw [t.chance.mem_shuffle, ← hwant, List.mem_filter] at hb
          simpa using hb
        have hnodup : (t.chance.shuffle s₁.draws want).Nodup := by
          rw [(t.chance.shuffle_perm _ _).nodup_iff, ← hwant]
          exact h.kept.out_nodup.filter _
        have hlen : d.activeRequests.length ≤ t.backlog := hok.backlog
        rw [if_pos hlen]
        generalize hmore : (t.chance.shuffle s₁.draws want).take
          (t.backlog - d.activeRequests.length) = more
        have hmem' : ∀ b ∈ more, b ∈ t.chance.shuffle s₁.draws want := fun b hb =>
          List.mem_of_mem_take (hmore ▸ hb)
        have hnext : Download.Ok t { d₁ with activeRequests := d₁.activeRequests ++ more } := by
          refine ⟨fun hc => ?_, fun hne => ?_, ?_, fun r hr => ?_, ?_, ?_⟩
          · exact absurd (hchoked.symm.trans hc) hunchoked
          · by_cases hwnil : want = []
            · have hnil : more = [] := by
                rw [List.eq_nil_iff_forall_not_mem]
                intro b hb
                have hbw := hmem' b hb
                rw [t.chance.mem_shuffle, hwnil] at hbw
                cases hbw
              dsimp only at hne
              rw [hnil, List.append_nil] at hne
              exact (h₁.shape.ok d₁ (mem_of_get hd₁).1).interested hne
            · exact hint hwnil
          · dsimp only
            rw [List.length_append, hactive, ← hmore, List.length_take]
            omega
          · dsimp only at hr ⊢
            rw [hhas]
            rcases List.mem_append.1 hr with hr | hr
            · exact hok.has r (hactive ▸ hr)
            · exact (hsub r (hmem' r hr)).2.1
          · dsimp only
            rw [hactive, List.nodup_append]
            refine ⟨hok.nodup, ?_, fun a ha b hb => ?_⟩
            · rw [← hmore]
              exact hnodup.sublist (List.take_sublist _ _)
            · rintro rfl
              exact (hsub a (hmem' a hb)).2.2 ha
          · dsimp only
            rw [hhas]
            exact hok.has_lt
        have hmod := (h₁.sent (s₁.draws + 1) s₁.sent).modify
          (s := { s₁ with draws := s₁.draws + 1 }) hd₁
          (f := fun d => { d with activeRequests := d.activeRequests ++ more }) rfl rfl hnext
          fun r hr => by
            rcases List.mem_append.1 hr with hr | hr
            · exact h₁.asked d₁ (mem_of_get hd₁).1 r hr
            · exact .inl (hall ▸ (hsub r (hmem' r hr)).1)
        obtain ⟨sent, hsent⟩ := foldl_send ({ s₁ with draws := s₁.draws + 1 }.modify id
          fun d => { d with activeRequests := d.activeRequests ++ more }) id more
        rw [hsent]
        have hroster' := roster_modify s₁ id
          (f := fun d => { d with activeRequests := d.activeRequests ++ more })
          fun _ => ⟨rfl, rfl, rfl⟩
        exact ⟨hmod.sent _ sent, hroster'.trans hroster⟩

theorem Ending.fixAll {R : Nat → Block → Prop} {s : Downloader} (h : Ending t R s) :
    Ending t R (s.fixAll t) ∧ roster (s.fixAll t).downloads = roster s.downloads :=
  foldl_inv (I := fun s' => Ending t R s' ∧ roster s'.downloads = roster s.downloads) ⟨h, rfl⟩
    fun id _ _ hs => ⟨(hs.1.fixDownloadEndgame id).1, (hs.1.fixDownloadEndgame id).2.trans hs.2⟩

/-! ## Asking -/

/-- A piece that a peer can be asked for is missing. -/
theorem Shape.wanted {s : Downloader} {out : List Block}
    (h : Shape t s.store s.picker s.downloads) (hkept : Kept t.toSetup s.store out) {d : Download}
    (hd : d ∈ s.downloads) {p : Nat} (hwant : s.wants d p = true) :
    p < t.numPieces ∧ s.picker.numinterests p ≠ none ∧ 0 < count s.downloads p ∧
      count s.downloads p < 2 ^ 30 := by
  rw [Downloader.wants, Bool.and_eq_true] at hwant
  have hp := (h.ok d hd).has_lt p hwant.1
  refine ⟨hp, fun hnone => ?_, ?_, ?_⟩
  · have hhas := (h.complete p hp).1 hnone
    exact (wants_iff hp).1 hwant.2 (List.append_eq_nil_iff.1 ((hkept.has_iff hp).1 hhas)).1
  · exact List.countP_pos_iff.2 ⟨d, hd, hwant.1⟩
  · exact Nat.lt_of_le_of_lt List.countP_le_length h.few

theorem pick_spec {s : Downloader} {out : List Block}
    (h : Shape t s.store s.picker s.downloads) (hkept : Kept t.toSetup s.store out) {d : Download}
    (hd : d ∈ s.downloads) (indices : Option (List Nat)) :
    Ensures (Fault.Excused t.toSetup) (s.pick t d indices) fun r =>
      (∃ draws, r.2 = { s with draws := draws }) ∧ ∀ i, r.1 = some i → s.wants d i = true := by
  cases indices with
  | some indices => exact ⟨⟨s.draws, rfl⟩, fun i hi => List.find?_some hi⟩
  | none =>
    rw [Downloader.pick]
    rcases h.sorted.next t.chance s.draws t.cutoff (d.seed t)
      (fun p => h.wanted hkept hd (p := p)) with ⟨heq, -⟩ | ⟨p, heq, hwant, -⟩
    · rw [heq]
      exact ⟨⟨_, rfl⟩, fun i hi => by cases hi⟩
    · rw [heq]
      refine ⟨⟨_, rfl⟩, fun i hi => ?_⟩
      cases hi
      exact hwant

theorem newRequest_fields {c : Setup D} {s s' : Store} {index : Nat} {b : Nat × Nat}
    (heq : s.newRequest c index = .ok (b, s')) :
    s'.has = s.has ∧ (s'.endgame = true → s.endgame = true ∨ s'.amountInactive = 0) := by
  rw [Store.newRequest] at heq
  dsimp only at heq
  split at heq
  · cases heq
  · split at heq
    · cases heq
    · cases heq
      refine ⟨rfl, fun hend => ?_⟩
      rw [Bool.or_eq_true, beq_iff_eq] at hend
      exact hend

theorem requestLoop_spec (id : Nat) (indices : Option (List Nat)) (k : Nat) {s : Downloader}
    {d : Download} (h : Asking t s) (hd : s.get id = some d) (hchoked : d.choked = false)
    (hk : d.activeRequests.length + k ≤ t.backlog) (lost : List Nat) :
    Ensures (Fault.Excused t.toSetup) (Downloader.requestLoop t id indices k s lost) fun r =>
      Asking t r.1 ∧ roster r.1.downloads = roster s.downloads := by
  induction k generalizing s d lost with
  | zero => exact ⟨h, rfl⟩
  | succ k ih =>
    rw [Downloader.requestLoop, hd]
    refine (pick_spec h.shape h.kept (mem_of_get hd).1 indices).bind ?_
    rintro ⟨interest, s₁⟩ ⟨⟨draws, rfl⟩, hinterest⟩
    cases interest with
    | none => exact ⟨h.sent _ _, rfl⟩
    | some i =>
      have hwant := hinterest i rfl
      obtain ⟨hp, hleft, -, -⟩ := h.shape.wanted h.kept (mem_of_get hd).1 hwant
      rw [Downloader.wants, Bool.and_eq_true] at hwant
      obtain ⟨b, store, heq, hkept⟩ := h.kept.newRequest hp hwant.2
      obtain ⟨hhas, hend⟩ := newRequest_fields heq
      dsimp only
      rw [heq]
      obtain ⟨l₁, l₂, hsplit, hmod⟩ := modify_split h.shape.ids hd
      have hok := h.shape.ok d (mem_of_get hd).1
      let d' : Download := { d with
        interested := true
        exampleInterest := some i
        activeRequests := d.activeRequests ++ [(i, b)] }
      have hperm : (actives (l₁ ++ d' :: l₂)).Perm ((i, b) :: actives s.downloads) := by
        rw [hsplit]
        refine (actives_split _ _ _).trans ?_
        refine List.Perm.trans ?_ ((actives_split l₁ l₂ d).symm.cons _)
        change ((d.activeRequests ++ [(i, b)]) ++ _).Perm _
        rw [List.append_assoc]
        exact List.perm_middle
      have hkept' := hkept.perm hperm.symm
      have hshape := h.shape
      rw [hsplit] at hshape
      have hok' : d'.Ok t := by
        refine ⟨fun hc => ?_, fun _ => rfl, ?_, fun r hr => ?_, ?_, hok.has_lt⟩
        · rw [show d'.choked = d.choked from rfl, hchoked] at hc
          cases hc
        · change (d.activeRequests ++ [(i, b)]).length ≤ _
          rw [List.length_append, List.length_singleton]
          omega
        · rcases List.mem_append.1 hr with hr | hr
          · exact hok.has r hr
          · obtain rfl := List.mem_singleton.1 hr
            exact hwant.1
        · exact hkept'.out_nodup.sublist (actives_sublist (by simp))
      -- the state after the round, whatever has been sent
      have hnext : ∀ (draws : Nat) (sent : List (Nat × Message)), Asking t { s with
          store := store
          picker := s.picker.requested i (d.seed t)
          downloads := l₁ ++ d' :: l₂
          draws := draws
          sent := sent } := by
        intro draws sent
        have hshape' : Shape t s.store s.picker (l₁ ++ d' :: l₂) := hshape.replace rfl rfl hok'
        refine ⟨⟨hshape'.ids, hshape'.ok, hshape'.sorted.requested hp hleft _, fun p hp => ?_,
          hshape'.few⟩, hkept', fun hending p hp => ?_⟩
        · exact (hshape'.complete p hp).trans (by rw [hhas])
        · rcases hend hending with hold | hzero
          · exact absurd (h.exhausted hold i (by assumption)) ((wants_iff (by assumption)).1 hwant.2)
          · exact hkept.pending_nil hzero hp
      have hmap := hmod fun d => { d with
        interested := true
        exampleInterest := some i
        activeRequests := d.activeRequests ++ [(i, b)] }
      have hroster : roster (l₁ ++ d' :: l₂) = roster s.downloads := by
        rw [hsplit]
        exact roster_replace rfl rfl rfl
      rw [show l₁ ++ d' :: l₂ = _ from hmap.symm] at hnext hroster
      have hsent : ∃ sent, (if d.interested = true then { s with draws := draws }
          else Downloader.send { s with draws := draws } id .interested) =
          { s with draws := draws, sent := sent } := by
        split
        · exact ⟨s.sent, rfl⟩
        · exact ⟨_, rfl⟩
      obtain ⟨sent, hsent⟩ := hsent
      rw [hsent]
      have hlen : d'.activeRequests.length + k ≤ t.backlog := by
        change (d.activeRequests ++ [(i, b)]).length + k ≤ _
        rw [List.length_append, List.length_singleton]
        omega
      have hrest := ih (hnext draws (sent ++ [(id, .request (i, b))])) (get_modify hd rfl)
        hchoked hlen (if store.doIHaveRequests i then lost else lost ++ [i])
      have hall := hrest.mono (Q := fun r => Asking t r.1 ∧
        roster r.1.downloads = roster s.downloads) fun r hr => ⟨hr.1, hr.2.trans hroster⟩
      exact hall

theorem Asking.stopInterest {s : Downloader} (h : Asking t s) (id : Nat) :
    Asking t (s.stopInterest id) ∧
      roster (s.stopInterest id).downloads = roster s.downloads := by
  rw [Downloader.stopInterest]
  cases hd : s.get id with
  | none => exact ⟨h, rfl⟩
  | some d =>
    dsimp only
    split
    · rename_i hidle
      have hmod := h.modify hd (f := fun d => { d with interested := false }) rfl rfl rfl
        ((h.shape.ok d (mem_of_get hd).1).interest fun hne => absurd hidle.1 hne)
      exact ⟨hmod.sent _ _, roster_modify s id fun _ => ⟨rfl, rfl, rfl⟩⟩
    · exact ⟨h, rfl⟩

theorem loseInterest_spec {s : Downloader} (h : Asking t s) (lost : List Nat) {id : Nat}
    (hid : id ∈ s.ids) :
    Ensures (Fault.Excused t.toSetup) (Downloader.loseInterest t lost s id) fun s' =>
      Asking t s' ∧ roster s'.downloads = roster s.downloads := by
  obtain ⟨d, hd⟩ := get_of_mem hid
  have hok := h.shape.ok d (mem_of_get hd).1
  rw [Downloader.loseInterest, hd]
  dsimp only
  refine .ite (fun _ => ⟨h, rfl⟩) fun hidle => ?_
  have hnil : d.activeRequests = [] := by
    by_contra hne
    exact hidle (.inl hne)
  refine .ite (fun _ => ⟨h, rfl⟩) fun _ => .ite (fun _ => ⟨h, rfl⟩) fun _ => ?_
  refine (pick_spec h.shape h.kept (mem_of_get hd).1 none).bind ?_
  rintro ⟨interest, s₁⟩ ⟨⟨draws, rfl⟩, -⟩
  cases interest with
  | none =>
    have hmod := h.modify hd (f := fun d => { d with interested := false }) rfl rfl rfl
      (hok.interest fun hne => absurd hnil hne)
    exact ⟨hmod.sent _ _, roster_modify s id fun _ => ⟨rfl, rfl, rfl⟩⟩
  | some i =>
    have hmod := h.modify hd (f := fun d => { d with exampleInterest := some i }) rfl rfl rfl
      ⟨hok.choked, hok.interested, hok.backlog, hok.has, hok.nodup, hok.has_lt⟩
    exact ⟨hmod.sent draws s.sent, roster_modify s id fun _ => ⟨rfl, rfl, rfl⟩⟩

/-- The endgame begins: every block on its way is in `all_requests`. -/
theorem Asking.ending {s : Downloader} (h : Asking t s) (hend : s.store.endgame = true) :
    Ending t Nothing { s with allRequests := actives s.downloads } :=
  ⟨h.shape, h.kept, h.exhausted hend, hend, fun _ hd _ hr =>
    .inl ((actives_sublist hd).subset hr)⟩

theorem requestMore_spec {s : Downloader} (h : Sound t s) {id : Nat} {d : Download}
    (hd : s.get id = some d) (hchoked : d.choked = false) (indices : Option (List Nat)) :
    Ensures (Fault.Excused t.toSetup) (s.requestMore t id indices) (SoundAs t (roster s.downloads)) := by
  rw [Downloader.requestMore, hd]
  dsimp only
  rw [if_neg (by rw [hchoked]; exact Bool.false_ne_true)]
  refine .ite (fun _ => ⟨h, rfl⟩) fun hroom => ?_
  rcases h with ⟨hend, h⟩ | h
  · rw [if_neg (by rw [hend]; exact Bool.false_ne_true)]
    have hle := (h.shape.ok d (mem_of_get hd).1).backlog
    refine (requestLoop_spec id indices (t.backlog - d.activeRequests.length) h hd hchoked
      (by omega) []).bind ?_
    rintro ⟨s₁, lost⟩ ⟨h₁, hroster₁⟩
    obtain ⟨h₂, hroster₂⟩ := h₁.stopInterest id
    have hloop : Ensures (Fault.Excused t.toSetup) (Downloader.loseInterests t lost (s₁.stopInterest id))
        fun s' => Asking t s' ∧ roster s'.downloads = roster s.downloads := by
      rw [Downloader.loseInterests]
      refine .ite (fun _ => ⟨h₂, hroster₂.trans hroster₁⟩) fun _ => ?_
      refine Ensures.foldlM (I := fun s' => Asking t s' ∧ roster s'.downloads = roster s.downloads)
        ⟨h₂, hroster₂.trans hroster₁⟩ fun id' hid' s' hs' => ?_
      have hin : id' ∈ s'.ids := by
        rw [Downloader.ids, ids_of_roster (hs'.2.trans (hroster₂.trans hroster₁).symm)]
        exact hid'
      exact (loseInterest_spec hs'.1 lost hin).mono fun s'' hs'' =>
        ⟨hs''.1, hs''.2.trans hs'.2⟩
    refine hloop.bind fun s₃ hs₃ => ?_
    refine .ite (fun hending => ?_) fun hnot => ?_
    · obtain ⟨hfixed, hroster⟩ := (hs₃.1.ending hending).fixAll
      exact ⟨.inr hfixed, hroster.trans hs₃.2⟩
    · exact ⟨.inl ⟨Bool.not_eq_true _ ▸ hnot, hs₃.1⟩, hs₃.2⟩
  · rw [if_pos h.endgame]
    obtain ⟨hfixed, hroster⟩ := h.fixDownloadEndgame id
    exact ⟨.inr hfixed, hroster⟩

theorem Sound.modify {s : Downloader} (h : Sound t s) {id : Nat} {d : Download}
    (hd : s.get id = some d) {f : Download → Download} (hid : (f d).id = d.id)
    (hhas : (f d).has = d.has) (hactive : (f d).activeRequests = d.activeRequests)
    (hok : (f d).Ok t) : Sound t (s.modify id f) := by
  refine h.imp (fun h => ⟨h.1, h.2.modify hd hid hhas hactive hok⟩) fun h =>
    h.modify hd hid hhas hok fun r hr => ?_
  rw [hactive] at hr
  exact h.asked d (mem_of_get hd).1 r hr

theorem Sound.sent {s : Downloader} (h : Sound t s) (draws : Nat)
    (sent : List (Nat × Message)) : Sound t { s with draws := draws, sent := sent } :=
  h.imp (fun h => ⟨h.1, h.2.sent draws sent⟩) fun h => h.sent draws sent

theorem requestAll_spec {s : Downloader} (h : Sound t s) (indices : List Nat) :
    Ensures (Fault.Excused t.toSetup) (s.requestAll t indices) (SoundAs t (roster s.downloads)) := by
  rw [Downloader.requestAll]
  refine Ensures.foldlM (I := SoundAs t (roster s.downloads)) ⟨h.sent _ _, rfl⟩
    fun id hid s' hs' => ?_
  rw [t.chance.mem_shuffle, List.mem_map] at hid
  obtain ⟨d, hd, rfl⟩ := hid
  rw [List.mem_filter, Bool.not_eq_true'] at hd
  obtain ⟨d₀, hd₀⟩ := get_of_mem (List.mem_map_of_mem hd.1 : d.id ∈ s.ids)
  have hsame : d₀ = d := List.inj_on_of_nodup_map h.shape.ids (mem_of_get hd₀).1 hd.1
    (mem_of_get hd₀).2
  obtain ⟨d', hd', hchoked, -⟩ := get_of_roster hs'.2 h.shape.ids hd₀
  exact (requestMore_spec hs'.1 hd' (by rw [hchoked, hsame, hd.2]) _).mono fun s'' hs'' =>
    ⟨hs''.1, hs''.2.trans hs'.2⟩

/-! ## Letting go -/

/-- What `_letgo` is called with: the requests of one peer are not counted any more. -/
def Letting (t : Torrent D) (active : List Block) (s : Downloader) : Prop :=
  Shape t s.store s.picker s.downloads ∧
    (s.store.endgame = false ∧ Kept t.toSetup s.store (active ++ actives s.downloads) ∨
      Ending t Nothing s)

theorem requestLost_fields {s s' : Store} {index start len : Nat}
    (heq : s.requestLost index start len = .ok s') :
    s'.has = s.has ∧ s'.endgame = s.endgame := by
  rw [Store.requestLost] at heq
  split at heq
  · cases heq
    exact ⟨rfl, rfl⟩
  · cases heq

theorem Sound.showInterest {s : Downloader} (h : Sound t s) (lost : List Nat) (id : Nat) :
    SoundAs t (roster s.downloads) (Downloader.showInterest lost s id) := by
  rw [Downloader.showInterest]
  cases hd : s.get id with
  | none => exact ⟨h, rfl⟩
  | some d =>
    dsimp only
    split
    · refine ⟨Sound.sent (h.modify hd rfl rfl rfl ?_) _ _,
        roster_modify s id fun _ => ⟨rfl, rfl, rfl⟩⟩
      exact (h.shape.ok d (mem_of_get hd).1).interest fun _ => rfl
    · exact ⟨h, rfl⟩

theorem letgo_spec {s : Downloader} {id : Nat} {active : List Block}
    (h : Letting t active (s.modify id fun d => { d with activeRequests := [] })) :
    Ensures (Fault.Excused t.toSetup) (s.letgo t id active) (SoundAs t (roster s.downloads)) := by
  have hroster : roster (s.modify id fun d => { d with activeRequests := [] }).downloads =
      roster s.downloads := roster_modify s id fun _ => ⟨rfl, rfl, rfl⟩
  rw [Downloader.letgo]
  generalize (s.modify id fun d => { d with activeRequests := [] }) = s₁ at h hroster
  rw [← hroster]
  obtain ⟨hshape, hkept⟩ := h
  dsimp only
  refine .ite (fun hnone => ?_) fun hsome => ?_
  · refine ⟨?_, rfl⟩
    rcases hkept with ⟨hend, hkept⟩ | hending
    · rcases hnone with rfl | hend'
      · exact .inl ⟨hend, hshape, hkept, fun hend' => absurd (hend.symm.trans hend')
          Bool.false_ne_true⟩
      · exact absurd (hend.symm.trans hend') Bool.false_ne_true
    · exact .inr hending
  · rcases hkept with ⟨hend, hkept⟩ | hending
    · -- the blocks go back on their lists one after the other
      have hlost : Ensures (Fault.Excused t.toSetup)
          (active.foldlM (fun store r => store.requestLost r.1 r.2.1 r.2.2) s₁.store)
          fun store => store.endgame = false ∧ store.has = s₁.store.has ∧
            Kept t.toSetup store (actives s₁.downloads) := by
        refine Ensures.foldlM_rest (I := fun rest store => store.endgame = false ∧
          store.has = s₁.store.has ∧ Kept t.toSetup store (rest ++ actives s₁.downloads))
          ⟨hend, rfl, hkept⟩ ?_
        rintro ⟨index, start, len⟩ rest store ⟨hend, hhas, hkept⟩
        obtain ⟨store', heq, hkept'⟩ := hkept.requestLost
          (List.mem_append_left _ (List.mem_cons_self (a := (index, start, len)) (l := rest)))
        obtain ⟨hhas', hend'⟩ := requestLost_fields heq
        rw [heq]
        rw [List.cons_append, List.erase_cons_head] at hkept'
        exact ⟨hend'.trans hend, hhas'.trans hhas, hkept'⟩
      refine hlost.bind fun store hstore => ?_
      obtain ⟨hend', hhas, hkept'⟩ := hstore
      have hsound : Sound t { s₁ with store := store } :=
        .inl ⟨hend', hshape.store hhas, hkept', fun hending =>
          absurd (hend'.symm.trans hending) Bool.false_ne_true⟩
      refine (requestAll_spec hsound _).bind fun s₂ hs₂ => ?_
      exact foldl_inv (I := SoundAs t (roster s₁.downloads)) hs₂ fun id' _ s' hs' =>
        ⟨(hs'.1.showInterest _ id').1, (hs'.1.showInterest _ id').2.trans hs'.2⟩
    · exact absurd (.inr hending.endgame) hsome

end Wubi.Bittorrent
