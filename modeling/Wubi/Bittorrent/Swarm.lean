import Wubi.Bittorrent.Client
import Wubi.Bittorrent.Downloads

/-!
# A download from many peers

`swarm` puts together the disk, the picker and the downloads. A step is what one peer
does: it connects or goes away, chokes or unchokes us, says what it has, or sends a
block, with any content, asked for or not. The peers are told apart by their number, in
any order of events; fewer than `2 ** 30` are connected at a time, the number that
`PiecePicker.next` takes for none at all. The storage may raise `IOError` at any time.

**Results.**
* `no_peer_raises`: no peer can make the downloader raise an exception.
* `requests_of_peers`: what each peer has been asked for, and how that makes up, with
  what is to be asked for, the blocks that are missing.
* `rarest_first`: which piece a peer is asked for next.
* `swarm_completes`: when `am_I_complete` says so, `finished` was called and the file is
  put together from pieces with the right hashes.
-/
namespace Wubi.Bittorrent

open Function

variable {D : Type} {t : Torrent D}

theorem count_split (l₁ l₂ : List Download) (d : Download) (p : Nat) :
    count (l₁ ++ d :: l₂) p = count (l₁ ++ l₂) p + if d.has p = true then 1 else 0 := by
  simp only [count, List.countP_append, List.countP_cons]
  omega

theorem Picker.Sorted.congr {n : Nat} {count count' : Nat → Nat} {pk : Picker}
    (h : pk.Sorted n count) (heq : ∀ p < n, count' p = count p) : pk.Sorted n count' :=
  ⟨h.toFiled, h.mem_bucket, fun p hp hl => by rw [heq p hp]; exact h.counted p hp hl, h.scrambled,
    h.numgot, h.started, h.started_nodup, h.seedstarted, h.seedstarted_nodup⟩

/-! ## The beginning -/

/-- Before any peer is connected. -/
theorem start_spec {store : Store} (h : Kept t.toSetup store []) (hend : store.endgame = false) :
    Ensures (Fault.Excused t.toSetup) (Downloader.start t store) (Sound t) := by
  let s₀ : Downloader := {
    store := store
    picker := Picker.fresh t.chance 0 t.numPieces
    downloads := []
    allRequests := []
    draws := 1
    sent := [] }
  have hloop := Ensures.foldlM_rest (E := Fault.Excused t.toSetup) (l := List.range t.numPieces) (s := s₀)
    (f := Downloader.completePiece) (I := fun rest s =>
      (∃ picker, s = { s₀ with picker := picker }) ∧
      s.picker.Sorted t.numPieces (fun _ => 0) ∧
      (∀ p < t.numPieces, s.picker.numinterests p = none ↔ store.has p = true ∧ p ∉ rest) ∧
      rest.Nodup ∧ ∀ p ∈ rest, p < t.numPieces)
    ⟨⟨_, rfl⟩, Picker.sorted_fresh _ _ _, fun p hp => ?_, List.nodup_range,
      fun p hp => List.mem_range.1 hp⟩ ?_
  · refine hloop.mono ?_
    rintro _ ⟨⟨picker, rfl⟩, hsorted, hnum, -, -⟩
    refine .inl ⟨hend, ⟨List.nodup_nil, fun d hd => absurd hd List.not_mem_nil, hsorted,
      fun p hp => ?_, Nat.two_pow_pos 30⟩, h, fun hending => ?_⟩
    · rw [hnum p hp]
      simp [s₀]
    · exact absurd (hend.symm.trans hending) Bool.false_ne_true
  · simp [s₀, Picker.fresh, hp]
  · rintro p rest _ ⟨⟨picker, rfl⟩, hsorted, hnum, hnodup, hlt⟩
    obtain ⟨hp, hrest⟩ := List.nodup_cons.1 hnodup
    have hpn := hlt p List.mem_cons_self
    rw [Downloader.completePiece]
    refine .ite (fun hhas => ?_) fun hmiss => ?_
    · have hleft : picker.numinterests p ≠ none := fun hnone =>
        ((hnum p hpn).1 hnone).2 List.mem_cons_self
      obtain ⟨picker', heq, hsorted', hnum'⟩ := hsorted.complete hpn hleft
      dsimp only
      rw [heq]
      refine ⟨⟨picker', rfl⟩, hsorted', fun q hq => ?_, hrest, fun q hq =>
        hlt q (List.mem_cons_of_mem p hq)⟩
      dsimp only at hnum ⊢
      rw [hnum']
      rcases eq_or_ne q p with rfl | hqp
      · exact ⟨fun _ => ⟨hhas, hp⟩, fun _ => update_self ..⟩
      · rw [update_of_ne hqp, hnum q hq]
        simp [hqp]
    · refine ⟨⟨picker, rfl⟩, hsorted, fun q hq => ?_, hrest, fun q hq =>
        hlt q (List.mem_cons_of_mem p hq)⟩
      dsimp only at hnum hmiss ⊢
      rw [hnum q hq]
      rcases eq_or_ne q p with rfl | hqp
      · exact ⟨fun hhas => absurd hhas.1 hmiss, fun hhas => absurd hhas.1 hmiss⟩
      · simp [hqp]

theorem makeDownload_spec {s : Downloader} (h : Sound t s) {id : Nat} (hid : id ∉ s.ids)
    (hfew : s.downloads.length + 1 < 2 ^ 30) : Sound t (s.makeDownload id) := by
  have hshape := h.shape
  have hnew : Shape t s.store s.picker (s.makeDownload id).downloads := by
    refine ⟨?_, fun d hd => ?_, hshape.sorted.congr fun p _ => ?_, hshape.complete, ?_⟩
    · rw [Downloader.makeDownload, List.map_append, List.nodup_append]
      refine ⟨hshape.ids, List.nodup_singleton _, fun a ha b hb => ?_⟩
      rintro rfl
      rw [List.mem_singleton.1 hb] at ha
      exact hid ha
    · rcases List.mem_append.1 hd with hd | hd
      · exact hshape.ok d hd
      · rw [List.mem_singleton.1 hd]
        exact ⟨fun _ => rfl, fun hne => absurd rfl hne, Nat.zero_le _,
          fun r hr => absurd hr List.not_mem_nil, List.nodup_nil, fun p hp => by cases hp⟩
    · simp [count, Downloader.makeDownload]
    · rw [Downloader.makeDownload, List.length_append, List.length_singleton]
      exact hfew
  rcases h with ⟨hend, h⟩ | h
  · refine .inl ⟨hend, hnew, ?_, h.exhausted⟩
    have hsame : actives (s.makeDownload id).downloads = actives s.downloads := by
      simp [actives, Downloader.makeDownload]
    rw [hsame]
    exact h.kept
  · refine .inr ⟨hnew, h.kept, h.exhausted, h.endgame, fun d hd r hr => ?_⟩
    rcases List.mem_append.1 hd with hd | hd
    · exact h.asked d hd r hr
    · rw [List.mem_singleton.1 hd] at hr
      cases hr

/-! ## A peer goes away -/

/-- The pieces of `l` are given up, one after the other. -/
theorem lostHave_loop {s : Downloader} {n : Nat} {base : Nat → Nat} {l : List Nat}
    (hsorted : s.picker.Sorted n fun p => base p + if p ∈ l then 1 else 0) (hnodup : l.Nodup)
    (hlt : ∀ p ∈ l, p < n) :
    Ensures (Fault.Excused t.toSetup) (l.foldlM (Downloader.lostHave t) s) fun s' =>
      (∃ picker draws, s' = { s with picker := picker, draws := draws }) ∧
      s'.picker.Sorted n base ∧
      ∀ p, s'.picker.numinterests p = none ↔ s.picker.numinterests p = none := by
  have hloop := Ensures.foldlM_rest (E := Fault.Excused t.toSetup) (l := l) (s := s)
    (f := Downloader.lostHave t) (I := fun rest s' =>
      (∃ picker draws, s' = { s with picker := picker, draws := draws }) ∧
      s'.picker.Sorted n (fun p => base p + if p ∈ rest then 1 else 0) ∧
      (∀ p, s'.picker.numinterests p = none ↔ s.picker.numinterests p = none) ∧
      rest.Nodup ∧ ∀ p ∈ rest, p < n)
    ⟨⟨_, _, rfl⟩, hsorted, fun _ => Iff.rfl, hnodup, hlt⟩ ?_
  · refine hloop.mono fun s' ⟨hs', hsorted', hnum, _, _⟩ => ⟨hs', ?_, hnum⟩
    exact hsorted'.congr fun p _ => by simp
  · rintro p rest s' ⟨⟨picker, draws, rfl⟩, hsorted', hnum, hnodup', hlt'⟩
    obtain ⟨hp, hrest⟩ := List.nodup_cons.1 hnodup'
    obtain ⟨picker', heq, hsorted'', hnum'⟩ := hsorted'.lostHave t.chance draws
      (hlt' p List.mem_cons_self) (by simp)
    rw [Downloader.lostHave]
    dsimp only at heq ⊢
    rw [heq]
    refine ⟨⟨_, _, rfl⟩, hsorted''.congr fun q _ => ?_, fun q => (hnum' q).trans (hnum q), hrest,
      fun q hq => hlt' q (List.mem_cons_of_mem p hq)⟩
    rcases eq_or_ne q p with rfl | hqp
    · simp [hp]
    · simp [hqp]

/-- The same peers but for one. -/
def Without (t : Torrent D) (s : Downloader) (id : Nat) (s' : Downloader) : Prop :=
  Sound t s' ∧ s'.ids = s.ids.filter fun x => x != id

theorem disconnected_spec {s : Downloader} (h : Sound t s) {id : Nat} (hid : id ∈ s.ids) :
    Ensures (Fault.Excused t.toSetup) (Downloader.disconnected t s id) (Without t s id) := by
  obtain ⟨d, hd⟩ := get_of_mem hid
  have hshape := h.shape
  obtain ⟨l₁, l₂, hsplit, hmod⟩ := modify_split hshape.ids hd
  have hdid := (mem_of_get hd).2
  rw [hsplit] at hshape
  have hids := hshape.ids
  rw [List.map_append, List.map_cons, List.nodup_append, List.nodup_cons] at hids
  obtain ⟨hids₁, ⟨hafter, hids₂⟩, hbefore⟩ := hids
  have hkeep₁ : ∀ e ∈ l₁, e.id ≠ id := fun e he heq =>
    hbefore _ (List.mem_map_of_mem he) _ List.mem_cons_self (heq.trans hdid.symm)
  have hkeep₂ : ∀ e ∈ l₂, e.id ≠ id := fun e he heq => hafter (by
    rw [hdid, ← heq]
    exact List.mem_map_of_mem he)
  have hfilter : (s.downloads.filter fun e => e.id != id) = l₁ ++ l₂ := by
    rw [hsplit, List.filter_append, List.filter_cons_of_neg (by simp [hdid]),
      List.filter_eq_self.2 fun e he => by simpa using hkeep₁ e he,
      List.filter_eq_self.2 fun e he => by simpa using hkeep₂ e he]
  rw [Downloader.disconnected, hd]
  dsimp only
  rw [hfilter]
  have hsorted : s.picker.Sorted t.numPieces fun p =>
      count (l₁ ++ l₂) p + if p ∈ (List.range t.numPieces).filter d.has then 1 else 0 := by
    refine hshape.sorted.congr fun p hp => ?_
    rw [count_split]
    simp [hp]
  refine (lostHave_loop (s := { s with downloads := l₁ ++ l₂ }) hsorted
    (List.nodup_range.filter _) fun p hp =>
      List.mem_range.1 (List.mem_filter.1 hp).1).bind ?_
  rintro s₂ ⟨⟨picker, draws, rfl⟩, hsorted', hnum⟩
  dsimp only at hsorted' hnum
  have hsame : ∀ f : Download → Download, (Downloader.modify
      { s with downloads := l₁ ++ l₂, picker := picker, draws := draws } id f).downloads =
      l₁ ++ l₂ := by
    intro f
    refine (List.map_congr_left fun e he => if_neg ?_).trans (List.map_id _)
    rcases List.mem_append.1 he with he | he
    · exact hkeep₁ e he
    · exact hkeep₂ e he
  have hshape' : Shape t s.store picker (l₁ ++ l₂) := by
    refine ⟨?_, fun e he => hshape.ok e ?_, hsorted', fun p hp => (hnum p).trans
      (hshape.complete p hp), ?_⟩
    · rw [List.map_append, List.nodup_append]
      exact ⟨hids₁, hids₂, fun a ha b hb => hbefore a ha b (List.mem_cons_of_mem _ hb)⟩
    · rcases List.mem_append.1 he with he | he
      · exact List.mem_append_left _ he
      · exact List.mem_append_right _ (List.mem_cons_of_mem _ he)
    · have hfew := hshape.few
      simp only [List.length_append, List.length_cons] at hfew ⊢
      omega
  refine (letgo_spec ?_).mono fun s' hs' => ⟨hs'.1, ?_⟩
  · refine ⟨by rw [hsame]; exact hshape', ?_⟩
    rcases h with ⟨hend, h⟩ | h
    · refine .inl ⟨hend, ?_⟩
      rw [hsame]
      have hkept := h.kept
      rw [hsplit] at hkept
      refine hkept.perm ((actives_split _ _ _).trans ?_)
      rw [actives, actives, actives, List.flatMap_append]
    · refine .inr ⟨by rw [hsame]; exact hshape', h.kept, h.exhausted, h.endgame, fun e he => ?_⟩
      rw [hsame] at he
      refine h.asked e ?_
      rw [hsplit]
      rcases List.mem_append.1 he with he | he
      · exact List.mem_append_left _ he
      · exact List.mem_append_right _ (List.mem_cons_of_mem _ he)
  · rw [Downloader.ids, ids_of_roster hs'.2, Downloader.ids, ← hfilter, List.filter_map]
    rfl

/-! ## Choking -/

theorem gotChoke_spec {s : Downloader} (h : Sound t s) {id : Nat} (hid : id ∈ s.ids) :
    Ensures (Fault.Excused t.toSetup) (s.gotChoke t id) (Sound t) := by
  obtain ⟨d, hd⟩ := get_of_mem hid
  rw [Downloader.gotChoke, hd]
  dsimp only
  refine .ite (fun _ => h) fun _ => ?_
  refine (letgo_spec ?_).mono fun _ hs' => hs'.1
  have hshape := h.shape
  obtain ⟨l₁, l₂, hsplit, hmod⟩ := modify_split hshape.ids hd
  obtain ⟨hdmem, hdid⟩ := mem_of_get hd
  let d' : Download := { d with choked := true, activeRequests := [] }
  -- choking and forgetting the requests at once
  have htwice : (Downloader.modify (s.modify id fun d => { d with choked := true }) id
      fun d => { d with activeRequests := [] }) =
      s.modify id fun d => { d with choked := true, activeRequests := [] } := by
    rw [Downloader.modify, Downloader.modify, Downloader.modify]
    simp only [List.map_map]
    congr 1
    refine List.map_congr_left fun e _ => ?_
    rw [Function.comp_apply]
    by_cases he : e.id = id
    · simp [he]
    · simp [he]
  rw [htwice]
  have hdown := hmod fun d => { d with choked := true, activeRequests := [] }
  have hok := hshape.ok d hdmem
  have hok' : d'.Ok t := ⟨fun _ => rfl, fun hne => absurd rfl hne, Nat.zero_le _,
    fun r hr => absurd hr List.not_mem_nil, List.nodup_nil, hok.has_lt⟩
  have hshape' : Shape t s.store s.picker (l₁ ++ d' :: l₂) := by
    rw [hsplit] at hshape
    exact hshape.replace rfl rfl hok'
  refine ⟨by rw [hdown]; exact hshape', ?_⟩
  rcases h with ⟨hend, h⟩ | h
  · refine .inl ⟨hend, ?_⟩
    rw [hdown]
    have hkept := h.kept
    rw [hsplit] at hkept
    refine hkept.perm ((actives_split _ _ _).trans (List.Perm.append_left _ ?_))
    exact (actives_split l₁ l₂ d').symm
  · exact .inr (h.modify hd (f := fun d => { d with choked := true, activeRequests := [] })
      rfl rfl hok' fun r hr => absurd hr List.not_mem_nil)

theorem gotUnchoke_spec {s : Downloader} (h : Sound t s) {id : Nat} (hid : id ∈ s.ids) :
    Ensures (Fault.Excused t.toSetup) (s.gotUnchoke t id) (Sound t) := by
  obtain ⟨d, hd⟩ := get_of_mem hid
  rw [Downloader.gotUnchoke, hd]
  dsimp only
  refine .ite (fun _ => ?_) fun _ => h
  have hok := h.shape.ok d (mem_of_get hd).1
  have hmod : Sound t (s.modify id fun d => { d with choked := false }) :=
    h.modify hd rfl rfl rfl ⟨fun hc => by (cases hc), hok.interested, hok.backlog, hok.has, hok.nodup,
      hok.has_lt⟩
  refine .ite (fun _ => ?_) fun _ => hmod
  exact (requestMore_spec hmod (get_modify hd rfl) rfl none).mono fun _ hs' => hs'.1

/-! ## Having pieces -/

theorem gotHave_loop {s : Downloader} {n : Nat} {base : Nat → Nat} {l : List Nat}
    (hsorted : s.picker.Sorted n base) (hnodup : l.Nodup) (hlt : ∀ p ∈ l, p < n) :
    Ensures (Fault.Excused t.toSetup) (l.foldlM (Downloader.gotHavePicker t) s) fun s' =>
      (∃ picker draws, s' = { s with picker := picker, draws := draws }) ∧
      s'.picker.Sorted n (fun p => base p + if p ∈ l then 1 else 0) ∧
      ∀ p, s'.picker.numinterests p = none ↔ s.picker.numinterests p = none := by
  have hloop := Ensures.foldlM_rest (E := Fault.Excused t.toSetup) (l := l) (s := s)
    (f := Downloader.gotHavePicker t) (I := fun rest s' =>
      (∃ picker draws, s' = { s with picker := picker, draws := draws }) ∧
      s'.picker.Sorted n (fun p => base p + if p ∈ l ∧ p ∉ rest then 1 else 0) ∧
      (∀ p, s'.picker.numinterests p = none ↔ s.picker.numinterests p = none) ∧
      rest.Nodup ∧ (∀ p ∈ rest, p ∈ l))
    ⟨⟨_, _, rfl⟩, hsorted.congr fun p _ => by simp, fun _ => Iff.rfl, hnodup, fun _ hp => hp⟩ ?_
  · refine hloop.mono fun s' ⟨hs', hsorted', hnum, _, _⟩ => ⟨hs', ?_, hnum⟩
    exact hsorted'.congr fun p _ => by simp
  · rintro p rest s' ⟨⟨picker, draws, rfl⟩, hsorted', hnum, hnodup', hin⟩
    obtain ⟨hp, hrest⟩ := List.nodup_cons.1 hnodup'
    have hpl := hin p List.mem_cons_self
    obtain ⟨picker', heq, hsorted'', hnum'⟩ := hsorted'.gotHave t.chance draws (hlt p hpl)
    rw [Downloader.gotHavePicker]
    dsimp only at heq ⊢
    rw [heq]
    refine ⟨⟨_, _, rfl⟩, hsorted''.congr fun q _ => ?_, fun q => (hnum' q).trans (hnum q), hrest,
      fun q hq => hin q (List.mem_cons_of_mem p hq)⟩
    rcases eq_or_ne q p with rfl | hqp
    · simp [hp, hpl]
    · simp [hqp]

/-- A peer has more than it had, and the picker knows. -/
theorem Sound.grown {s : Downloader} (h : Sound t s) {id : Nat} {d : Download}
    (hd : s.get id = some d) (has : Nat → Bool) (picker : Picker) (draws : Nat)
    (hmore : ∀ p, d.has p = true → has p = true) (hlt : ∀ p, has p = true → p < t.numPieces)
    (hsorted : ∀ l₁ l₂, s.downloads = l₁ ++ d :: l₂ →
      picker.Sorted t.numPieces (count (l₁ ++ { d with has := has } :: l₂)))
    (hnum : ∀ p, picker.numinterests p = none ↔ s.picker.numinterests p = none) :
    Sound t { s.modify id fun d => { d with has := has } with picker := picker, draws := draws } := by
  have hshape := h.shape
  obtain ⟨l₁, l₂, hsplit, hmod⟩ := modify_split hshape.ids hd
  have hok := hshape.ok d (mem_of_get hd).1
  let d' : Download := { d with has := has }
  have hdown := hmod fun d => { d with has := has }
  have hsorted' := hsorted l₁ l₂ hsplit
  rw [hsplit] at hshape
  have hok' : d'.Ok t := ⟨hok.choked, hok.interested, hok.backlog,
    fun r hr => hmore _ (hok.has r hr), hok.nodup, hlt⟩
  have hshape' : Shape t s.store picker (l₁ ++ d' :: l₂) := by
    refine ⟨?_, fun e he => ?_, hsorted', fun p hp => (hnum p).trans (hshape.complete p hp), ?_⟩
    · have hids := hshape.ids
      simp only [List.map_append, List.map_cons] at hids ⊢
      exact hids
    · rcases List.mem_append.1 he with he | he
      · exact hshape.ok e (List.mem_append_left _ he)
      · obtain rfl | he := List.mem_cons.1 he
        · exact hok'
        · exact hshape.ok e (List.mem_append_right _ (List.mem_cons_of_mem _ he))
    · have hfew := hshape.few
      simp only [List.length_append, List.length_cons] at hfew ⊢
      exact hfew
  rcases h with ⟨hend, h⟩ | h
  · refine .inl ⟨hend, ⟨by dsimp only; rw [hdown]; exact hshape', ?_, h.exhausted⟩⟩
    dsimp only
    rw [hdown]
    have hkept := h.kept
    rw [hsplit] at hkept
    exact hkept.perm ((actives_split _ _ _).trans (actives_split l₁ l₂ d').symm)
  · refine .inr ⟨by dsimp only; rw [hdown]; exact hshape', h.kept, h.exhausted, h.endgame,
      fun e he r hr => ?_⟩
    dsimp only at he
    rw [hdown] at he
    have hasked := h.asked
    rw [hsplit] at hasked
    rcases List.mem_append.1 he with he | he
    · exact hasked e (List.mem_append_left _ he) r hr
    · obtain rfl | he := List.mem_cons.1 he
      · exact hasked d (List.mem_append_right _ List.mem_cons_self) r hr
      · exact hasked e (List.mem_append_right _ (List.mem_cons_of_mem _ he)) r hr

theorem Sound.fixDownloadEndgame {s : Downloader} (h : Sound t s)
    (hend : s.store.endgame = true) (id : Nat) : Sound t (s.fixDownloadEndgame t id) := by
  rcases h with ⟨hnot, -⟩ | h
  · exact absurd (hnot.symm.trans hend) Bool.false_ne_true
  · exact .inr (h.fixDownloadEndgame id).1

/-- The peer is told that we are interested. -/
theorem Sound.tell {s : Downloader} (h : Sound t s) {id : Nat} {d : Download}
    (hd : s.get id = some d) :
    Sound t ((s.modify id fun d => { d with interested := true }).send id .interested) :=
  Sound.sent (h.modify hd rfl rfl rfl
    ((h.shape.ok d (mem_of_get hd).1).interest fun _ => rfl)) _ _

theorem gotHave_spec {s : Downloader} (h : Sound t s) {id index : Nat} (hid : id ∈ s.ids)
    (hindex : index < t.numPieces) : Ensures (Fault.Excused t.toSetup) (s.gotHave t id index) (Sound t) := by
  obtain ⟨d, hd⟩ := get_of_mem hid
  have hshape := h.shape
  have hok := hshape.ok d (mem_of_get hd).1
  rw [Downloader.gotHave, hd]
  dsimp only
  refine .ite (fun _ => h) fun hnew => ?_
  obtain ⟨picker, heq, hsorted, hnum⟩ := hshape.sorted.gotHave t.chance s.draws hindex
  rw [Downloader.gotHavePicker, show (s.modify id _).picker = s.picker from rfl,
    show (s.modify id _).draws = s.draws from rfl, heq]
  have hgrown := h.grown hd (update d.has index true) picker (s.draws + 1)
    (fun p hp => by
      rcases eq_or_ne p index with rfl | hpi
      · exact update_self ..
      · rw [update_of_ne hpi]
        exact hp)
    (fun p hp => by
      rcases eq_or_ne p index with rfl | hpi
      · exact hindex
      · rw [update_of_ne hpi] at hp
        exact hok.has_lt p hp)
    (fun l₁ l₂ hsplit => hsorted.congr fun p _ => by
      rw [count_split, hsplit]
      rcases eq_or_ne p index with rfl | hpi
      · rw [update_self, count_split]
        simp [hnew]
      · rw [update_of_ne hpi, count_split]
        simp [hpi]) hnum
  refine Ensures.bind (P := fun s₁ => Sound t s₁ ∧
    s₁.get id = some { d with has := update d.has index true })
    ⟨hgrown, get_modify hd rfl⟩ fun s₁ ⟨h₁, hd₁⟩ => ?_
  refine .ite (fun _ => ?_) fun _ => .ite (fun hend => h₁.fixDownloadEndgame hend id) fun _ =>
    .ite (fun _ => .ite (fun hunchoked => ?_) fun _ => .ite (fun _ => h₁) fun _ => h₁.tell hd₁)
      fun _ => h₁
  · exact (disconnected_spec h₁ (ids_of_get hd₁)).mono fun _ hs' => hs'.1
  · exact (requestMore_spec h₁ hd₁ (by simpa using hunchoked) _).mono fun _ hs' => hs'.1

/-- The first message may say what the peer has. -/
theorem gotHaveBitfield_spec {s : Downloader} (h : Sound t s) {id : Nat} {has : Nat → Bool}
    (hlt : ∀ p, has p = true → p < t.numPieces) {d : Download} (hd : s.get id = some d)
    (hnone : ∀ p, d.has p = false) :
    Ensures (Fault.Excused t.toSetup) (s.gotHaveBitfield t id has) (Sound t) := by
  have hshape := h.shape
  rw [Downloader.gotHaveBitfield, hd]
  dsimp only
  refine (gotHave_loop (s := s.modify id fun d => { d with has := has }) hshape.sorted
    (List.nodup_range.filter _) fun p hp =>
      List.mem_range.1 (List.mem_filter.1 hp).1).bind ?_
  rintro s₁ ⟨⟨picker, draws, rfl⟩, hsorted, hnum⟩
  have hgrown := h.grown hd has picker draws
    (fun p hp => by rw [hnone] at hp; cases hp) hlt
    (fun l₁ l₂ hsplit => hsorted.congr fun p hp => by
      rw [count_split, hsplit, count_split]
      simp [hnone, hp]) hnum
  have hd₁ := get_modify hd (f := fun d => { d with has := has }) rfl
  generalize hs₁ : ({ s.modify id fun d => { d with has := has } with
    picker := picker, draws := draws } : Downloader) = s₁ at hgrown ⊢
  replace hd₁ : s₁.get id = some { d with has := has } := by rw [← hs₁]; exact hd₁
  refine .ite (fun _ => ?_) fun _ => .ite (fun _ => hgrown.tell hd₁) fun _ =>
    .ite (fun _ => hgrown.tell hd₁) fun _ => hgrown
  exact (disconnected_spec hgrown (ids_of_get hd₁)).mono fun _ hs' => hs'.1

/-! ## A block comes in, in the endgame -/

theorem Ending.weaken {R R' : Nat → Block → Prop} {s : Downloader} (h : Ending t R s)
    (himp : ∀ d ∈ s.downloads, ∀ r ∈ d.activeRequests, R d.id r → r ∈ s.allRequests ∨ R' d.id r) :
    Ending t R' s :=
  ⟨h.shape, h.kept, h.exhausted, h.endgame, fun d hd r hr =>
    (h.asked d hd r hr).elim .inl (himp d hd r hr)⟩

theorem fixDownloadEndgame_fields (s : Downloader) (id : Nat) :
    (s.fixDownloadEndgame t id).allRequests = s.allRequests ∧
      (s.fixDownloadEndgame t id).store = s.store := by
  rw [Downloader.fixDownloadEndgame]
  cases s.get id with
  | none => exact ⟨rfl, rfl⟩
  | some d =>
    dsimp only
    split
    · exact ⟨rfl, rfl⟩
    · split
      · split
        · exact ⟨rfl, rfl⟩
        · exact ⟨rfl, rfl⟩
      · obtain ⟨sent, hsent⟩ := foldl_send (Downloader.modify { (if d.interested = false ∧
            (s.allRequests.filter fun a => d.has a.1 && decide (a ∉ d.activeRequests)) ≠ [] then
            (s.modify id fun d => { d with interested := true }).send id .interested else s) with
            draws := _ } id _) id _
        rw [hsent]
        dsimp only [Downloader.modify]
        split
        · exact ⟨rfl, rfl⟩
        · exact ⟨rfl, rfl⟩

/-- The block `r` is left on the lists of those whose turn is still to come. -/
def Left (self : Nat) (r : Block) (rest : List Nat) (id : Nat) (x : Block) : Prop :=
  x = r ∧ id ≠ self ∧ id ∈ rest

theorem Ending.cancelOther {s : Downloader} {self id : Nat} {r : Block} {rest : List Nat}
    (h : Ending t (Left self r (id :: rest)) s) (hr : r ∉ s.allRequests) :
    Ending t (Left self r rest) (Downloader.cancelOther t self r s id) ∧
      roster (Downloader.cancelOther t self r s id).downloads = roster s.downloads ∧
      r ∉ (Downloader.cancelOther t self r s id).allRequests := by
  -- it is enough that the download `id` has no `r`, unless it is `self`
  have hdone : (∀ d ∈ s.downloads, d.id = id → id = self ∨ r ∉ d.activeRequests) →
      Ending t (Left self r rest) s := by
    refine fun hnot => h.weaken fun d hd x hx hleft => .inr ⟨hleft.1, hleft.2.1, ?_⟩
    refine (List.mem_cons.1 hleft.2.2).resolve_left fun hid => ?_
    rcases hnot d hd hid with hself | hnr
    · exact hleft.2.1 (hid.trans hself)
    · exact hnr (hleft.1 ▸ hx)
  rw [Downloader.cancelOther]
  cases hd : s.get id with
  | none =>
    refine ⟨hdone fun d hdm hid => ?_, rfl, hr⟩
    obtain ⟨d', hd'⟩ := get_of_mem (s := s) (List.mem_map.2 ⟨d, hdm, hid⟩)
    rw [hd] at hd'
    cases hd'
  | some d =>
    obtain ⟨hdm, hdid⟩ := mem_of_get hd
    have hok := h.shape.ok d hdm
    have honly : ∀ e ∈ s.downloads, e.id = id → e = d := fun e he heq =>
      List.inj_on_of_nodup_map h.shape.ids he hdm (heq.trans hdid.symm)
    dsimp only
    split
    · rename_i hskip
      refine ⟨hdone fun e he hid => ?_, rfl, hr⟩
      rw [honly e he hid]
      refine hskip.imp (fun hself => hself) fun hint hmem => ?_
      have htrue := hok.interested (List.ne_nil_of_mem hmem)
      rw [hint] at htrue
      cases htrue
    · rename_i hother
      split
      · rename_i hchoked
        have hnil := hok.choked hchoked
        have hend : Ending t (Left self r rest) s := hdone fun e he hid => by
          rw [honly e he hid, hnil]
          exact .inr List.not_mem_nil
        obtain ⟨hfixed, hroster⟩ := hend.fixDownloadEndgame id
        exact ⟨hfixed, hroster, by rw [(fixDownloadEndgame_fields s id).1]; exact hr⟩
      · split
        · rename_i hmem
          have hmod : Ending t (Left self r rest) (s.modify id fun d =>
              { d with activeRequests := d.activeRequests.erase r }) := by
            have hok' : Download.Ok t { d with activeRequests := d.activeRequests.erase r } :=
              ⟨fun hc => by rw [hok.choked hc]; rfl, fun hne => hok.interested fun hnil =>
                hne (by rw [hnil]; rfl), Nat.le_trans List.length_erase_le hok.backlog,
                fun x hx => hok.has x (List.mem_of_mem_erase hx), hok.nodup.erase r, hok.has_lt⟩
            have hmod₀ := h.modify hd (f := fun d =>
              { d with activeRequests := d.activeRequests.erase r }) rfl rfl hok' fun x hx =>
                h.asked d hdm x (List.mem_of_mem_erase hx)
            refine hmod₀.weaken fun e he x hx hleft => .inr ⟨hleft.1, hleft.2.1, ?_⟩
            refine (List.mem_cons.1 hleft.2.2).resolve_left fun hid => ?_
            have hget := get_modify hd (f := fun d =>
              { d with activeRequests := d.activeRequests.erase r }) rfl
            have hsame := List.inj_on_of_nodup_map hmod₀.shape.ids he (mem_of_get hget).1
              (hid.trans hdid.symm)
            rw [hsame, hleft.1] at hx
            exact hok.nodup.not_mem_erase hx
          obtain ⟨hfixed, hroster⟩ := (hmod.sent s.draws (s.sent ++ [(id, .cancel r)])).fixDownloadEndgame id
          refine ⟨hfixed, hroster.trans (roster_modify s id fun _ => ⟨rfl, rfl, rfl⟩), ?_⟩
          rw [(fixDownloadEndgame_fields _ id).1]
          exact hr
        · rename_i hnot
          exact ⟨hdone fun e he hid => by rw [honly e he hid]; exact .inr hnot, rfl, hr⟩

theorem Ending.cancelAll {s : Downloader} {self : Nat} {r : Block} {l : List Nat}
    (h : Ending t (Left self r l) s) (hr : r ∉ s.allRequests) :
    Ending t Nothing (l.foldl (Downloader.cancelOther t self r) s) ∧
      roster (l.foldl (Downloader.cancelOther t self r) s).downloads = roster s.downloads := by
  induction l generalizing s with
  | nil => exact ⟨h.weaken fun _ _ _ _ hleft => absurd hleft.2.2 List.not_mem_nil, rfl⟩
  | cons id l ih =>
    obtain ⟨hend, hroster, hr'⟩ := h.cancelOther hr
    obtain ⟨hend', hroster'⟩ := ih hend hr'
    exact ⟨hend', hroster'.trans hroster⟩

/-- A broken piece in the endgame: those of its blocks that are not yet asked for again
are to be asked for. -/
structure Broken (t : Torrent D) (R : Nat → Block → Prop) (index : Nat) (s : Downloader) :
    Prop where
  shape : Shape t s.store s.picker s.downloads
  kept : Kept t.toSetup s.store s.allRequests
  others : ∀ p < t.numPieces, p ≠ index → pending t.toSetup s.store p = []
  endgame : s.store.endgame = true
  asked : ∀ d ∈ s.downloads, ∀ r ∈ d.activeRequests, r ∈ s.allRequests ∨ R d.id r
  again : ∀ b ∈ t.blocks index, b ∈ pending t.toSetup s.store index ∨ (index, b) ∈ s.allRequests

theorem Broken.requestBroken {R : Nat → Block → Prop} {index k : Nat} {s : Downloader}
    (h : Broken t R index s) (hindex : index < t.numPieces)
    (hk : (pending t.toSetup s.store index).length ≤ k) :
    Ensures (Fault.Excused t.toSetup) (Downloader.requestBroken t index k s) fun s' =>
      Ending t R s' ∧ ∀ b ∈ t.blocks index, (index, b) ∈ s'.allRequests := by
  have hdone : ∀ {s : Downloader}, Broken t R index s → pending t.toSetup s.store index = [] →
      Ending t R s ∧ ∀ b ∈ t.blocks index, (index, b) ∈ s.allRequests := by
    refine fun h hnil => ⟨⟨h.shape, h.kept, fun p hp => ?_, h.endgame, h.asked⟩, fun b hb => ?_⟩
    · rcases eq_or_ne p index with rfl | hpi
      · exact hnil
      · exact h.others p hp hpi
    · refine (h.again b hb).resolve_left fun hmem => ?_
      rw [hnil] at hmem
      cases hmem
  induction k generalizing s with
  | zero => exact hdone h (List.eq_nil_of_length_eq_zero (Nat.le_zero.1 hk))
  | succ k ih =>
    rw [Downloader.requestBroken]
    refine .ite (fun hwant => ?_) fun hnot => hdone h ?_
    · have hne := (wants_iff hindex).1 hwant
      obtain ⟨b, store, heq, hkept⟩ := h.kept.newRequest hindex hwant
      obtain ⟨b', hb', hmin⟩ := Store.exists_minBlock hne
      rw [heq]
      cases heq.symm.trans (Store.newRequest_eq hmin)
      have hnow : ∀ s' : Store, s'.inactiveRequests index =
          .list ((pending t.toSetup s.store index).erase b) →
          pending t.toSetup s' index = (pending t.toSetup s.store index).erase b :=
        fun s' hs' => by rw [pending, hs']
      refine ih ⟨h.shape.store rfl, hkept.perm (List.perm_append_singleton _ _).symm, fun p hp hpi => ?_, ?_,
        fun d hd r hr => ?_, fun b' hb'' => ?_⟩ ?_
      · rw [pending]
        dsimp only
        rw [update_of_ne hpi]
        exact h.others p hp hpi
      · dsimp only
        rw [h.endgame, Bool.true_or]
      · exact (h.asked d hd r hr).imp_left (List.mem_append_left _)
      · dsimp only
        rw [hnow _ (update_self ..)]
        rcases h.again b' hb'' with hmem | hmem
        · rcases eq_or_ne b' b with rfl | hbb
          · exact .inr (List.mem_append_right _ (List.mem_singleton_self _))
          · exact .inl ((List.mem_erase_of_ne hbb).2 hmem)
        · exact .inr (List.mem_append_left _ hmem)
      · dsimp only
        rw [hnow _ (update_self ..), List.length_erase_of_mem hb']
        omega
    · by_contra hne
      exact hnot ((wants_iff hindex).2 hne)

/-! ## A block comes in -/

/-- The picker and the store agree again on the pieces that are there. -/
theorem completePiece_spec {s : Downloader} {store : Store} {index : Nat} {ok : Bool}
    (h : Shape t s.store s.picker s.downloads) (hindex : index < t.numPieces)
    (hmiss : s.store.has index = false) (hcame : CameIn t.toSetup s.store store index ok) :
    ∃ picker, Downloader.completePiece { s with store := store } index =
        .ok { s with store := store, picker := picker } ∧
      Shape t store picker s.downloads := by
  rw [Downloader.completePiece]
  dsimp only
  rcases hcame.has with hsame | ⟨-, hnew⟩
  · rw [hsame, hmiss]
    exact ⟨s.picker, if_neg Bool.false_ne_true, h.store hsame⟩
  · have hleft : s.picker.numinterests index ≠ none := fun hnone => by
      rw [(h.complete index hindex).1 hnone] at hmiss
      cases hmiss
    obtain ⟨picker, heq, hsorted, hnum⟩ := h.sorted.complete hindex hleft
    rw [hnew, update_self, if_pos rfl, heq]
    refine ⟨picker, rfl, h.ids, h.ok, hsorted, fun p hp => ?_, h.few⟩
    rw [hnum, hnew]
    rcases eq_or_ne p index with rfl | hpi
    · simp
    · rw [update_of_ne hpi, update_of_ne hpi]
      exact h.complete p hp

theorem closeSeeds_spec {s : Downloader} (h : Sound t s) :
    Ensures (Fault.Excused t.toSetup) (s.closeSeeds t) (Sound t) := by
  rw [Downloader.closeSeeds]
  refine .ite (fun _ => ?_) fun _ => h
  refine (Ensures.foldlM_rest (I := fun rest s' => Sound t s' ∧ rest.Nodup ∧ ∀ x ∈ rest, x ∈ s'.ids)
    ⟨h, ?_, fun x hx => ?_⟩ ?_).mono fun _ hs' => hs'.1
  · exact h.shape.ids.sublist (List.filter_sublist.map _)
  · exact (List.filter_sublist.map Download.id).subset hx
  · rintro x rest s' ⟨hs', hnodup, hin⟩
    obtain ⟨hx, hrest⟩ := List.nodup_cons.1 hnodup
    refine (disconnected_spec hs' (hin x List.mem_cons_self)).mono fun s'' hs'' =>
      ⟨hs''.1, hrest, fun y hy => ?_⟩
    rw [hs''.2, List.mem_filter]
    refine ⟨hin y (List.mem_cons_of_mem x hy), ?_⟩
    simp only [bne_iff_ne, ne_eq]
    rintro rfl
    exact hx hy

/-- The block is not on the peer's list any more. -/
theorem Download.Ok.erase {d : Download} (h : d.Ok t) (r : Block) :
    Download.Ok t { d with activeRequests := d.activeRequests.erase r } :=
  ⟨fun hc => by rw [h.choked hc]; rfl, fun hne => h.interested fun hnil => hne (by rw [hnil]; rfl),
    Nat.le_trans List.length_erase_le h.backlog, fun x hx => h.has x (List.mem_of_mem_erase hx),
    h.nodup.erase r, h.has_lt⟩

variable [DecidableEq D]

/-- A block on its way comes in before the endgame. -/
theorem writePiece_asking {s : Downloader} {out : List Block} {id index start : Nat}
    {piece : List UInt8} {d : Download} (io : Option String)
    (h : Shape t s.store s.picker s.downloads) (hkept : Kept t.toSetup s.store out)
    (hend : s.store.endgame = false)
    (hr : (index, start, piece.length) ∈ out)
    (hperm : (out.erase (index, start, piece.length)).Perm (actives s.downloads))
    (hd : s.get id = some d) (hchoked : d.choked = false) :
    Ensures (Fault.Excused t.toSetup) (s.writePiece t io id index start piece) fun r => Sound t r.2 := by
  have hindex : index < t.numPieces := hkept.out_lt _ hr
  have hmiss : s.store.has index = false := hkept.has_of_out hr
  rw [Downloader.writePiece]
  rcases hkept.pieceCameIn io hr with ⟨f, hf, heq⟩ | ⟨ok, store, heq, hcame, hkept'⟩
  · rw [heq]
    exact hf
  have hend' : store.endgame = false := hcame.endgame.trans hend
  have hsound : ∀ (picker : Picker), Shape t store picker s.downloads →
      Sound t { s with store := store, picker := picker } := fun picker hshape =>
    .inl ⟨hend', hshape, hkept'.perm hperm, fun hending =>
      absurd (hend'.symm.trans hending) Bool.false_ne_true⟩
  rw [heq]
  cases ok with
  | false =>
    have hhas : store.has = s.store.has := hcame.has.resolve_right fun hno => by cases hno.1
    have hleft : s.picker.numinterests index ≠ none := fun hnone => by
      rw [(h.complete index hindex).1 hnone] at hmiss
      cases hmiss
    obtain ⟨picker, hbump, hsorted, hnum⟩ := h.sorted.bump hindex hleft
    have hshape : Shape t store picker s.downloads :=
      ⟨h.ids, h.ok, hsorted, fun p hp => by rw [hnum, hhas]; exact h.complete p hp, h.few⟩
    change Ensures (Fault.Excused t.toSetup) (Downloader.pieceBroken t { s with store := store } index) _
    rw [Downloader.pieceBroken, if_neg (by dsimp only; rw [hend']; exact Bool.false_ne_true)]
    dsimp only
    rw [hbump]
    exact (requestAll_spec (hsound picker hshape) [index]).bind fun s' hs' => hs'.1
  | true =>
    obtain ⟨picker, hcomplete, hshape⟩ := completePiece_spec h hindex hmiss hcame
    change Ensures (Fault.Excused t.toSetup) (Downloader.pieceWritten t { s with store := store } id
      (index, start, piece.length)) _
    rw [Downloader.pieceWritten, hcomplete]
    refine Ensures.bind (P := fun s' => s' = { s with store := store, picker := picker })
      (.ok rfl) ?_
    rintro _ rfl
    rw [if_neg (by dsimp only; rw [hend']; exact Bool.false_ne_true)]
    exact (requestMore_spec (hsound picker hshape) hd hchoked none).bind fun s' hs' =>
      (closeSeeds_spec hs'.1).bind fun s'' hs'' => hs''

/-- A block on its way comes in during the endgame. -/
theorem writePiece_ending {s : Downloader} {out : List Block} {id index start : Nat}
    {piece : List UInt8} {d : Download} (io : Option String)
    (h : Shape t s.store s.picker s.downloads) (hkept : Kept t.toSetup s.store out)
    (hend : s.store.endgame = true)
    (hexhausted : Exhausted t s.store) (hr : (index, start, piece.length) ∈ out)
    (hall : s.allRequests = out.erase (index, start, piece.length))
    (hasked : ∀ d ∈ s.downloads, ∀ r ∈ d.activeRequests, r ∈ out)
    (hd : s.get id = some d) (hchoked : d.choked = false)
    (hself : (index, start, piece.length) ∉ d.activeRequests) :
    Ensures (Fault.Excused t.toSetup) (s.writePiece t io id index start piece) fun r => Sound t r.2 := by
  have hindex : index < t.numPieces := hkept.out_lt _ hr
  have hmiss : s.store.has index = false := hkept.has_of_out hr
  -- what a peer has been asked for is still on its way, or is the block that came in
  have hloose : ∀ e ∈ s.downloads, ∀ x ∈ e.activeRequests,
      x ∈ s.allRequests ∨ x = (index, start, piece.length) := by
    intro e he x hx
    by_cases hxr : x = (index, start, piece.length)
    · exact .inr hxr
    · rw [hall]
      exact .inl ((List.mem_erase_of_ne hxr).2 (hasked e he x hx))
  rw [Downloader.writePiece]
  rcases hkept.pieceCameIn io hr with ⟨f, hf, heq⟩ | ⟨ok, store, heq, hcame, hkept'⟩
  · rw [heq]
    exact hf
  have hend' : store.endgame = true := hcame.endgame.trans hend
  rw [← hall] at hkept'
  rw [heq]
  cases ok with
  | false =>
    have hhas : store.has = s.store.has := hcame.has.resolve_right fun hno => by cases hno.1
    obtain ⟨hagain, hothers⟩ := hcame.bad rfl
    have hbroken : Broken t (fun _ x => x = (index, start, piece.length)) index
        { s with store := store } :=
      ⟨h.store hhas, hkept', fun p hp hpi => (hothers p hpi).trans (hexhausted p hp), hend', hloose,
        fun b hb => .inl (hagain ▸ hb)⟩
    change Ensures (Fault.Excused t.toSetup) (Downloader.pieceBroken t { s with store := store } index) _
    rw [Downloader.pieceBroken, if_pos hend']
    refine (hbroken.requestBroken hindex (by rw [show pending t.toSetup _ index = _ from hagain])).bind
      fun s' hs' => ?_
    obtain ⟨hending, hin⟩ := hs'
    -- the block is one of those that are asked for again
    have hblock : (start, piece.length) ∈ t.blocks index :=
      (hkept.pending_subperm hindex).subset (List.mem_append_right _ (mem_blocksOf.2 hr))
    have hnow : Ending t Nothing s' := hending.weaken fun e _ x _ hx => .inl (by
      rw [hx]
      exact hin _ hblock)
    exact .inr hnow.fixAll.1
  | true =>
    obtain ⟨picker, hcomplete, hshape⟩ := completePiece_spec h hindex hmiss hcame
    have hnone : (index, start, piece.length) ∉ s.allRequests := by
      rw [hall]
      exact hkept.out_nodup.not_mem_erase
    have hending : Ending t (Left id (index, start, piece.length) s.ids)
        { s with store := store, picker := picker } := by
      refine ⟨hshape, hkept', fun p hp => ?_, hend', fun e he x hx => ?_⟩
      · rcases hcame.good rfl p with hsame | hnil
        · exact hsame.trans (hexhausted p hp)
        · exact hnil
      · refine (hloose e he x hx).imp_right fun hxr => ⟨hxr, fun heid => ?_,
          List.mem_map_of_mem he⟩
        have hsame := List.inj_on_of_nodup_map h.ids he (mem_of_get hd).1
          (heid.trans (mem_of_get hd).2.symm)
        rw [hsame, hxr] at hx
        exact hself hx
    obtain ⟨hcancelled, hroster⟩ := hending.cancelAll hnone
    obtain ⟨d', hd', hchoked', -⟩ := get_of_roster hroster hshape.ids hd
    change Ensures (Fault.Excused t.toSetup) (Downloader.pieceWritten t { s with store := store } id
      (index, start, piece.length)) _
    rw [Downloader.pieceWritten, hcomplete]
    refine Ensures.bind (P := fun s' => s' = { s with store := store, picker := picker })
      (.ok rfl) ?_
    rintro _ rfl
    rw [if_pos hend']
    exact (requestMore_spec (.inr hcancelled) hd' (hchoked'.trans hchoked) none).bind fun s' hs' =>
      (closeSeeds_spec hs'.1).bind fun s'' hs'' => hs''

/-- A peer sends a block, whether we asked for it or not. -/
theorem gotPiece_spec {s : Downloader} (h : Sound t s) (io : Option String) {id : Nat}
    (hid : id ∈ s.ids) (index start : Nat) (piece : List UInt8) :
    Ensures (Fault.Excused t.toSetup) (s.gotPiece t io id index start piece) fun r => Sound t r.2 := by
  obtain ⟨d, hd⟩ := get_of_mem hid
  obtain ⟨hdm, hdid⟩ := mem_of_get hd
  rw [Downloader.gotPiece, hd]
  refine .ite (fun _ => h) fun hr => ?_
  replace hr := not_not.1 hr
  have hshape := h.shape
  have hok := hshape.ok d hdm
  obtain ⟨l₁, l₂, hsplit, hmod⟩ := modify_split hshape.ids hd
  let d' : Download :=
    { d with activeRequests := d.activeRequests.erase (index, start, piece.length) }
  have hdown : (s.modify id fun d => { d with
      activeRequests := d.activeRequests.erase (index, start, piece.length) }).downloads =
      l₁ ++ d' :: l₂ := hmod _
  have hd' : (s.modify id fun d => { d with
      activeRequests := d.activeRequests.erase (index, start, piece.length) }).get id = some d' :=
    get_modify hd rfl
  have hshape' : Shape t s.store s.picker (l₁ ++ d' :: l₂) := by
    rw [hsplit] at hshape
    exact hshape.replace rfl rfl (hok.erase _)
  have hchoked : d'.choked = false := by
    by_contra hc
    rw [hok.choked (Bool.not_eq_false _ ▸ hc)] at hr
    cases hr
  rcases h with ⟨hend, h⟩ | h
  · have hout := (actives_sublist hdm).subset hr
    rw [Downloader.takeOff, if_neg (by
      rw [show (s.modify id _).store = s.store from rfl, hend]; exact Bool.false_ne_true)]
    refine writePiece_asking io (by rw [hdown]; exact hshape') h.kept hend hout ?_ hd' hchoked
    rw [hdown, hsplit]
    refine ((actives_split l₁ l₂ d).erase _).trans ?_
    rw [List.erase_append_left _ hr]
    exact (actives_split l₁ l₂ d').symm
  · have hout : (index, start, piece.length) ∈ s.allRequests :=
      (h.asked d hdm _ hr).resolve_right fun hno => hno
    rw [Downloader.takeOff, if_pos (show (s.modify id _).store.endgame = true from h.endgame),
      if_pos (show _ ∈ (s.modify id _).allRequests from hout)]
    refine writePiece_ending io (by dsimp only; rw [hdown]; exact hshape') h.kept h.endgame
      h.exhausted hout rfl (fun e he x hx => ?_) hd' hchoked hok.nodup.not_mem_erase
    dsimp only at he
    rw [hdown] at he
    have hall : ∀ e ∈ s.downloads, ∀ x ∈ e.activeRequests, x ∈ s.allRequests :=
      fun e he x hx => (h.asked e he x hx).resolve_right fun hno => hno
    rw [hsplit] at hall
    rcases List.mem_append.1 he with he | he
    · exact hall e (List.mem_append_left _ he) x hx
    · obtain rfl | he := List.mem_cons.1 he
      · exact hall d (List.mem_append_right _ List.mem_cons_self) x (List.mem_of_mem_erase hx)
      · exact hall e (List.mem_append_right _ (List.mem_cons_of_mem _ he)) x hx

/-! ## The system -/

/-- What a peer does, and what an upload reads. -/
inductive Event
  | makeDownload (id : Nat)
  | disconnected (id : Nat)
  | gotChoke (id : Nat)
  | gotUnchoke (id : Nat)
  | gotHave (id index : Nat)
  | gotHaveBitfield (id : Nat) (has : Nat → Bool)
  | gotPiece (io : Option String) (id index start : Nat) (piece : List UInt8)
  | getPiece (io : Option String) (index start length : Nat)

/-- A peer is connected, and `Connecter.got_message` has checked its message: an index is one
of a piece, and a bitfield comes first. -/
def Event.Allowed (t : Torrent D) (s : Downloader) : Event → Prop
  | makeDownload id => id ∉ s.ids ∧ s.downloads.length + 1 < 2 ^ 30
  | disconnected id | gotChoke id | gotUnchoke id | gotPiece _ id _ _ _ => id ∈ s.ids
  | gotHave id index => id ∈ s.ids ∧ index < t.numPieces
  | gotHaveBitfield id has => (∃ d, s.get id = some d ∧ ∀ p, d.has p = false) ∧
      ∀ p, has p = true → p < t.numPieces
  | getPiece _ index _ _ => index < t.numPieces

def Event.result (t : Torrent D) (s : Downloader) : Event → Except Fault Downloader
  | makeDownload id => .ok (s.makeDownload id)
  | disconnected id => Downloader.disconnected t s id
  | gotChoke id => s.gotChoke t id
  | gotUnchoke id => s.gotUnchoke t id
  | gotHave id index => s.gotHave t id index
  | gotHaveBitfield id has => s.gotHaveBitfield t id has
  | gotPiece io id index start piece => do
    let (_, s) ← s.gotPiece t io id index start piece
    .ok s
  | getPiece io index start length => do
    let (_, store) ← s.store.getPiece t.toSetup io index start length
    .ok { s with store := store }

inductive Swarm.Step (t : Torrent D) :
    Except Fault Downloader → Event → Except Fault Downloader → Prop
  | event {s : Downloader} {e : Event} (h : e.Allowed t s) : Step t (.ok s) e (e.result t s)

def swarm (t : Torrent D) (disk : Medium UInt8) : LTS (Except Fault Downloader) Event where
  init st := st = Downloader.start t (Store.start t.toSetup disk)
  step := Swarm.Step t

theorem getPiece_spec {s : Downloader} (h : Sound t s) (io : Option String) {index : Nat}
    (hi : index < t.numPieces) (start len : Nat) :
    Ensures (Fault.Excused t.toSetup) ((Event.getPiece io index start len).result t s) (Sound t) := by
  have hread : ∀ {out : List Block}, Kept t.toSetup s.store out →
      (∃ f, f.Excused t.toSetup ∧ s.store.getPiece t.toSetup io index start len = .error f) ∨
      ∃ data store, s.store.getPiece t.toSetup io index start len = .ok (data, store) ∧
        Kept t.toSetup store out ∧ store.has = s.store.has ∧ store.endgame = s.store.endgame ∧
        pending t.toSetup store = pending t.toSetup s.store := by
    intro out hkept
    rcases hkept.getPiece io hi start len with herr | ⟨data, store, heq, hkept', -⟩
    · exact .inl herr
    · obtain ⟨checked, rfl⟩ := Store.getPiece_state heq
      exact .inr ⟨data, _, heq, hkept', rfl, rfl, rfl⟩
  rw [Event.result]
  rcases h with ⟨hend, h⟩ | h
  · rcases hread h.kept with ⟨f, hf, heq⟩ | ⟨data, store, heq, hkept, hhas, hend', -⟩
    · rw [heq]
      exact hf
    · rw [heq]
      exact .inl ⟨hend'.trans hend, h.shape.store hhas, hkept, fun hending =>
        absurd ((hend'.trans hend).symm.trans hending) Bool.false_ne_true⟩
  · rcases hread h.kept with ⟨f, hf, heq⟩ | ⟨data, store, heq, hkept, hhas, hend', hpending⟩
    · rw [heq]
      exact hf
    · rw [heq]
      refine .inr ⟨h.shape.store hhas, hkept, fun p hp => ?_, hend'.trans h.endgame, h.asked⟩
      rw [hpending]
      exact h.exhausted p hp

theorem Event.sound {s : Downloader} (h : Sound t s) {e : Event} (hallowed : e.Allowed t s) :
    Ensures (Fault.Excused t.toSetup) (e.result t s) (Sound t) := by
  cases e with
  | makeDownload id => exact makeDownload_spec h hallowed.1 hallowed.2
  | disconnected id => exact (disconnected_spec h hallowed).mono fun _ hs' => hs'.1
  | gotChoke id => exact gotChoke_spec h hallowed
  | gotUnchoke id => exact gotUnchoke_spec h hallowed
  | gotHave id index => exact gotHave_spec h hallowed.1 hallowed.2
  | gotHaveBitfield id has =>
    obtain ⟨⟨d, hd, hnone⟩, hlt⟩ := hallowed
    exact gotHaveBitfield_spec h hlt hd hnone
  | gotPiece io id index start piece =>
    exact (gotPiece_spec h io hallowed index start piece).bind fun _ hr => hr
  | getPiece io index start length => exact getPiece_spec h io hallowed start length

theorem swarm_inductive (t : Torrent D) (disk : Medium UInt8) :
    (swarm t disk).Inductive fun st => Ensures (Fault.Excused t.toSetup) st (Sound t) where
  init st hst := by
    rw [hst]
    exact start_spec (Store.kept_start disk) (Store.start_requests disk).2.1
  step st e st' h hst := by
    obtain ⟨hallowed⟩ := hst
    exact Event.sound h hallowed

theorem sound_of_reachable {disk : Medium UInt8} {s : Downloader}
    (h : (swarm t disk).Reachable (.ok s)) : Sound t s :=
  (swarm_inductive t disk).reachable _ h

/-! ## Results -/

variable {disk : Medium UInt8}

/-- `twoPieces`, with the first of what there is at every choice. -/
def firstOfTwo (there : Nat → Bool) : Torrent (List UInt8) :=
  { twoPieces there with chance := .first, backlog := 5, cutoff := 4 }

theorem reachable_event {s : Downloader} {e : Event} {st : Except Fault Downloader}
    (h : (swarm t disk).Reachable (.ok s)) (hallowed : e.Allowed t s) (hst : e.result t s = st) :
    (swarm t disk).Reachable st :=
  hst ▸ h.trans (.cons (.event hallowed) (.nil _))

/-- A peer has the first piece of an empty disk (`s`) and lets us ask for it (`s'`). When that
is in, it has the other one, and sends that (`s''`). -/
theorem firstOfTwo_run : ∃ s s' s'' : Downloader,
    (swarm (firstOfTwo fun _ => false) abcd).Reachable (.ok s) ∧
    (swarm (firstOfTwo fun _ => false) abcd).Reachable (.ok s') ∧
    (swarm (firstOfTwo fun _ => false) abcd).Reachable (.ok s'') ∧
    (∃ d ∈ s.downloads, s.wants d 0 = true) ∧
    s'.ids = [7] ∧ actives s'.downloads = [(0, 0, 3)] ∧ s'.store.endgame = false ∧
    s''.picker.amIComplete 2 = true := by
  obtain ⟨s₀, s₁, s₂, s₃, s₄, s₅, s₆, hstart, hresult₁, hresult₂, hresult₃, hresult₄, hresult₅,
      hresult₆, hids₀, hlen₀, hids₁, hids₂, hids₃, hids₄, hids₅, hwants, hactives, hend, hdone⟩ :
      ∃ s₀ s₁ s₂ s₃ s₄ s₅ s₆ : Downloader,
        Downloader.start (firstOfTwo fun _ => false) (Store.start (twoPieces fun _ => false) abcd) =
          .ok s₀ ∧
        (Event.makeDownload 7).result (firstOfTwo fun _ => false) s₀ = .ok s₁ ∧
        (Event.gotHave 7 0).result (firstOfTwo fun _ => false) s₁ = .ok s₂ ∧
        (Event.gotUnchoke 7).result (firstOfTwo fun _ => false) s₂ = .ok s₃ ∧
        (Event.gotPiece none 7 0 0 [97, 98, 99]).result (firstOfTwo fun _ => false) s₃ = .ok s₄ ∧
        (Event.gotHave 7 1).result (firstOfTwo fun _ => false) s₄ = .ok s₅ ∧
        (Event.gotPiece none 7 1 0 [100]).result (firstOfTwo fun _ => false) s₅ = .ok s₆ ∧
        s₀.ids = [] ∧ s₀.downloads.length = 0 ∧ s₁.ids = [7] ∧ s₂.ids = [7] ∧ s₃.ids = [7] ∧
        s₄.ids = [7] ∧ s₅.ids = [7] ∧ (∃ d ∈ s₂.downloads, s₂.wants d 0 = true) ∧
        actives s₃.downloads = [(0, 0, 3)] ∧ s₃.store.endgame = false ∧
        s₆.picker.amIComplete 2 = true := by
    refine ⟨_, _, _, _, _, _, _, rfl, rfl, rfl, by with_unfolding_all rfl,
      by with_unfolding_all rfl, by with_unfolding_all rfl, by with_unfolding_all rfl, rfl, rfl,
      rfl, rfl, by with_unfolding_all rfl, by with_unfolding_all rfl, by with_unfolding_all rfl,
      ⟨_, List.mem_singleton_self _, rfl⟩, by with_unfolding_all rfl, by with_unfolding_all rfl,
      by with_unfolding_all rfl⟩
  have hzero : 0 < (firstOfTwo fun _ => false).numPieces := by decide
  have hone : 1 < (firstOfTwo fun _ => false).numPieces := by decide
  have hreach₀ : (swarm (firstOfTwo fun _ => false) abcd).Reachable (.ok s₀) :=
    hstart ▸ ⟨_, [], rfl, .nil _⟩
  have hreach₁ := reachable_event hreach₀ (by simp [Event.Allowed, hids₀, hlen₀]) hresult₁
  have hreach₂ := reachable_event hreach₁ (by simp [Event.Allowed, hids₁, hzero]) hresult₂
  have hreach₃ := reachable_event hreach₂ (by simp [Event.Allowed, hids₂]) hresult₃
  have hreach₄ := reachable_event hreach₃ (by simp [Event.Allowed, hids₃]) hresult₄
  have hreach₅ := reachable_event hreach₄ (by simp [Event.Allowed, hids₄, hone]) hresult₅
  have hreach₆ := reachable_event hreach₅ (by simp [Event.Allowed, hids₅]) hresult₆
  exact ⟨s₂, s₃, s₆, hreach₂, hreach₃, hreach₆, hwants, hids₃, hactives, hend, hdone⟩

/-- The blocks to be asked for and those in `out` make up what is missing: with those that
came in they are all the blocks of a missing piece, each of them once, and there is none of
a piece that is had. -/
def Needs (t : Torrent D) (s : Downloader) (out : List Block) : Prop :=
  ∀ p < t.numPieces,
    (s.store.has p = false → (pending t.toSetup s.store p ++ blocksOf out p ++
      blocksOf s.store.came p).Perm (t.blocks p)) ∧
    (s.store.has p = true ↔ pending t.toSetup s.store p ++ blocksOf out p = []) ∧
    (pending t.toSetup s.store p ++ blocksOf out p).Nodup

omit [DecidableEq D] in
theorem Kept.needs {s : Downloader} {out : List Block} (h : Kept t.toSetup s.store out) :
    Needs t s out := fun _ hp =>
  ⟨h.pending_perm hp, h.has_iff hp, nodup_of_subperm hp (h.pending_subperm hp)⟩

/-- A peer is asked for no more than `backlog` blocks, for blocks that it has and that we
do not have, and for none while it chokes us. Before the endgame what is asked of the peers
and what is still to be asked for make up what is missing; in the endgame all that is missing
is in `all_requests`, and nothing else is asked for. -/
theorem requests_of_peers {s : Downloader} (h : (swarm t disk).Reachable (.ok s)) :
    (∀ d ∈ s.downloads, (d.choked = true → d.activeRequests = []) ∧
      d.activeRequests.length ≤ t.backlog ∧ d.activeRequests.Nodup ∧
      ∀ r ∈ d.activeRequests, d.has r.1 = true ∧ s.store.has r.1 = false ∧ r.2 ∈ t.blocks r.1) ∧
    (s.store.endgame = false → Needs t s (actives s.downloads)) ∧
    (s.store.endgame = true → Needs t s s.allRequests ∧
      (∀ p < t.numPieces, pending t.toSetup s.store p = []) ∧
      ∀ r ∈ actives s.downloads, r ∈ s.allRequests) := by
  have hsound := sound_of_reachable h
  obtain ⟨out, hkept, hasked⟩ := hsound.kept_asked
  refine ⟨fun d hd => ?_, fun hend => ?_, fun hend => ?_⟩
  · have hok := hsound.shape.ok d hd
    refine ⟨hok.choked, hok.backlog, hok.nodup, fun r hr => ⟨hok.has r hr, ?_, ?_⟩⟩
    · exact hkept.has_of_out (hasked d hd r hr)
    · have hp := hkept.out_lt r (hasked d hd r hr)
      refine (hkept.pending_subperm hp).subset (List.mem_append_right _ ?_)
      exact mem_blocksOf.2 (hasked d hd r hr)
  · rcases hsound with ⟨-, hs⟩ | hs
    · exact hs.kept.needs
    · exact absurd (hs.endgame.symm.trans hend) Bool.noConfusion
  · rcases hsound with ⟨hnot, -⟩ | hs
    · exact absurd (hnot.symm.trans hend) Bool.noConfusion
    · refine ⟨hs.kept.needs, hs.exhausted, fun r hr => ?_⟩
      obtain ⟨d, hd, hrd⟩ := List.mem_flatMap.1 hr
      exact (hs.asked d hd r hrd).resolve_right fun hno => hno

/-- A block of one piece is on its way, and that of the other is to be asked for. -/
theorem requests_of_peers_asked : ∃ s : Downloader, actives s.downloads = [(0, 0, 3)] ∧
    Needs (firstOfTwo fun _ => false) s (actives s.downloads) := by
  obtain ⟨-, s, -, -, hreach, -, -, -, hactives, hend, -⟩ := firstOfTwo_run
  exact ⟨s, hactives, (requests_of_peers hreach).2.1 hend⟩

/-- `am_I_complete` says that nothing is left. Then no peer is asked for anything, `finished`
was called once, and the file is put together from pieces with the right hashes. -/
theorem swarm_completes {s : Downloader} (h : (swarm t disk).Reachable (.ok s)) :
    (s.picker.amIComplete t.numPieces = true ↔ s.store.amountLeft = 0) ∧
    (s.picker.amIComplete t.numPieces = true → s.store.finished = 1 ∧
      (∀ d ∈ s.downloads, d.activeRequests = []) ∧
      (t.checkHashes = true → ∃ pieces : List (List UInt8), pieces.map t.sha = t.hashes ∧
        pieces.flatten = s.store.disk.read 0 t.totalLength)) := by
  have hsound := sound_of_reachable h
  obtain ⟨out, hkept, hasked⟩ := hsound.kept_asked
  have hall : s.picker.amIComplete t.numPieces = true ↔
      ∀ p < t.numPieces, s.store.has p = true := by
    have hshape := hsound.shape
    have hcount := List.countP_eq_length (l := List.range t.numPieces)
      (p := fun p => s.picker.numinterests p == none)
    rw [← hshape.sorted.numgot, List.length_range] at hcount
    rw [Picker.amIComplete, beq_iff_eq, hcount]
    refine forall_congr' fun p => ?_
    rw [List.mem_range]
    refine imp_congr_right fun hp => ?_
    rw [beq_iff_eq, hshape.complete p hp]
  refine ⟨hall.trans hkept.left_eq_zero.symm, fun hdone => ⟨?_, fun d hd => ?_, fun hcheck =>
    hkept.verified_file hcheck (hall.1 hdone)⟩⟩
  · rw [hkept.finished, if_pos (hall.1 hdone)]
  · rw [List.eq_nil_iff_forall_not_mem]
    intro r hr
    have hout := hasked d hd r hr
    have hhas := hall.1 hdone r.1 (hkept.out_lt r hout)
    rw [hkept.has_of_out hout] at hhas
    cases hhas

theorem swarm_completes_loaded : ∃ s : Downloader, s.picker.amIComplete 2 = true ∧
    s.store.finished = 1 ∧ ∃ pieces : List (List UInt8),
      pieces.map id = [[97, 98, 99], [100]] ∧ pieces.flatten = s.store.disk.read 0 4 := by
  obtain ⟨-, -, s, -, -, hreach, -, -, -, -, hdone⟩ := firstOfTwo_run
  obtain ⟨hfinished, -, hfile⟩ := (swarm_completes hreach).2 hdone
  exact ⟨s, hdone, hfinished, hfile rfl⟩

/-- The piece to ask a peer for next: there is one if and only if the peer is good for one.
It is the rarest among those that were started, of a seed or of another peer as this one is,
or else, after `cutoff` pieces, the rarest of all, by the number of connected peers that
have it. -/
theorem rarest_first {s : Downloader} (h : (swarm t disk).Reachable (.ok s)) {d : Download}
    (hd : d ∈ s.downloads) : ∃ interest, s.pick t d none = .ok (interest, { s with
        draws := s.draws + 1 }) ∧
    (interest = none ↔ ∀ q, s.wants d q = false) ∧
    ∀ p, interest = some p → s.wants d p = true ∧
      (∀ q ∈ if d.seed t then s.picker.seedstarted else s.picker.started, s.wants d q = true →
        p ∈ (if d.seed t then s.picker.seedstarted else s.picker.started) ∧
          count s.downloads p ≤ count s.downloads q) ∧
      ((∀ q ∈ if d.seed t then s.picker.seedstarted else s.picker.started,
          s.wants d q = false) → t.cutoff ≤ s.picker.numgot →
        ∀ q, s.wants d q = true → count s.downloads p ≤ count s.downloads q) := by
  have hsound := sound_of_reachable h
  obtain ⟨out, hkept, -⟩ := hsound.kept_asked
  rw [Downloader.pick]
  rcases hsound.shape.sorted.next t.chance s.draws t.cutoff (d.seed t)
    (fun p => hsound.shape.wanted hkept hd (p := p)) with
      ⟨heq, hnone⟩ | ⟨p, heq, hwant, hstarted, hall⟩
  · rw [heq]
    exact ⟨none, rfl, ⟨fun _ => hnone, fun _ => rfl⟩, fun p hp => by cases hp⟩
  · rw [heq]
    refine ⟨some p, rfl, ⟨fun hno => (Option.some_ne_none p hno).elim, fun hno => ?_⟩, fun q hq => ?_⟩
    · rw [hno p] at hwant
      cases hwant
    · cases hq
      exact ⟨hwant, hstarted, hall⟩

theorem rarest_first_met : ∃ s : Downloader, ∃ d ∈ s.downloads, ∃ p,
    s.pick (firstOfTwo fun _ => false) d none = .ok (some p, { s with draws := s.draws + 1 }) ∧
      s.wants d p = true := by
  obtain ⟨s, -, -, hreach, -, -, ⟨d, hd, hwants⟩, -⟩ := firstOfTwo_run
  obtain ⟨interest, hpick, hnone, hsome⟩ := rarest_first hreach hd
  cases interest with
  | none => exact absurd ((hnone.1 rfl 0).symm.trans hwants) Bool.false_ne_true
  | some p => exact ⟨s, d, hd, p, hpick, (hsome p rfl).1⟩

end Wubi.Bittorrent
