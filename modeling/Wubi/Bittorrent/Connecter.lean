import Wubi.Bittorrent.Choker
import Wubi.Bittorrent.Roster
import Wubi.Bittorrent.Swarm
import Wubi.Bittorrent.Wire

/-!
# What comes in from the peers

The `Connecter` puts the downloader, the choker and the uploads behind the connections:
it is told when a connection is made, lost or flushed, and gets the messages of the
peers, which may be any bytes.

**Parameters.** `Options` is what the `Connecter` and what is behind it are made with.
A step is given the rates of the peers, which may be others for each call of the choker.
`room` says how many blocks go out before the socket or the rate limit has enough, and
for each what the `IOError` says that reading it raises, if one does, and whether the
limit is then exceeded. `_uncap` may serve the uploads in any order, so that only its
first line is a step. The messages of the downloader are kept by it (`Downloader.sent`),
those of the uploads here; the numbers in them are below `2 ** 32`, from where on
`tobinary` raises.

**Results.**
* `connecter_refines`: the downloader goes through a run of `swarm`, and the choker and
  the uploads through one of `choking`.
* `no_message_raises`: no bytes from the peers make one raise an exception.
* `blocks_sent`: a block is sent only for a request of the peer, once for each, and is
  what the piece has there.
-/
namespace Wubi.Bittorrent

structure Options (D : Type) extends Torrent D where
  maxSliceLength : Nat
  maxUploads : Nat
  minUploads : Nat

/-- A `Connection` of the `Connecter`; the `Upload` and the `SingleDownload` with the same
number are its own. -/
structure Connection where
  id : Nat
  gotAnything : Bool
deriving DecidableEq

structure Connecter where
  connections : List Connection
  downloader : Downloader
  choker : Choker
  rateCapped : Bool
  /-- what the uploads and `got_message` have sent, and to whom -/
  sent : List (Nat × Wire)

/-- The blocks that may go out: what reading one raises, and whether the rate limit is then
exceeded. -/
abbrev Room := List (Option String × Bool)

variable {D : Type} (o : Options D)

namespace Connecter

variable {R : Type} [LinearOrder R] (ratings : Nat → Rating R) (c : Connecter)

def ids : List Nat := c.connections.map Connection.id

def send (id : Nat) (m : Wire) : Connecter := { c with sent := c.sent ++ [(id, m)] }

/-! ## Connections -/

/-- `self.have` -/
def haveList (s : Store) : Bitfield where
  length := o.numPieces
  array := (List.range o.numPieces).map s.has
  numfalse := (List.range o.numPieces).countP fun p => !s.has p

/-- mirrors src/bittorrent/Connecter.py:139-144 and src/bittorrent/Uploader.py:18-19 -/
def connectionMade (id p : Nat) : Connecter :=
  let c : Connecter := { c with connections := c.connections ++ [⟨id, false⟩] }
  let c := if c.downloader.store.amountLeft < (o.totalLength : Int) then
      c.send id (.bitfield (haveList o c.downloader.store))
    else c
  { c with
    downloader := c.downloader.makeDownload id
    choker := c.choker.connectionMade (ratings id) id p }

/-- `connection_lost`, but for the `SingleDownload`.
mirrors src/bittorrent/Connecter.py:147-151 -/
def forget (id : Nat) : Connecter := { c with
  connections := c.connections.filter fun n => n.id != id
  choker := c.choker.connectionLost (ratings id) id }

/-- The downloader has done something, and closed some of the connections in the course
of it. -/
def settle (s : Downloader) : Connecter :=
  (c.ids.filter fun id => id ∉ s.ids).foldl (forget ratings) { c with downloader := s }

/-- mirrors src/bittorrent/Connecter.py:146-151 -/
def connectionLost (id : Nat) : Except Fault Connecter := do
  let s ← Downloader.disconnected o.toTorrent c.downloader id
  .ok (c.settle ratings s)

/-! ## Uploads -/

/-- mirrors src/bittorrent/Connecter.py:73-77 and :104-109 -/
def sendPiece (id index start : Nat) (block : Bytes) (capped : Bool) : Except Fault Connecter :=
  if c.rateCapped then .error .raised
  else .ok ({ c with rateCapped := capped }.send id (.piece index start block))

/-- mirrors src/bittorrent/Uploader.py:32-41 -/
def flushed [DecidableEq D] (id : Nat) : Room → Connecter → Except Fault Connecter
  | [], c => .ok c
  | (io, capped) :: room, c =>
    match c.choker.get id with
    | none => .ok c
    | some u =>
      match u.buffer with
      | [] => .ok c
      | (index, start, length) :: _ =>
        if c.rateCapped then .ok c
        else do
          let c := { c with choker := c.choker.answer id }
          let (piece, store) ← c.downloader.store.getPiece o.toSetup io index start length
          let c := { c with downloader := { c.downloader with store := store } }
          match piece with
          | none => c.connectionLost o ratings id
          | some block => do
            let c ← c.sendPiece id index start block capped
            flushed id room c

/-- mirrors src/bittorrent/Uploader.py:43-49 -/
def gotRequest [DecidableEq D] (id : Nat) (r : Nat × Nat × Nat) (room : Room) :
    Except Fault Connecter :=
  match c.choker.get id with
  | none => .error .raised
  | some u =>
    if u.interested = false ∨ o.maxSliceLength < r.2.2 then c.connectionLost o ratings id
    else if u.choked then .ok c
    else flushed o ratings id room { c with choker := c.choker.gotRequest id r }

/-! ## Messages -/

/-- The second half of `got_message`.
mirrors src/bittorrent/Connecter.py:167-221 -/
def understood [DecidableEq D] (id : Nat) (io : Option String) (room : Room) :
    Wire → Except Fault Connecter
  | .choke => do
    let s ← c.downloader.gotChoke o.toTorrent id
    .ok (c.settle ratings s)
  | .unchoke => do
    let s ← c.downloader.gotUnchoke o.toTorrent id
    .ok (c.settle ratings s)
  | .interested => .ok { c with choker := c.choker.gotInterested (ratings id) id }
  | .notInterested => .ok { c with choker := c.choker.gotNotInterested (ratings id) id }
  | .have index => do
    let s ← c.downloader.gotHave o.toTorrent id index
    .ok (c.settle ratings s)
  | .bitfield b => do
    let s ← c.downloader.gotHaveBitfield o.toTorrent id fun p => b.array.getD p false
    .ok (c.settle ratings s)
  | .request index start length => c.gotRequest o ratings id (index, start, length) room
  | .cancel index start length =>
    .ok { c with choker := c.choker.gotCancel id (index, start, length) }
  | .piece index start block => do
    let (ok, s) ← c.downloader.gotPiece o.toTorrent io id index start block
    let c := c.settle ratings s
    .ok (if ok then c.ids.foldl (fun c id => c.send id (.have index)) c else c)

/-- `KeyError` and `IndexError` are raised where nobody calls it.
mirrors src/bittorrent/Connecter.py:156-223 -/
def gotMessage [DecidableEq D] (id : Nat) (message : Bytes) (io : Option String)
    (room : Room) : Except Fault Connecter :=
  match c.connections.find? fun n => n.id == id with
  | none => .error .raised
  | some n =>
    if message = [] then .error .raised
    else
      match Wire.parse o.numPieces n.gotAnything message with
      | none => c.connectionLost o ratings id
      | some m =>
        let c : Connecter := { c with connections := c.connections.map fun n =>
          if n.id = id then { n with gotAnything := true } else n }
        c.understood o ratings id io room m

/-! ## Steps -/

inductive Event
  | connectionMade (id p : Nat)
  | connectionLost (id : Nat)
  | connectionFlushed (id : Nat) (room : Room)
  | gotMessage (id : Nat) (message : Bytes) (io : Option String) (room : Room)
  | uncap
  | roundRobin
  | changeMaxUploads (n : Nat)

/-- An `Encrypter.Connection` is told of only while it is open; its messages are not empty. -/
def Event.Allowed : Event → Prop
  | connectionMade id p =>
    id ∉ c.ids ∧ p ≤ c.connections.length ∧ c.connections.length + 1 < 2 ^ 30
  | connectionLost id | connectionFlushed id _ => id ∈ c.ids
  | gotMessage id message _ _ => id ∈ c.ids ∧ message ≠ []
  | uncap | roundRobin | changeMaxUploads _ => True

def Event.result [DecidableEq D] : Event → Except Fault Connecter
  | connectionMade id p => .ok (c.connectionMade o ratings id p)
  | connectionLost id => c.connectionLost o ratings id
  | connectionFlushed id room => flushed o ratings id room c
  | gotMessage id message io room => c.gotMessage o ratings id message io room
  | uncap => .ok { c with rateCapped := false }
  | roundRobin => .ok { c with choker := c.choker.roundRobin (ratings 0) }
  | changeMaxUploads n => .ok { c with choker := c.choker.changeMaxUploads (ratings 0) n }

inductive Step (R : Type) [LinearOrder R] [DecidableEq D] :
    Except Fault Connecter → Event → Except Fault Connecter → Prop
  | event {c : Connecter} {l : Event} (ratings : Nat → Rating R) (h : l.Allowed c) :
      Step R (.ok c) l (l.result o ratings c)

def start [DecidableEq D] (disk : Medium UInt8) : Except Fault Connecter := do
  let s ← Downloader.start o.toTorrent (Store.start o.toSetup disk)
  .ok {
    connections := []
    downloader := s
    choker := { connections := [], count := 0, maxUploads := o.maxUploads, minUploads := o.minUploads }
    rateCapped := false
    sent := [] }

end Connecter

/-- The rates may be any at every step. -/
def connecter (R : Type) [LinearOrder R] [DecidableEq D] (disk : Medium UInt8) :
    LTS (Except Fault Connecter) Connecter.Event where
  init st := st = Connecter.start o disk
  step := Connecter.Step o R

namespace Connecter

variable {o} {R : Type} [LinearOrder R] {ratings : Nat → Rating R}

/-! ## Blocks that were sent -/

/-- The block of a message that carries one. -/
def blockOf : Nat × Wire → Option (Nat × Nat × Nat × Nat)
  | (id, .piece index start block) => some (id, index, start, block.length)
  | _ => none

def blocksSent (c : Connecter) : List (Nat × Nat × Nat × Nat) := c.sent.filterMap blockOf

/-- A part of a piece with the right hash, and not too long. -/
def Right (o : Options D) : Wire → Prop
  | .piece index start block => block.length ≤ o.maxSliceLength ∧ ∃ piece : Bytes,
    o.hashes[index]? = some (o.sha piece) ∧ piece.length = o.pieceLen index ∧
      start + block.length ≤ o.pieceLen index ∧ block = (piece.drop start).take block.length
  | _ => True

/-- What has been asked for, and what of it has been sent or still waits at the uploads. -/
structure Ledger (o : Options D) (asked sent : List (Nat × Nat × Nat × Nat))
    (us : List Upload) : Prop where
  valid : ∀ u ∈ us, ∀ r ∈ u.buffer, r.1 < o.numPieces ∧ r.2.2 ≤ o.maxSliceLength
  answered : ∀ e, sent.count e ≤ asked.count e
  waiting : ∀ u ∈ us, ∀ r, u.buffer.count r + sent.count (u.id, r) ≤ asked.count (u.id, r)

theorem Ledger.shrinks {asked sent : List (Nat × Nat × Nat × Nat)} {us us' : List Upload}
    (h : Ledger o asked sent us) (hshrinks : Choker.Shrinks [] us us') :
    Ledger o asked sent us' := by
  have hone : ∀ v ∈ us', v.buffer ≠ [] → ∃ u ∈ us, u.id = v.id ∧ v.buffer.Sublist u.buffer := by
    intro v hv hne
    obtain ⟨u, hu, hid, hsub⟩ := hshrinks v hv hne
    rw [List.filter_nil, List.map_nil, List.append_nil] at hsub
    exact ⟨u, hu, hid, hsub⟩
  refine ⟨fun v hv r hr => ?_, h.answered, fun v hv r => ?_⟩
  · obtain ⟨u, hu, -, hsub⟩ := hone v hv (List.ne_nil_of_mem hr)
    exact h.valid u hu r (hsub.subset hr)
  · by_cases hnil : v.buffer = []
    · rw [hnil, List.count_nil, Nat.zero_add]
      exact h.answered _
    · obtain ⟨u, hu, hid, hsub⟩ := hone v hv hnil
      have hwait := h.waiting u hu r
      rw [hid] at hwait
      exact Nat.le_trans (Nat.add_le_add_right (hsub.count_le r) _) hwait

theorem Ledger.more {asked sent : List (Nat × Nat × Nat × Nat)} {us : List Upload}
    (h : Ledger o asked sent us) (new : List (Nat × Nat × Nat × Nat)) :
    Ledger o (asked ++ new) sent us := by
  have hmore : ∀ e, asked.count e ≤ (asked ++ new).count e := fun e => by
    rw [List.count_append]
    omega
  exact ⟨h.valid, fun e => Nat.le_trans (h.answered e) (hmore e),
    fun u hu r => Nat.le_trans (h.waiting u hu r) (hmore _)⟩

/-- A request is put down. -/
theorem Ledger.request {asked sent : List (Nat × Nat × Nat × Nat)} {us : List Upload}
    (h : Ledger o asked sent us) {id : Nat} {r : Nat × Nat × Nat}
    (hr : r.1 < o.numPieces ∧ r.2.2 ≤ o.maxSliceLength) :
    Ledger o (asked ++ [(id, r)]) sent
      (us.map fun u => if u.id = id then { u with buffer := u.buffer ++ [r] } else u) := by
  refine ⟨fun v hv x hx => ?_, (h.more _).answered, fun v hv x => ?_⟩
  · obtain ⟨u, hu, rfl⟩ := List.mem_map.1 hv
    split at hx
    · rcases List.mem_append.1 hx with hx | hx
      · exact h.valid u hu x hx
      · rw [List.mem_singleton.1 hx]
        exact hr
    · exact h.valid u hu x hx
  · obtain ⟨u, hu, rfl⟩ := List.mem_map.1 hv
    have hwait := h.waiting u hu x
    split
    · rename_i hid
      rw [List.count_append, List.count_append]
      have hone : [r].count x ≤ [(id, r)].count (u.id, x) := by
        rw [hid, List.count_singleton, List.count_singleton]
        by_cases hrx : r = x
        · simp [hrx]
        · simp [hrx]
      dsimp only
      omega
    · exact (h.more _).waiting u hu x

/-- The first request of a peer is answered. -/
theorem Ledger.answer {asked sent : List (Nat × Nat × Nat × Nat)} {us : List Upload}
    (h : Ledger o asked sent us) (hnodup : (us.map Upload.id).Nodup) {u : Upload} (hu : u ∈ us)
    {r : Nat × Nat × Nat} {rest : List (Nat × Nat × Nat)} (hbuffer : u.buffer = r :: rest) :
    Ledger o asked (sent ++ [(u.id, r)])
      (us.map fun v => if v.id = u.id then { v with buffer := v.buffer.tail } else v) := by
  refine ⟨fun v hv x hx => ?_, fun e => ?_, fun v hv x => ?_⟩
  · obtain ⟨w, hw, rfl⟩ := List.mem_map.1 hv
    split at hx
    · exact h.valid w hw x (List.mem_of_mem_tail hx)
    · exact h.valid w hw x hx
  · rw [List.count_append, List.count_singleton]
    split
    · rename_i heq
      have hwait := h.waiting u hu r
      rw [hbuffer, List.count_cons_self] at hwait
      rw [← eq_of_beq heq]
      omega
    · exact h.answered e
  · obtain ⟨w, hw, rfl⟩ := List.mem_map.1 hv
    rw [List.count_append, List.count_singleton]
    split
    · rename_i hid
      obtain rfl := List.inj_on_of_nodup_map hnodup hw hu hid
      have hwait := h.waiting w hw x
      rw [hbuffer, List.count_cons] at hwait
      rw [hbuffer, List.tail_cons]
      have hsame : (((w.id, r) : Nat × Nat × Nat × Nat) == (w.id, x)) = (r == x) := by
        by_cases hrx : r = x
        · simp [hrx]
        · simp [hrx]
      dsimp only
      rw [hsame]
      omega
    · rename_i hid
      rw [if_neg (by simpa using fun heq => absurd heq.symm hid)]
      exact h.waiting w hw x

/-! ## What holds at any time -/

/-- `asked` is what the peers have asked for so far. -/
structure Inv (o : Options D) (asked : List (Nat × Nat × Nat × Nat)) (c : Connecter) : Prop where
  sound : Sound o.toTorrent c.downloader
  ids : c.ids = c.downloader.ids
  choker_ids : (c.choker.connections.map Upload.id).Perm c.ids
  /-- before its first message nobody is known to have anything -/
  blank : ∀ n ∈ c.connections, n.gotAnything = false → ∀ d ∈ c.downloader.downloads,
    d.id = n.id → ∀ p, d.has p = false
  ledger : Ledger o asked c.blocksSent c.choker.connections
  right : ∀ m ∈ c.sent, Right o m.2

variable {asked : List (Nat × Nat × Nat × Nat)} {c : Connecter}

theorem Inv.nodup (h : Inv o asked c) : c.ids.Nodup := h.ids ▸ h.sound.shape.ids

theorem Inv.choker_nodup (h : Inv o asked c) : (c.choker.connections.map Upload.id).Nodup :=
  h.choker_ids.nodup_iff.2 h.nodup

/-- The choker does something; nobody has more requests for that. -/
theorem Inv.choker (h : Inv o asked c) {k : Choker}
    (hids : (k.connections.map Upload.id).Perm (c.choker.connections.map Upload.id))
    (hshrinks : Choker.Shrinks [] c.choker.connections k.connections) :
    Inv o asked { c with choker := k } :=
  ⟨h.sound, h.ids, hids.trans h.choker_ids, h.blank, h.ledger.shrinks hshrinks, h.right⟩

theorem Inv.store (h : Inv o asked c) {s : Downloader} (hs : Sound o.toTorrent s)
    (hdown : s.downloads = c.downloader.downloads) : Inv o asked { c with downloader := s } := by
  refine ⟨hs, ?_, h.choker_ids, ?_, h.ledger, h.right⟩
  · change c.ids = s.ids
    rw [Downloader.ids, hdown, h.ids, Downloader.ids]
  · change ∀ n ∈ c.connections, n.gotAnything = false → ∀ d ∈ s.downloads, _
    rw [hdown]
    exact h.blank

/-- A message that carries no block is sent. -/
theorem Inv.send (h : Inv o asked c) (id : Nat) {m : Wire} (hm : blockOf (id, m) = none)
    (hright : Right o m) : Inv o asked (c.send id m) := by
  have hsame : (c.send id m).blocksSent = c.blocksSent := by
    rw [blocksSent, Connecter.send, List.filterMap_append]
    simp [hm, blocksSent]
  refine ⟨h.sound, h.ids, h.choker_ids, h.blank, hsame ▸ h.ledger, fun x hx => ?_⟩
  rcases List.mem_append.1 hx with hx | hx
  · exact h.right x hx
  · rw [List.mem_singleton.1 hx]
    exact hright

/-! ## Connections that are closed -/

/-- The choker loses the connections of `l`. -/
def loseAll (ratings : Nat → Rating R) (k : Choker) (l : List Nat) : Choker :=
  l.foldl (fun k id => k.connectionLost (ratings id) id) k

theorem foldl_forget (c : Connecter) (l : List Nat) :
    l.foldl (forget ratings) c = { c with
      connections := c.connections.filter fun n => n.id ∉ l
      choker := loseAll ratings c.choker l } := by
  induction l generalizing c with
  | nil => simp [loseAll]
  | cons id l ih =>
    rw [List.foldl_cons, ih, forget]
    simp only [List.filter_filter]
    congr 1
    refine List.filter_congr fun n _ => ?_
    by_cases hid : n.id = id
    · simp [hid]
    · simp [hid]

theorem settle_eq (c : Connecter) (s : Downloader) :
    c.settle ratings s = { c with
      connections := c.connections.filter fun n => n.id ∈ s.ids
      downloader := s
      choker := loseAll ratings c.choker (c.ids.filter fun id => id ∉ s.ids) } := by
  rw [settle, foldl_forget]
  congr 1
  refine List.filter_congr fun n hn => ?_
  have hmem : n.id ∈ c.ids := List.mem_map_of_mem hn
  simp [hmem]

theorem loseAll_run (k : Choker) (l : List Nat) (maxUploads minUploads : Nat) :
    ∃ ls, (choking R maxUploads minUploads).Run k ls (loseAll ratings k l) := by
  induction l generalizing k with
  | nil => exact ⟨[], .nil k⟩
  | cons id l ih =>
    obtain ⟨ls, hrun⟩ := ih (k.connectionLost (ratings id) id)
    exact ⟨.connectionLost id :: ls, .cons (.event (l := .connectionLost id) (ratings id) trivial) hrun⟩

theorem loseAll_ids (k : Choker) (l : List Nat) :
    ((loseAll ratings k l).connections.map Upload.id).Perm
      ((k.connections.map Upload.id).filter fun id => id ∉ l) := by
  induction l generalizing k with
  | nil => simp [loseAll]
  | cons id l ih =>
    have hone := Choker.result_ids (s := k) (l := .connectionLost id) trivial (ratings id)
    refine (ih (k.connectionLost (ratings id) id)).trans ((hone.filter _).trans ?_)
    rw [Choker.Event.ids, List.filter_filter]
    refine List.Perm.of_eq (List.filter_congr fun x _ => ?_)
    by_cases hx : x = id
    · simp [hx]
    · simp [hx]

theorem loseAll_shrinks (k : Choker) (l : List Nat) :
    Choker.Shrinks [] k.connections (loseAll ratings k l).connections := by
  induction l generalizing k with
  | nil => exact Choker.Shrinks.of_subset (List.Subset.refl _)
  | cons id l ih =>
    have hone := Choker.result_shrinks (s := k) (l := .connectionLost id) trivial (ratings id)
    exact hone.trans (ih _)

theorem filter_of_sublist {l l' : List Nat} (h : l.Sublist l') (hnodup : l'.Nodup) :
    l'.filter (fun x => x ∈ l) = l := by
  induction h with
  | slnil => rfl
  | cons a h ih =>
    obtain ⟨ha, hnodup⟩ := List.nodup_cons.1 hnodup
    rw [List.filter_cons_of_neg (by simpa using fun hmem => ha (h.subset hmem)), ih hnodup]
  | cons_cons a h ih =>
    obtain ⟨ha, hnodup⟩ := List.nodup_cons.1 hnodup
    rw [List.filter_cons_of_pos (by simp)]
    conv_rhs => rw [← ih hnodup]
    refine congrArg _ (List.filter_congr fun x hx => ?_)
    have hne : x ≠ a := fun heq => ha (heq ▸ hx)
    simp [hne]

/-- Some of the connections are closed; only the peer `id` may have more than before. -/
theorem Inv.settle (h : Inv o asked c) {s : Downloader} (hs : Sound o.toTorrent s) {id : Nat}
    (hothers : c.downloader.FewerOthers id s)
    (hgot : ∀ n ∈ c.connections, n.id = id → n.gotAnything = true) :
    Inv o asked (c.settle ratings s) := by
  have hsub : s.ids.Sublist c.ids := h.ids ▸ hothers.ids
  have hkept := filter_of_sublist hsub h.nodup
  have hids : (c.connections.filter fun n => n.id ∈ s.ids).map Connection.id = s.ids :=
    (List.filter_map (l := c.connections) (f := Connection.id)
      (p := fun x => decide (x ∈ s.ids))).symm.trans hkept
  have hchoker : ((loseAll ratings c.choker (c.ids.filter fun id => id ∉ s.ids)).connections.map
      Upload.id).Perm s.ids := by
    refine (loseAll_ids _ _).trans ((h.choker_ids.filter _).trans (List.Perm.of_eq ?_))
    refine Eq.trans (List.filter_congr fun x hx => ?_) hkept
    simp [hx]
  rw [settle_eq]
  refine ⟨hs, hids, hchoker.trans (List.Perm.of_eq hids.symm), fun n hn hblank d hd hid p => ?_,
    h.ledger.shrinks (loseAll_shrinks _ _), h.right⟩
  have hn' := (List.mem_filter.1 hn).1
  have hne : d.id ≠ id := fun heq => by
    rw [hgot n hn' (hid.symm.trans heq)] at hblank
    cases hblank
  obtain ⟨d', hd', hid', hhas⟩ := hothers.of_mem hd hne
  rw [← hhas]
  exact h.blank n hn' hblank d' hd' (hid'.trans hid) p

/-! ## Calls -/

/-- Behind the connections, the downloader goes through a run of `swarm` and the choker
through one of `choking`; where no exception is raised, the invariant holds for what has
been asked by then. -/
def Follows (o : Options D) (R : Type) [LinearOrder R] [DecidableEq D] (disk : Medium UInt8)
    (asked : List (Nat × Nat × Nat × Nat)) (c : Connecter) (x : Except Fault Connecter) : Prop :=
  (∃ es, (swarm o.toTorrent disk).Run (.ok c.downloader) es (x.map downloader)) ∧
    ∀ c', x = .ok c' → Inv o asked c' ∧
      ∃ ls, (choking R o.maxUploads o.minUploads).Run c.choker ls c'.choker

variable [DecidableEq D] {disk : Medium UInt8}

theorem Follows.bind {asked' : List (Nat × Nat × Nat × Nat)} {x : Except Fault Connecter}
    {f : Connecter → Except Fault Connecter} (h : Follows o R disk asked c x)
    (hf : ∀ c', Inv o asked c' → Follows o R disk asked' c' (f c')) :
    Follows o R disk asked' c (x >>= f) := by
  obtain ⟨⟨es, hrun⟩, hok⟩ := h
  cases x with
  | error e => exact ⟨⟨es, hrun⟩, fun _ h => by cases h⟩
  | ok c₁ =>
    obtain ⟨hinv, ls, hchoking⟩ := hok c₁ rfl
    obtain ⟨⟨es', hrun'⟩, hok'⟩ := hf c₁ hinv
    refine ⟨⟨es ++ es', hrun.trans hrun'⟩, fun c' hc' => ?_⟩
    obtain ⟨hinv', ls', hchoking'⟩ := hok' c' hc'
    exact ⟨hinv', ls ++ ls', hchoking.trans hchoking'⟩

/-- What comes first is known. -/
theorem Follows.after {c₁ : Connecter} {x : Except Fault Connecter}
    {es : List Bittorrent.Event} {ls : List Choker.Event}
    (hswarm : (swarm o.toTorrent disk).Run (.ok c.downloader) es (.ok c₁.downloader))
    (hchoking : (choking R o.maxUploads o.minUploads).Run c.choker ls c₁.choker)
    (h : Follows o R disk asked c₁ x) : Follows o R disk asked c x := by
  obtain ⟨⟨es', hrun⟩, hok⟩ := h
  refine ⟨⟨es ++ es', hswarm.trans hrun⟩, fun c' hc' => ?_⟩
  obtain ⟨hinv, ls', hrun'⟩ := hok c' hc'
  exact ⟨hinv, ls ++ ls', hchoking.trans hrun'⟩

/-- A call that does not concern the downloader. -/
theorem Follows.ok {c' : Connecter} (hdown : c'.downloader = c.downloader) (h : Inv o asked c')
    {ls : List Choker.Event}
    (hrun : (choking R o.maxUploads o.minUploads).Run c.choker ls c'.choker) :
    Follows o R disk asked c (.ok c') := by
  refine ⟨⟨[], ?_⟩, fun c'' hc'' => ?_⟩
  · rw [← hdown]
    exact .nil _
  · cases hc''
    exact ⟨h, ls, hrun⟩

/-- A call of the choker. -/
theorem Inv.chokes (h : Inv o asked c) (rating : Rating R) {l : Choker.Event}
    (hallowed : l.Allowed c.choker) (hids : l.ids c.choker = c.choker.connections.map Upload.id)
    (hnew : l.requests = []) :
    Follows o R disk asked c (.ok { c with choker := l.result rating c.choker }) := by
  refine Follows.ok rfl (h.choker ?_ ?_) (.cons (.event rating hallowed) (.nil _))
  · exact hids ▸ Choker.result_ids hallowed rating
  · exact hnew ▸ Choker.result_shrinks hallowed rating

/-- A call of the downloader, which may close connections. -/
theorem Inv.downloads (h : Inv o asked c) {α : Type} {x : Except Fault α} {P : α → Downloader}
    {e : Bittorrent.Event} (hallowed : e.Allowed o.toTorrent c.downloader)
    (hresult : e.result o.toTorrent c.downloader = x.map P) {id : Nat}
    (hothers : Ensures (fun _ => True) x fun a => c.downloader.FewerOthers id (P a))
    (hgot : ∀ n ∈ c.connections, n.id = id → n.gotAnything = true) :
    Follows o R disk asked c (x >>= fun a => .ok (c.settle ratings (P a))) := by
  have hsound := Event.sound h.sound hallowed
  rw [hresult] at hsound
  have hstep : (swarm o.toTorrent disk).Run (.ok c.downloader) [e] (x.map P) :=
    hresult ▸ .cons (.event hallowed) (.nil _)
  cases x with
  | error f => exact ⟨⟨[e], hstep⟩, fun _ h => by cases h⟩
  | ok a =>
    have hinv : Inv o asked (c.settle ratings (P a)) := h.settle hsound hothers hgot
    have hdown : (c.settle ratings (P a)).downloader = P a := by rw [settle_eq]
    refine ⟨⟨[e], ?_⟩, fun c' hc' => ?_⟩
    · change (swarm o.toTorrent disk).Run _ _ (.ok (c.settle ratings (P a)).downloader)
      rw [hdown]
      exact hstep
    · cases hc'
      refine ⟨hinv, ?_⟩
      rw [settle_eq]
      exact loseAll_run _ _ _ _

theorem exists_fresh (c : Connecter) : ∃ id, ∀ n ∈ c.connections, n.id ≠ id := by
  obtain ⟨id, hid⟩ := Infinite.exists_notMem_finset c.ids.toFinset
  refine ⟨id, fun n hn heq => hid ?_⟩
  rw [List.mem_toFinset, ← heq]
  exact List.mem_map_of_mem hn

/-- A call of the downloader after which no peer has more than before. -/
theorem Inv.downloads_fewer (h : Inv o asked c) {α : Type} {x : Except Fault α}
    {P : α → Downloader} {e : Bittorrent.Event} (hallowed : e.Allowed o.toTorrent c.downloader)
    (hresult : e.result o.toTorrent c.downloader = x.map P) (hloses : c.downloader.Loses x P) :
    Follows o R disk asked c (x >>= fun a => .ok (c.settle ratings (P a))) := by
  obtain ⟨id, hid⟩ := exists_fresh c
  exact h.downloads hallowed hresult (hloses.mono fun a ha => ha.others id)
    fun n hn heq => absurd heq (hid n hn)

theorem map_self (x : Except Fault Downloader) : x.map (fun s => s) = x := by
  cases x with
  | ok s => rfl
  | error f => rfl

theorem connectionLost_follows (h : Inv o asked c) {id : Nat} (hid : id ∈ c.ids) :
    Follows o R disk asked c (c.connectionLost o ratings id) :=
  h.downloads_fewer (e := .disconnected id) (show id ∈ c.downloader.ids from h.ids ▸ hid)
    (map_self _).symm
    ((Downloader.loses_disconnected _ id).mono fun _ hs => hs.1)

omit [DecidableEq D] in
/-- The first request of a peer is answered with a block. -/
theorem Inv.sendPiece (h : Inv o asked c) {id : Nat} {u : Upload} (hu : c.choker.get id = some u)
    {index start len : Nat} {rest : List (Nat × Nat × Nat)}
    (hbuffer : u.buffer = (index, start, len) :: rest) {block : Bytes} (hlen : block.length = len)
    (hright : Right o (.piece index start block)) (capped : Bool) :
    Inv o asked ({ c with
      choker := c.choker.answer id
      rateCapped := capped }.send id (.piece index start block)) := by
  obtain ⟨hmem, rfl⟩ := Choker.mem_of_get hu
  have hids := Choker.modify_ids c.choker u.id (f := fun u => { u with buffer := u.buffer.tail })
    fun _ => rfl
  have hsent : ({ c with
      choker := c.choker.answer u.id
      rateCapped := capped }.send u.id (.piece index start block)).blocksSent =
        c.blocksSent ++ [(u.id, index, start, len)] := by
    rw [blocksSent, Connecter.send, List.filterMap_append, ← hlen]
    rfl
  refine ⟨h.sound, h.ids, (List.Perm.of_eq hids).trans h.choker_ids, h.blank, ?_, fun m hm => ?_⟩
  · rw [hsent]
    exact h.ledger.answer h.choker_nodup hmem hbuffer
  · rcases List.mem_append.1 hm with hm | hm
    · exact h.right m hm
    · rw [List.mem_singleton.1 hm]
      exact hright

theorem flushed_follows (id : Nat) (room : Room) (h : Inv o asked c) :
    Follows o R disk asked c (flushed o ratings id room c) := by
  induction room generalizing c with
  | nil => exact Follows.ok rfl h (.nil _)
  | cons next room ih =>
    obtain ⟨io, capped⟩ := next
    have hstay : Follows o R disk asked c (.ok c) := Follows.ok rfl h (.nil _)
    rw [flushed]
    cases hu : c.choker.get id with
    | none => exact hstay
    | some u =>
      dsimp only
      cases hbuffer : u.buffer with
      | nil => exact hstay
      | cons r rest =>
        obtain ⟨index, start, len⟩ := r
        dsimp only
        by_cases hcap : c.rateCapped = true
        · rw [if_pos hcap]
          exact hstay
        rw [if_neg hcap]
        obtain ⟨hmem, hid⟩ := Choker.mem_of_get hu
        have hr := h.ledger.valid u hmem (index, start, len) (by rw [hbuffer]; exact List.mem_cons_self)
        have hallowed : (Bittorrent.Event.getPiece io index start len).Allowed o.toTorrent c.downloader :=
          hr.1
        have hsound := Event.sound h.sound hallowed
        have hrun : (swarm o.toTorrent disk).Run (.ok c.downloader) [.getPiece io index start len] _ :=
          .cons (.event hallowed) (.nil _)
        have hanswer : (choking R o.maxUploads o.minUploads).Run c.choker [.answer id]
            (c.choker.answer id) := .cons (.event (l := .answer id) (ratings 0) trivial) (.nil _)
        obtain ⟨out, hkept, -⟩ := h.sound.kept_asked
        rw [Bittorrent.Event.result] at hsound hrun
        rcases hkept.getPiece io hr.1 start len with ⟨f, -, herr⟩ | ⟨data, store, heq, -, hdata⟩
        · rw [herr] at hrun ⊢
          exact ⟨⟨_, hrun⟩, fun _ h => by cases h⟩
        · rw [heq] at hsound hrun ⊢
          have hstore := h.store hsound rfl
          cases data with
          | none =>
            have hinv := hstore.choker (Choker.result_ids (l := .answer id) trivial (ratings 0))
              (Choker.result_shrinks (l := .answer id) trivial (ratings 0))
            exact Follows.after hrun hanswer
              (connectionLost_follows hinv (h.choker_ids.mem_iff.1 (hid ▸ List.mem_map_of_mem hmem)))
          | some block =>
            obtain ⟨-, hfits, v, hv, hhash, rfl⟩ := hdata block rfl
            dsimp only at hr hfits hv hhash
            have hpiece : (c.downloader.store.content o.toSetup v index).length = o.pieceLen index := by
              rw [Store.content_eq _ (hkept.slots.slot_lt hv) (Store.fits hkept.slots hv)]
              simp
            have hlen : (((c.downloader.store.content o.toSetup v index).drop start).take
                len).length = len := by
              rw [List.length_take, List.length_drop, hpiece]
              exact Nat.min_eq_left (by omega)
            have hright : Right o (.piece index start
                (((c.downloader.store.content o.toSetup v index).drop start).take len)) := by
              refine ⟨hlen.le.trans hr.2, _, hhash, hpiece, ?_, ?_⟩
              · rw [hlen]
                exact hfits
              · rw [hlen]
            let c₁ : Connecter := { c with
              choker := c.choker.answer id
              downloader := { c.downloader with store := store } }
            have hsend : c₁.sendPiece id index start
                (((c.downloader.store.content o.toSetup v index).drop start).take len) capped =
                .ok ({ c₁ with rateCapped := capped }.send id (.piece index start
                  (((c.downloader.store.content o.toSetup v index).drop start).take len))) :=
              if_neg hcap
            change Follows o R disk asked c (c₁.sendPiece id index start
              (((c.downloader.store.content o.toSetup v index).drop start).take len) capped >>=
                flushed o ratings id room)
            rw [hsend]
            exact Follows.after hrun hanswer (ih (hstore.sendPiece hu hbuffer hlen hright capped))

omit [DecidableEq D] in
theorem Inv.more (h : Inv o asked c) (new : List (Nat × Nat × Nat × Nat)) :
    Inv o (asked ++ new) c :=
  ⟨h.sound, h.ids, h.choker_ids, h.blank, h.ledger.more new, h.right⟩

omit [DecidableEq D] in
theorem Inv.exists_upload (h : Inv o asked c) {id : Nat} (hid : id ∈ c.ids) :
    ∃ u, c.choker.get id = some u := by
  cases hget : c.choker.get id with
  | some u => exact ⟨u, rfl⟩
  | none =>
    obtain ⟨u, hu, heq⟩ := List.mem_map.1 (h.choker_ids.mem_iff.2 hid)
    exact absurd heq (Choker.get_none hget hu)

theorem gotRequest_follows (h : Inv o asked c) {id : Nat} (hid : id ∈ c.ids)
    {r : Nat × Nat × Nat} (hr : r.1 < o.numPieces) (room : Room) :
    Follows o R disk (asked ++ [(id, r)]) c (c.gotRequest o ratings id r room) := by
  obtain ⟨u, hu⟩ := h.exists_upload hid
  have hmore := h.more [(id, r)]
  rw [gotRequest, hu]
  dsimp only
  by_cases hbad : u.interested = false ∨ o.maxSliceLength < r.2.2
  · rw [if_pos hbad]
    exact connectionLost_follows hmore hid
  rw [if_neg hbad]
  by_cases hchoked : u.choked = true
  · rw [if_pos hchoked]
    exact Follows.ok rfl hmore (.nil _)
  rw [if_neg hchoked]
  rw [not_or, Bool.not_eq_false, Nat.not_lt] at hbad
  have hserved : ∀ v ∈ c.choker.connections, v.id = id → v.served = true := by
    intro v hv heq
    rw [Choker.eq_of_get h.choker_nodup hu hv heq, Upload.served, hbad.1]
    simpa using hchoked
  have hids := Choker.modify_ids c.choker id (f := fun u => { u with buffer := u.buffer ++ [r] })
    fun _ => rfl
  have hinv : Inv o (asked ++ [(id, r)]) { c with choker := c.choker.gotRequest id r } :=
    ⟨h.sound, h.ids, (List.Perm.of_eq hids).trans h.choker_ids, h.blank,
      h.ledger.request ⟨hr, hbad.2⟩, h.right⟩
  have hrest : Follows o R disk (asked ++ [(id, r)]) { c with choker := c.choker.gotRequest id r }
      (flushed o ratings id room { c with choker := c.choker.gotRequest id r }) :=
    flushed_follows id room hinv
  have hput : (choking R o.maxUploads o.minUploads).Run c.choker [.gotRequest id r]
      (c.choker.gotRequest id r) :=
    .cons (.event (l := .gotRequest id r) (ratings 0) hserved) (.nil _)
  exact Follows.after (by exact .nil _) hput hrest

/-- What a message asks for. -/
def asks (id : Nat) : Wire → List (Nat × Nat × Nat × Nat)
  | .request index start length => [(id, index, start, length)]
  | _ => []

theorem Follows.quiet {x : Except Fault Connecter} {id : Nat} {m : Wire} (hm : asks id m = [])
    (h : Follows o R disk asked c x) : Follows o R disk (asked ++ asks id m) c x := by
  rw [hm, List.append_nil]
  exact h

omit [DecidableEq D] in
theorem Inv.announce (h : Inv o asked c) (l : List Nat) (index : Nat) :
    Inv o asked (l.foldl (fun c id => c.send id (.have index)) c) ∧
      (l.foldl (fun c id => c.send id (.have index)) c).downloader = c.downloader ∧
      (l.foldl (fun c id => c.send id (.have index)) c).choker = c.choker := by
  induction l generalizing c with
  | nil => exact ⟨h, rfl, rfl⟩
  | cons id l ih => exact ih (h.send id rfl trivial)

theorem understood_follows (h : Inv o asked c) {id : Nat} (hid : id ∈ c.ids)
    (hgot : ∀ n ∈ c.connections, n.id = id → n.gotAnything = true) {gotAnything : Bool} {m : Wire}
    (hm : m.Accepted o.numPieces gotAnything)
    (hblank : gotAnything = false → ∀ d ∈ c.downloader.downloads, d.id = id →
      ∀ p, d.has p = false) (io : Option String) (room : Room) :
    Follows o R disk (asked ++ asks id m) c (c.understood o ratings id io room m) := by
  have hdown : id ∈ c.downloader.ids := h.ids ▸ hid
  cases m with
  | choke =>
    refine Follows.quiet rfl ?_
    exact h.downloads_fewer (e := .gotChoke id) hdown (map_self _).symm
      (Downloader.loses_gotChoke _ id)
  | unchoke =>
    refine Follows.quiet rfl ?_
    exact h.downloads_fewer (e := .gotUnchoke id) hdown (map_self _).symm
      (Downloader.loses_gotUnchoke _ id)
  | interested =>
    refine Follows.quiet rfl ?_
    exact h.chokes (ratings id) (l := .gotInterested id) trivial rfl rfl
  | notInterested =>
    refine Follows.quiet rfl ?_
    exact h.chokes (ratings id) (l := .gotNotInterested id) trivial rfl rfl
  | «have» index =>
    refine Follows.quiet rfl ?_
    exact h.downloads (e := .gotHave id index) ⟨hdown, hm.1⟩ (map_self _).symm
      (Downloader.others_gotHave _ id index) hgot
  | bitfield b =>
    obtain ⟨hfirst, hlen, hcounted⟩ := hm
    obtain ⟨d, hd⟩ := get_of_mem hdown
    obtain ⟨hdmem, hdid⟩ := mem_of_get hd
    have hlt : ∀ p, b.array.getD p false = true → p < o.numPieces := by
      intro p hp
      by_contra hge
      have hout : b.array.length ≤ p := by
        rw [hcounted.length_array, hlen]
        omega
      rw [List.getD_eq_getElem?_getD, List.getElem?_eq_none hout] at hp
      cases hp
    refine Follows.quiet rfl ?_
    exact h.downloads (e := .gotHaveBitfield id fun p => b.array.getD p false)
      ⟨⟨d, hd, hblank hfirst d hdmem hdid⟩, hlt⟩ (map_self _).symm
      (Downloader.others_gotHaveBitfield _ id _) hgot
  | request index start len => exact gotRequest_follows h hid hm.1 room
  | cancel index start len =>
    refine Follows.quiet rfl ?_
    exact h.chokes (ratings id) (l := .gotCancel id (index, start, len)) trivial rfl rfl
  | piece index start block =>
    refine Follows.quiet rfl ?_
    have hresult : (Bittorrent.Event.gotPiece io id index start block).result o.toTorrent c.downloader =
        (c.downloader.gotPiece o.toTorrent io id index start block).map Prod.snd := by
      rw [Bittorrent.Event.result]
      cases c.downloader.gotPiece o.toTorrent io id index start block with
      | ok r => rfl
      | error f => rfl
    have hcall : Follows o R disk asked c
        (c.downloader.gotPiece o.toTorrent io id index start block >>= fun r =>
          .ok (c.settle ratings r.2)) :=
      h.downloads_fewer (e := .gotPiece io id index start block) hdown hresult
        (Downloader.loses_gotPiece _ io id index start block)
    rw [understood]
    cases hx : c.downloader.gotPiece o.toTorrent io id index start block with
    | error f =>
      rw [hx] at hcall
      exact hcall
    | ok r =>
      obtain ⟨ok, s⟩ := r
      rw [hx] at hcall
      refine hcall.bind (f := fun c => .ok (if ok then
        c.ids.foldl (fun c id => c.send id (.have index)) c else c)) fun c' hc' => ?_
      cases ok with
      | false => exact Follows.ok rfl hc' (.nil _)
      | true =>
        obtain ⟨hinv, hsame, hchoker⟩ := hc'.announce c'.ids index
        have hrun : (choking R o.maxUploads o.minUploads).Run c'.choker []
            (c'.ids.foldl (fun c id => c.send id (.have index)) c').choker := by
          rw [hchoker]
          exact .nil _
        exact Follows.ok hsame hinv hrun

/-- What a step asks for: a request is the same whether it comes first or not. -/
def Event.requests (o : Options D) : Event → List (Nat × Nat × Nat × Nat)
  | gotMessage id message _ _ => ((Wire.parse o.numPieces true message).toList).flatMap (asks id)
  | _ => []

omit [DecidableEq D] in
theorem requests_eq {gotAnything : Bool} {id : Nat} {message : Bytes} {io : Option String}
    {room : Room} {m : Wire}
    (h : Wire.parse o.numPieces gotAnything message = some m) :
    (Event.gotMessage id message io room).requests o = asks id m := by
  have hlater : ∀ m : Wire, m.Accepted o.numPieces true → m.Accepted o.numPieces gotAnything := by
    intro m hm
    cases m with
    | bitfield b => exact absurd hm.1 Bool.noConfusion
    | _ => exact hm
  rw [Event.requests]
  cases htrue : Wire.parse o.numPieces true message with
  | some m' =>
    obtain ⟨hm', hsent⟩ := Wire.parse_iff.1 htrue
    have heq := Wire.parse_iff.2 ⟨hlater m' hm', hsent⟩
    rw [h, Option.some.injEq] at heq
    simp [heq]
  | none =>
    obtain ⟨hm, hsent⟩ := Wire.parse_iff.1 h
    cases m with
    | request index start len =>
      have hsome := Wire.parse_iff.2 ⟨(show (Wire.request index start len).Accepted o.numPieces true
        from hm), hsent⟩
      rw [htrue] at hsome
      cases hsome
    | _ => rfl

omit [DecidableEq D] in
/-- The first message of a peer has come. -/
theorem Inv.mark (h : Inv o asked c) (id : Nat) :
    Inv o asked { c with connections := c.connections.map fun n =>
      if n.id = id then { n with gotAnything := true } else n } := by
  have hids : (c.connections.map fun n =>
      if n.id = id then { n with gotAnything := true } else n).map Connection.id = c.ids := by
    rw [List.map_map, Connecter.ids]
    refine List.map_congr_left fun n _ => ?_
    rw [Function.comp_apply]
    split
    · rfl
    · rfl
  refine ⟨h.sound, hids.trans h.ids, h.choker_ids.trans (List.Perm.of_eq hids.symm),
    fun n hn hblank d hd hid => ?_, h.ledger, h.right⟩
  obtain ⟨n', hn', rfl⟩ := List.mem_map.1 hn
  split at hblank
  · cases hblank
  · rename_i hne
    rw [if_neg hne] at hid
    exact h.blank n' hn' hblank d hd hid

theorem gotMessage_follows (h : Inv o asked c) {id : Nat} (hid : id ∈ c.ids) {message : Bytes}
    (hne : message ≠ []) (io : Option String) (room : Room) :
    Follows o R disk (asked ++ (Event.gotMessage id message io room).requests o) c
      (c.gotMessage o ratings id message io room) := by
  rw [gotMessage]
  cases hn : c.connections.find? fun n => n.id == id with
  | none =>
    obtain ⟨n, hmem, heq⟩ := List.mem_map.1 hid
    have hno := List.find?_eq_none.1 hn n hmem
    simp [heq] at hno
  | some n =>
    have hnmem := List.mem_of_find?_eq_some hn
    have hnid : n.id = id := by simpa using List.find?_some hn
    dsimp only
    rw [if_neg hne]
    cases hparse : Wire.parse o.numPieces n.gotAnything message with
    | none => exact connectionLost_follows (h.more _) hid
    | some m =>
      have hmark := h.mark id
      have hmarked : ∀ n' ∈ c.connections.map fun n =>
          if n.id = id then { n with gotAnything := true } else n, n'.id = id →
            n'.gotAnything = true := by
        intro n' hn' heq
        obtain ⟨n'', hn'', rfl⟩ := List.mem_map.1 hn'
        split at heq
        · rename_i hsame
          rw [if_pos hsame]
        · rename_i hother
          exact absurd heq hother
      have hids : id ∈ (c.connections.map fun n =>
          if n.id = id then { n with gotAnything := true } else n).map Connection.id :=
        List.mem_map.2 ⟨_, List.mem_map_of_mem hnmem, by rw [if_pos hnid]; exact hnid⟩
      rw [requests_eq hparse]
      exact Follows.after (by exact .nil _) (by exact .nil _) (understood_follows hmark hids hmarked
        (Wire.parse_iff.1 hparse).1 (fun hfirst d hd hdid =>
          h.blank n hnmem hfirst d hd (hdid.trans hnid.symm)) io room)

theorem connect_follows (h : Inv o asked c) {id p : Nat}
    (hallowed : (Event.connectionMade id p).Allowed c) :
    Follows o R disk asked c (.ok { c with
      connections := c.connections ++ [⟨id, false⟩]
      downloader := c.downloader.makeDownload id
      choker := c.choker.connectionMade (ratings id) id p }) := by
  obtain ⟨hnew, hp, hfew⟩ := hallowed
  have hlen : c.downloader.downloads.length = c.connections.length := by
    have hids := congrArg List.length h.ids
    rw [Connecter.ids, Downloader.ids, List.length_map, List.length_map] at hids
    exact hids.symm
  have hclen : c.choker.connections.length = c.connections.length := by
    have hids := h.choker_ids.length_eq
    rw [Connecter.ids, List.length_map, List.length_map] at hids
    exact hids
  have hmade : (Bittorrent.Event.makeDownload id).Allowed o.toTorrent c.downloader :=
    ⟨h.ids ▸ hnew, by omega⟩
  have hchoke : (Choker.Event.connectionMade id p).Allowed c.choker :=
    ⟨fun hmem => hnew (h.choker_ids.mem_iff.1 hmem), by omega⟩
  have hsound : Sound o.toTorrent (c.downloader.makeDownload id) := Event.sound h.sound hmade
  have hswarm : (swarm o.toTorrent disk).Run (.ok c.downloader) [.makeDownload id]
      (.ok (c.downloader.makeDownload id)) := .cons (.event hmade) (.nil _)
  have hchoking : (choking R o.maxUploads o.minUploads).Run c.choker [.connectionMade id p]
      (c.choker.connectionMade (ratings id) id p) :=
    .cons (.event (l := .connectionMade id p) (ratings id) hchoke) (.nil _)
  have hids : c.ids ++ [id] = (c.downloader.makeDownload id).ids := by
    rw [h.ids, Downloader.ids, Downloader.ids, Downloader.makeDownload, List.map_append]
    rfl
  refine ⟨⟨_, hswarm⟩, fun c' hc' => ?_⟩
  cases hc'
  have hcids : (c.connections ++ [(⟨id, false⟩ : Connection)]).map Connection.id = c.ids ++ [id] := by
    rw [List.map_append]
    rfl
  refine ⟨⟨hsound, hcids.trans hids, ?_, fun n hn hblank d hd hdid q => ?_,
    h.ledger.shrinks (Choker.result_shrinks hchoke (ratings id)), h.right⟩, _, hchoking⟩
  · refine (Choker.result_ids hchoke (ratings id)).trans ?_
    refine List.Perm.trans ?_ (List.Perm.of_eq hcids.symm)
    exact (h.choker_ids.cons id).trans (List.perm_append_singleton id c.ids).symm
  · rcases List.mem_append.1 hd with hd | hd
    · rcases List.mem_append.1 hn with hn | hn
      · exact h.blank n hn hblank d hd hdid q
      · rw [List.mem_singleton.1 hn] at hdid
        have hmem : d.id ∈ c.downloader.ids := List.mem_map_of_mem hd
        rw [hdid, ← h.ids] at hmem
        exact absurd hmem hnew
    · rw [List.mem_singleton.1 hd]

theorem connectionMade_follows (h : Inv o asked c) {id p : Nat}
    (hallowed : (Event.connectionMade id p).Allowed c) :
    Follows o R disk asked c (.ok (c.connectionMade o ratings id p)) := by
  rw [Connecter.connectionMade]
  dsimp only
  split
  · exact connect_follows (h.send id (m := .bitfield (haveList o c.downloader.store)) rfl trivial)
      hallowed
  · exact connect_follows h hallowed

theorem result_follows (h : Inv o asked c) {l : Event} (hallowed : l.Allowed c)
    (ratings : Nat → Rating R) :
    Follows o R disk (asked ++ l.requests o) c (l.result o ratings c) := by
  have hsame : asked ++ [] = asked := List.append_nil asked
  cases l with
  | connectionMade id p =>
    exact hsame.symm ▸ connectionMade_follows h hallowed
  | connectionLost id => exact hsame.symm ▸ connectionLost_follows h hallowed
  | connectionFlushed id room => exact hsame.symm ▸ flushed_follows id room h
  | gotMessage id message io room => exact gotMessage_follows h hallowed.1 hallowed.2 io room
  | uncap =>
    have hinv : Inv o asked { c with rateCapped := false } :=
      ⟨h.sound, h.ids, h.choker_ids, h.blank, h.ledger, h.right⟩
    exact hsame.symm ▸ Follows.ok rfl hinv (.nil _)
  | roundRobin => exact hsame.symm ▸ h.chokes (ratings 0) (l := .roundRobin) trivial rfl rfl
  | changeMaxUploads n =>
    exact hsame.symm ▸ h.chokes (ratings 0) (l := .changeMaxUploads n) trivial rfl rfl

/-! ## Runs -/

theorem start_below (disk : Medium UInt8) : (Connecter.start o disk).map downloader =
    Downloader.start o.toTorrent (Store.start o.toSetup disk) := by
  rw [Connecter.start]
  cases Downloader.start o.toTorrent (Store.start o.toSetup disk) with
  | ok s => rfl
  | error f => rfl

omit [DecidableEq D] in
/-- Nobody is connected at the start. -/
theorem start_ids {t : Torrent D} (store : Store) :
    Ensures (fun _ => True) (Downloader.start t store) fun s => s.ids = [] := by
  refine (Downloader.loses_foldlM _ _ Downloader.loses_completePiece).mono fun s hs => ?_
  exact List.sublist_nil.1 hs.ids

/-- The invariant, with the runs that led to the state behind the connections. -/
def Held (o : Options D) (R : Type) [LinearOrder R] (disk : Medium UInt8) (ls : List Event)
    (st : Except Fault Connecter) : Prop :=
  (swarm o.toTorrent disk).Reachable (st.map downloader) ∧
    ∀ c, st = .ok c → Inv o (ls.flatMap (Event.requests o)) c ∧
      (choking R o.maxUploads o.minUploads).Reachable c.choker

theorem held (o : Options D) (R : Type) [LinearOrder R] (disk : Medium UInt8) :
    (connecter o R disk).History (Held o R disk) where
  init st hst := by
    rw [hst]
    have hbelow : (swarm o.toTorrent disk).Reachable ((Connecter.start o disk).map downloader) :=
      start_below (o := o) disk ▸ ⟨_, [], rfl, .nil _⟩
    refine ⟨hbelow, fun c hc => ?_⟩
    rw [hc] at hbelow
    have hsound : Sound o.toTorrent c.downloader := sound_of_reachable hbelow
    have hnobody := start_ids (t := o.toTorrent) (Store.start o.toSetup disk)
    rw [Connecter.start] at hc
    cases hs : Downloader.start o.toTorrent (Store.start o.toSetup disk) with
    | error f =>
      rw [hs] at hc
      cases hc
    | ok s =>
      rw [hs] at hc hnobody
      cases hc
      refine ⟨⟨hsound, hnobody.symm, List.Perm.nil, ?_, ?_, ?_⟩, _, [], rfl, .nil _⟩
      · exact fun n hn => absurd hn List.not_mem_nil
      · exact ⟨fun u hu => absurd hu List.not_mem_nil, fun e => Nat.le_refl _,
          fun u hu => absurd hu List.not_mem_nil⟩
      · exact fun m hm => absurd hm List.not_mem_nil
  step ls st l st' h hst := by
    cases hst with
    | event ratings hallowed =>
      rename_i c
      obtain ⟨hbelow, hok⟩ := h
      obtain ⟨hinv, hchoker⟩ := hok c rfl
      have hfollows : Follows o R disk _ c _ := result_follows hinv hallowed ratings
      obtain ⟨⟨es, hrun⟩, hnext⟩ := hfollows
      refine ⟨hbelow.trans hrun, fun c' hc' => ?_⟩
      obtain ⟨hinv', ms, hrun'⟩ := hnext c' hc'
      refine ⟨?_, hchoker.trans hrun'⟩
      rw [List.flatMap_append, List.flatMap_singleton]
      exact hinv'

theorem held_of_reachable {st : Except Fault Connecter} (h : (connecter o R disk).Reachable st) :
    ∃ ls, Held o R disk ls st := by
  obtain ⟨st₀, ls, hinit, hrun⟩ := h
  exact ⟨ls, (held o R disk).run hinit hrun⟩

end Connecter

/-! ## Results -/

open Connecter

variable {o} {R : Type} [LinearOrder R] [DecidableEq D] {disk : Medium UInt8}

/-- Whatever comes in, the downloader is in a state of `swarm` and the choker in one of
`choking`, and they agree on who is connected. -/
theorem connecter_refines {st : Except Fault Connecter} (h : (connecter o R disk).Reachable st) :
    (swarm o.toTorrent disk).Reachable (st.map downloader) ∧
      ∀ c, st = .ok c → (choking R o.maxUploads o.minUploads).Reachable c.choker ∧
        c.downloader.ids = c.ids ∧ (c.choker.connections.map Upload.id).Perm c.ids := by
  obtain ⟨ls, hbelow, hok⟩ := held_of_reachable h
  refine ⟨hbelow, fun c hc => ?_⟩
  obtain ⟨hinv, hchoker⟩ := hok c hc
  exact ⟨hchoker, hinv.ids.symm, hinv.choker_ids⟩

/-- `twoPieces`, for a client that lets one peer download. -/
def oneUpload (there : Nat → Bool) : Options (List UInt8) :=
  { firstOfTwo there with maxSliceLength := 16384, maxUploads := 1, minUploads := 1 }

/-- The request for all of the first piece: index 0, begin 0, length 3. -/
def askFirst : Bytes := [6, 0, 0, 0, 0, 0, 0, 0, 0, 0, 0, 0, 3]

/-- A peer is connected, is interested and asks for the first piece, which cannot be read, or
is sent. -/
theorem oneUpload_run : ∃ c : Connecter,
    (connecter (oneUpload fun _ => true) Nat abcd).Run (Connecter.start (oneUpload fun _ => true) abcd)
      [.connectionMade 7 0, .gotMessage 7 [2] none [],
        .gotMessage 7 askFirst none [(some "Device not ready", false)]]
      (.error (.failed "IO Error Device not ready")) ∧
    (connecter (oneUpload fun _ => true) Nat abcd).Run (Connecter.start (oneUpload fun _ => true) abcd)
      [.connectionMade 7 0, .gotMessage 7 [2] none [], .gotMessage 7 askFirst none [(none, false)]]
      (.ok c) ∧
    c.ids = [7] ∧ c.blocksSent = [(7, 0, 0, 3)] := by
  let ratings : Nat → Rating Nat := fun _ => Choker.alike
  obtain ⟨c₀, c₁, c₂, c₃, hstart, hmade, hinterested, hfails, hasks, hids₀, hlen₀, hids₁, hids₂,
      hids₃, hsent⟩ : ∃ c₀ c₁ c₂ c₃ : Connecter,
        Connecter.start (oneUpload fun _ => true) abcd = .ok c₀ ∧
        (Connecter.Event.connectionMade 7 0).result (oneUpload fun _ => true) ratings c₀ = .ok c₁ ∧
        (Connecter.Event.gotMessage 7 [2] none []).result (oneUpload fun _ => true) ratings c₁ =
          .ok c₂ ∧
        (Connecter.Event.gotMessage 7 askFirst none [(some "Device not ready", false)]).result
          (oneUpload fun _ => true) ratings c₂ = .error (.failed "IO Error Device not ready") ∧
        (Connecter.Event.gotMessage 7 askFirst none [(none, false)]).result
          (oneUpload fun _ => true) ratings c₂ = .ok c₃ ∧
        c₀.ids = [] ∧ c₀.connections.length = 0 ∧ c₁.ids = [7] ∧ c₂.ids = [7] ∧ c₃.ids = [7] ∧
        c₃.blocksSent = [(7, 0, 0, 3)] :=
    ⟨_, _, _, _, rfl, rfl, by with_unfolding_all rfl, by with_unfolding_all rfl,
      by with_unfolding_all rfl, rfl, rfl, rfl, by with_unfolding_all rfl,
      by with_unfolding_all rfl, by with_unfolding_all rfl⟩
  have hstep₁ := Connecter.Step.event (o := oneUpload fun _ => true) ratings
    (show (Connecter.Event.connectionMade 7 0).Allowed c₀ by simp [Connecter.Event.Allowed, hids₀, hlen₀])
  have hstep₂ := Connecter.Step.event (o := oneUpload fun _ => true) ratings
    (show (Connecter.Event.gotMessage 7 [2] none []).Allowed c₁ by simp [Connecter.Event.Allowed, hids₁])
  have hstep₃ : ∀ room, Connecter.Step (oneUpload fun _ => true) Nat (.ok c₂)
      (.gotMessage 7 askFirst none room) _ := fun room => .event ratings
    (by simp [Connecter.Event.Allowed, hids₂, askFirst])
  rw [hmade] at hstep₁
  rw [hinterested] at hstep₂
  rw [hstart]
  refine ⟨c₃, .cons hstep₁ (.cons hstep₂ (.cons ?_ (.nil _))),
    .cons hstep₁ (.cons hstep₂ (.cons ?_ (.nil _))), hids₃, hsent⟩
  · exact hfails ▸ hstep₃ _
  · exact hasks ▸ hstep₃ _

theorem connecter_refines_asked : ∃ c : Connecter, c.ids = [7] ∧ c.downloader.ids = [7] ∧
    (c.choker.connections.map Upload.id).Perm [7] ∧ (choking Nat 1 1).Reachable c.choker ∧
    (swarm (firstOfTwo fun _ => true) abcd).Reachable (.ok c.downloader) := by
  obtain ⟨c, -, hrun, hids, -⟩ := oneUpload_run
  obtain ⟨hbelow, hrest⟩ := connecter_refines ⟨_, _, rfl, hrun⟩
  obtain ⟨hchoker, hdown, hperm⟩ := hrest c rfl
  exact ⟨c, hids, hdown.trans hids, hids ▸ hperm, hchoker, hbelow⟩

/-- A block is sent to a peer no more often than it has asked for it, and what is sent is no
longer than `max_slice_length` and the asked part of a piece with the right hash. What the
peer has asked for and still waits for has not been sent. -/
theorem blocks_sent {ls : List Connecter.Event} {c : Connecter}
    (h : (connecter o R disk).Run (Connecter.start o disk) ls (.ok c)) :
    (∀ e, c.blocksSent.count e ≤ (ls.flatMap (Event.requests o)).count e) ∧
      (∀ u ∈ c.choker.connections, ∀ r, u.buffer.count r + c.blocksSent.count (u.id, r) ≤
        (ls.flatMap (Event.requests o)).count (u.id, r)) ∧
      ∀ m ∈ c.sent, Right o m.2 := by
  obtain ⟨hinv, -⟩ := ((held o R disk).run rfl h).2 c rfl
  exact ⟨hinv.ledger.answered, hinv.ledger.waiting, hinv.right⟩

theorem blocks_sent_asked : ∃ c : Connecter, c.blocksSent = [(7, 0, 0, 3)] ∧
    ∀ m ∈ c.sent, Right (oneUpload fun _ => true) m.2 := by
  obtain ⟨c, -, hrun, -, hsent⟩ := oneUpload_run
  exact ⟨c, hsent, (blocks_sent hrun).2.2⟩

end Wubi.Bittorrent
