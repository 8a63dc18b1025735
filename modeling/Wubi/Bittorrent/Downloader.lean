import Wubi.Bittorrent.Blocks
import Wubi.Bittorrent.PiecePicker

/-!
# Which blocks to ask which peer for

`Downloader` has a `SingleDownload` for every peer it is connected to. A peer says
which pieces it has, chokes and unchokes us, and sends blocks; the downloader asks
the peers that do not choke it for up to `backlog` blocks at a time.

When every block that is missing has been asked for, the endgame begins:
`all_requests` holds the blocks that are on their way, and every peer is asked for
those of them that it has.

**Parameters.** `Torrent` is what the `Downloader` is made with. `chance` is what
`random` gives. A call that gets to the storage is given what its `IOError` says, if
there is one. Rates and times (`measure`, `last`, `is_snubbed`) are left out. The
methods called `send_..` put a message into `sent`; sending does not fail here, and
`close` takes the connection down at once (`Encrypter.Connection._sever`).
-/
namespace Wubi.Bittorrent

open Function

structure Torrent (D : Type) extends Setup D where
  chance : Chance
  /-- `config['request_backlog']` -/
  backlog : Nat
  /-- `config['rarest_first_cutoff']` -/
  cutoff : Nat

/-- A `SingleDownload`; `id` tells it from the others.
mirrors src/bittorrent/Downloader.py:9-19 -/
structure Download where
  id : Nat
  choked : Bool
  interested : Bool
  activeRequests : List Block
  /-- `self.have` -/
  has : Nat → Bool
  exampleInterest : Option Nat

inductive Message
  | interested
  | notInterested
  | request (b : Block)
  | cancel (b : Block)
deriving DecidableEq

structure Downloader where
  store : Store
  picker : Picker
  downloads : List Download
  allRequests : List Block
  /-- how often something was drawn -/
  draws : Nat
  sent : List (Nat × Message)

variable {D : Type} (t : Torrent D)

/-- `self.have.numfalse == 0` -/
def Download.seed (d : Download) : Bool := (List.range t.numPieces).all d.has

namespace Downloader

variable (s : Downloader)

def get (id : Nat) : Option Download := s.downloads.find? fun d => d.id == id

def modify (id : Nat) (f : Download → Download) : Downloader :=
  { s with downloads := s.downloads.map fun d => if d.id = id then f d else d }

def send (id : Nat) (m : Message) : Downloader := { s with sent := s.sent ++ [(id, m)] }

/-- mirrors src/bittorrent/Downloader.py:114-115 -/
def wants (d : Download) (index : Nat) : Bool := d.has index && s.store.doIHaveRequests index

/-- The identities of the downloads, in their order. -/
def ids : List Nat := s.downloads.map Download.id

/-! ## The endgame -/

/-- mirrors src/bittorrent/Downloader.py:173-188 -/
def fixDownloadEndgame (id : Nat) : Downloader :=
  match s.get id with
  | none => s
  | some d =>
    let want := s.allRequests.filter fun a => d.has a.1 && decide (a ∉ d.activeRequests)
    if d.interested = true ∧ d.activeRequests = [] ∧ want = [] then
      (s.modify id fun d => { d with interested := false }).send id .notInterested
    else
      let s :=
        if d.interested = false ∧ want ≠ [] then
          (s.modify id fun d => { d with interested := true }).send id .interested
        else s
      if d.choked then s
      else
        let want := t.chance.shuffle s.draws want
        -- `del want[backlog - len(active_requests):]`
        let want := want.take
          (if d.activeRequests.length ≤ t.backlog then t.backlog - d.activeRequests.length
            else want.length - (d.activeRequests.length - t.backlog))
        let s := { s with draws := s.draws + 1 }.modify id fun d =>
          { d with activeRequests := d.activeRequests ++ want }
        want.foldl (fun s b => s.send id (.request b)) s

def fixAll : Downloader := s.ids.foldl (fixDownloadEndgame t) s

/-! ## Asking -/

/-- The next piece to ask a peer for: any, or one of `indices`.
mirrors src/bittorrent/Downloader.py:126-133 -/
def pick (d : Download) (indices : Option (List Nat)) : Except Fault (Option Nat × Downloader) :=
  match indices with
  | none =>
    match s.picker.next t.chance s.draws t.cutoff (s.wants d) (d.seed t) with
    | none => .error .raised
    | some interest => .ok (interest, { s with draws := s.draws + 1 })
  | some indices => .ok (indices.find? (s.wants d), s)

/-- The loop of `_request_more`, at most `k` times, with `lost_interests`.
mirrors src/bittorrent/Downloader.py:124-145 -/
def requestLoop (id : Nat) (indices : Option (List Nat)) :
    Nat → Downloader → List Nat → Except Fault (Downloader × List Nat)
  | 0, s, lost => .ok (s, lost)
  | k + 1, s, lost =>
    match s.get id with
    | none => .error .raised
    | some d => do
      let (interest, s) ← s.pick t d indices
      match interest with
      | none => .ok (s, lost)
      | some i =>
        let (b, store) ← s.store.newRequest t.toSetup i
        let s := if d.interested then s else s.send id .interested
        let s := { s with store := store, picker := s.picker.requested i (d.seed t) }
        let s := s.modify id fun d => { d with
          interested := true
          exampleInterest := some i
          activeRequests := d.activeRequests ++ [(i, b)] }
        requestLoop id indices k (s.send id (.request (i, b)))
          (if store.doIHaveRequests i then lost else lost ++ [i])

/-- What a peer was good for may be gone: a round of the second loop of `_request_more`.
mirrors src/bittorrent/Downloader.py:151-165 -/
def loseInterest (lost : List Nat) (s : Downloader) (id : Nat) : Except Fault Downloader :=
  match s.get id with
  | none => .error .raised
  | some d =>
    if d.activeRequests ≠ [] ∨ d.interested = false then .ok s
    else if d.exampleInterest.any s.store.doIHaveRequests then .ok s
    else if lost.any d.has = false then .ok s
    else do
      let (interest, s) ← s.pick t d none
      match interest with
      | none => .ok ((s.modify id fun d => { d with interested := false }).send id .notInterested)
      | some i => .ok (s.modify id fun d => { d with exampleInterest := some i })

/-- mirrors src/bittorrent/Downloader.py:149-165 -/
def loseInterests (lost : List Nat) (s : Downloader) : Except Fault Downloader :=
  if lost = [] then .ok s else s.ids.foldlM (loseInterest t lost) s

/-- `if not self.active_requests and self.interested`
mirrors src/bittorrent/Downloader.py:146-148 -/
def stopInterest (s : Downloader) (id : Nat) : Downloader :=
  match s.get id with
  | none => s
  | some d =>
    if d.activeRequests = [] ∧ d.interested = true then
      (s.modify id fun d => { d with interested := false }).send id .notInterested
    else s

/-- mirrors src/bittorrent/Downloader.py:117-171 -/
def requestMore (id : Nat) (indices : Option (List Nat)) : Except Fault Downloader :=
  match s.get id with
  | none => .error .raised
  | some d =>
    if d.choked then .error .raised
    else if d.activeRequests.length = t.backlog then .ok s
    else if s.store.endgame then .ok (s.fixDownloadEndgame t id)
    else do
      let (s, lost) ← requestLoop t id indices (t.backlog - d.activeRequests.length) s []
      let s ← loseInterests t lost (s.stopInterest id)
      if s.store.endgame then
        .ok (fixAll t { s with allRequests := s.downloads.flatMap Download.activeRequests })
      else .ok s

/-- Those that do not choke us, shuffled, are asked for more.
mirrors src/bittorrent/Downloader.py:40-43 and :89-92 -/
def requestAll (indices : List Nat) : Except Fault Downloader :=
  let ds := (s.downloads.filter fun d => !d.choked).map Download.id
  (t.chance.shuffle s.draws ds).foldlM (fun s id => s.requestMore t id (some indices))
    { s with draws := s.draws + 1 }

/-! ## Letting go -/

/-- A round of the last loop of `_letgo`.
mirrors src/bittorrent/Downloader.py:44-50 -/
def showInterest (lost : List Nat) (s : Downloader) (id : Nat) : Downloader :=
  match s.get id with
  | none => s
  | some d =>
    if d.choked = true ∧ d.interested = false ∧ lost.any (s.wants d) = true then
      (s.modify id fun d => { d with interested := true }).send id .interested
    else s

/-- `_letgo`, for the blocks `active` that the download `id` had asked for.
mirrors src/bittorrent/Downloader.py:28-50 -/
def letgo (id : Nat) (active : List Block) : Except Fault Downloader :=
  let s := s.modify id fun d => { d with activeRequests := [] }
  if active = [] ∨ s.store.endgame = true then .ok s
  else do
    let store ← active.foldlM (fun store r => store.requestLost r.1 r.2.1 r.2.2) s.store
    let lost := active.foldl (fun lost r => if r.1 ∈ lost then lost else lost ++ [r.1]) []
    let s ← { s with store := store }.requestAll t lost
    .ok (s.ids.foldl (showInterest lost) s)

/-! ## What a peer does -/

/-- mirrors src/bittorrent/Downloader.py:247-249 -/
def makeDownload (id : Nat) : Downloader :=
  { s with downloads := s.downloads ++ [{
      id := id
      choked := true
      interested := false
      activeRequests := []
      has := fun _ => false
      exampleInterest := none }] }

def lostHave (s : Downloader) (index : Nat) : Except Fault Downloader :=
  match s.picker.lostHave t.chance s.draws index with
  | none => .error .raised
  | some picker => .ok { s with picker := picker, draws := s.draws + 1 }

def gotHavePicker (s : Downloader) (index : Nat) : Except Fault Downloader :=
  match s.picker.gotHave t.chance s.draws index with
  | none => .error .raised
  | some picker => .ok { s with picker := picker, draws := s.draws + 1 }

/-- mirrors src/bittorrent/Downloader.py:21-26 -/
def disconnected (s : Downloader) (id : Nat) : Except Fault Downloader :=
  match s.get id with
  | none => .error .raised
  | some d => do
    let s := { s with downloads := s.downloads.filter fun d => d.id != id }
    let s ← ((List.range t.numPieces).filter d.has).foldlM (lostHave t) s
    s.letgo t id d.activeRequests

/-- mirrors src/bittorrent/Downloader.py:52-55 -/
def gotChoke (id : Nat) : Except Fault Downloader :=
  match s.get id with
  | none => .error .raised
  | some d =>
    if d.choked then .ok s
    else (s.modify id fun d => { d with choked := true }).letgo t id d.activeRequests

/-- mirrors src/bittorrent/Downloader.py:57-61 -/
def gotUnchoke (id : Nat) : Except Fault Downloader :=
  match s.get id with
  | none => .error .raised
  | some d =>
    if d.choked then
      let s := s.modify id fun d => { d with choked := false }
      if d.interested then s.requestMore t id none else .ok s
    else .ok s

/-- mirrors src/bittorrent/Downloader.py:190-206 -/
def gotHave (id index : Nat) : Except Fault Downloader :=
  match s.get id with
  | none => .error .raised
  | some d =>
    if d.has index then .ok s
    else do
      let has := update d.has index true
      let s := s.modify id fun d => { d with has := has }
      let s ← s.gotHavePicker t index
      let d := { d with has := has }
      if s.picker.amIComplete t.numPieces && d.seed t then s.disconnected t id
      else if s.store.endgame then .ok (s.fixDownloadEndgame t id)
      else if s.store.doIHaveRequests index then
        if !d.choked then s.requestMore t id (some [index])
        else if d.interested then .ok s
        else .ok ((s.modify id fun d => { d with interested := true }).send id .interested)
      else .ok s

/-- mirrors src/bittorrent/Downloader.py:208-226 -/
def gotHaveBitfield (id : Nat) (has : Nat → Bool) : Except Fault Downloader :=
  match s.get id with
  | none => .error .raised
  | some d => do
    let s := s.modify id fun d => { d with has := has }
    let s ← ((List.range t.numPieces).filter has).foldlM (gotHavePicker t) s
    let d := { d with has := has }
    let interested := (s.modify id fun d => { d with interested := true }).send id .interested
    if s.picker.amIComplete t.numPieces && d.seed t then s.disconnected t id
    else if s.store.endgame && s.allRequests.any fun r => has r.1 then .ok interested
    else if (List.range t.numPieces).any (s.wants d) then .ok interested
    else .ok s

/-! ## A block comes in -/

/-- The blocks of a broken piece are asked for again, all of them, `k` at most.
mirrors src/bittorrent/Downloader.py:82-84 -/
def requestBroken (index : Nat) : Nat → Downloader → Except Fault Downloader
  | 0, s => .ok s
  | k + 1, s =>
    if s.store.doIHaveRequests index then do
      let (b, store) ← s.store.newRequest t.toSetup index
      requestBroken index k
        { s with store := store, allRequests := s.allRequests ++ [(index, b)] }
    else .ok s

/-- In the endgame the others need not send the block any more.
mirrors src/bittorrent/Downloader.py:98-107 -/
def cancelOther (self : Nat) (r : Block) (s : Downloader) (id : Nat) : Downloader :=
  match s.get id with
  | none => s
  | some d =>
    if id = self ∨ d.interested = false then s
    else if d.choked then s.fixDownloadEndgame t id
    else if r ∈ d.activeRequests then
      ((s.modify id fun d => { d with activeRequests := d.activeRequests.erase r }).send id
        (.cancel r)).fixDownloadEndgame t id
    else s

/-- The block is not on the lists any more; `none` where `all_requests.remove` raises.
mirrors src/bittorrent/Downloader.py:70-75 -/
def takeOff (id : Nat) (r : Block) : Option Downloader :=
  let s := s.modify id fun d => { d with activeRequests := d.activeRequests.erase r }
  if s.store.endgame then
    if r ∈ s.allRequests then some { s with allRequests := s.allRequests.erase r } else none
  else some s

/-- mirrors src/bittorrent/Downloader.py:94-95 -/
def completePiece (s : Downloader) (index : Nat) : Except Fault Downloader :=
  if s.store.has index then
    match s.picker.complete index with
    | none => .error .raised
    | some picker => .ok { s with picker := picker }
  else .ok s

/-- mirrors src/bittorrent/Downloader.py:109-111 -/
def closeSeeds (s : Downloader) : Except Fault Downloader :=
  if s.picker.amIComplete t.numPieces then
    ((s.downloads.filter (Download.seed t)).map Download.id).foldlM (disconnected t) s
  else .ok s

/-- Its hash is wrong.
mirrors src/bittorrent/Downloader.py:81-93 -/
def pieceBroken (s : Downloader) (index : Nat) : Except Fault (Bool × Downloader) :=
  if s.store.endgame then do
    let s ← requestBroken t index (t.blocks index).length s
    .ok (false, s.fixAll t)
  else
    match s.picker.bump index with
    | none => .error .raised
    | some picker => do
      let s ← { s with picker := picker }.requestAll t [index]
      .ok (false, s)

/-- The block `r` has been written, and is not broken.
mirrors src/bittorrent/Downloader.py:94-112 -/
def pieceWritten (s : Downloader) (id : Nat) (r : Block) : Except Fault (Bool × Downloader) := do
  let s ← s.completePiece r.1
  let s := if s.store.endgame then s.ids.foldl (cancelOther t id r) s else s
  let s ← s.requestMore t id none
  let s ← s.closeSeeds t
  .ok (s.store.has r.1, s)

/-- mirrors src/bittorrent/Downloader.py:80-112 -/
def writePiece [DecidableEq D] (io : Option String) (id index start : Nat)
    (piece : List UInt8) : Except Fault (Bool × Downloader) := do
  let (ok, store) ← s.store.pieceCameIn t.toSetup io index start piece
  let s := { s with store := store }
  if ok = false then s.pieceBroken t index
  else s.pieceWritten t id (index, start, piece.length)

/-- mirrors src/bittorrent/Downloader.py:69-112 -/
def gotPiece [DecidableEq D] (io : Option String) (id index start : Nat)
    (piece : List UInt8) : Except Fault (Bool × Downloader) :=
  match s.get id with
  | none => .error .raised
  | some d =>
    if (index, start, piece.length) ∉ d.activeRequests then .ok (false, s)
    else
      match s.takeOff id (index, start, piece.length) with
      | none => .error .raised
      | some s => s.writePiece t io id index start piece

/-- The pieces that are there are complete before any peer is connected.
mirrors src/bittorrent/download.py:259-262 -/
def start (store : Store) : Except Fault Downloader :=
  (List.range t.numPieces).foldlM completePiece {
    store := store
    picker := Picker.fresh t.chance 0 t.numPieces
    downloads := []
    allRequests := []
    draws := 1
    sent := [] }

end Downloader

end Wubi.Bittorrent
