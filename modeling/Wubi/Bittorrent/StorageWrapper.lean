import Mathlib.Logic.Function.Basic
import Wubi.Core.LTS
import Wubi.Core.Medium

/-!
# The pieces of a torrent on the disk

`StorageWrapper` keeps the pieces of a torrent in a storage that grows from the
front: a piece that comes in before there is room at its own place is put
elsewhere (`places`), and moved when the room for it is made (`holes`). A piece is
asked for block by block; when its last block is in, its hash is compared.

**Parameters.** `Setup` is what the constructor is given; `sha` is any function
of the bytes. What lies on the disk at the start, and which slots were there
(`wasPreallocated`), is arbitrary. An access to the storage may raise `IOError`, and a
call is given what that says (`io`); no access of the constructor does.

**Faults.** `failed` is the callback of that name. It hands its reason to
`error_callback`, which raises `DownloadError`, so that nothing runs behind it.
`raised` is any other exception.
-/
namespace Wubi.Bittorrent

open Function

/-- What `StorageWrapper` is made with, where `__init__` does not raise `ValueError`.
mirrors src/bittorrent/StorageWrapper.py:15-30 -/
structure Setup (D : Type) where
  sha : List UInt8 → D
  hashes : List D
  pieceSize : Nat
  requestSize : Nat
  totalLength : Nat
  checkHashes : Bool
  /-- `_waspre`, for the slot of that number -/
  wasPreallocated : Nat → Bool
  pieceSize_pos : 0 < pieceSize
  requestSize_pos : 0 < requestSize
  not_too_small : (pieceSize : Int) * (hashes.length - 1) < totalLength
  not_too_big : totalLength ≤ pieceSize * hashes.length

/-- An element of `inactive_requests`: `1`, `None`, or the blocks not asked for. -/
inductive Requests
  | one
  | none
  | list (l : List (Nat × Nat))
deriving DecidableEq

/-- The truth value of such an element. -/
def Requests.toBool : Requests → Bool
  | .one => true
  | .none => false
  | .list l => !l.isEmpty

structure Store where
  amountLeft : Int
  numactive : Nat → Int
  inactiveRequests : Nat → Requests
  amountInactive : Int
  endgame : Bool
  /-- `self.have` -/
  has : Nat → Bool
  waschecked : Nat → Bool
  places : Nat → Option Nat
  holes : List Nat
  /-- the storage -/
  disk : Medium UInt8
  /-- how often `finished` was called -/
  finished : Nat
  /-- what `data_flunked` was called with, in all -/
  flunked : Nat
  /-- the blocks that came in, but for those of a piece that was thrown away since -/
  came : List (Nat × Nat × Nat)

/-- The three reasons that `failed` is given. The first is that of an `IOError` that says
`e`. -/
def ioError (e : String) : String := "IO Error " ++ e

def corruptedOnDisk : String :=
  "data corrupted on disk - maybe you have two copies running?"

def failedHashCheck : String := "told file complete on start-up, but piece failed hash check"

inductive Fault
  | failed (reason : String)
  | raised
deriving DecidableEq

variable {D : Type} (c : Setup D)

/-- What may end a download: an error of the storage, or a piece that is not what it was
taken for, where the pieces on the disk were taken as they were. -/
def Fault.Excused (f : Fault) : Prop :=
  (∃ e, f = .failed (ioError e)) ∨
    c.checkHashes = false ∧ (f = .failed corruptedOnDisk ∨ f = .failed failedHashCheck)

namespace Setup

/-- `len(self.hashes)` -/
def numPieces : Nat := c.hashes.length

/-- mirrors src/bittorrent/StorageWrapper.py:89-93 -/
def pieceLen (piece : Nat) : Nat :=
  if piece + 1 < c.numPieces then c.pieceSize else c.totalLength - piece * c.pieceSize

/-- The loop of `_make_inactive`, from `x` on.
mirrors src/bittorrent/StorageWrapper.py:101-109 -/
def blocksFrom (length x : Nat) : List (Nat × Nat) :=
  if x + c.requestSize < length then
    (x, c.requestSize) :: blocksFrom length (x + c.requestSize)
  else [(x, length - x)]
termination_by length - x
decreasing_by have := c.requestSize_pos; omega

/-- What `_make_inactive` leaves in `inactive_requests[index]`. -/
def blocks (index : Nat) : List (Nat × Nat) :=
  c.blocksFrom (min c.pieceSize (c.totalLength - c.pieceSize * index)) 0

end Setup

namespace Store

/-- `self.storage.read` -/
def read (s : Store) (pos len : Nat) : List UInt8 := s.disk.read pos (min len (c.totalLength - pos))

/-- `self.storage.write` -/
def write (s : Store) (pos : Nat) (data : List UInt8) : Store :=
  { s with disk := s.disk.write pos (data.take (c.totalLength - pos)) }

/-! ## Asking for blocks -/

/-- mirrors src/bittorrent/StorageWrapper.py:120-121 -/
def doIHaveRequests (s : Store) (index : Nat) : Bool := (s.inactiveRequests index).toBool

/-- The lesser of two pairs, as Python compares them. -/
def minPair (a b : Nat × Nat) : Nat × Nat :=
  if b.1 < a.1 ∨ b.1 = a.1 ∧ b.2 < a.2 then b else a

/-- `min(rs)`, `none` for an empty list. -/
def minBlock : List (Nat × Nat) → Option (Nat × Nat)
  | [] => none
  | b :: l => some (l.foldl minPair b)

/-- mirrors src/bittorrent/StorageWrapper.py:123-134 -/
def newRequest (s : Store) (index : Nat) : Except Fault ((Nat × Nat) × Store) :=
  let requests :=
    match s.inactiveRequests index with
    | .one => some (c.blocks index)
    | .none => none
    | .list l => some l
  match requests with
  | none => .error .raised
  | some rs =>
    match minBlock rs with
    | none => .error .raised
    | some r =>
      let amount : Int := s.amountInactive - r.2
      .ok (r, { s with
        inactiveRequests := update s.inactiveRequests index (.list (rs.erase r))
        numactive := update s.numactive index (s.numactive index + 1)
        amountInactive := amount
        endgame := s.endgame || amount == 0 })

/-- mirrors src/bittorrent/StorageWrapper.py:193-196 -/
def requestLost (s : Store) (index start length : Nat) : Except Fault Store :=
  match s.inactiveRequests index with
  | .list l =>
    .ok { s with
      inactiveRequests := update s.inactiveRequests index (.list (l ++ [(start, length)]))
      amountInactive := s.amountInactive + length
      numactive := update s.numactive index (s.numactive index - 1) }
  | _ => .error .raised

/-! ## A block comes in -/

/-- The piece whose place is the slot `v`, in `self.places.items()`. -/
def pieceAt (places : Nat → Option Nat) (v : Nat) : Option Nat :=
  (List.range c.numPieces).find? fun p => places p == some v

/-- `places[index] = index; places[p] = f`, for the piece `p` in the slot `index`, and
the copy of its bytes into the slot `f`, `len` of them.
mirrors src/bittorrent/StorageWrapper.py:156-163 and :168-175 -/
def moveAside (s : Store) (index f len : Nat) : Except Fault Store :=
  match pieceAt c s.places index with
  | none => .error .raised
  | some p =>
    let s' := { s with places := update (update s.places index (some index)) p (some f) }
    .ok (s'.write c (c.pieceSize * f) (s.read c (c.pieceSize * index) len))

/-- A place for the piece `index`, which has none: the first part of `_piece_came_in`.
mirrors src/bittorrent/StorageWrapper.py:144-175 -/
def makePlace [DecidableEq D] (s : Store) (index : Nat) : Except Fault Store :=
  match s.holes with
  | [] => .error .raised
  | n :: holes =>
    let s := { s with holes := holes }
    match s.places n with
    | some oldpos =>
      let old := s.read c (c.pieceSize * oldpos) (c.pieceLen n)
      if s.has n ∧ c.hashes[n]? ≠ some (c.sha old) then
        .error (.failed corruptedOnDisk)
      else
        let s := { s.write c (c.pieceSize * n) old with places := update s.places n (some n) }
        if index = oldpos ∨ index ∈ holes then
          .ok { s with places := update s.places index (some oldpos) }
        else s.moveAside c index oldpos c.pieceSize
    | none =>
      if index ∈ holes ∨ index = n then
        let s := if c.wasPreallocated n then s
          else s.write c (c.pieceSize * n) (List.replicate (c.pieceLen n) 0xFF)
        .ok { s with places := update s.places index (some n) }
      else s.moveAside c index n (c.pieceLen n)

/-- The block is written and counted, and the hash of the piece compared if that was
its last one: the rest of `_piece_came_in`, for a piece in the slot `v`.
mirrors src/bittorrent/StorageWrapper.py:176-191 -/
def writeBlock [DecidableEq D] (s : Store) (index v start : Nat) (piece : List UInt8) :
    Bool × Store :=
  let s := s.write c (v * c.pieceSize + start) piece
  let s := { s with
    numactive := update s.numactive index (s.numactive index - 1)
    came := (index, start, piece.length) :: s.came }
  if s.doIHaveRequests index = false ∧ s.numactive index = 0 then
    if c.hashes[index]? = some (c.sha (s.read c (c.pieceSize * v) (c.pieceLen index))) then
      let left : Int := s.amountLeft - c.pieceLen index
      (true, { s with
        has := update s.has index true
        inactiveRequests := update s.inactiveRequests index .none
        waschecked := update s.waschecked index true
        amountLeft := left
        finished := if left = 0 then s.finished + 1 else s.finished })
    else
      (false, { s with
        flunked := s.flunked + c.pieceLen index
        inactiveRequests := update s.inactiveRequests index .one
        amountInactive := s.amountInactive + c.pieceLen index
        came := s.came.filter fun r => r.1 != index })
  else (true, s)

/-- `_piece_came_in`, where the storage always answers.
mirrors src/bittorrent/StorageWrapper.py:143-191 -/
def tryPieceCameIn [DecidableEq D] (s : Store) (index start : Nat) (piece : List UInt8) :
    Except Fault (Bool × Store) :=
  match s.places index with
  | some v => .ok (s.writeBlock c index v start piece)
  | none =>
    match s.makePlace c index with
    | .error f => .error f
    | .ok s =>
      match s.places index with
      | some v => .ok (s.writeBlock c index v start piece)
      | none => .error .raised

/-- A block is always written, so that there is an access to raise.
mirrors src/bittorrent/StorageWrapper.py:136-141 -/
def pieceCameIn [DecidableEq D] (s : Store) (io : Option String) (index start : Nat)
    (piece : List UInt8) : Except Fault (Bool × Store) :=
  match io with
  | some e => .error (.failed (ioError e))
  | none => s.tryPieceCameIn c index start piece

/-! ## Giving pieces away -/

/-- `_get_piece`, where the storage always answers.
mirrors src/bittorrent/StorageWrapper.py:205-215 -/
def tryGetPiece [DecidableEq D] (s : Store) (index start length : Nat) :
    Except Fault (Option (List UInt8) × Store) :=
  if s.has index = false then .ok (none, s)
  else
    match s.places index with
    | none => .error .raised
    | some v =>
      if s.waschecked index = false ∧
          c.hashes[index]? ≠ some (c.sha (s.read c (c.pieceSize * v) (c.pieceLen index))) then
        .error (.failed failedHashCheck)
      else
        let s := { s with waschecked := update s.waschecked index true }
        if c.pieceLen index < start + length then .ok (none, s)
        else .ok (some (s.read c (c.pieceSize * v + start) length), s)

/-- Nothing is read of a piece that is not had, nor behind the end of one that was checked.
mirrors src/bittorrent/StorageWrapper.py:198-203 -/
def getPiece [DecidableEq D] (s : Store) (io : Option String) (index start length : Nat) :
    Except Fault (Option (List UInt8) × Store) :=
  match io with
  | some e =>
    if s.has index = true ∧ (s.waschecked index = false ∨ start + length ≤ c.pieceLen index) then
      .error (.failed (ioError e))
    else s.tryGetPiece c index start length
  | none => s.tryGetPiece c index start length

/-! ## What is on the disk at the start -/

/-- `markgot`: the piece is had, and lies in the slot `pos`.
mirrors src/bittorrent/StorageWrapper.py:53-59 -/
def markgot (s : Store) (piece pos : Nat) : Store :=
  { s with
    places := update s.places piece (some pos)
    has := update s.has piece true
    amountLeft := s.amountLeft - c.pieceLen piece
    amountInactive := s.amountInactive - c.pieceLen piece
    inactiveRequests := update s.inactiveRequests piece .none
    waschecked := update s.waschecked piece c.checkHashes }

/-- The state before the loop of `__init__`. -/
def fresh (disk : Medium UInt8) : Store where
  amountLeft := c.totalLength
  numactive _ := 0
  inactiveRequests _ := .one
  amountInactive := c.totalLength
  endgame := false
  has _ := false
  waschecked _ := c.checkHashes
  places _ := none
  holes := []
  disk := disk
  finished := 0
  flunked := 0
  came := []

/-- The pieces by their hash whose own slots were not there. -/
def targets [DecidableEq D] (h : D) : List Nat :=
  (List.range c.numPieces).filter fun i => !c.wasPreallocated i && c.hashes[i]? == some h

/-- One round of the loop of `__init__`, for the slot `i`.
mirrors src/bittorrent/StorageWrapper.py:61-80 -/
def checkSlot [DecidableEq D] (st : Store × (D → List Nat)) (i : Nat) : Store × (D → List Nat) :=
  let (s, targets) := st
  if c.wasPreallocated i = false then ({ s with holes := s.holes ++ [i] }, targets)
  else if c.checkHashes = false then (s.markgot c i i, targets)
  else
    let last := c.numPieces - 1
    let lastlen := c.pieceLen last
    let head := s.read c (c.pieceSize * i) lastlen
    let sp := c.sha head
    let sh := c.sha (head ++ s.read c (c.pieceSize * i + lastlen) (c.pieceLen i - lastlen))
    if c.hashes[i]? = some sh then (s.markgot c i i, targets)
    else
      match (targets sh).getLast? with
      | some p =>
        if c.pieceLen i = c.pieceLen p then
          (s.markgot c p i, update targets sh (targets sh).dropLast)
        else if s.has last = false ∧ c.hashes[last]? = some sp ∧
            (i = last ∨ c.wasPreallocated last = false) then (s.markgot c last i, targets)
        else ({ s with places := update s.places i (some i) }, targets)
      | none =>
        if s.has last = false ∧ c.hashes[last]? = some sp ∧
            (i = last ∨ c.wasPreallocated last = false) then (s.markgot c last i, targets)
        else ({ s with places := update s.places i (some i) }, targets)

/-- The constructor, on a disk, where nothing stops it.
mirrors src/bittorrent/StorageWrapper.py:15-84 -/
def start [DecidableEq D] (disk : Medium UInt8) : Store :=
  let s := ((List.range c.numPieces).foldl (checkSlot c) (fresh c disk, targets c)).1
  if s.amountLeft = 0 then { s with finished := 1 } else s

end Store

end Wubi.Bittorrent
