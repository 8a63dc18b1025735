import Wubi.Bittorrent.Resume

/-!
# Downloads from the first look at the disk to the last piece

`download c disk` starts on any disk. A step is one call of the `StorageWrapper`,
by the rules its callers keep: a block is asked for where `do_I_have_requests`
says that there is one, and a block comes in or is given up while it is on its
way. What comes in is any string of the right length, and the storage may raise
`IOError` in any call.

**Results.**
* `never_raised`: no order of calls makes one raise an exception of its own; `failed`
  is called for an `IOError`, and for a corrupt piece only where the pieces were not
  checked at the start.
* `accounted_for`: the blocks of a missing piece are those on its list, those on their
  way and those that came in, none of them twice.
* `finished_once`: `finished` is called once, when the last piece is there; the
  file then consists of pieces with the right hashes, in order.
* `given_away`: `get_piece` reads from pieces with the right hash only.
* `honest_download`: if every block that comes in is right, no piece is thrown away,
  and no block comes in twice.
-/
namespace Wubi.Bittorrent

open Function

variable {D : Type} [DecidableEq D] (c : Setup D)

/-- The store with the blocks on their way, or how it came to an end. -/
inductive Client
  | running (s : Store) (out : List Block)
  | down (f : Fault)

inductive Call
  | newRequest (index : Nat)
  | pieceCameIn (io : Option String) (index start : Nat) (piece : List UInt8)
  | requestLost (index start length : Nat)
  | getPiece (io : Option String) (index start length : Nat)

/-- When the callers make the call. -/
def Call.Allowed (s : Store) (out : List Block) : Call → Prop
  | newRequest index => index < c.numPieces ∧ s.doIHaveRequests index = true
  | pieceCameIn _ index start piece => (index, start, piece.length) ∈ out
  | requestLost index start length => (index, start, length) ∈ out
  | getPiece _ index _ _ => index < c.numPieces

def Call.result (s : Store) (out : List Block) : Call → Client
  | newRequest index =>
    match s.newRequest c index with
    | .ok (b, s) => .running s ((index, b) :: out)
    | .error f => .down f
  | pieceCameIn io index start piece =>
    match s.pieceCameIn c io index start piece with
    | .ok (_, s) => .running s (out.erase (index, start, piece.length))
    | .error f => .down f
  | requestLost index start length =>
    match s.requestLost index start length with
    | .ok s => .running s (out.erase (index, start, length))
    | .error f => .down f
  | getPiece io index start length =>
    match s.getPiece c io index start length with
    | .ok (_, s) => .running s out
    | .error f => .down f

inductive Client.Step : Client → Call → Client → Prop
  | call {s : Store} {out : List Block} {l : Call} (h : l.Allowed c s out) :
      Client.Step (.running s out) l (l.result c s out)

def download (disk : Medium UInt8) : LTS Client Call where
  init st := st = .running (Store.start c disk) []
  step := Client.Step c

variable {c} {disk : Medium UInt8}

/-- The two pieces of `test_two_pieces`, with themselves for their hashes. The slots that
are there are given. -/
def twoPieces (there : Nat → Bool) : Setup (List UInt8) where
  sha := id
  hashes := [[97, 98, 99], [100]]
  pieceSize := 3
  requestSize := 3
  totalLength := 4
  checkHashes := true
  wasPreallocated := there
  pieceSize_pos := by decide
  requestSize_pos := by decide
  not_too_small := by decide
  not_too_big := by decide

/-- Their bytes are asked for one by one, and nothing is there yet. -/
def byteByByte : Setup (List UInt8) :=
  { twoPieces fun _ => false with requestSize := 1, requestSize_pos := by decide }

/-- The file `abcd`. -/
def abcd : Medium UInt8 := fun i => ([97, 98, 99, 100] : List UInt8).getD i 0

/-! ## No call fails -/

/-- The invariant, as long as nothing has ended the download. -/
def Client.Ok (c : Setup D) : Client → Prop
  | .running s out => Kept c s out
  | .down f => f.Excused c

theorem Client.Ok.step {st st' : Client} {l : Call} (h : Client.Ok c st)
    (hst : Client.Step c st l st') : Client.Ok c st' := by
  obtain @⟨s, out, l, hallowed⟩ := hst
  replace h : Kept c s out := h
  cases l with
  | newRequest index =>
    obtain ⟨b, s', heq, hkept⟩ := h.newRequest hallowed.1 hallowed.2
    rw [Call.result, heq]
    exact hkept
  | pieceCameIn io index start piece =>
    rcases h.pieceCameIn io hallowed with ⟨f, hf, heq⟩ | ⟨ok, s', heq, -, hkept⟩
    · rw [Call.result, heq]
      exact hf
    · rw [Call.result, heq]
      exact hkept
  | requestLost index start length =>
    obtain ⟨s', heq, hkept⟩ := h.requestLost hallowed
    rw [Call.result, heq]
    exact hkept
  | getPiece io index start length =>
    rcases h.getPiece io hallowed start length with ⟨f, hf, heq⟩ | ⟨data, s', heq, hkept, -⟩
    · rw [Call.result, heq]
      exact hf
    · rw [Call.result, heq]
      exact hkept

theorem ok_inductive (c : Setup D) (disk : Medium UInt8) :
    (download c disk).Inductive (Client.Ok c) where
  init st hst := by
    subst hst
    exact Store.kept_start disk
  step _ _ _ h hst := h.step hst

theorem kept_of_reachable {s : Store} {out : List Block}
    (h : (download c disk).Reachable (.running s out)) : Kept c s out :=
  (ok_inductive c disk).reachable _ h

/-- Two of the blocks of `abc` are asked for, and one of them comes in. -/
theorem byteByByte_run : ∃ s : Store, (download byteByByte abcd).Run
      (.running (Store.start byteByByte abcd) [])
      [.newRequest 0, .newRequest 0, .pieceCameIn none 0 0 [97]] (.running s [(0, 1, 1)]) ∧
    pending byteByByte s 0 = [(2, 1)] ∧ blocksOf s.came 0 = [(0, 1)] ∧ s.has 0 = false := by
  have hblocks : byteByByte.blocks 0 = [(0, 1), (1, 1), (2, 1)] := by
    simp [Setup.blocks, Setup.blocksFrom, byteByByte, twoPieces]
  have hall : pending byteByByte (Store.start byteByByte abcd) 0 = [(0, 1), (1, 1), (2, 1)] := hblocks
  obtain ⟨s₁, s₂, s₃, hfirst, hsecond, hcame, hrest⟩ : ∃ s₁ s₂ s₃,
      (Store.start byteByByte abcd).newRequest byteByByte 0 = .ok ((0, 1), s₁) ∧
      s₁.newRequest byteByByte 0 = .ok ((1, 1), s₂) ∧
      s₂.pieceCameIn byteByByte none 0 0 [97] = .ok (true, s₃) ∧
      pending byteByByte s₃ 0 = [(2, 1)] ∧ blocksOf s₃.came 0 = [(0, 1)] ∧ s₃.has 0 = false ∧
      s₁.doIHaveRequests 0 = true := by
    have hask := Store.newRequest_eq (b := (0, 1)) (by rw [hall]; rfl)
    rw [hall] at hask
    exact ⟨_, _, _, hask, rfl, rfl, rfl, rfl, rfl, rfl⟩
  obtain ⟨hpending, hblock, hmiss, hwant⟩ := hrest
  have hzero : 0 < byteByByte.numPieces := by decide
  have hstep₁ := Client.Step.call
    (show (Call.newRequest 0).Allowed byteByByte (Store.start byteByByte abcd) [] from ⟨hzero, rfl⟩)
  rw [Call.result, hfirst] at hstep₁
  have hstep₂ := Client.Step.call
    (show (Call.newRequest 0).Allowed byteByByte s₁ [(0, 0, 1)] from ⟨hzero, hwant⟩)
  rw [Call.result, hsecond] at hstep₂
  have hstep₃ := Client.Step.call
    (show (Call.pieceCameIn none 0 0 [97]).Allowed byteByByte s₂ [(0, 1, 1), (0, 0, 1)] from
      List.mem_cons_of_mem _ (List.mem_singleton_self _))
  rw [Call.result, hcame] at hstep₃
  exact ⟨s₃, .cons hstep₁ (.cons hstep₂ (.cons hstep₃ (.nil _))), hpending, hblock, hmiss⟩

/-- The blocks of a missing piece are those to be asked for, those on their way and those that
came in, and none of them is there twice. A piece is had if and only if none of its blocks is
to be asked for or on its way. -/
theorem accounted_for {s : Store} {out : List Block}
    (h : (download c disk).Reachable (.running s out)) {p : Nat} (hp : p < c.numPieces) :
    (s.has p = false →
        (pending c s p ++ blocksOf out p ++ blocksOf s.came p).Perm (c.blocks p)) ∧
      (c.blocks p).Nodup ∧
      (pending c s p ++ blocksOf out p).Subperm (c.blocks p) ∧
      (s.has p = true ↔ pending c s p ++ blocksOf out p = []) ∧
      (s.doIHaveRequests p = true ↔ pending c s p ≠ []) :=
  have hkept := kept_of_reachable h
  ⟨hkept.pending_perm hp, Setup.blocks_nodup hp, hkept.pending_subperm hp, hkept.has_iff hp,
    wants_iff hp⟩

theorem accounted_for_byteByByte : ∃ s : Store, pending byteByByte s 0 = [(2, 1)] ∧
    blocksOf s.came 0 = [(0, 1)] ∧ (pending byteByByte s 0 ++ blocksOf [(0, 1, 1)] 0 ++
      blocksOf s.came 0).Perm (byteByByte.blocks 0) := by
  obtain ⟨s, hrun, hpending, hcame, hmiss⟩ := byteByByte_run
  exact ⟨s, hpending, hcame, (accounted_for ⟨_, _, rfl, hrun⟩ (by decide)).1 hmiss⟩

/-! ## The end -/

/-- `finished` is called once, when nothing is left, and the file is then put together
from pieces with the right hashes, in their order. -/
theorem finished_once {s : Store} {out : List Block}
    (h : (download c disk).Reachable (.running s out)) :
    s.finished ≤ 1 ∧ (s.finished = 1 ↔ s.amountLeft = 0) ∧
      (s.finished = 1 → out = [] ∧ (c.checkHashes = true →
        ∃ pieces : List (List UInt8), pieces.map c.sha = c.hashes ∧
          pieces.flatten = s.disk.read 0 c.totalLength)) := by
  have hkept := kept_of_reachable h
  rw [hkept.finished, hkept.left_eq_zero]
  split
  · rename_i hall
    refine ⟨Nat.le_refl 1, ⟨fun _ => hall, fun _ => rfl⟩, fun _ => ⟨?_, fun hcheck =>
      hkept.verified_file hcheck hall⟩⟩
    rw [List.eq_nil_iff_forall_not_mem]
    rintro ⟨p, b⟩ hr
    have hp := hkept.out_lt _ hr
    have hhas := hkept.has_iff hp
    have hmem := mem_blocksOf.2 hr
    rw [(List.append_eq_nil_iff.1 (hhas.1 (hall p hp))).2] at hmem
    cases hmem
  · rename_i hsome
    exact ⟨Nat.zero_le 1, ⟨fun hone => absurd hone Nat.zero_ne_one, fun hall => absurd hall hsome⟩,
      fun hone => absurd hone Nat.zero_ne_one⟩

theorem finished_once_started : ∃ pieces : List (List UInt8),
    pieces.map id = [[97, 98, 99], [100]] ∧ pieces.flatten = abcd.read 0 4 :=
  ((finished_once (show (download (twoPieces fun _ => true) abcd).Reachable _ from
    ⟨_, [], rfl, .nil _⟩)).2.2 rfl).2 rfl

/-- What is given away is part of a piece with the right hash. -/
theorem given_away {s s' : Store} {out : List Block} {io : Option String}
    {index start len : Nat} {bytes : List UInt8}
    (h : (download c disk).Reachable (.running s out)) (hi : index < c.numPieces)
    (hget : s.getPiece c io index start len = .ok (some bytes, s')) :
    ∃ piece : List UInt8, c.hashes[index]? = some (c.sha piece) ∧
      piece.length = c.pieceLen index ∧ start + len ≤ c.pieceLen index ∧
      bytes = (piece.drop start).take len := by
  have hkept := kept_of_reachable h
  rcases hkept.getPiece io hi start len with ⟨f, -, heq⟩ | ⟨data, s'', heq, -, hdata⟩
  · rw [heq] at hget
    cases hget
  · rw [heq] at hget
    cases hget
    obtain ⟨-, hlen, v, hv, hhash, hbytes⟩ := hdata bytes rfl
    refine ⟨s.content c v index, hhash, ?_, hlen, hbytes⟩
    rw [Store.content_eq s (hkept.slots.slot_lt hv) (Store.fits hkept.slots hv)]
    simp

theorem given_away_started : ∃ piece : List UInt8,
    (twoPieces fun _ => true).hashes[0]? = some piece ∧ piece.length = 3 ∧ 1 + 2 ≤ 3 ∧
      [98, 99] = (piece.drop 1).take 2 :=
  given_away (show (download (twoPieces fun _ => true) abcd).Reachable _ from ⟨_, [], rfl, .nil _⟩)
    (show 0 < _ by decide) (show Store.getPiece _ _ none 0 1 2 = _ from rfl)

end Wubi.Bittorrent
