import Mathlib.Algebra.Ring.Nat
import Wubi.Core.Frames
import Wubi.Core.Reader

/-!
# The connection to a peer

A connection begins with a handshake: the name of the protocol, eight reserved bytes,
the identity of the download and that of the peer. Messages follow, each with its length
in front. `data_came_in` reads them from the parts in which the socket delivers them.

**Parameters.** `App` is what a connection calls: the `Connecter` and all behind it. An
answer is the state after the call, the messages that were sent in the course of it, and
whether it closed the connection or raised an exception; `connection_lost` only changes
the state, and raises nothing. `others` are the identities of the other connections. The
flag `everinc` is left out.
-/
namespace Wubi.Bittorrent

abbrev Bytes := List UInt8

/-- A message that has a length of four bytes. -/
abbrev Sendable := {m : Bytes // m.length < 2 ^ 32}

namespace Encrypter

def protocolName : Bytes := "BitTorrent protocol".toList.map fun c => UInt8.ofNat c.toNat

@[simp] theorem length_protocolName : protocolName.length = 19 := by decide

/-- mirrors src/bittorrent/Encrypter.py:10-11 -/
def toint (s : Bytes) : Nat := s.foldl (fun n b => 256 * n + b.toNat) 0

/-- For `i < 2 ** 32`; `chr` raises `ValueError` for others.
mirrors src/bittorrent/Encrypter.py:13-15 -/
def tobinary (i : Nat) : Bytes :=
  [UInt8.ofNat (i >>> 24), UInt8.ofNat ((i >>> 16) &&& 0xFF), UInt8.ofNat ((i >>> 8) &&& 0xFF),
    UInt8.ofNat (i &&& 0xFF)]

theorem tobinary_eq (i : Nat) : tobinary i =
    [UInt8.ofNat (i / 2 ^ 24), UInt8.ofNat (i / 2 ^ 16), UInt8.ofNat (i / 2 ^ 8), UInt8.ofNat i] := by
  have hbyte : ∀ k, UInt8.ofNat (k &&& 0xFF) = UInt8.ofNat k := by
    intro k
    rw [show 0xFF = 2 ^ 8 - 1 from rfl, Nat.and_two_pow_sub_one_eq_mod]
    exact UInt8.toNat_inj.1 (by simp)
  simp only [tobinary, hbyte, Nat.shiftRight_eq_div_pow]

@[simp] theorem length_tobinary (i : Nat) : (tobinary i).length = 4 := rfl

theorem toint_four (a b c d : UInt8) :
    toint [a, b, c, d] = a.toNat * 2 ^ 24 + b.toNat * 2 ^ 16 + c.toNat * 2 ^ 8 + d.toNat := by
  simp only [toint, List.foldl_cons, List.foldl_nil]
  omega

theorem toint_tobinary {i : Nat} (h : i < 2 ^ 32) : toint (tobinary i) = i := by
  rw [tobinary_eq, toint_four]
  simp only [UInt8.toNat_ofNat']
  omega

theorem exists_of_length_four {s : Bytes} (h : s.length = 4) : ∃ a b c d, s = [a, b, c, d] := by
  rcases s with _ | ⟨a, _ | ⟨b, _ | ⟨c, _ | ⟨d, _ | ⟨x, s⟩⟩⟩⟩⟩
  case cons.cons.cons.cons.nil => exact ⟨a, b, c, d, rfl⟩
  all_goals simp at h

theorem toint_lt {s : Bytes} (h : s.length = 4) : toint s < 2 ^ 32 := by
  obtain ⟨a, b, c, d, rfl⟩ := exists_of_length_four h
  have ha := a.toNat_lt
  have hb := b.toNat_lt
  have hc := c.toNat_lt
  have hd := d.toNat_lt
  rw [toint_four]
  omega

theorem tobinary_toint {s : Bytes} (h : s.length = 4) : tobinary (toint s) = s := by
  obtain ⟨a, b, c, d, rfl⟩ := exists_of_length_four h
  have ha := a.toNat_lt
  have hb := b.toNat_lt
  have hc := c.toNat_lt
  have hd := d.toNat_lt
  rw [tobinary_eq, toint_four]
  simp only [List.cons.injEq, and_true, ← UInt8.toNat_inj, UInt8.toNat_ofNat']
  omega

def framing : Framing UInt8 where
  header := tobinary
  width := 4
  width_pos := by decide
  length_header := length_tobinary
  bound := 2 ^ 32
  header_inj hn hn' h := by rw [← toint_tobinary hn, h, toint_tobinary hn']

end Encrypter

open Encrypter

/-- What an `Encoder` is made with. The identities are twenty bytes. -/
structure Encoder where
  myId : Bytes
  downloadId : Bytes
  maxLen : Nat
  length_myId : myId.length = 20
  length_downloadId : downloadId.length = 20

inductive Reaction
  | goOn
  | close
  | raise
deriving DecidableEq

structure Answer (σ : Type) where
  state : σ
  sends : List Sendable
  reaction : Reaction

structure App (σ : Type) where
  connectionMade : σ → Answer σ
  gotMessage : σ → Bytes → Answer σ
  connectionLost : σ → σ

/-- The values of `next_func`. -/
inductive Func
  | readHeaderLen
  | readHeader
  | readReserved
  | readDownloadId
  | readPeerId
  | readLen
  | readMessage
  | readDead
deriving DecidableEq

/-- A `Connection`, but for its buffer. -/
structure Conn (σ : Type) where
  locallyInitiated : Bool
  id : Option Bytes
  complete : Bool
  closed : Bool
  nextLen : Nat
  nextFunc : Func
  /-- what has been written to the socket, in all -/
  written : Bytes
  /-- what `send_message` was called with -/
  sent : List Sendable
  /-- what `got_message` was called with -/
  got : List Bytes
  app : σ

structure Link (σ : Type) extends Conn σ where
  buffer : Bytes

variable {σ : Type} (e : Encoder) (app : App σ) (others : List Bytes)

namespace Encoder

/-- mirrors src/bittorrent/Encrypter.py:30-31 -/
def greeting : Bytes :=
  UInt8.ofNat protocolName.length :: protocolName ++ List.replicate 8 0 ++ e.downloadId

end Encoder

namespace Conn

/-- mirrors src/bittorrent/Encrypter.py:20-34 -/
def start (isLocal : Bool) (id : Option Bytes) (state : σ) : Conn σ where
  locallyInitiated := isLocal
  id := id
  complete := false
  closed := false
  nextLen := 1
  nextFunc := .readHeaderLen
  written := if isLocal then e.greeting ++ (if id.isSome then e.myId else []) else []
  sent := []
  got := []
  app := state

def write (c : Conn σ) (s : Bytes) : Conn σ := { c with written := c.written ++ s }

/-- mirrors src/bittorrent/Encrypter.py:113-114 -/
def sendMessage (c : Conn σ) (message : Sendable) : Conn σ :=
  { c.write (tobinary message.1.length ++ message.1) with sent := c.sent ++ [message] }

/-- mirrors src/bittorrent/Encrypter.py:102-111 -/
def close (c : Conn σ) : Conn σ :=
  if c.closed then c
  else { c with
    closed := true
    app := if c.complete then app.connectionLost c.app else c.app }

/-- The connection after a call of the application. -/
def answered (c : Conn σ) (a : Answer σ) : Except (Conn σ) (Conn σ) :=
  let c := a.sends.foldl sendMessage { c with app := a.state }
  match a.reaction with
  | .goOn => .ok c
  | .close => .ok (c.close app)
  | .raise => .error c

/-- mirrors src/bittorrent/Encrypter.py:48-51 -/
def readHeaderLen (c : Conn σ) : Bytes → Except (Conn σ) (Conn σ × Option (Nat × Func))
  | [b] =>
    if b.toNat ≠ protocolName.length then .ok (c, none)
    else .ok (c, some (protocolName.length, .readHeader))
  | _ => .error c

/-- mirrors src/bittorrent/Encrypter.py:69-86 -/
def readPeerId (c : Conn σ) (s : Bytes) : Except (Conn σ) (Conn σ × Option (Nat × Func)) :=
  let made (c : Conn σ) : Except (Conn σ) (Conn σ × Option (Nat × Func)) := do
    let c ← { c with complete := true }.answered app (app.connectionMade c.app)
    .ok (c, some (4, .readLen))
  if c.id = none ∨ c.id = some [] then
    if s = e.myId then .ok (c, none)
    else if s ≠ [] ∧ s ∈ others then .ok (c, none)
    else
      let c := { c with id := some s }
      made (if c.locallyInitiated then c.write e.myId else c)
  else if c.id ≠ some s then .ok (c, none)
  else made c

/-- `next_func`. What is returned is `None` or the next length and function; an error
stands for an exception.
mirrors src/bittorrent/Encrypter.py:48-100 -/
def nextFuncCall (c : Conn σ) (s : Bytes) : Except (Conn σ) (Conn σ × Option (Nat × Func)) :=
  match c.nextFunc with
  | .readHeaderLen => c.readHeaderLen s
  | .readHeader => if s ≠ protocolName then .ok (c, none) else .ok (c, some (8, .readReserved))
  | .readReserved => .ok (c, some (20, .readDownloadId))
  | .readDownloadId =>
    if s ≠ e.downloadId then .ok (c, none)
    else .ok (if c.locallyInitiated then c else c.write (e.greeting ++ e.myId),
      some (20, .readPeerId))
  | .readPeerId => c.readPeerId e app others s
  | .readLen =>
    if s = [] then .error c
    else if toint s > e.maxLen then .ok (c, none)
    else .ok (c, some (toint s, .readMessage))
  | .readMessage =>
    if s ≠ [] then do
      let c ← { c with got := c.got ++ [s] }.answered app (app.gotMessage c.app s)
      .ok (c, some (4, .readLen))
    else .ok (c, some (4, .readLen))
  | .readDead => .ok (c, none)

/-- What `data_came_in` does with what `next_func` returns, or raises.
mirrors src/bittorrent/Encrypter.py:129-137 -/
def proceed : Except (Conn σ) (Conn σ × Option (Nat × Func)) → Except (Conn σ) (Conn σ)
  | .error c => .error { c with nextLen := 1, nextFunc := .readDead }
  | .ok (c, none) => .ok (c.close app)
  | .ok (c, some (n, f)) => .ok { c with nextLen := n, nextFunc := f }

/-- A round of the loop of `data_came_in`, when enough has come in. -/
def take (c : Conn σ) (m : Bytes) : Except (Conn σ) (Conn σ) :=
  proceed app (c.nextFuncCall e app others m)

@[simp] theorem close_closed (c : Conn σ) : (c.close app).closed = true := by
  rw [close]
  split
  · assumption
  · rfl

/-- What a call says comes next. -/
theorem next_cases {c c' : Conn σ} {s : Bytes} {n : Nat} {f : Func}
    (h : c.nextFuncCall e app others s = .ok (c', some (n, f))) :
    0 < n ∨ n = toint s ∧ s ≠ [] := by
  have hmade : ∀ {c c' : Conn σ} {a : Answer σ}, (c.answered app a >>= fun c =>
      (.ok (c, some (4, Func.readLen)) : Except (Conn σ) _)) = .ok (c', some (n, f)) → 0 < n := by
    intro c c' a h
    cases hc : c.answered app a with
    | error c₁ =>
      rw [hc] at h
      cases h
    | ok c₁ =>
      rw [hc] at h
      cases h
      decide
  rw [nextFuncCall] at h
  cases hf : c.nextFunc <;> rw [hf] at h <;> dsimp only at h
  case readHeaderLen =>
    unfold readHeaderLen at h
    split at h
    · split at h
      · cases h
      · cases h
        exact .inl (by decide)
    · cases h
  case readHeader =>
    split at h
    · cases h
    · cases h
      exact .inl (by decide)
  case readReserved =>
    cases h
    exact .inl (by decide)
  case readDownloadId =>
    split at h
    · cases h
    · cases h
      exact .inl (by decide)
  case readPeerId =>
    rw [readPeerId] at h
    split at h
    · split at h
      · cases h
      · split at h
        · cases h
        · exact .inl (hmade h)
    · split at h
      · cases h
      · exact .inl (hmade h)
  case readLen =>
    split at h
    · cases h
    · split at h
      · cases h
      · cases h
        exact .inr ⟨rfl, ‹_›⟩
  case readMessage =>
    split at h
    · exact .inl (hmade h)
    · cases h
      exact .inl (by decide)
  case readDead => cases h

/-- A length of 0 is followed by one that is not. -/
theorem take_progress {c c' : Conn σ} (h : c.take e app others [] = .ok c') :
    0 < c'.nextLen ∨ c'.closed = true := by
  rw [take] at h
  cases hcall : c.nextFuncCall e app others [] with
  | error c₁ =>
    rw [hcall] at h
    cases h
  | ok r =>
    obtain ⟨c₁, _ | ⟨n, f⟩⟩ := r
    · rw [hcall] at h
      cases h
      exact .inr (close_closed app c₁)
    · rw [hcall] at h
      cases h
      exact .inl ((next_cases e app others hcall).resolve_right fun hno => hno.2 rfl)

end Conn

/-- mirrors src/bittorrent/Encrypter.py:116-137 -/
def Conn.reader : Reader (Conn σ) (Conn σ) UInt8 where
  need := Conn.nextLen
  halted := Conn.closed
  take := Conn.take e app others
  progress := fun _ => Conn.take_progress e app others

namespace Link

def start (isLocal : Bool) (id : Option Bytes) (state : σ) : Link σ :=
  ⟨Conn.start e isLocal id state, []⟩

/-- mirrors src/bittorrent/Encrypter.py:116-137 -/
def dataCameIn (l : Link σ) (s : Bytes) : Except (Conn σ) (Link σ) := do
  let (c, buffer) ← (Conn.reader e app others).feed l.toConn l.buffer s
  .ok ⟨c, buffer⟩

theorem dataCameIn_append (l : Link σ) (s s' : Bytes) :
    l.dataCameIn e app others (s ++ s') =
      l.dataCameIn e app others s >>= fun l => l.dataCameIn e app others s' := by
  rw [dataCameIn, dataCameIn, Reader.feed_append, bind_assoc, bind_assoc]
  rfl

/-- The parts in which the socket delivers what the peer has sent make no difference. -/
theorem dataCameIn_parts (l : Link σ) (s : Bytes) (parts : List Bytes) :
    (s :: parts).foldlM (dataCameIn e app others) l =
      l.dataCameIn e app others (s ++ parts.flatten) := by
  induction parts generalizing l s with
  | nil =>
    rw [List.flatten_nil, List.append_nil, List.foldlM_cons]
    cases l.dataCameIn e app others s <;> rfl
  | cons s' parts ih =>
    rw [List.flatten_cons, ← List.append_assoc, ← ih, List.foldlM_cons, List.foldlM_cons,
      dataCameIn_append, bind_assoc]
    simp only [List.foldlM_cons]

end Link

end Wubi.Bittorrent
