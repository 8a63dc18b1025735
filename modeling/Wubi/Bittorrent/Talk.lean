import Wubi.Bittorrent.Handshake
import Wubi.Core.LTS

/-!
# Two peers

A connection from one peer to another, with the bytes that are on their way between
them. A step delivers some of these bytes, or an application does something on its own.
The applications are arbitrary: they may send messages, close the connection or raise
exceptions whenever they are called.

**Results.**
* `what_is_heard`: what one peer has got is what the other has sent, in order, up to some
  point, and each knows the other.
* `all_is_heard`: if the applications leave the connection open, it stays open, and when
  no byte is on its way each peer has got all that the other has sent.
-/
namespace Wubi.Bittorrent

open Encrypter

variable {σ τ : Type} {e e' : Encoder} {app : App σ} {others : List Bytes} {isLocal : Bool}
  {given : Option Bytes}

/-! ## What a peer writes -/

/-- What a peer has written, when `sent` are its messages. -/
def Spoken (e : Encoder) (w : Bytes) (sent : List Bytes) : Prop :=
  (w = [] ∨ w = e.greeting) ∧ sent = [] ∨
    w = e.greeting ++ e.myId ++ framing.frames sent

theorem length_greeting (e : Encoder) : e.greeting.length = 48 := by
  simp [Encoder.greeting, e.length_downloadId]

theorem spoken_opening : Spoken e (opening e isLocal given) [] := by
  rw [opening, Spoken]
  cases isLocal with
  | false => exact .inl ⟨.inl rfl, rfl⟩
  | true =>
    cases given with
    | none => exact .inl ⟨.inr (by simp), rfl⟩
    | some id => exact .inr (by simp)

theorem Stage.spoken {c : Conn σ} {done : Bytes} (h : Stage e isLocal given c done) :
    Spoken e c.written (c.sent.map Subtype.val) := by
  have hshaking : ∀ {n}, Shaking isLocal given c n (opening e isLocal given) →
      Spoken e c.written (c.sent.map Subtype.val) := fun hs => by
    rw [hs.sent, hs.written]
    exact spoken_opening
  rw [Stage] at h
  cases hf : c.nextFunc <;> rw [hf] at h
  case readPeerId =>
    obtain ⟨hs, -⟩ := h
    rw [hs.sent, hs.written]
    split
    · exact spoken_opening
    · exact .inr (by simp)
  case readLen =>
    obtain ⟨-, msgs, ht⟩ := h
    exact .inr ht.written
  case readMessage =>
    obtain ⟨-, -, front, msgs, ht, -⟩ := h
    exact .inr ht.written
  case readDead =>
    obtain ⟨-, msgs, ht⟩ := h
    exact .inr ht.written
  all_goals exact hshaking h.1

/-- A peer that has talked to another has read what it wrote. -/
theorem Talking.heard {c : Conn σ} {done w : Bytes} {msgs sent : List Bytes}
    (h : Talking e given c done msgs) (hw : done <+: w) (hspoken : Spoken e' w sent) :
    c.id = some e'.myId ∧ e'.downloadId = e.downloadId ∧ ∃ front : Bytes, front.length = 68 ∧
      done = front ++ framing.frames msgs ∧ w = front ++ framing.frames sent := by
  obtain ⟨reserved, peerId, hreserved, hpeerId, hid, -, rfl⟩ := h.read
  have hlong : (hello reserved e.downloadId).length = 48 := by
    simp [hello, e.length_downloadId, hreserved]
  rcases hspoken with ⟨hw' | hw', -⟩ | hw'
  · have hle := hw.length_le
    rw [hw', List.length_append, List.length_append, hlong, List.length_nil] at hle
    omega
  · have hle := hw.length_le
    rw [hw', List.length_append, List.length_append, hlong, hpeerId, length_greeting] at hle
    omega
  · rw [hw', List.append_assoc, List.append_assoc] at hw
    obtain ⟨hhello, hw⟩ := prefix_append_inj hw (by rw [hlong, length_greeting])
    obtain ⟨rfl, -⟩ := prefix_append_inj hw (by rw [hpeerId, e'.length_myId])
    refine ⟨hid, ?_, e'.greeting ++ e'.myId, ?_, by rw [hhello], hw'⟩
    · rw [hello, Encoder.greeting] at hhello
      exact (List.append_inj' hhello (by rw [e.length_downloadId, e'.length_downloadId])).2.symm
    · rw [List.length_append, length_greeting, e'.length_myId]

/-- The messages that have been read are the first of those that were sent. -/
theorem Talking.heard_prefix {c : Conn σ} {done w : Bytes} {msgs : List Bytes}
    {sent : List Sendable} (h : Talking e given c done msgs) (hw : done <+: w)
    (hspoken : Spoken e' w (sent.map Subtype.val)) : msgs <+: sent.map Subtype.val := by
  obtain ⟨-, -, front, -, rfl, rfl⟩ := h.heard hw hspoken
  refine Framing.frames_prefix (f := framing) (fun m hm => (h.short m hm).2) (fun m hm => ?_)
    ((List.prefix_append_right_inj front).1 hw)
  obtain ⟨m', -, rfl⟩ := List.mem_map.1 hm
  exact m'.2

/-! ## What a peer hears -/

/-- The connection of the link, or the one an exception has left. -/
def Link.after : Except (Conn σ) (Link σ) → Link σ
  | .ok l => l
  | .error c => ⟨c, []⟩

/-- The application does something on its own. -/
def Link.act (app : App σ) (l : Link σ) (answer : Answer σ) : Link σ :=
  match l.toConn.answered app answer with
  | .ok c => ⟨c, l.buffer⟩
  | .error c => ⟨c, l.buffer⟩

/-- A peer has written `w`, and `wire` has not been delivered yet. After an exception the
rest of what has come in is lost. -/
structure Hears (e : Encoder) (isLocal : Bool) (given : Option Bytes) (l : Link σ)
    (w wire : Bytes) : Prop where
  before : ∃ front, front <+: w ∧ Stage e isLocal given l.toConn front
  now : l.closed = false → l.nextFunc ≠ .readDead → ∃ done, Stage e isLocal given l.toConn done ∧
    done ++ l.buffer ++ wire = w ∧ l.buffer.length < l.nextLen

theorem hears_start (state : σ) (w : Bytes) :
    Hears e isLocal given (Link.start e isLocal given state) w w :=
  ⟨⟨[], List.nil_prefix, stage_start state⟩,
    fun _ _ => ⟨[], stage_start state, rfl, Nat.zero_lt_one⟩⟩

/-- The other peer writes more. -/
theorem Hears.more {l : Link σ} {w w' wire : Bytes} (h : Hears e isLocal given l w wire)
    (hw : w <+: w') : Hears e isLocal given l w' (wire ++ w'.drop w.length) := by
  refine ⟨?_, fun hopen halive => ?_⟩
  · obtain ⟨front, hfront, hstage⟩ := h.before
    exact ⟨front, hfront.trans hw, hstage⟩
  · obtain ⟨done, hstage, hdone, hlt⟩ := h.now hopen halive
    refine ⟨done, hstage, ?_, hlt⟩
    rw [← List.append_assoc, hdone]
    exact List.prefix_iff_eq_append.1 hw

/-- After an exception the connection is closed with the next byte, if one comes. -/
theorem feed_dead (e : Encoder) (app : App σ) (others : List Bytes) {c : Conn σ}
    (hdead : c.nextFunc = .readDead) (buf xs : Bytes) :
    ∃ buf', (Conn.reader e app others).feed c buf xs = .ok (c, buf') ∨
      (Conn.reader e app others).feed c buf xs = .ok (c.close app, buf') := by
  have hhalt : c.closed = true ∨ c.closed = false := by cases c.closed <;> simp
  rcases hhalt with hhalt | hopen
  · exact ⟨buf, .inl (Reader.feed_halted hhalt)⟩
  · rcases Nat.lt_or_ge xs.length (c.nextLen - buf.length) with hlt | hge
    · exact ⟨buf ++ xs, .inl (Reader.feed_short hopen hlt)⟩
    · refine ⟨[], .inr ?_⟩
      rw [Reader.feed_take (r := Conn.reader e app others) hopen hge]
      change (Conn.take e app others c _ >>= _) = _
      rw [Conn.take, Conn.nextFuncCall, hdead]
      exact Reader.feed_halted (Conn.close_closed app c)

/-- What was on the wire comes in. -/
theorem Hears.cameIn {l : Link σ} {w xs rest : Bytes} (h : Hears e isLocal given l w (xs ++ rest))
    (hopen : l.closed = false) (hgiven : given ≠ some []) :
    Hears e isLocal given (Link.after (l.dataCameIn e app others xs)) w rest := by
  by_cases hdead : l.nextFunc = .readDead
  · obtain ⟨front, hfront, hstage⟩ := h.before
    obtain ⟨buf, hfeed | hfeed⟩ := feed_dead e app others hdead l.buffer xs
    · rw [Link.dataCameIn, hfeed]
      exact ⟨⟨front, hfront, hstage⟩, fun _ halive => absurd hdead halive⟩
    · rw [Link.dataCameIn, hfeed]
      refine ⟨⟨front, hfront, hstage.closing⟩, fun hnot => ?_⟩
      exact absurd (hnot.symm.trans (Conn.close_closed app l.toConn)) Bool.false_ne_true
  · obtain ⟨done, hstage, hdone, hlt⟩ := h.now hopen hdead
    have hread := feed_stage hstage app others l.buffer xs hdead (Nat.le_of_lt hlt) (w := w)
      ⟨rest, by rw [← hdone]; simp⟩ hgiven
    rw [Link.dataCameIn]
    cases hfeed : (Conn.reader e app others).feed l.toConn l.buffer xs with
    | error c =>
      rw [hfeed] at hread
      obtain ⟨hdied, front, hfront, hstage'⟩ := hread
      exact ⟨⟨front, hfront, hstage'⟩, fun _ halive => absurd hdied halive⟩
    | ok r =>
      rw [hfeed] at hread
      obtain ⟨done', hread', hend⟩ := hread
      refine ⟨?_, fun hopen' halive' => ?_⟩
      · obtain ⟨front, hfront, hstage'⟩ := hread'.before
        refine ⟨front, hfront.trans ?_, hstage'⟩
        rcases hend with ⟨-, hpre⟩ | ⟨-, hall, -⟩
        · exact hpre
        · refine (List.prefix_append done' r.2).trans ?_
          rw [hall, ← hdone]
          exact ⟨rest, by simp⟩
      · rcases hend with ⟨hclosed, -⟩ | ⟨-, hall, hlt'⟩
        · exact absurd (hopen'.symm.trans hclosed) Bool.false_ne_true
        · refine ⟨done', hread'.now hopen', ?_, hlt'⟩
          rw [← hdone, ← List.append_assoc _ xs, ← hall]
          rfl

theorem act_eq (app : App σ) (l : Link σ) (a : Answer σ) : ∃ closed state,
    (closed = l.closed ∨ a.reaction = .close ∧ closed = true) ∧
    l.act app a = ⟨l.toConn.grown closed state a.sends, l.buffer⟩ := by
  obtain ⟨closed, state, hclosed, heq | ⟨-, heq⟩⟩ := answered_eq app l.toConn a
  · exact ⟨closed, state, hclosed, by rw [Link.act, heq]⟩
  · exact ⟨closed, state, hclosed, by rw [Link.act, heq]⟩

theorem Stage.grown {c : Conn σ} {done : Bytes} (h : Stage e isLocal given c done)
    (hcomplete : c.complete = true) (closed : Bool) (state : σ) (sends : List Sendable) :
    Stage e isLocal given (c.grown closed state sends) done := by
  have hshaking : ∀ {n written}, Shaking isLocal given c n written → False := fun hs => by
    rw [hs.complete] at hcomplete
    cases hcomplete
  rw [Stage] at h ⊢
  rw [show (c.grown closed state sends).nextFunc = c.nextFunc from rfl]
  cases hf : c.nextFunc <;> rw [hf] at h
  case readLen => exact ⟨h.1, h.2.imp fun _ ht => ht.grown _ _ _⟩
  case readMessage =>
    obtain ⟨hlen, hlt, front, msgs, ht, hdone⟩ := h
    exact ⟨hlen, hlt, front, msgs, ht.grown _ _ _, hdone⟩
  case readDead => exact ⟨h.1, h.2.imp fun _ ht => ht.grown _ _ _⟩
  all_goals exact (hshaking h.1).elim

/-- The application does something on its own. -/
theorem Hears.act {l : Link σ} {w wire : Bytes} (h : Hears e isLocal given l w wire)
    (hcomplete : l.complete = true) (hopen : l.closed = false) (a : Answer σ) :
    Hears e isLocal given (l.act app a) w wire := by
  obtain ⟨closed, state, -, heq⟩ := act_eq app l a
  rw [heq]
  refine ⟨?_, fun _ halive => ?_⟩
  · obtain ⟨front, hfront, hstage⟩ := h.before
    exact ⟨front, hfront, hstage.grown hcomplete _ _ _⟩
  · obtain ⟨done, hstage, hdone, hlt⟩ := h.now hopen halive
    exact ⟨done, hstage.grown hcomplete _ _ _, hdone, hlt⟩

/-! ## Nothing written is taken back -/

theorem proceed_written {w : Bytes} {r : Except (Conn σ) (Conn σ × Option (Nat × Func))}
    (h : Ensures (fun c => w <+: c.written) r fun r => w <+: r.1.written) :
    Ensures (fun c => w <+: c.written) (Conn.proceed app r) fun c => w <+: c.written := by
  cases r with
  | error c => exact h
  | ok r =>
    obtain ⟨c, _ | ⟨n, f⟩⟩ := r
    · change w <+: (c.close app).written
      rw [Conn.close]
      split
      · exact h
      · exact h
    · exact h

theorem answered_written {w : Bytes} {c : Conn σ} (h : w <+: c.written) (a : Answer σ) :
    Ensures (fun c => w <+: c.written)
      (c.answered app a >>= fun c => .ok (c, some (4, Func.readLen)))
      fun r => w <+: r.1.written := by
  obtain ⟨closed, state, -, heq | ⟨-, heq⟩⟩ := answered_eq app c a
  · rw [heq]
    exact h.trans (List.prefix_append _ _)
  · rw [heq]
    exact h.trans (List.prefix_append _ _)

theorem take_written {w : Bytes} {c : Conn σ} (h : w <+: c.written) (x : Bytes) :
    Ensures (fun c => w <+: c.written) (c.take e app others x) fun c => w <+: c.written := by
  have hwrite : ∀ s, w <+: (c.write s).written := fun s => h.trans (List.prefix_append _ _)
  refine proceed_written ?_
  rw [Conn.nextFuncCall]
  cases c.nextFunc <;> dsimp only
  case readHeaderLen =>
    unfold Conn.readHeaderLen
    split
    · exact .ite (fun _ => h) fun _ => h
    · exact h
  case readHeader => exact .ite (fun _ => h) fun _ => h
  case readReserved => exact h
  case readDownloadId =>
    refine .ite (fun _ => h) fun _ => ?_
    change w <+: Conn.written (if c.locallyInitiated then c else c.write (e.greeting ++ e.myId))
    split
    · exact h
    · exact hwrite _
  case readPeerId =>
    rw [Conn.readPeerId]
    refine .ite (fun _ => .ite (fun _ => h) fun _ => .ite (fun _ => h) fun _ => ?_) fun _ =>
      .ite (fun _ => h) fun _ => ?_
    · refine answered_written ?_ _
      dsimp only
      split
      · exact hwrite _
      · exact h
    · refine answered_written ?_ _
      exact h
  case readLen => exact .ite (fun _ => h) fun _ => .ite (fun _ => h) fun _ => h
  case readMessage =>
    refine .ite (fun _ => ?_) fun _ => h
    refine answered_written ?_ _
    exact h
  case readDead => exact h

theorem cameIn_written (l : Link σ) (xs : Bytes) :
    l.written <+: (Link.after (l.dataCameIn e app others xs)).written := by
  have hfeed := Reader.feed_keeps (r := Conn.reader e app others) (s := l.toConn)
    (E := fun c => l.written <+: c.written) (I := fun c => l.written <+: c.written) l.buffer xs
    List.prefix_rfl fun c x h => take_written h x
  rw [Link.dataCameIn]
  cases h : (Conn.reader e app others).feed l.toConn l.buffer xs with
  | error c =>
    rw [h] at hfeed
    exact hfeed
  | ok r =>
    rw [h] at hfeed
    exact hfeed

/-! ## The system -/

/-- One of the two peers. -/
structure Party (σ : Type) where
  encoder : Encoder
  app : App σ
  state : σ

/-- `a` has connected to `b`. -/
structure Talk (σ τ : Type) where
  a : Link σ
  b : Link τ
  /-- on the way to `b` -/
  toB : Bytes
  /-- on the way to `a` -/
  toA : Bytes

inductive Talk.Label (σ τ : Type)
  | deliverB (n : Nat) (others : List Bytes)
  | deliverA (n : Nat) (others : List Bytes)
  | actA (answer : Answer σ)
  | actB (answer : Answer τ)

variable (p : Party σ) (q : Party τ) (given : Option Bytes)

namespace Talk

/-- What has been written goes on its way. -/
def afterA (s : Talk σ τ) (l : Link σ) : Talk σ τ :=
  { s with a := l, toB := s.toB ++ l.written.drop s.a.written.length }

def afterB (s : Talk σ τ) (l : Link τ) : Talk σ τ :=
  { s with b := l, toA := s.toA ++ l.written.drop s.b.written.length }

inductive Step : Talk σ τ → Talk.Label σ τ → Talk σ τ → Prop
  | deliverB {s : Talk σ τ} (n : Nat) (others : List Bytes) (h : s.b.closed = false) :
      Step s (.deliverB n others) (afterB { s with toB := s.toB.drop n }
        (Link.after (s.b.dataCameIn q.encoder q.app others (s.toB.take n))))
  | deliverA {s : Talk σ τ} (n : Nat) (others : List Bytes) (h : s.a.closed = false) :
      Step s (.deliverA n others) (afterA { s with toA := s.toA.drop n }
        (Link.after (s.a.dataCameIn p.encoder p.app others (s.toA.take n))))
  | actA {s : Talk σ τ} (answer : Answer σ) (hcomplete : s.a.complete = true)
      (h : s.a.closed = false) : Step s (.actA answer) (s.afterA (s.a.act p.app answer))
  | actB {s : Talk σ τ} (answer : Answer τ) (hcomplete : s.b.complete = true)
      (h : s.b.closed = false) : Step s (.actB answer) (s.afterB (s.b.act q.app answer))

end Talk

/-- `p` connects to `q`, which it has been told is `given`. -/
def talk : LTS (Talk σ τ) (Talk.Label σ τ) where
  init s := s = {
    a := Link.start p.encoder true given p.state
    b := Link.start q.encoder false none q.state
    toB := (Link.start p.encoder true given p.state).written
    toA := [] }
  step := Talk.Step p q

variable {p q given}

structure Talk.Heard (p : Party σ) (q : Party τ) (given : Option Bytes) (s : Talk σ τ) : Prop where
  a : Hears p.encoder true given s.a s.b.written s.toA
  b : Hears q.encoder false none s.b s.a.written s.toB

theorem act_written (l : Link σ) (a : Answer σ) : l.written <+: (l.act app a).written := by
  obtain ⟨closed, state, -, heq⟩ := act_eq app l a
  rw [heq]
  exact List.prefix_append _ _

theorem heard_inductive (hgiven : given ≠ some []) :
    (talk p q given).Inductive (Talk.Heard p q given) where
  init s hs := by
    rw [hs]
    exact ⟨hears_start p.state [], hears_start q.state _⟩
  step s l s' h hst := by
    cases hst with
    | deliverB n others hopen =>
      have hb := h.b
      rw [← List.take_append_drop n s.toB] at hb
      exact ⟨h.a.more (cameIn_written _ _), hb.cameIn hopen (by simp)⟩
    | deliverA n others hopen =>
      have ha := h.a
      rw [← List.take_append_drop n s.toA] at ha
      exact ⟨ha.cameIn hopen hgiven, h.b.more (cameIn_written _ _)⟩
    | actA answer hcomplete hopen =>
      exact ⟨h.a.act hcomplete hopen answer, h.b.more (act_written _ _)⟩
    | actB answer hcomplete hopen =>
      exact ⟨h.a.more (act_written _ _), h.b.act hcomplete hopen answer⟩

/-! ## What is heard -/

theorem Stage.got_nil {c : Conn σ} {done : Bytes} (h : Stage e isLocal given c done)
    (hcomplete : c.complete = false) : c.got = [] := by
  have htalking : ∀ {done msgs}, Talking e given c done msgs → c.got = [] := fun ht => by
    rw [ht.complete] at hcomplete
    cases hcomplete
  rw [Stage] at h
  cases hf : c.nextFunc <;> rw [hf] at h
  case readLen =>
    obtain ⟨-, msgs, ht⟩ := h
    exact htalking ht
  case readMessage =>
    obtain ⟨-, -, front, msgs, ht, -⟩ := h
    exact htalking ht
  case readDead =>
    obtain ⟨-, msgs, ht⟩ := h
    exact htalking ht
  all_goals exact h.1.got

/-- What one peer has got of what the other has sent. -/
theorem Hears.heard {l : Link σ} {l' : Link τ} {wire done : Bytes} {isLocal' : Bool}
    {given' : Option Bytes} (h : Hears e isLocal given l l'.written wire)
    (h' : Stage e' isLocal' given' l'.toConn done) :
    l.got <+: (l'.sent.map Subtype.val).filter (· ≠ []) ∧
      (l.complete = true → l.id = some e'.myId ∧ e'.downloadId = e.downloadId) := by
  obtain ⟨front, hfront, hstage⟩ := h.before
  cases hcomplete : l.complete with
  | false =>
    rw [hstage.got_nil hcomplete]
    exact ⟨List.nil_prefix, fun hno => absurd hno Bool.false_ne_true⟩
  | true =>
    obtain ⟨front', msgs, hfront', ht⟩ := hstage.talking hcomplete
    obtain ⟨hid, hdownload, -⟩ := ht.heard (hfront'.trans hfront) h'.spoken
    rw [ht.got]
    exact ⟨(ht.heard_prefix (hfront'.trans hfront) h'.spoken).filter _,
      fun _ => ⟨hid, hdownload⟩⟩

/-- What one peer has got is what the other has sent, in order, up to some point; and when
the handshake is over, it knows who the other is, and that it is about the same download. -/
theorem what_is_heard {s : Talk σ τ} (hgiven : given ≠ some [])
    (h : (talk p q given).Reachable s) :
    (s.b.got <+: (s.a.sent.map Subtype.val).filter (· ≠ []) ∧
      s.a.got <+: (s.b.sent.map Subtype.val).filter (· ≠ [])) ∧
    (s.b.complete = true →
      s.b.id = some p.encoder.myId ∧ p.encoder.downloadId = q.encoder.downloadId) ∧
    (s.a.complete = true →
      s.a.id = some q.encoder.myId ∧ q.encoder.downloadId = p.encoder.downloadId) := by
  have hheard := (heard_inductive hgiven).reachable s h
  obtain ⟨_, -, hstageA⟩ := hheard.a.before
  obtain ⟨_, -, hstageB⟩ := hheard.b.before
  obtain ⟨hgotA, hidA⟩ := hheard.a.heard hstageB
  obtain ⟨hgotB, hidB⟩ := hheard.b.heard hstageA
  exact ⟨⟨hgotB, hgotA⟩, hidB, hidA⟩

/-- All that is on the way to `b` is delivered. -/
theorem Talk.Step.allB {s : Talk σ τ} {n : Nat} {others : List Bytes} {l : Link τ}
    (hopen : s.b.closed = false) (hn : s.toB.length ≤ n)
    (h : s.b.dataCameIn q.encoder q.app others s.toB = .ok l) :
    (talk p q given).step s (.deliverB n others) (Talk.afterB { s with toB := [] } l) := by
  have hstep := Talk.Step.deliverB (p := p) (q := q) n others hopen
  rw [List.take_of_length_le hn, List.drop_of_length_le hn, h] at hstep
  exact hstep

theorem Talk.Step.allA {s : Talk σ τ} {n : Nat} {others : List Bytes} {l : Link σ}
    (hopen : s.a.closed = false) (hn : s.toA.length ≤ n)
    (h : s.a.dataCameIn p.encoder p.app others s.toA = .ok l) :
    (talk p q given).step s (.deliverA n others) (Talk.afterA { s with toA := [] } l) := by
  have hstep := Talk.Step.deliverA (p := p) (q := q) n others hopen
  rw [List.take_of_length_le hn, List.drop_of_length_le hn, h] at hstep
  exact hstep

/-- The peers 1 and 2, with applications that do nothing. -/
def partyNamed (b : UInt8) : Party Unit := ⟨peerNamed b, quietApp, ()⟩

/-- The message `0`. -/
def saysChoke : Answer Unit := ⟨(), [⟨[0], by decide⟩], .goOn⟩

/-- The handshake of the peers 1 and 2, and a message. -/
theorem handshake_named : ∃ b a b' b'' : Link Unit,
    (Link.start (peerNamed 2) false none ()).dataCameIn (peerNamed 2) quietApp []
      (Link.start (peerNamed 1) true none ()).written = .ok b ∧
    (Link.start (peerNamed 1) true none ()).dataCameIn (peerNamed 1) quietApp [] b.written = .ok a ∧
    b.dataCameIn (peerNamed 2) quietApp [] (a.written.drop 48) = .ok b' ∧
    b'.dataCameIn (peerNamed 2) quietApp [] ((a.act quietApp saysChoke).written.drop 68) = .ok b'' ∧
    b.written.length = 68 ∧ a.written.length = 68 ∧ b'.written.length = 68 ∧ b''.written.length = 68 ∧
    (a.act quietApp saysChoke).written.length = 73 ∧
    b.closed = false ∧ b'.closed = false ∧ a.closed = false ∧
    (a.act quietApp saysChoke).sent.map Subtype.val = [[0]] ∧ a.complete = true ∧
    b''.complete = true ∧ b''.got = [[0]] := by
  let b : Conn Unit := { Conn.start (peerNamed 2) false none () with
    nextLen := 20
    nextFunc := .readPeerId
    written := (peerNamed 2).greeting ++ (peerNamed 2).myId }
  let a : Conn Unit := { Conn.start (peerNamed 1) true none () with
    id := some (List.replicate 20 2)
    complete := true
    nextLen := 4
    nextFunc := .readLen
    written := (peerNamed 1).greeting ++ (peerNamed 1).myId }
  let b' : Conn Unit := { b with
    id := some (List.replicate 20 1)
    complete := true
    nextLen := 4
    nextFunc := .readLen }
  refine ⟨⟨b, []⟩, ⟨a, []⟩, ⟨b', []⟩, ⟨{ b' with got := [[0]] }, []⟩, ?_, ?_, ?_, ?_, rfl, rfl, rfl, rfl,
    rfl, rfl, rfl, rfl, rfl, rfl, rfl, rfl⟩
  · change (Reader.feed _ (Conn.start (peerNamed 2) false none ()) []
      ([19] ++ (protocolName ++ (List.replicate 8 0 ++ (List.replicate 20 7 ++ [])))) >>= _) = _
    rw [Reader.feed_next rfl rfl rfl, Reader.feed_next rfl rfl rfl, Reader.feed_next rfl rfl rfl,
      Reader.feed_next rfl rfl rfl, Reader.feed_short rfl (by decide)]
    rfl
  · change (Reader.feed _ (Conn.start (peerNamed 1) true none ()) []
      ([19] ++ (protocolName ++ (List.replicate 8 0 ++ (List.replicate 20 7 ++
        (List.replicate 20 2 ++ []))))) >>= _) = _
    rw [Reader.feed_next rfl rfl rfl, Reader.feed_next rfl rfl rfl, Reader.feed_next rfl rfl rfl,
      Reader.feed_next rfl rfl rfl, Reader.feed_next rfl rfl rfl, Reader.feed_short rfl (by decide)]
    rfl
  · rw [show (Link.mk a []).written.drop 48 = List.replicate 20 1 ++ [] from rfl]
    change (Reader.feed _ b [] (List.replicate 20 1 ++ []) >>= _) = _
    rw [Reader.feed_next rfl rfl rfl, Reader.feed_short rfl (by decide)]
    rfl
  · rw [show ((Link.mk a []).act quietApp saysChoke).written.drop 68 =
      [0, 0, 0, 1] ++ ([0] ++ []) from rfl]
    change (Reader.feed _ b' [] ([0, 0, 0, 1] ++ ([0] ++ [])) >>= _) = _
    rw [Reader.feed_next rfl rfl rfl, Reader.feed_next rfl rfl rfl, Reader.feed_short rfl (by decide)]
    rfl

/-- They shake hands, `a` sends a message, and all of it arrives. -/
theorem talk_run : ∃ s : Talk Unit Unit, (talk (partyNamed 1) (partyNamed 2) none).Run
      ⟨Link.start (peerNamed 1) true none (), Link.start (peerNamed 2) false none (),
        (Link.start (peerNamed 1) true none ()).written, []⟩
      [.deliverB 100 [], .deliverA 100 [], .deliverB 100 [], .actA saysChoke, .deliverB 100 []] s ∧
    s.toA = [] ∧ s.toB = [] ∧ s.b.complete = true ∧ s.a.sent.map Subtype.val = [[0]] ∧
    s.b.got = [[0]] := by
  obtain ⟨b, a, b', b'', hb, ha, hb', hb'', hblen, halen, hblen', hblen'', hactlen, hbopen,
    hbopen', haopen, hasent, hacomplete, hbcomplete, hgot⟩ := handshake_named
  have hnone : ∀ {l : Link Unit}, l.written.length = 68 → l.written.drop 68 = [] := fun hl =>
    List.drop_of_length_le (Nat.le_of_eq hl)
  have hstep₁ : (talk (partyNamed 1) (partyNamed 2) none).step _ _ _ := Talk.Step.allB
    (s := ⟨Link.start (peerNamed 1) true none (), Link.start (peerNamed 2) false none (),
      (Link.start (peerNamed 1) true none ()).written, []⟩) (n := 100) rfl (by decide) hb
  have hstep₂ : (talk (partyNamed 1) (partyNamed 2) none).step _ _ _ := Talk.Step.allA
    (s := ⟨Link.start (peerNamed 1) true none (), b, [], b.written⟩) (n := 100) rfl
      (by rw [hblen]; decide) ha
  have hstep₃ : (talk (partyNamed 1) (partyNamed 2) none).step _ _ _ := Talk.Step.allB
    (s := ⟨a, b, a.written.drop 48, []⟩) (n := 100) hbopen
      (by rw [List.length_drop, halen]; decide) hb'
  rw [show Talk.afterB _ b' = ⟨a, b', [], []⟩ by rw [Talk.afterB, hblen, hnone hblen']; rfl] at hstep₃
  have hstep₄ := Talk.Step.actA (s := ⟨a, b', [], []⟩) (p := partyNamed 1) (q := partyNamed 2)
    saysChoke hacomplete haopen
  rw [Talk.afterA, halen] at hstep₄
  have hstep₅ : (talk (partyNamed 1) (partyNamed 2) none).step _ _ _ := Talk.Step.allB
    (s := ⟨a.act quietApp saysChoke, b', (a.act quietApp saysChoke).written.drop 68, []⟩)
      (n := 100) hbopen' (by rw [List.length_drop, hactlen]; decide) hb''
  refine ⟨_, .cons hstep₁ (.cons hstep₂ (.cons hstep₃ (.cons hstep₄ (.cons hstep₅ (.nil _))))), ?_,
    rfl, hbcomplete, hasent, hgot⟩
  rw [Talk.afterB, hblen', hnone hblen'']
  rfl

theorem what_is_heard_choke : ∃ s : Talk Unit Unit, s.b.got = [[0]] ∧
    s.b.got <+: (s.a.sent.map Subtype.val).filter (· ≠ []) ∧
    s.b.id = some (List.replicate 20 1) := by
  obtain ⟨s, hrun, -, -, hcomplete, -, hgot⟩ := talk_run
  obtain ⟨hheard, hid, -⟩ := what_is_heard (by simp) ⟨_, _, rfl, hrun⟩
  exact ⟨s, hgot, hheard.1, (hid hcomplete).1⟩

/-! ## All is heard -/

/-- The connection is left open, and the messages are no longer than `n`. -/
def Answer.Calm (n : Nat) (a : Answer σ) : Prop :=
  a.reaction = .goOn ∧ ∀ m ∈ a.sends, m.1.length ≤ n

structure App.Calm (n : Nat) (app : App σ) : Prop where
  connectionMade : ∀ s, (app.connectionMade s).Calm n
  gotMessage : ∀ s m, (app.gotMessage s m).Calm n

structure Well (n : Nat) (c : Conn σ) : Prop where
  opened : c.closed = false
  alive : c.nextFunc ≠ .readDead
  short : ∀ m ∈ c.sent, m.1.length ≤ n

theorem Well.next {n : Nat} {c : Conn σ} (h : Well n c) (len : Nat) {f : Func}
    (hf : f ≠ .readDead) : Well n { c with nextLen := len, nextFunc := f } :=
  ⟨h.opened, hf, h.short⟩

theorem well_answered {n : Nat} {c : Conn σ} {a : Answer σ} (hopen : c.closed = false)
    (hshort : ∀ m ∈ c.sent, m.1.length ≤ n) (hcalm : a.Calm n) :
    ∃ c', Conn.proceed app (c.answered app a >>= fun c => .ok (c, some (4, .readLen))) = .ok c' ∧
      Well n c' := by
  obtain ⟨closed, state, hclosed, heq | ⟨hraise, -⟩⟩ := answered_eq app c a
  · refine ⟨_, by rw [heq]; rfl, ?_, by simp, fun m hm => ?_⟩
    · rcases hclosed with hclosed | ⟨hclose, -⟩
      · exact hclosed.trans hopen
      · exact absurd (hcalm.1.symm.trans hclose) Reaction.noConfusion
    · rcases List.mem_append.1 hm with hm | hm
      · exact hshort m hm
      · exact hcalm.2 m hm
  · exact absurd (hcalm.1.symm.trans hraise) Reaction.noConfusion

/-- What a peer begins with. -/
theorem Spoken.greets {w y : Bytes} {sent : List Bytes} (h : Spoken e w sent) (hy : y <+: w)
    (hpos : 0 < y.length) (hle : y.length ≤ 48) : y <+: e.greeting := by
  have hgreeting : e.greeting <+: w := by
    rcases h with ⟨rfl | rfl, -⟩ | rfl
    · rw [List.prefix_nil.1 hy] at hpos
      cases hpos
    · exact List.prefix_rfl
    · rw [List.append_assoc]
      exact List.prefix_append _ _
  exact List.prefix_of_prefix_length_le hy hgreeting (by rw [length_greeting]; exact hle)

/-- What the two have to agree on: the download, who they are, and how long a message is. -/
structure Match (e e' : Encoder) (given : Option Bytes) (others : List Bytes)
    (sent : List Bytes) : Prop where
  download : e'.downloadId = e.downloadId
  apart : e'.myId ≠ e.myId
  given : given = none ∨ given = some e'.myId
  others : e'.myId ∉ others
  short : ∀ m ∈ sent, m.length ≤ e.maxLen ∧ m.length < 2 ^ 32

theorem given_ne_nil (h : given = none ∨ given = some e.myId) : given ≠ some [] := by
  rcases h with hnone | hsome
  · simp [hnone]
  · intro hnil
    have hlen := e.length_myId
    rw [hsome, Option.some.injEq] at hnil
    rw [hnil] at hlen
    cases hlen

theorem Stage.take_well {n : Nat} {c : Conn σ} {done x w : Bytes} {sent : List Bytes}
    (h : Stage e isLocal given c done) (hwell : Well n c) (hcalm : app.Calm n)
    (hx : x.length = c.nextLen) (hw : done ++ x <+: w) (hspoken : Spoken e' w sent)
    (hmatch : Match e e' given others sent) :
    ∃ c', c.take e app others x = .ok c' ∧ Well n c' := by
  rw [Stage] at h
  rw [Conn.take, Conn.nextFuncCall]
  cases hf : c.nextFunc <;> rw [hf] at h <;> dsimp only at h ⊢
  case readHeaderLen =>
    obtain ⟨hs, rfl⟩ := h
    rw [hs.nextLen] at hx
    obtain ⟨b, rfl⟩ := List.length_eq_one_iff.1 hx
    have hb := hspoken.greets hw (by simp) (by simp)
    rw [List.nil_append, Encoder.greeting, List.cons_append, List.cons_append] at hb
    have hb : b = UInt8.ofNat protocolName.length := by
      obtain ⟨rest, hrest⟩ := hb
      exact (List.cons.inj hrest).1
    rw [Conn.readHeaderLen, if_neg (by rw [hb]; decide)]
    exact ⟨_, rfl, hwell.next _ (by simp)⟩
  case readHeader =>
    obtain ⟨hs, rfl⟩ := h
    rw [hs.nextLen] at hx
    have hname := hspoken.greets hw (by simp) (by simp [hx])
    have hname : x = protocolName := by
      rw [Encoder.greeting, List.append_assoc, List.cons_append] at hname
      exact eq_of_prefix_append (List.cons_prefix_cons.1 hname).2 (by rw [hx, length_protocolName])
    rw [if_neg (by simp [hname])]
    exact ⟨_, rfl, hwell.next _ (by simp)⟩
  case readReserved => exact ⟨_, rfl, hwell.next _ (by simp)⟩
  case readDownloadId =>
    obtain ⟨hs, reserved, hreserved, rfl⟩ := h
    rw [hs.nextLen] at hx
    have hid := hspoken.greets hw (by simp) (by simp [hx, hreserved])
    have hid : x = e.downloadId := by
      rw [Encoder.greeting, hmatch.download] at hid
      have hid := (prefix_append_inj hid (by simp [hreserved])).2
      rw [← List.append_nil e.downloadId] at hid
      exact eq_of_prefix_append hid (by rw [hx, e.length_downloadId])
    rw [if_neg (by simp [hid])]
    refine ⟨_, rfl, ?_, by simp, fun m hm => hwell.short m ?_⟩
    · dsimp only
      split
      · exact hwell.opened
      · exact hwell.opened
    · dsimp only at hm
      split at hm
      · exact hm
      · exact hm
  case readPeerId =>
    obtain ⟨hs, reserved, hreserved, rfl⟩ := h
    rw [hs.nextLen] at hx
    have hid : x = e'.myId := by
      have hlong : (hello reserved e.downloadId).length = 48 := by
        simp [hello, e.length_downloadId, hreserved]
      have hle := hw.length_le
      rw [List.length_append, hlong, hx] at hle
      rcases hspoken with ⟨rfl | rfl, -⟩ | rfl
      · exact absurd hle (by simp)
      · exact absurd hle (by rw [length_greeting]; decide)
      · rw [List.append_assoc] at hw
        exact eq_of_prefix_append (prefix_append_inj hw (by rw [hlong, length_greeting])).2
          (by rw [hx, e'.length_myId])
    rw [Conn.readPeerId]
    dsimp only
    split
    · rw [if_neg (by rw [hid]; exact hmatch.apart),
        if_neg fun hno => hmatch.others (hid ▸ hno.2)]
      refine well_answered ?_ ?_ (hcalm.connectionMade _)
      · dsimp only
        split
        · exact hwell.opened
        · exact hwell.opened
      · dsimp only
        split
        · exact hwell.short
        · exact hwell.short
    · rename_i hsome
      rw [hs.id] at hsome ⊢
      have hgiven := hmatch.given.resolve_left fun hnone => hsome (.inl hnone)
      rw [if_neg (by rw [hgiven, hid]; simp)]
      refine well_answered ?_ ?_ (hcalm.connectionMade _)
      · exact hwell.opened
      · exact hwell.short
  case readLen =>
    obtain ⟨hlen, msgs, ht⟩ := h
    rw [hlen] at hx
    obtain ⟨-, -, front, -, rfl, rfl⟩ := ht.heard ((List.prefix_append _ _).trans hw) hspoken
    rw [List.append_assoc] at hw
    obtain ⟨m, hm, rfl⟩ := Framing.frames_next (f := framing) (fun m hm => (ht.short m hm).2)
      (fun m hm => (hmatch.short m hm).2) ((List.prefix_append_right_inj front).1 hw) hx
    obtain ⟨hle, hlt⟩ := hmatch.short m hm
    have hback : toint (framing.header m.length) = m.length := toint_tobinary hlt
    rw [if_neg (by intro hnil; rw [hnil] at hx; cases hx), if_neg (by rw [hback]; omega)]
    exact ⟨_, rfl, hwell.next _ (by simp)⟩
  case readMessage =>
    split
    · refine well_answered ?_ ?_ (hcalm.gotMessage _ _)
      · exact hwell.opened
      · exact hwell.short
    · exact ⟨_, rfl, hwell.next _ (by simp)⟩
  case readDead => exact absurd hf hwell.alive

theorem Hears.cameIn_well {n : Nat} {l : Link σ} {w xs rest : Bytes} {sent : List Bytes}
    (h : Hears e isLocal given l w (xs ++ rest)) (hwell : Well n l.toConn) (hcalm : app.Calm n)
    (hspoken : Spoken e' w sent) (hmatch : Match e e' given others sent) :
    Well n (Link.after (l.dataCameIn e app others xs)).toConn := by
  have hgiven := given_ne_nil hmatch.given
  obtain ⟨done, hstage, hdone, hlt⟩ := h.now hwell.opened hwell.alive
  have hfeed := Reader.feed_read (r := Conn.reader e app others) (E := fun _ => False)
    (I := fun c done => Stage e isLocal given c done ∧ Well n c) (w := w) l.buffer xs
    ⟨hstage, hwell⟩ (Nat.le_of_lt hlt) ⟨rest, by rw [← hdone]; simp⟩ ?_
  · rw [Link.dataCameIn]
    cases hok : (Conn.reader e app others).feed l.toConn l.buffer xs with
    | error c =>
      rw [hok] at hfeed
      exact hfeed.elim
    | ok r =>
      rw [hok] at hfeed
      obtain ⟨_, ⟨-, hwell'⟩, -⟩ := hfeed
      exact hwell'
  · intro c done x hboth _ hx hw
    obtain ⟨hstage, hwell⟩ := hboth
    obtain ⟨c', htake, hwell'⟩ := hstage.take_well hwell hcalm hx hw hspoken hmatch
    have hread := hstage.take app others hwell.alive hx hw hgiven
    change Ensures _ (c.take e app others x) _
    rw [htake] at hread ⊢
    exact ⟨hread.now hwell'.opened, hwell'⟩

theorem Well.act {n : Nat} {l : Link σ} {a : Answer σ} (h : Well n l.toConn) (hcalm : a.Calm n) :
    Well n (l.act app a).toConn := by
  obtain ⟨closed, state, hclosed, heq⟩ := act_eq app l a
  rw [heq]
  refine ⟨?_, h.alive, fun m hm => ?_⟩
  · rcases hclosed with hclosed | ⟨hclose, -⟩
    · exact hclosed.trans h.opened
    · exact absurd (hcalm.1.symm.trans hclose) Reaction.noConfusion
  · rcases List.mem_append.1 hm with hm | hm
    · exact h.short m hm
    · exact hcalm.2 m hm

/-- The two are about the same download, are not the same, and leave the connection open. -/
structure Friends (p : Party σ) (q : Party τ) (given : Option Bytes) : Prop where
  download : p.encoder.downloadId = q.encoder.downloadId
  apart : p.encoder.myId ≠ q.encoder.myId
  given : given = none ∨ given = some q.encoder.myId
  calmA : p.app.Calm q.encoder.maxLen
  calmB : q.app.Calm p.encoder.maxLen

/-- Neither has another connection to the other, and what an application does on its own
leaves the connection open. -/
def Talk.Friendly (p : Party σ) (q : Party τ) (_ : Talk σ τ) : Talk.Label σ τ → Prop
  | .deliverB _ others => p.encoder.myId ∉ others
  | .deliverA _ others => q.encoder.myId ∉ others
  | .actA answer => answer.Calm q.encoder.maxLen
  | .actB answer => answer.Calm p.encoder.maxLen

theorem Friends.match_a (h : Friends p q given) {others : List Bytes}
    (hothers : q.encoder.myId ∉ others) {l : Link τ} (hwell : Well p.encoder.maxLen l.toConn) :
    Match p.encoder q.encoder given others (l.sent.map Subtype.val) := by
  refine ⟨h.download.symm, h.apart.symm, h.given, hothers, fun m hm => ?_⟩
  obtain ⟨m', hm', rfl⟩ := List.mem_map.1 hm
  exact ⟨hwell.short m' hm', m'.2⟩

theorem Friends.match_b (h : Friends p q given) {others : List Bytes}
    (hothers : p.encoder.myId ∉ others) {l : Link σ} (hwell : Well q.encoder.maxLen l.toConn) :
    Match q.encoder p.encoder none others (l.sent.map Subtype.val) := by
  refine ⟨h.download, h.apart, .inl rfl, hothers, fun m hm => ?_⟩
  obtain ⟨m', hm', rfl⟩ := List.mem_map.1 hm
  exact ⟨hwell.short m' hm', m'.2⟩

structure Talk.Open (p : Party σ) (q : Party τ) (given : Option Bytes) (s : Talk σ τ) : Prop where
  heard : Talk.Heard p q given s
  a : Well q.encoder.maxLen s.a.toConn
  b : Well p.encoder.maxLen s.b.toConn

theorem open_inductive (hfriends : Friends p q given) :
    ((talk p q given).restrict (Talk.Friendly p q)).Inductive (Talk.Open p q given) where
  init s hs := by
    refine ⟨(heard_inductive (given_ne_nil hfriends.given)).init s hs, ?_, ?_⟩
    all_goals rw [hs]
    · exact ⟨rfl, Func.noConfusion, fun m hm => by cases hm⟩
    · exact ⟨rfl, Func.noConfusion, fun m hm => by cases hm⟩
  step s l s' h hst := by
    obtain ⟨hst, hfriendly⟩ := hst
    have hheard := (heard_inductive (given_ne_nil hfriends.given)).step s l s' h.heard hst
    obtain ⟨_, -, hstageA⟩ := h.heard.a.before
    obtain ⟨_, -, hstageB⟩ := h.heard.b.before
    cases hst with
    | deliverB n others hopen =>
      have hb := h.heard.b
      rw [← List.take_append_drop n s.toB] at hb
      exact ⟨hheard, h.a, hb.cameIn_well h.b hfriends.calmB hstageA.spoken
        (hfriends.match_b hfriendly h.a)⟩
    | deliverA n others hopen =>
      have ha := h.heard.a
      rw [← List.take_append_drop n s.toA] at ha
      exact ⟨hheard, ha.cameIn_well h.a hfriends.calmA hstageB.spoken
        (hfriends.match_a hfriendly h.b), h.b⟩
    | actA answer hcomplete hopen => exact ⟨hheard, h.a.act hfriendly, h.b⟩
    | actB answer hcomplete hopen => exact ⟨hheard, h.a, h.b.act hfriendly⟩

theorem Talking.long {c : Conn σ} {done : Bytes} {msgs : List Bytes}
    (h : Talking e given c done msgs) : 68 ≤ done.length ∧ 68 ≤ c.written.length := by
  obtain ⟨reserved, peerId, hreserved, hpeerId, -, -, rfl⟩ := h.read
  rw [h.written]
  simp only [List.length_append, hello, List.length_cons, length_protocolName, hreserved, hpeerId,
    e.length_downloadId, length_greeting, e.length_myId]
  omega

/-- The peer that connects begins. -/
theorem Stage.local_written {c : Conn σ} {done : Bytes} (h : Stage e true given c done) :
    48 ≤ c.written.length := by
  have hopening : 48 ≤ (opening e true given).length := by
    rw [opening, if_pos rfl, List.length_append, length_greeting]
    omega
  rw [Stage] at h
  cases hf : c.nextFunc <;> rw [hf] at h
  case readLen =>
    obtain ⟨-, msgs, ht⟩ := h
    exact Nat.le_trans (by decide) ht.long.2
  case readMessage =>
    obtain ⟨-, -, front, msgs, ht, -⟩ := h
    exact Nat.le_trans (by decide) ht.long.2
  case readDead =>
    obtain ⟨-, msgs, ht⟩ := h
    exact Nat.le_trans (by decide) ht.long.2
  case readPeerId =>
    rw [h.1.written]
    exact hopening
  all_goals
    rw [h.1.written]
    exact hopening

/-- When nothing is on the way, the handshake is over, or the other peer has not said yet
who it is. -/
theorem Hears.drained {n : Nat} {l : Link σ} {w : Bytes} (h : Hears e isLocal given l w [])
    (hwell : Well n l.toConn) (hw : 48 ≤ w.length) :
    l.complete = true ∧ 68 ≤ l.written.length ∨
      w.length < 68 ∧ (isLocal = false → 68 ≤ l.written.length) := by
  obtain ⟨done, hstage, hdone, hlt⟩ := h.now hwell.opened hwell.alive
  have hlen := congrArg List.length hdone
  rw [List.append_nil, List.length_append] at hlen
  rw [Stage] at hstage
  cases hf : l.nextFunc <;> rw [hf] at hstage
  case readHeaderLen =>
    obtain ⟨hs, rfl⟩ := hstage
    rw [hs.nextLen] at hlt
    simp at hlen
    omega
  case readHeader =>
    obtain ⟨hs, rfl⟩ := hstage
    rw [hs.nextLen] at hlt
    simp at hlen
    omega
  case readReserved =>
    obtain ⟨hs, rfl⟩ := hstage
    rw [hs.nextLen] at hlt
    simp at hlen
    omega
  case readDownloadId =>
    obtain ⟨hs, reserved, hreserved, rfl⟩ := hstage
    rw [hs.nextLen] at hlt
    simp [hreserved] at hlen
    omega
  case readPeerId =>
    obtain ⟨hs, reserved, hreserved, rfl⟩ := hstage
    rw [hs.nextLen] at hlt
    simp [hello, hreserved, e.length_downloadId] at hlen
    refine .inr ⟨by omega, fun hremote => ?_⟩
    simp [hs.written, hremote, length_greeting, e.length_myId]
  case readLen =>
    obtain ⟨-, msgs, ht⟩ := hstage
    exact .inl ⟨ht.complete, ht.long.2⟩
  case readMessage =>
    obtain ⟨-, -, front, msgs, ht, -⟩ := hstage
    exact .inl ⟨ht.complete, ht.long.2⟩
  case readDead => exact absurd hf hwell.alive

/-- When nothing is on the way, all that was sent has been passed on. -/
theorem Hears.all_heard {n : Nat} {l : Link σ} {l' : Link τ} {done' : Bytes} {isLocal' : Bool}
    {given' : Option Bytes} (h : Hears e isLocal given l l'.written []) (hwell : Well n l.toConn)
    (hcomplete : l.complete = true) (h' : Stage e' isLocal' given' l'.toConn done') :
    l.got = (l'.sent.map Subtype.val).filter (· ≠ []) := by
  obtain ⟨done, hstage, hdone, hlt⟩ := h.now hwell.opened hwell.alive
  rw [List.append_nil] at hdone
  have hsent : ∀ m ∈ l'.sent.map Subtype.val, m.length < 2 ^ 32 := by
    intro m hm
    obtain ⟨m', -, rfl⟩ := List.mem_map.1 hm
    exact m'.2
  have hshaking : ∀ {k written}, Shaking isLocal given l.toConn k written → False := fun hs => by
    rw [hs.complete] at hcomplete
    cases hcomplete
  -- what is in the buffer is less than a length or a message, so no message is left
  have hnone : ∀ {front msgs x}, Talking e given l.toConn front msgs → front ++ x = l'.written →
      (∀ m rest, x = framing.header m.length ++ (m ++ framing.frames rest) →
        m.length < 2 ^ 32 → False) →
      l.got = (l'.sent.map Subtype.val).filter (· ≠ []) := by
    intro front msgs x ht hx hmore
    obtain ⟨-, -, start, -, rfl, hw⟩ := ht.heard ⟨x, hx⟩ h'.spoken
    rw [hw, List.append_assoc] at hx
    obtain ⟨rest, hrest, hxrest⟩ := Framing.frames_rest (f := framing)
      (fun m hm => (ht.short m hm).2) hsent (List.append_cancel_left hx)
    cases rest with
    | nil => rw [ht.got, hrest, List.append_nil]
    | cons m rest =>
      rw [Framing.frames_cons] at hxrest
      exact (hmore m rest hxrest (hsent m (by rw [hrest]; simp))).elim
  rw [Stage] at hstage
  cases hf : l.nextFunc <;> rw [hf] at hstage
  case readLen =>
    obtain ⟨hlen, msgs, ht⟩ := hstage
    refine hnone ht hdone fun m rest hx _ => ?_
    rw [hlen, hx, List.length_append, framing.length_header] at hlt
    exact absurd hlt (by simp [framing])
  case readMessage =>
    obtain ⟨-, hbound, front, msgs, ht, rfl⟩ := hstage
    rw [List.append_assoc] at hdone
    refine hnone ht hdone fun m rest hx hm => ?_
    obtain ⟨hheader, hbuf⟩ := List.append_inj hx (by rw [framing.length_header]; rfl)
    have hlen : l.nextLen = m.length := framing.header_inj hbound hm hheader
    rw [hlen, hbuf, List.length_append] at hlt
    omega
  case readDead => exact absurd hf hwell.alive
  all_goals exact (hshaking hstage.1).elim

/-- If the applications leave the connection open, it stays open; and when no byte is on
its way, the handshake is over and each peer has got all that the other has sent. -/
theorem all_is_heard {s : Talk σ τ} (hfriends : Friends p q given)
    (h : ((talk p q given).restrict (Talk.Friendly p q)).Reachable s) :
    s.a.closed = false ∧ s.b.closed = false ∧ (s.toA = [] → s.toB = [] →
      s.a.complete = true ∧ s.b.complete = true ∧
      s.b.got = (s.a.sent.map Subtype.val).filter (· ≠ []) ∧
      s.a.got = (s.b.sent.map Subtype.val).filter (· ≠ [])) := by
  obtain ⟨⟨ha, hb⟩, hwellA, hwellB⟩ := (open_inductive hfriends).reachable s h
  refine ⟨hwellA.opened, hwellB.opened, fun hA hB => ?_⟩
  rw [hA] at ha
  rw [hB] at hb
  obtain ⟨_, -, hstageA⟩ := ha.before
  obtain ⟨_, -, hstageB⟩ := hb.before
  have hlongB : 68 ≤ s.b.written.length :=
    (hb.drained hwellB hstageA.local_written).elim (·.2) (·.2 rfl)
  obtain ⟨hcompleteA, hlongA⟩ : s.a.complete = true ∧ 68 ≤ s.a.written.length :=
    (ha.drained hwellA (by omega)).resolve_right fun hno => by omega
  have hcompleteB : s.b.complete = true :=
    ((hb.drained hwellB (by omega)).resolve_right fun hno => by omega).1
  exact ⟨hcompleteA, hcompleteB, hb.all_heard hwellB hcompleteB hstageA,
    ha.all_heard hwellA hcompleteA hstageB⟩

theorem friends_named : Friends (partyNamed 1) (partyNamed 2) none where
  download := rfl
  apart := by decide
  given := .inl rfl
  calmA := ⟨fun _ => ⟨rfl, fun m hm => by cases hm⟩, fun _ _ => ⟨rfl, fun m hm => by cases hm⟩⟩
  calmB := ⟨fun _ => ⟨rfl, fun m hm => by cases hm⟩, fun _ _ => ⟨rfl, fun m hm => by cases hm⟩⟩

theorem all_is_heard_choke : ∃ s : Talk Unit Unit, s.a.sent.map Subtype.val = [[0]] ∧
    s.a.closed = false ∧ s.b.closed = false ∧
    s.b.got = (s.a.sent.map Subtype.val).filter (· ≠ []) := by
  obtain ⟨s, hrun, htoA, htoB, -, hsent, -⟩ := talk_run
  have hfriendly : ((talk (partyNamed 1) (partyNamed 2) none).restrict
      (Talk.Friendly (partyNamed 1) (partyNamed 2))).Reachable s := by
    refine ⟨_, _, rfl, hrun.restrict fun l hl _ => ?_⟩
    simp only [List.mem_cons, List.not_mem_nil, or_false] at hl
    rcases hl with rfl | rfl | rfl | rfl | rfl
    · exact List.not_mem_nil
    · exact List.not_mem_nil
    · exact List.not_mem_nil
    · exact ⟨rfl, by decide⟩
    · exact List.not_mem_nil
  obtain ⟨ha, hb, hheard⟩ := all_is_heard friends_named hfriendly
  exact ⟨s, hsent, ha, hb, (hheard htoA htoB).2.2.1⟩

end Wubi.Bittorrent
