import Mathlib.Data.List.Perm.Subperm
import Mathlib.Data.List.Sort
import Mathlib.Data.List.TakeWhile
import Wubi.Bittorrent.StorageWrapper
import Wubi.Core.LTS

/-!
# Who may download from us

The `Choker` lets some peers download from us and chokes the others. It prefers those
with the best rates, and lets one more have a try: the first of the others that is
interested. Every third round the first that is interested and choked comes to the
front. The `Upload` of a peer keeps what it has asked for, until it is answered or
choked.

**Parameters.** `Rating` is what the rates and `is_snubbed` say when peers are compared:
they are different at every step. A connection is known by its number, which decides
between equal rates as the address of the object does. The messages that tell a peer that
it is choked or not are left out.

**Results.**
* `unchoked_le`: how many interested peers are unchoked at any time.
* `waits_at_most`: how many rounds an interested peer can be choked for.
-/
namespace Wubi.Bittorrent

/-- An `Upload`, with the number of its connection. -/
structure Upload where
  id : Nat
  choked : Bool
  interested : Bool
  /-- the blocks that were asked for: index, begin and length -/
  buffer : List (Nat × Nat × Nat)
deriving DecidableEq

namespace Upload

/-- mirrors src/bittorrent/Uploader.py:7-19 -/
def make (id : Nat) : Upload where
  id := id
  choked := true
  interested := false
  buffer := []

/-- mirrors src/bittorrent/Uploader.py:57-61 -/
def choke (u : Upload) : Upload := if u.choked then u else { u with choked := true, buffer := [] }

/-- mirrors src/bittorrent/Uploader.py:63-66 -/
def unchoke (u : Upload) : Upload := { u with choked := false }

@[simp] theorem id_choke (u : Upload) : u.choke.id = u.id := by
  rw [choke]
  split <;> rfl

@[simp] theorem interested_choke (u : Upload) : u.choke.interested = u.interested := by
  rw [choke]
  split <;> rfl

@[simp] theorem choked_choke (u : Upload) : u.choke.choked = true := by
  rw [choke]
  split
  · assumption
  · rfl

@[simp] theorem id_unchoke (u : Upload) : u.unchoke.id = u.id := rfl

@[simp] theorem interested_unchoke (u : Upload) : u.unchoke.interested = u.interested := rfl

@[simp] theorem choked_unchoke (u : Upload) : u.unchoke.choked = false := rfl

/-- Interested, and unchoked. -/
def served (u : Upload) : Bool := u.interested && !u.choked

/-- Interested, and choked. -/
def waiting (u : Upload) : Bool := u.interested && u.choked

end Upload

/-- How the peers compare, by the numbers of their connections. -/
structure Rating (R : Type) where
  snubbed : Nat → Bool
  rate : Nat → R

structure Choker where
  connections : List Upload
  count : Nat
  maxUploads : Nat
  minUploads : Nat

namespace Choker

variable {R : Type} [LinearOrder R] (rating : Rating R)

/-- The order of the pairs `(-rate, c)`. -/
def before (a b : Nat) : Prop :=
  rating.rate b < rating.rate a ∨ rating.rate a = rating.rate b ∧ a ≤ b

instance : DecidableRel (before rating) := fun _ _ => inferInstanceAs (Decidable (_ ∨ _))

variable (s : Choker)

/-- mirrors src/bittorrent/Choker.py:41-47 -/
def preferred : List Nat :=
  let l := ((s.connections.filter fun c => !rating.snubbed c.id && c.interested).map
    Upload.id).insertionSort (before rating)
  -- `del preferred[self.max_uploads - 1:]`
  if s.maxUploads = 0 then l.dropLast else l.take (s.maxUploads - 1)

/-- The loop of `_rechoke`, with `count` and `hit`.
mirrors src/bittorrent/Choker.py:48-61 -/
def chokeLoop (preferred : List Nat) (minUploads : Nat) :
    List Upload → Nat → Bool → List Upload
  | [], _, _ => []
  | u :: us, count, hit =>
    if u.id ∈ preferred then u.unchoke :: chokeLoop preferred minUploads us count hit
    else if count < minUploads ∨ hit = false then
      u.unchoke :: (if u.interested then chokeLoop preferred minUploads us (count + 1) true
        else chokeLoop preferred minUploads us count hit)
    else u.choke :: chokeLoop preferred minUploads us count hit

/-- mirrors src/bittorrent/Choker.py:40-61 -/
def rechoke : Choker :=
  let preferred := s.preferred rating
  { s with connections :=
      chokeLoop preferred s.minUploads s.connections preferred.length false }

/-- `self.connections[i:] + self.connections[:i]`, for the first that is interested and
choked. -/
def rotated : List Upload :=
  s.connections.dropWhile (fun u => !u.waiting) ++ s.connections.takeWhile (fun u => !u.waiting)

/-- mirrors src/bittorrent/Choker.py:18-27 -/
def roundRobin : Choker :=
  let s := { s with count := s.count + 1 }
  rechoke rating (if s.count % 3 = 0 then { s with connections := s.rotated } else s)

/-- mirrors src/bittorrent/Choker.py:63-67 -/
def connectionMade (id p : Nat) : Choker :=
  rechoke rating { s with connections := s.connections.insertIdx p (Upload.make id) }

/-- The upload of a connection. -/
def get (id : Nat) : Option Upload := s.connections.find? fun u => u.id == id

def modify (id : Nat) (f : Upload → Upload) : Choker :=
  { s with connections := s.connections.map fun u => if u.id = id then f u else u }

/-- mirrors src/bittorrent/Choker.py:69-72 -/
def connectionLost (id : Nat) : Choker :=
  let t := { s with connections := s.connections.filter fun u => u.id != id }
  if (s.get id).any Upload.served then t.rechoke rating else t

/-- `Upload.got_interested`, with `Choker.interested`.
mirrors src/bittorrent/Uploader.py:27-30 and src/bittorrent/Choker.py:74-76 -/
def gotInterested (id : Nat) : Choker :=
  match s.get id with
  | none => s
  | some u =>
    if u.interested then s
    else
      let t := s.modify id fun u => { u with interested := true }
      if u.choked then t else t.rechoke rating

/-- `Upload.got_not_interested`, with `Choker.not_interested`.
mirrors src/bittorrent/Uploader.py:21-25 and src/bittorrent/Choker.py:78-80 -/
def gotNotInterested (id : Nat) : Choker :=
  match s.get id with
  | none => s
  | some u =>
    if u.interested then
      let t := s.modify id fun u => { u with interested := false, buffer := [] }
      if u.choked then t else t.rechoke rating
    else s

/-- A request of a peer that may download is put down.
mirrors src/bittorrent/Uploader.py:47-48 -/
def gotRequest (id : Nat) (r : Nat × Nat × Nat) : Choker :=
  s.modify id fun u => { u with buffer := u.buffer ++ [r] }

/-- The first request is taken off to be answered.
mirrors src/bittorrent/Uploader.py:34-35 -/
def answer (id : Nat) : Choker := s.modify id fun u => { u with buffer := u.buffer.tail }

/-- mirrors src/bittorrent/Uploader.py:51-55 -/
def gotCancel (id : Nat) (r : Nat × Nat × Nat) : Choker :=
  s.modify id fun u => { u with buffer := u.buffer.erase r }

/-- mirrors src/bittorrent/Choker.py:87-89 -/
def changeMaxUploads (n : Nat) : Choker := rechoke rating { s with maxUploads := n }

/-- What happens to the choker. -/
inductive Event
  | connectionMade (id p : Nat)
  | connectionLost (id : Nat)
  | gotInterested (id : Nat)
  | gotNotInterested (id : Nat)
  | gotRequest (id : Nat) (r : Nat × Nat × Nat)
  | answer (id : Nat)
  | gotCancel (id : Nat) (r : Nat × Nat × Nat)
  | roundRobin
  | changeMaxUploads (n : Nat)
deriving DecidableEq

/-- A new connection gets a place at random, and a request is put down for a peer that may
download. -/
def Event.Allowed (s : Choker) : Event → Prop
  | connectionMade id p => id ∉ s.connections.map Upload.id ∧ p ≤ s.connections.length
  | gotRequest id _ => ∀ u ∈ s.connections, u.id = id → u.served = true
  | _ => True

instance (s : Choker) : (l : Event) → Decidable (l.Allowed s)
  | .connectionMade _ _ => inferInstanceAs (Decidable (_ ∧ _))
  | .gotRequest _ _ => inferInstanceAs (Decidable (∀ u ∈ s.connections, _))
  | .connectionLost _ | .gotInterested _ | .gotNotInterested _ | .answer _ | .gotCancel _ _
  | .roundRobin | .changeMaxUploads _ => inferInstanceAs (Decidable True)

def Event.result (s : Choker) : Event → Choker
  | connectionMade id p => s.connectionMade rating id p
  | connectionLost id => s.connectionLost rating id
  | gotInterested id => s.gotInterested rating id
  | gotNotInterested id => s.gotNotInterested rating id
  | gotRequest id r => s.gotRequest id r
  | answer id => s.answer id
  | gotCancel id r => s.gotCancel id r
  | roundRobin => s.roundRobin rating
  | changeMaxUploads n => s.changeMaxUploads rating n

inductive Step (R : Type) [LinearOrder R] : Choker → Event → Choker → Prop
  | event {s : Choker} {l : Event} (rating : Rating R) (h : l.Allowed s) :
      Step R s l (l.result rating s)

end Choker

/-- The rates may be any at every step. -/
def choking (R : Type) [LinearOrder R] (maxUploads minUploads : Nat) :
    LTS Choker Choker.Event where
  init s := s = {
    connections := []
    count := 0
    maxUploads := maxUploads
    minUploads := minUploads }
  step := Choker.Step R

namespace Choker

variable {R : Type} [LinearOrder R] {rating : Rating R} {preferred : List Nat}
  {minUploads : Nat} {us : List Upload}

/-! ## A round of choking -/

theorem chokeLoop_ids (us : List Upload) (count : Nat) (hit : Bool) :
    (chokeLoop preferred minUploads us count hit).map (fun u => (u.id, u.interested)) =
      us.map fun u => (u.id, u.interested) := by
  induction us generalizing count hit with
  | nil => rfl
  | cons u us ih =>
    rw [chokeLoop]
    split
    · simp [ih]
    · split
      · split <;> simp [ih]
      · simp [ih]

/-- How many are served after the loop, beyond those that are preferred. -/
theorem chokeLoop_served (preferred : List Nat) (minUploads : Nat) (us : List Upload)
    (count : Nat) (hit : Bool) :
    (chokeLoop preferred minUploads us count hit).countP Upload.served + count ≤
      us.countP (fun u => decide (u.id ∈ preferred)) +
        max (max minUploads count) (if hit then count else count + 1) := by
  induction us generalizing count hit with
  | nil =>
    simp [chokeLoop]
  | cons u us ih =>
    rw [chokeLoop]
    split
    · rename_i hpre
      have hrest := ih count hit
      have hone : (if u.unchoke.served = true then 1 else 0) ≤ 1 := by split <;> omega
      rw [List.countP_cons, List.countP_cons_of_pos (by simpa using hpre)]
      omega
    · rename_i hpre
      rw [List.countP_cons_of_neg (by simpa using hpre)]
      split
      · rename_i hroom
        rw [List.countP_cons]
        cases hi : u.interested with
        | true =>
          have hrest := ih (count + 1) true
          simp only [Upload.served, Upload.interested_unchoke, Upload.choked_unchoke, hi] at hrest ⊢
          rcases hroom with hroom | rfl
          · simp at hrest ⊢
            omega
          · simp at hrest ⊢
            omega
        | false =>
          have hrest := ih count hit
          simp only [Upload.served, Upload.interested_unchoke, hi]
          simpa using hrest
      · have hrest := ih count hit
        rw [List.countP_cons_of_neg (by simp [Upload.served])]
        exact hrest

/-- The first ones are unchoked, up to one that is interested. -/
def Head : List Upload → Prop
  | [] => True
  | u :: us => u.choked = false ∧ (u.interested = false → Head us)

theorem chokeLoop_head (us : List Upload) (count : Nat) :
    Head (chokeLoop preferred minUploads us count false) := by
  induction us generalizing count with
  | nil => trivial
  | cons u us ih =>
    rw [chokeLoop]
    split
    · exact ⟨rfl, fun _ => ih count⟩
    · rw [if_pos (.inr rfl)]
      refine ⟨rfl, fun hi => ?_⟩
      rw [if_neg (by rw [Upload.interested_unchoke] at hi; simp [hi])]
      exact ih count

theorem length_preferred_le (rating : Rating R) (s : Choker) (hmax : 0 < s.maxUploads) :
    (s.preferred rating).length ≤ s.maxUploads - 1 := by
  rw [Choker.preferred, if_neg (by omega)]
  exact List.length_take_le _ _

/-! ## What holds at any time -/

structure Tidy (s : Choker) : Prop where
  ids : (s.connections.map Upload.id).Nodup
  head : Head s.connections

/-- `max_uploads`, or `min_uploads` if that is more. Where `max_uploads` is 0 all but one of
the interested are preferred. -/
def Bounded (s : Choker) : Prop :=
  0 < s.maxUploads → s.connections.countP Upload.served ≤ max s.maxUploads s.minUploads

theorem rechoke_ids (rating : Rating R) (s : Choker) :
    (s.rechoke rating).connections.map (fun u => (u.id, u.interested)) =
      s.connections.map fun u => (u.id, u.interested) := chokeLoop_ids ..

theorem map_id_rechoke (rating : Rating R) (s : Choker) :
    (s.rechoke rating).connections.map Upload.id = s.connections.map Upload.id := by
  have h := congrArg (List.map Prod.fst) (rechoke_ids rating s)
  rw [List.map_map, List.map_map] at h
  exact h

theorem rechoke_tidy {s : Choker} (h : (s.connections.map Upload.id).Nodup) :
    Tidy (s.rechoke rating) :=
  ⟨by rw [map_id_rechoke]; exact h, chokeLoop_head _ _⟩

/-- The preferred ones are so many at most as there are numbers. -/
theorem countP_mem_le (l : List Nat) (h : (us.map Upload.id).Nodup) :
    us.countP (fun u => decide (u.id ∈ l)) ≤ l.length := by
  have hsub : ((us.filter fun u => decide (u.id ∈ l)).map Upload.id).Subperm l := by
    refine List.subperm_of_subset (h.sublist (List.filter_sublist.map _)) fun i hi => ?_
    obtain ⟨u, hu, rfl⟩ := List.mem_map.1 hi
    simpa using (List.mem_filter.1 hu).2
  have hle := hsub.length_le
  rw [List.length_map] at hle
  rw [List.countP_eq_length_filter]
  exact hle

theorem rechoke_bounded {s : Choker} (h : (s.connections.map Upload.id).Nodup) :
    Bounded (s.rechoke rating) := by
  intro (hmax : 0 < s.maxUploads)
  have hloop := chokeLoop_served (s.preferred rating) s.minUploads s.connections
    (s.preferred rating).length false
  have hcount := countP_mem_le (s.preferred rating) h
  have hlen := length_preferred_le rating s hmax
  rw [Choker.rechoke]
  dsimp only
  simp only [Bool.false_eq_true, if_false] at hloop
  omega

/-! ## One connection among the others -/

theorem mem_of_get {s : Choker} {id : Nat} {u : Upload} (h : s.get id = some u) :
    u ∈ s.connections ∧ u.id = id :=
  ⟨List.mem_of_find?_eq_some h, by simpa using List.find?_some h⟩

theorem eq_of_get {s : Choker} (hids : (s.connections.map Upload.id).Nodup) {id : Nat}
    {u v : Upload} (h : s.get id = some u) (hv : v ∈ s.connections) (hid : v.id = id) : v = u :=
  List.inj_on_of_nodup_map hids hv (mem_of_get h).1 (hid.trans (mem_of_get h).2.symm)

theorem get_none {s : Choker} {id : Nat} (h : s.get id = none) {v : Upload}
    (hv : v ∈ s.connections) : v.id ≠ id := by
  have hno := List.find?_eq_none.1 h v hv
  simpa using hno

/-- Only connections that are choked change. -/
theorem Head.modify {id : Nat} {f : Upload → Upload} (h : Head us)
    (hchoked : ∀ u ∈ us, u.id = id → u.choked = true) :
    Head (us.map fun u => if u.id = id then f u else u) := by
  induction us with
  | nil => trivial
  | cons u us ih =>
    have hne : u.id ≠ id := fun heq => by
      have hu := hchoked u List.mem_cons_self heq
      rw [h.1] at hu
      cases hu
    rw [List.map_cons, if_neg hne]
    exact ⟨h.1, fun hi => ih (h.2 hi) fun v hv => hchoked v (List.mem_cons_of_mem u hv)⟩

/-- Only connections that are not served are taken out. -/
theorem Head.filter {id : Nat} (h : Head us)
    (hserved : ∀ u ∈ us, u.id = id → u.served = false) :
    Head (us.filter fun u => u.id != id) := by
  induction us with
  | nil => trivial
  | cons u us ih =>
    have hrest := fun hi => ih (h.2 hi) fun v hv => hserved v (List.mem_cons_of_mem u hv)
    by_cases heq : u.id = id
    · rw [List.filter_cons_of_neg (by simp [heq])]
      have hu := hserved u List.mem_cons_self heq
      rw [Upload.served, h.1] at hu
      exact hrest (by simpa using hu)
    · rw [List.filter_cons_of_pos (by simpa using heq)]
      exact ⟨h.1, hrest⟩

theorem modify_ids (s : Choker) (id : Nat) {f : Upload → Upload} (hf : ∀ u, (f u).id = u.id) :
    (s.modify id f).connections.map Upload.id = s.connections.map Upload.id := by
  rw [Choker.modify, List.map_map]
  refine List.map_congr_left fun u _ => ?_
  rw [Function.comp_apply]
  split
  · exact hf u
  · rfl

theorem modify_served (s : Choker) (id : Nat) {f : Upload → Upload}
    (hf : ∀ u ∈ s.connections, u.id = id → (f u).served = true → u.served = true) :
    (s.modify id f).connections.countP Upload.served ≤ s.connections.countP Upload.served := by
  rw [Choker.modify, List.countP_map]
  refine List.countP_mono_left fun u hu hserved => ?_
  rw [Function.comp_apply] at hserved
  split at hserved
  · exact hf u hu ‹_› hserved
  · exact hserved

/-! ## A step -/

theorem rotated_perm (s : Choker) : s.rotated.Perm s.connections := by
  rw [rotated]
  refine List.perm_append_comm.trans ?_
  rw [List.takeWhile_append_dropWhile]

/-- Requests are kept only for those that may download. -/
def Asked (us : List Upload) : Prop := ∀ u ∈ us, u.buffer ≠ [] → u.served = true

theorem chokeLoop_asked (h : Asked us) (count : Nat) (hit : Bool) :
    Asked (chokeLoop preferred minUploads us count hit) := by
  induction us generalizing count hit with
  | nil => exact h
  | cons u us ih =>
    have hrest := fun count hit => ih (fun v hv => h v (List.mem_cons_of_mem u hv)) count hit
    have hin : u.unchoke.buffer ≠ [] → u.unchoke.served = true := by
      intro hne
      have hserved := h u List.mem_cons_self hne
      rw [Upload.served, Bool.and_eq_true] at hserved
      rw [Upload.served, Upload.interested_unchoke, hserved.1]
      rfl
    have hout : u.choke.buffer = [] := by
      rw [Upload.choke]
      split
      · rename_i hchoked
        by_contra hne
        have hserved := h u List.mem_cons_self hne
        rw [Upload.served, hchoked] at hserved
        simp at hserved
      · rfl
    rw [chokeLoop]
    split
    · exact List.forall_mem_cons.2 ⟨hin, hrest _ _⟩
    · split
      · refine List.forall_mem_cons.2 ⟨hin, ?_⟩
        split
        · exact hrest _ _
        · exact hrest _ _
      · exact List.forall_mem_cons.2 ⟨fun hne => absurd hout hne, hrest _ _⟩

theorem Asked.modify {s : Choker} (h : Asked s.connections) (id : Nat) {f : Upload → Upload}
    (hf : ∀ u ∈ s.connections, u.id = id → (f u).buffer ≠ [] → (f u).served = true) :
    Asked (s.modify id f).connections := by
  intro v hv hne
  obtain ⟨u, hu, rfl⟩ := List.mem_map.1 hv
  split at hne
  · rename_i hid
    rw [if_pos hid]
    exact hf u hu hid hne
  · rename_i hid
    rw [if_neg hid]
    exact h u hu hne

structure Inv (s : Choker) : Prop where
  tidy : Tidy s
  bounded : Bounded s
  asked : Asked s.connections

theorem rechoke_inv {s : Choker} (h : (s.connections.map Upload.id).Nodup)
    (hasked : Asked s.connections) : Inv (s.rechoke rating) :=
  ⟨rechoke_tidy h, rechoke_bounded h, chokeLoop_asked hasked _ _⟩

theorem Head.congr {us us' : List Upload} (h : Head us)
    (heq : us'.map (fun u => (u.choked, u.interested)) = us.map fun u => (u.choked, u.interested)) :
    Head us' := by
  induction us generalizing us' with
  | nil =>
    rw [List.map_nil, List.map_eq_nil_iff] at heq
    rw [heq]
    trivial
  | cons u us ih =>
    cases us' with
    | nil => simp at heq
    | cons v us' =>
      rw [List.map_cons, List.map_cons, List.cons.injEq, Prod.mk.injEq] at heq
      obtain ⟨⟨hchoked, hinterested⟩, hrest⟩ := heq
      exact ⟨hchoked.trans h.1, fun hi => ih (h.2 (hinterested.symm.trans hi)) hrest⟩

/-- No more are served than before. -/
theorem Bounded.fewer {s : Choker} (h : Bounded s) {us : List Upload}
    (hle : us.countP Upload.served ≤ s.connections.countP Upload.served) :
    Bounded { s with connections := us } := fun hmax => Nat.le_trans hle (h hmax)

/-- A call that only changes the requests of one connection. -/
theorem Inv.buffer {s : Choker} (h : Inv s) (id : Nat) (g : Upload → List (Nat × Nat × Nat))
    (hg : ∀ u ∈ s.connections, u.id = id → g u ≠ [] → u.served = true) :
    Inv (s.modify id fun u => { u with buffer := g u }) := by
  obtain ⟨⟨hids, hhead⟩, hbounded, hasked⟩ := h
  refine ⟨⟨?_, hhead.congr ?_⟩, hbounded.fewer (modify_served s id fun u _ _ hs => hs),
    hasked.modify id hg⟩
  · exact (modify_ids s id (f := fun u => { u with buffer := g u }) fun _ => rfl) ▸ hids
  · rw [Choker.modify, List.map_map]
    refine List.map_congr_left fun u _ => ?_
    rw [Function.comp_apply]
    split
    · rfl
    · rfl

theorem Inv.result {s : Choker} (h : Inv s) {l : Event} (hallowed : l.Allowed s)
    (rating : Rating R) : Inv (l.result rating s) := by
  have hinv := h
  obtain ⟨⟨hids, hhead⟩, hbounded, hasked⟩ := h
  cases l with
  | connectionMade id p =>
    have hperm := List.perm_insertIdx (Upload.make id) s.connections hallowed.2
    refine rechoke_inv ?_ fun u hu hne => ?_
    · exact (hperm.map Upload.id).nodup_iff.2 (List.nodup_cons.2 ⟨hallowed.1, hids⟩)
    · rcases List.mem_cons.1 (hperm.mem_iff.1 hu) with rfl | hu
      · exact absurd rfl hne
      · exact hasked u hu hne
  | connectionLost id =>
    have hids' : ((s.connections.filter fun u => u.id != id).map Upload.id).Nodup :=
      hids.sublist (List.filter_sublist.map _)
    have hasked' : Asked (s.connections.filter fun u => u.id != id) := fun u hu =>
      hasked u (List.mem_filter.1 hu).1
    rw [Event.result, connectionLost]
    split
    · exact rechoke_inv hids' hasked'
    · rename_i hnot
      refine ⟨⟨hids', hhead.filter fun u hu hid => ?_⟩,
        hbounded.fewer List.filter_sublist.countP_le, hasked'⟩
      cases hget : s.get id with
      | none => exact absurd hid (get_none hget hu)
      | some v =>
        rw [hget, ← eq_of_get hids hget hu hid] at hnot
        simpa using hnot
  | gotInterested id =>
    rw [Event.result, gotInterested]
    split
    · exact hinv
    · rename_i u hu
      split
      · exact hinv
      · dsimp only
        have hids' := modify_ids s id (f := fun u => { u with interested := true }) fun _ => rfl
        have hasked' := hasked.modify id (f := fun u => { u with interested := true })
          fun v hv _ hne => by
            have hserved := hasked v hv hne
            rw [Upload.served, Bool.and_eq_true] at hserved
            exact hserved.2
        split
        · rename_i hchoked
          refine ⟨⟨hids' ▸ hids, hhead.modify fun v hv hid => ?_⟩,
            hbounded.fewer (modify_served s id fun v hv hid hserved => ?_), hasked'⟩
          · rw [eq_of_get hids hu hv hid]
            exact hchoked
          · rw [eq_of_get hids hu hv hid] at hserved
            simp [Upload.served, hchoked] at hserved
        · exact rechoke_inv (hids' ▸ hids) hasked'
  | gotNotInterested id =>
    rw [Event.result, gotNotInterested]
    split
    · exact hinv
    · rename_i u hu
      split
      · dsimp only
        have hids' := modify_ids s id (f := fun u => { u with interested := false, buffer := [] })
          fun _ => rfl
        have hasked' := hasked.modify id (f := fun u => { u with interested := false, buffer := [] })
          fun v _ _ hne => absurd rfl hne
        split
        · rename_i hchoked
          refine ⟨⟨hids' ▸ hids, hhead.modify fun v hv hid => ?_⟩,
            hbounded.fewer (modify_served s id fun v hv hid hserved => ?_), hasked'⟩
          · rw [eq_of_get hids hu hv hid]
            exact hchoked
          · simp [Upload.served] at hserved
        · exact rechoke_inv (hids' ▸ hids) hasked'
      · exact hinv
  | gotRequest id r => exact hinv.buffer id _ fun u hu hid _ => hallowed u hu hid
  | answer id =>
    exact hinv.buffer id _ fun u hu _ hne => hasked u hu fun hnil => hne (by rw [hnil]; rfl)
  | gotCancel id r =>
    exact hinv.buffer id _ fun u hu _ hne => hasked u hu fun hnil => hne (by rw [hnil]; rfl)
  | roundRobin =>
    have hrotated : Asked s.rotated := fun u hu => hasked u ((rotated_perm s).mem_iff.1 hu)
    rw [Event.result, roundRobin]
    dsimp only
    split
    · exact rechoke_inv (((rotated_perm s).map Upload.id).nodup_iff.2 hids) hrotated
    · exact rechoke_inv hids hasked
  | changeMaxUploads n => exact rechoke_inv hids hasked

theorem inv_inductive (maxUploads minUploads : Nat) :
    (choking R maxUploads minUploads).Inductive Inv where
  init s hs := by
    rw [hs]
    exact ⟨⟨List.nodup_nil, trivial⟩, fun _ => Nat.zero_le _,
      fun u hu => absurd hu List.not_mem_nil⟩
  step s l s' h hst := by
    obtain ⟨rating, hallowed⟩ := hst
    exact h.result hallowed rating

theorem Head.find {u : Upload} (h : Head us) (hu : us.find? Upload.interested = some u) :
    u.choked = false := by
  induction us with
  | nil => cases hu
  | cons v us ih =>
    cases hi : v.interested with
    | true =>
      rw [List.find?_cons_of_pos hi, Option.some.injEq] at hu
      rw [← hu]
      exact h.1
    | false =>
      rw [List.find?_cons_of_neg (by simp [hi])] at hu
      exact ih (h.2 hi) hu

/-- Whenever `max_uploads` is not 0, at most so many peers, or `min_uploads` if that is more,
are unchoked and interested. The first in line that is interested is always one of them, and
requests are kept for no others. -/
theorem unchoked_le {maxUploads minUploads : Nat} {s : Choker}
    (h : (choking R maxUploads minUploads).Reachable s) :
    (0 < s.maxUploads →
        s.connections.countP Upload.served ≤ max s.maxUploads s.minUploads) ∧
      (∀ u, s.connections.find? Upload.interested = some u → u.choked = false) ∧
      ∀ u ∈ s.connections, u.buffer ≠ [] → u.choked = false ∧ u.interested = true := by
  obtain ⟨htidy, hbounded, hasked⟩ := (inv_inductive maxUploads minUploads).reachable s h
  refine ⟨hbounded, fun u hu => htidy.head.find hu, fun u hu hne => ?_⟩
  have hserved := hasked u hu hne
  rw [Upload.served, Bool.and_eq_true, Bool.not_eq_true'] at hserved
  exact ⟨hserved.2, hserved.1⟩

/-- No peer is faster than another. -/
def alike : Rating Nat where
  snubbed _ := false
  rate _ := 0

/-- Two peers are connected and interested. -/
def crowd : Choker :=
  [Event.connectionMade 1 0, .gotInterested 1, .connectionMade 2 1, .gotInterested 2].foldl
    (fun s l => l.result alike s)
    { connections := [], count := 0, maxUploads := 1, minUploads := 1 }

theorem crowd_reachable : (choking Nat 1 1).Reachable crowd :=
  ⟨_, _, rfl, .cons (.event (l := .connectionMade 1 0) alike (by decide)) <|
    .cons (.event (l := .gotInterested 1) alike trivial) <|
    .cons (.event (l := .connectionMade 2 1) alike (by decide)) <|
    .cons (.event (l := .gotInterested 2) alike trivial) <| .nil _⟩

theorem unchoked_le_crowd :
    crowd.connections.countP Upload.served ≤ 1 ∧
      (∀ u, crowd.connections.find? Upload.interested = some u → u.choked = false) ∧
      ∀ u ∈ crowd.connections, u.buffer ≠ [] → u.choked = false ∧ u.interested = true :=
  (unchoked_le crowd_reachable).imp_left fun h => h (by decide)

/-! ## Who is connected -/

/-- Who is connected after `l`. -/
def Event.ids (s : Choker) : Event → List Nat
  | connectionMade id _ => id :: s.connections.map Upload.id
  | connectionLost id => (s.connections.map Upload.id).filter fun x => x != id
  | _ => s.connections.map Upload.id

theorem map_id_filter (us : List Upload) (id : Nat) :
    (us.filter fun u => u.id != id).map Upload.id = (us.map Upload.id).filter fun x => x != id := by
  rw [List.filter_map]
  rfl

theorem result_ids {s : Choker} {l : Event} (hallowed : l.Allowed s) (rating : Rating R) :
    ((l.result rating s).connections.map Upload.id).Perm (l.ids s) := by
  cases l with
  | connectionMade id p =>
    rw [Event.result, connectionMade, map_id_rechoke]
    exact (List.perm_insertIdx (Upload.make id) s.connections hallowed.2).map Upload.id
  | connectionLost id =>
    rw [Event.result, connectionLost]
    split
    · rw [map_id_rechoke, map_id_filter, Event.ids]
    · rw [map_id_filter, Event.ids]
  | gotInterested id =>
    rw [Event.result, gotInterested]
    split
    · exact List.Perm.refl _
    · split
      · exact List.Perm.refl _
      · have hids := modify_ids s id (f := fun u => { u with interested := true }) fun _ => rfl
        dsimp only
        split
        · exact List.Perm.of_eq hids
        · exact List.Perm.of_eq ((map_id_rechoke rating _).trans hids)
  | gotNotInterested id =>
    rw [Event.result, gotNotInterested]
    split
    · exact List.Perm.refl _
    · split
      · have hids := modify_ids s id (f := fun u => { u with interested := false, buffer := [] })
          fun _ => rfl
        dsimp only
        split
        · exact List.Perm.of_eq hids
        · exact List.Perm.of_eq ((map_id_rechoke rating _).trans hids)
      · exact List.Perm.refl _
  | gotRequest id r =>
    exact List.Perm.of_eq
      (modify_ids s id (f := fun u => { u with buffer := u.buffer ++ [r] }) fun _ => rfl)
  | answer id =>
    exact List.Perm.of_eq
      (modify_ids s id (f := fun u => { u with buffer := u.buffer.tail }) fun _ => rfl)
  | gotCancel id r =>
    exact List.Perm.of_eq
      (modify_ids s id (f := fun u => { u with buffer := u.buffer.erase r }) fun _ => rfl)
  | roundRobin =>
    rw [Event.result, roundRobin, map_id_rechoke]
    dsimp only
    split
    · exact (rotated_perm s).map Upload.id
    · exact List.Perm.refl _
  | changeMaxUploads n =>
    rw [Event.result, changeMaxUploads, map_id_rechoke]
    exact List.Perm.refl _

/-! ## Requests -/

/-- The requests of `l`. -/
def Event.requests : Event → List (Nat × Nat × Nat × Nat)
  | gotRequest id r => [(id, r)]
  | _ => []

/-- Nobody has more requests than he had, and those that are new. -/
def Shrinks (new : List (Nat × Nat × Nat × Nat)) (us us' : List Upload) : Prop :=
  ∀ v ∈ us', v.buffer ≠ [] → ∃ u ∈ us, u.id = v.id ∧
    v.buffer.Sublist (u.buffer ++ (new.filter fun e => e.1 == u.id).map Prod.snd)

theorem Shrinks.of_subset {us us' : List Upload} (h : us' ⊆ us) : Shrinks [] us us' :=
  fun v hv _ => ⟨v, h hv, rfl, by simp⟩

theorem Shrinks.trans {new : List (Nat × Nat × Nat × Nat)} {us us' us'' : List Upload}
    (h : Shrinks new us us') (h' : Shrinks [] us' us'') : Shrinks new us us'' := by
  intro w hw hne
  obtain ⟨v, hv, hid, hsub⟩ := h' w hw hne
  rw [List.filter_nil, List.map_nil, List.append_nil] at hsub
  have hne' : v.buffer ≠ [] := fun hnil => hne (List.sublist_nil.1 (hnil ▸ hsub))
  obtain ⟨u, hu, hid', hsub'⟩ := h v hv hne'
  exact ⟨u, hu, hid'.trans hid, hsub.trans hsub'⟩

theorem chokeLoop_shrinks (us : List Upload) (count : Nat) (hit : Bool) :
    Shrinks [] us (chokeLoop preferred minUploads us count hit) := by
  induction us generalizing count hit with
  | nil => exact Shrinks.of_subset (List.Subset.refl _)
  | cons u us ih =>
    have hrest : ∀ count hit, ∀ v ∈ chokeLoop preferred minUploads us count hit, v.buffer ≠ [] →
        ∃ w ∈ u :: us, w.id = v.id ∧ v.buffer.Sublist (w.buffer ++ []) := by
      intro count hit v hv hne
      obtain ⟨w, hw, heq⟩ := ih count hit v hv hne
      exact ⟨w, List.mem_cons_of_mem u hw, heq⟩
    have hin : u.unchoke.buffer ≠ [] → ∃ w ∈ u :: us, w.id = u.unchoke.id ∧
        u.unchoke.buffer.Sublist (w.buffer ++ []) :=
      fun _ => ⟨u, List.mem_cons_self, rfl, by rw [List.append_nil]; exact List.Sublist.refl _⟩
    have hout : u.choke.buffer ≠ [] → ∃ w ∈ u :: us, w.id = u.choke.id ∧
        u.choke.buffer.Sublist (w.buffer ++ []) := by
      intro _
      refine ⟨u, List.mem_cons_self, (Upload.id_choke u).symm, ?_⟩
      rw [List.append_nil, Upload.choke]
      split
      · exact List.Sublist.refl _
      · exact List.nil_sublist _
    rw [chokeLoop]
    split
    · exact List.forall_mem_cons.2 ⟨hin, hrest _ _⟩
    · split
      · refine List.forall_mem_cons.2 ⟨hin, ?_⟩
        split
        · exact hrest _ _
        · exact hrest _ _
      · exact List.forall_mem_cons.2 ⟨hout, hrest _ _⟩

theorem rechoke_shrinks (rating : Rating R) (s : Choker) :
    Shrinks [] s.connections (s.rechoke rating).connections := chokeLoop_shrinks _ _ _

theorem modify_shrinks (s : Choker) (id : Nat) {f : Upload → Upload}
    {new : List (Nat × Nat × Nat × Nat)} (hid : ∀ u, (f u).id = u.id)
    (hf : ∀ u, u.id = id → (f u).buffer.Sublist
      (u.buffer ++ (new.filter fun e => e.1 == id).map Prod.snd)) :
    Shrinks new s.connections (s.modify id f).connections := by
  intro v hv _
  obtain ⟨u, hu, rfl⟩ := List.mem_map.1 hv
  split
  · rename_i heq
    refine ⟨u, hu, (hid u).symm, ?_⟩
    rw [heq]
    exact hf u heq
  · exact ⟨u, hu, rfl, List.sublist_append_left _ _⟩

theorem result_shrinks {s : Choker} {l : Event} (hallowed : l.Allowed s) (rating : Rating R) :
    Shrinks l.requests s.connections (l.result rating s).connections := by
  cases l with
  | connectionMade id p =>
    refine Shrinks.trans (fun v hv hne => ?_) (rechoke_shrinks rating _)
    have hperm := List.perm_insertIdx (Upload.make id) s.connections hallowed.2
    rcases List.mem_cons.1 (hperm.mem_iff.1 hv) with rfl | hv
    · exact absurd rfl hne
    · exact ⟨v, hv, rfl, List.sublist_append_left _ _⟩
  | connectionLost id =>
    have hfilter := Shrinks.of_subset
      (List.filter_sublist (p := fun u => u.id != id) (l := s.connections)).subset
    rw [Event.result, connectionLost]
    split
    · exact hfilter.trans (rechoke_shrinks rating _)
    · exact hfilter
  | gotInterested id =>
    have hsame := Shrinks.of_subset (List.Subset.refl s.connections)
    have hmod : Shrinks [] s.connections
        (s.modify id fun u => { u with interested := true }).connections :=
      modify_shrinks s id (fun _ => rfl) fun u _ => by simp
    rw [Event.result, gotInterested]
    split
    · exact hsame
    · split
      · exact hsame
      · dsimp only
        split
        · exact hmod
        · exact hmod.trans (rechoke_shrinks rating _)
  | gotNotInterested id =>
    have hsame := Shrinks.of_subset (List.Subset.refl s.connections)
    have hmod : Shrinks [] s.connections
        (s.modify id fun u => { u with interested := false, buffer := [] }).connections :=
      modify_shrinks s id (fun _ => rfl) fun u _ => List.nil_sublist _
    rw [Event.result, gotNotInterested]
    split
    · exact hsame
    · split
      · dsimp only
        split
        · exact hmod
        · exact hmod.trans (rechoke_shrinks rating _)
      · exact hsame
  | gotRequest id r => exact modify_shrinks s id (fun _ => rfl) fun u _ => by simp [Event.requests]
  | answer id =>
    exact modify_shrinks s id (fun _ => rfl) fun u _ =>
      (List.tail_sublist _).trans (List.sublist_append_left _ _)
  | gotCancel id r =>
    exact modify_shrinks s id (fun _ => rfl) fun u _ =>
      List.erase_sublist.trans (List.sublist_append_left _ _)
  | roundRobin =>
    rw [Event.result, roundRobin]
    dsimp only
    split
    · exact (Shrinks.of_subset (rotated_perm s).subset).trans (rechoke_shrinks rating _)
    · exact rechoke_shrinks rating _
  | changeMaxUploads n => exact rechoke_shrinks rating _

/-! ## Nobody waits for ever -/

/-- The connection `x` is there, interested and choked. -/
def Waits (x : Nat) (s : Choker) : Prop := ∃ u ∈ s.connections, u.id = x ∧ u.waiting = true

instance (x : Nat) (s : Choker) : Decidable (Waits x s) :=
  inferInstanceAs (Decidable (∃ u ∈ s.connections, _))

/-- How many are before the connection `x`. -/
def place (x : Nat) (s : Choker) : Nat := (s.connections.map Upload.id).idxOf x

def Event.isMade : Event → Bool
  | connectionMade _ _ => true
  | _ => false

theorem place_rechoke (x : Nat) (s : Choker) : place x (s.rechoke rating) = place x s := by
  rw [place, map_id_rechoke, place]

theorem place_modify (x : Nat) (s : Choker) (id : Nat) {f : Upload → Upload}
    (hf : ∀ u, (f u).id = u.id) : place x (s.modify id f) = place x s := by
  rw [place, modify_ids s id hf, place]

theorem idxOf_filter_le (l : List Nat) {x y : Nat} (hne : x ≠ y) :
    (l.filter fun i => i != y).idxOf x ≤ l.idxOf x := by
  induction l with
  | nil => exact Nat.le_refl _
  | cons i l ih =>
    by_cases hix : i = x
    · rw [hix, List.idxOf_cons_self]
      rw [List.filter_cons_of_pos (by simpa using hne), List.idxOf_cons_self]
    · rw [List.idxOf_cons_ne l hix]
      by_cases hiy : i = y
      · rw [List.filter_cons_of_neg (by simp [hiy])]
        omega
      · rw [List.filter_cons_of_pos (by simpa using hiy), List.idxOf_cons_ne _ hix]
        omega

theorem idxOf_insertIdx_le (l : List Nat) {x y : Nat} (p : Nat) :
    (l.insertIdx p y).idxOf x ≤ l.idxOf x + 1 := by
  induction l generalizing p with
  | nil =>
    cases p with
    | zero =>
      rw [List.insertIdx_zero]
      exact Nat.le_trans List.idxOf_le_length (by simp)
    | succ p => simp
  | cons i l ih =>
    cases p with
    | zero =>
      rw [List.insertIdx_zero]
      by_cases hyx : y = x
      · rw [hyx, List.idxOf_cons_self]
        omega
      · rw [List.idxOf_cons_ne _ hyx]
    | succ p =>
      rw [List.insertIdx_succ_cons]
      by_cases hix : i = x
      · rw [hix, List.idxOf_cons_self]
        omega
      · rw [List.idxOf_cons_ne _ hix, List.idxOf_cons_ne _ hix]
        have hle := ih p
        omega

/-- Who waits comes nearer to the front when another one is put there. -/
theorem place_rotated {x : Nat} {s : Choker} (h : Tidy s) (hx : Waits x s) :
    place x { s with connections := s.rotated } + 1 ≤ place x s := by
  obtain ⟨u, hu, hid, hwaits⟩ := hx
  have hsplit := List.takeWhile_append_dropWhile (p := fun u : Upload => !u.waiting)
    (l := s.connections)
  have hbefore : x ∉ (s.connections.takeWhile fun u => !u.waiting).map Upload.id := by
    intro hmem
    obtain ⟨v, hv, hvx⟩ := List.mem_map.1 hmem
    have hsame := List.inj_on_of_nodup_map h.ids
      ((List.takeWhile_sublist _).subset hv) hu (hvx.trans hid.symm)
    have hno := List.mem_takeWhile_imp hv
    rw [hsame, hwaits] at hno
    cases hno
  have hafter : x ∈ (s.connections.dropWhile fun u => !u.waiting).map Upload.id := by
    have hmem : x ∈ s.connections.map Upload.id := List.mem_map.2 ⟨u, hu, hid⟩
    rw [← hsplit, List.map_append, List.mem_append] at hmem
    exact hmem.resolve_left hbefore
  have hpos : 0 < (s.connections.takeWhile fun u => !u.waiting).length := by
    cases hc : s.connections with
    | nil =>
      rw [hc] at hu
      cases hu
    | cons v us =>
      have hhead := h.head
      rw [hc] at hhead
      rw [List.takeWhile_cons_of_pos (by simp [Upload.waiting, hhead.1])]
      exact Nat.succ_pos _
  have hplace : place x s = (s.connections.takeWhile fun u => !u.waiting).length +
      ((s.connections.dropWhile fun u => !u.waiting).map Upload.id).idxOf x := by
    rw [place]
    conv_lhs => rw [← hsplit]
    rw [List.map_append, List.idxOf_append_of_notMem hbefore, List.length_map]
  rw [hplace, place, rotated, List.map_append, List.idxOf_append_of_mem hafter]
  omega

/-- A round that puts another one to the front is worth a place; a new connection may take
one. -/
theorem place_step {x : Nat} {s : Choker} (h : Tidy s) (hx : Waits x s) {l : Event}
    (rating : Rating R) (hx' : Waits x (l.result rating s)) :
    (l.result rating s).count / 3 + place x (l.result rating s) ≤
      s.count / 3 + place x s + (if l.isMade then 1 else 0) := by
  have hbuffer : ∀ (id : Nat) (g : Upload → List (Nat × Nat × Nat)), s.count / 3 +
      place x (s.modify id fun u => { u with buffer := g u }) ≤ s.count / 3 + place x s + 0 := by
    intro id g
    rw [place_modify x s id (f := fun u => { u with buffer := g u }) fun _ => rfl, Nat.add_zero]
  cases l with
  | connectionMade id p =>
    rw [Event.result, connectionMade, place_rechoke]
    have hle : place x { s with connections := s.connections.insertIdx p (Upload.make id) } ≤
        place x s + 1 := by
      rw [place, List.map_insertIdx]
      exact idxOf_insertIdx_le _ p
    exact Nat.add_le_add_left hle (s.count / 3)
  | connectionLost id =>
    have hne : x ≠ id := by
      rintro rfl
      obtain ⟨u, hu, hid, -⟩ := hx'
      have hmem : x ∈ ((s.connections.filter fun u => u.id != x).map Upload.id) := by
        rw [Event.result, connectionLost] at hu
        split at hu
        · have hids := map_id_rechoke rating
            { s with connections := s.connections.filter fun u => u.id != x }
          exact hids ▸ List.mem_map.2 ⟨u, hu, hid⟩
        · exact List.mem_map.2 ⟨u, hu, hid⟩
      obtain ⟨v, hv, hvx⟩ := List.mem_map.1 hmem
      simpa [hvx] using (List.mem_filter.1 hv).2
    have hle : place x { s with connections := s.connections.filter fun u => u.id != id } ≤
        place x s := by
      have hfilter : (s.connections.filter fun u => u.id != id).map Upload.id =
          (s.connections.map Upload.id).filter fun i => i != id := by
        rw [List.filter_map]
        rfl
      rw [place, hfilter]
      exact idxOf_filter_le _ hne
    rw [Event.result, connectionLost]
    split
    · rw [place_rechoke]
      exact Nat.add_le_add_left hle (s.count / 3)
    · exact Nat.add_le_add_left hle (s.count / 3)
  | gotInterested id =>
    rw [Event.result, gotInterested]
    split
    · exact Nat.le_refl _
    · split
      · exact Nat.le_refl _
      · have hmod := place_modify x s id (f := fun u => { u with interested := true }) fun _ => rfl
        dsimp only
        split
        · exact Nat.le_of_eq (congrArg (s.count / 3 + ·) hmod)
        · rw [place_rechoke]
          exact Nat.le_of_eq (congrArg (s.count / 3 + ·) hmod)
  | gotNotInterested id =>
    rw [Event.result, gotNotInterested]
    split
    · exact Nat.le_refl _
    · split
      · have hmod := place_modify x s id
          (f := fun u => { u with interested := false, buffer := [] }) fun _ => rfl
        dsimp only
        split
        · exact Nat.le_of_eq (congrArg (s.count / 3 + ·) hmod)
        · rw [place_rechoke]
          exact Nat.le_of_eq (congrArg (s.count / 3 + ·) hmod)
      · exact Nat.le_refl _
  | gotRequest id r => exact hbuffer id _
  | answer id => exact hbuffer id _
  | gotCancel id r => exact hbuffer id _
  | roundRobin =>
    rw [Event.result, roundRobin, place_rechoke]
    dsimp only
    split
    · rename_i hthird
      have hle : place x { s with count := s.count + 1, connections := s.rotated } + 1 ≤
          place x s := place_rotated h hx
      change (s.count + 1) / 3 + place x { s with count := s.count + 1, connections := s.rotated } ≤ _
      omega
    · rename_i hthird
      change (s.count + 1) / 3 + place x s ≤ _
      omega
  | changeMaxUploads n =>
    rw [Event.result, changeMaxUploads, place_rechoke]
    exact Nat.le_refl _

theorem count_step {s : Choker} (rating : Rating R) (l : Event) :
    (l.result rating s).count = s.count + if l = .roundRobin then 1 else 0 := by
  cases l with
  | connectionMade id p => rfl
  | connectionLost id =>
    rw [Event.result, connectionLost]
    split <;> rfl
  | gotInterested id =>
    rw [Event.result, gotInterested]
    split
    · rfl
    · split
      · rfl
      · dsimp only
        split <;> rfl
  | gotNotInterested id =>
    rw [Event.result, gotNotInterested]
    split
    · rfl
    · split
      · dsimp only
        split <;> rfl
      · rfl
  | gotRequest id r => rfl
  | answer id => rfl
  | gotCancel id r => rfl
  | roundRobin =>
    rw [Event.result, roundRobin]
    dsimp only
    split <;> rfl
  | changeMaxUploads n => rfl

theorem waits_of_run {maxUploads minUploads : Nat} {x : Nat} {s s' : Choker} {ls : List Event}
    (hrun : ((choking R maxUploads minUploads).restrict fun s _ => Waits x s).Run s ls s')
    (hx : Waits x s') : Waits x s := by
  cases hrun with
  | nil => exact hx
  | cons hst _ => exact hst.2

/-- A step lowers the place or counts a round, and so does a run. -/
theorem place_run {maxUploads minUploads : Nat} {x : Nat} {s s' : Choker} {ls : List Event}
    (h : Inv s)
    (hrun : ((choking R maxUploads minUploads).restrict fun s _ => Waits x s).Run s ls s')
    (hx : Waits x s') :
    s'.count / 3 + place x s' ≤ s.count / 3 + place x s + ls.countP Event.isMade ∧
      s'.count = s.count + ls.countP (· = .roundRobin) := by
  induction hrun with
  | nil => simp
  | @cons s s₁ s' l ls hst hrun ih =>
    have hx₁ := waits_of_run hrun hx
    obtain ⟨hst, hxs⟩ := hst
    have h₁ : Inv s₁ := (inv_inductive maxUploads minUploads).step s l s₁ h hst
    obtain ⟨hplace, hcount⟩ := ih h₁ hx
    cases hst with
    | event rating _ =>
      have hstep := place_step h.tidy hxs rating hx₁
      have hone := count_step (R := R) (s := s) rating l
      constructor
      · rw [List.countP_cons]
        omega
      · rw [List.countP_cons, hcount, hone]
        simp only [decide_eq_true_eq]
        omega

/-- While an interested peer stays choked, there are no more than three rounds for each that
was before it in line or was connected since, and two more. -/
theorem waits_at_most {maxUploads minUploads : Nat} {x : Nat} {s s' : Choker} {ls : List Event}
    (h : (choking R maxUploads minUploads).Reachable s)
    (hrun : ((choking R maxUploads minUploads).restrict fun s _ => Waits x s).Run s ls s')
    (hx : Waits x s') :
    ls.countP (· = .roundRobin) ≤ 3 * (place x s + ls.countP Event.isMade) + 2 := by
  obtain ⟨hplace, hcount⟩ := place_run ((inv_inductive _ _).reachable s h) hrun hx
  omega

/-- The second of the crowd stays choked for two rounds. -/
theorem waits_at_most_crowd :
    [Event.roundRobin, .roundRobin].countP (· = .roundRobin) ≤
      3 * (place 2 crowd + [Event.roundRobin, .roundRobin].countP Event.isMade) + 2 :=
  waits_at_most crowd_reachable
    (.cons ⟨.event alike trivial, by decide⟩ <| .cons ⟨.event alike trivial, by decide⟩ <| .nil _)
    (by decide)

end Choker

end Wubi.Bittorrent
