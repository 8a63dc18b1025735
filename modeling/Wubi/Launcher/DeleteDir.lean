import Wubi.Core.Disk
import Wubi.Core.Text

/-!
# Deleting a directory

`delete_directory` of `src/pylauncher/deletedir.c`, on a disk and with calls of
the operating system that may fail at any point. A call that fails leaves its
code in the last error, one that succeeds leaves the last error as it is.

**Enumeration.** `FindFirstFile` and `FindNextFile` deliver `.`, `..` and the
names that the directory has when the enumeration begins. A name that begins
with a dot is skipped, whether it is one of the two or not.

**Fuel.** The depth of the disk bounds the recursion (`deleteDir_returns`).

Results:
* `deleteDir_within`: nothing outside the directory is touched.
* `deleteDir_zero`: 0 is returned only if the directory is gone or
  `FindFirstFile` failed on it.
* `deleteDir_all`, `all_of_gone`: the tree is gone just when no call fails and
  no name in it begins with a dot.
* `deleteDirectory_right_iff`: all of it for `delete_directory`.
-/
namespace Wubi.Launcher

/-- The components of an absolute path, from the drive on. -/
abbrev Path := List Str

/-- The code of a call that failed; at the end of an enumeration
`FindNextFile` does not fail. -/
structure Failure where
  code : Nat
  code_ne : code ≠ 0
  more : code ≠ 18

/-- `ERROR_NO_MORE_FILES` -/
def noMoreFiles : Nat := 18

/-- `ERROR_NOT_ENOUGH_MEMORY` -/
def notEnoughMemory : Nat := 8

/-- `ERROR_PATH_NOT_FOUND` -/
def pathNotFound : Failure := ⟨3, by decide, by decide⟩

/-- `ERROR_DIR_NOT_EMPTY` -/
def dirNotEmpty : Failure := ⟨145, by decide, by decide⟩

/-- `GetFullPathName` returns 0, a length below MAX_PATH, or the length that
it would need. -/
inductive FullPath where
  | zero | fits | tooLong
  deriving DecidableEq

/-- What the calls do; none: the call succeeds. -/
structure Outcomes where
  fullPath : FullPath
  /-- `concat` for the pattern of a directory -/
  pattern : Path → Bool
  /-- both `concat` for the path of an entry -/
  filePath : Path → Bool
  findFirstFile : Path → Option Failure
  /-- the `k`-th `FindNextFile` in a directory, from 0 on -/
  findNextFile : Path → Nat → Option Failure
  findClose : Path → Option Failure
  setFileAttributes : Path → Option Failure
  deleteFile : Path → Option Failure
  removeDirectory : Path → Option Failure

/-- A call on a path. -/
structure Call where
  name : String
  path : Path

structure Machine where
  entries : Disk Str
  lastError : Nat
  calls : List Call

def Machine.log (name : String) (p : Path) (m : Machine) : Machine :=
  { m with calls := m.calls ++ [⟨name, p⟩] }

def Machine.fail (f : Failure) (m : Machine) : Machine := { m with lastError := f.code }

variable (o : Outcomes)

/-! ## The calls -/

/-- A call that only succeeds or fails. -/
def attempt (r : Option Failure) (m : Machine) : Bool × Machine :=
  match r with
  | none => (true, m)
  | some f => (false, m.fail f)

def setFileAttributes (p : Path) (m : Machine) : Bool × Machine :=
  attempt (o.setFileAttributes p) (m.log "SetFileAttributes" p)

def findClose (p : Path) (m : Machine) : Machine :=
  (attempt (o.findClose p) (m.log "FindClose" p)).2

/-- Removes the entry, if it succeeds. -/
def erase (r : Option Failure) (p : Path) (m : Machine) : Bool × Machine :=
  match r with
  | none => (true, { m with entries := m.entries.remove p })
  | some f => (false, m.fail f)

def deleteFile (p : Path) (m : Machine) : Bool × Machine :=
  erase (o.deleteFile p) p (m.log "DeleteFile" p)

/-- Only an empty directory can be removed. -/
def removeDirectory (p : Path) (m : Machine) : Bool × Machine :=
  erase (if m.entries.children p = [] then o.removeDirectory p else some dirNotEmpty) p
    (m.log "RemoveDirectory" p)

/-! ## The functions -/

/-- An entry that is no directory, and `result`.
mirrors src/pylauncher/deletedir.c:74-81 -/
def deleteEntry (p : Path) (m : Machine) : Nat × Machine :=
  let set := setFileAttributes o p m
  let result := if set.1 then 0 else set.2.lastError
  let deleted := deleteFile o p set.2
  (if deleted.1 then result else deleted.2.lastError, deleted.2)

/-- `cFileName[0] == '.'` -/
def dotted (name : Str) : Bool := name.head? == some '.'

/-- One round of the loop. `rec` is the recursive call; none: out of fuel.
mirrors src/pylauncher/deletedir.c:61-88 -/
def visit (rec : Path → Machine → Option Nat × Machine) (p : Path) (e : Str × Bool) (m : Machine) :
    Option Nat × Machine :=
  if dotted e.1 then (some 0, m)
  else if o.filePath (p ++ [e.1]) = false then (some notEnoughMemory, m)
  else if e.2 then rec (p ++ [e.1]) m
  else (some (deleteEntry o (p ++ [e.1]) m).1, (deleteEntry o (p ++ [e.1]) m).2)

/-- `do .. while(FindNextFile(..))`: whether and what it returns inside, and
the state. `k` counts the calls of `FindNextFile`.
mirrors src/pylauncher/deletedir.c:60-90 -/
def loop (rec : Path → Machine → Option Nat × Machine) (p : Path) :
    List (Str × Bool) → Nat → Machine → Option (Option Nat) × Machine
  | [], _, m => (none, m)
  | e :: rest, k, m =>
    let v := visit o rec p e m
    if v.1 ≠ some 0 then (some v.1, findClose o p v.2)
    else
      let m := v.2.log "FindNextFile" p
      match o.findNextFile p k with
      | some f => (none, m.fail f)
      | none =>
        if rest = [] then (none, { m with lastError := noMoreFiles })
        else loop rec p rest (k + 1) m

/-- What the enumeration of a directory delivers. -/
def listing (m : Machine) (p : Path) : List (Str × Bool) :=
  (['.'], true) :: (['.', '.'], true) :: m.entries.children p

/-- Behind the loop.
mirrors src/pylauncher/deletedir.c:91-107 -/
def removeRoot (p : Path) (m : Machine) : Nat × Machine :=
  let m := findClose o p m
  if m.lastError ≠ noMoreFiles then (m.lastError, m)
  else
    let set := setFileAttributes o p m
    if set.1 = false then (set.2.lastError, set.2)
    else
      let removed := removeDirectory o p set.2
      if removed.1 = false then (removed.2.lastError, removed.2) else (0, removed.2)

/-- `_delete_directory`; none: out of fuel.
mirrors src/pylauncher/deletedir.c:45-108 -/
def deleteDir : Nat → Path → Machine → Option Nat × Machine
  | 0, _, m => (none, m)
  | n + 1, p, m =>
    if o.pattern p = false then (some notEnoughMemory, m)
    else
      let m := m.log "FindFirstFile" p
      match if (p, true) ∈ m.entries then o.findFirstFile p else some pathNotFound with
      | some f => (some 0, m.fail f)
      | none =>
        let l := loop o (deleteDir n) p (listing m p) 0 m
        match l.1 with
        | some r => (r, l.2)
        | none => (some (removeRoot o p l.2).1, (removeRoot o p l.2).2)

/-- The length of the longest path. -/
def depth (d : Disk Str) : Nat := d.foldr (fun e n => max e.1.length n) 0

/-- No result: the buffer for the absolute path has not been filled, and
nothing is known about what follows.
mirrors src/pylauncher/deletedir.c:33-43 -/
def deleteDirectory (p : Path) (d : Disk Str) : Option Nat × Machine :=
  match o.fullPath with
  | .zero => (some 1, ⟨d, 0, []⟩)
  | .tooLong => (none, ⟨d, 0, []⟩)
  | .fits => deleteDir o (depth d + 1) p ⟨d, 0, []⟩

/-! ## What is touched -/

/-- From `m` to `m'` only entries with paths in `S` have gone, and only paths
at `p` or below it have been passed to a call. -/
structure Within (S : Path → Prop) (p : Path) (m m' : Machine) : Prop where
  sub : m'.entries.Sublist m.entries
  same : ∀ e ∈ m.entries, ¬ S e.1 → e ∈ m'.entries
  calls : ∃ t, m'.calls = m.calls ++ t ∧ ∀ c ∈ t, p <+: c.path

/-- The paths at `p` or below it. -/
def AtOrBelow (p q : Path) : Prop := p <+: q

/-- The paths below `p`. -/
def Below (p q : Path) : Prop := ∃ n, p ++ [n] <+: q

theorem Below.atOrBelow {p q : Path} (h : Below p q) : AtOrBelow p q := by
  obtain ⟨n, hn⟩ := h
  exact Disk.prefix_of_child hn

theorem Below.mono {p q x : Path} (hp : p <+: q) (h : Below q x) : Below p x := by
  obtain ⟨s, rfl⟩ := hp
  obtain ⟨n, t, rfl⟩ := h
  cases s with
  | nil => exact ⟨n, t, by simp⟩
  | cons c s => exact ⟨c, s ++ [n] ++ t, by simp⟩

theorem not_below_self (p : Path) : ¬ Below p p := by
  intro hboth
  obtain ⟨n, hn⟩ := hboth
  exact Disk.child_not_above p n hn

section
variable {o} {S S' : Path → Prop} {p q : Path} {m m' m'' : Machine}

theorem Within.refl : Within S p m m :=
  ⟨List.Sublist.refl _, fun _ he _ => he, [], by simp, by simp⟩

theorem Within.trans (h : Within S p m m') (h' : Within S p m' m'') : Within S p m m'' := by
  obtain ⟨t, ht, hpath⟩ := h.calls
  obtain ⟨t', ht', hpath'⟩ := h'.calls
  refine ⟨h'.sub.trans h.sub, fun e he hS => h'.same e (h.same e he hS) hS, t ++ t', ?_, ?_⟩
  · rw [ht', ht, List.append_assoc]
  · intro c hc
    rcases List.mem_append.1 hc with hc | hc
    · exact hpath c hc
    · exact hpath' c hc

theorem Within.mono (hS : ∀ x, S x → S' x) (hp : p <+: q) (h : Within S q m m') :
    Within S' p m m' := by
  obtain ⟨t, ht, hpath⟩ := h.calls
  exact ⟨h.sub, fun e he hn => h.same e he fun hx => hn (hS _ hx), t, ht,
    fun c hc => hp.trans (hpath c hc)⟩

theorem within_log (name : String) : Within S p m (m.log name p) :=
  ⟨List.Sublist.refl _, fun _ he _ => he, _, rfl, by simp⟩

theorem within_lastError (code : Nat) : Within S p m { m with lastError := code } :=
  ⟨List.Sublist.refl _, fun _ he _ => he, [], by simp, by simp⟩

theorem within_fail (f : Failure) : Within S p m (m.fail f) := within_lastError f.code

theorem within_attempt (r : Option Failure) : Within S p m (attempt r m).2 := by
  cases r with
  | none => exact .refl
  | some f => exact within_fail f

theorem within_setFileAttributes : Within S p m (setFileAttributes o p m).2 :=
  (within_log _).trans (within_attempt _)

theorem within_findClose : Within S p m (findClose o p m) :=
  (within_log _).trans (within_attempt _)

theorem within_erase (r : Option Failure) (hp : S p) : Within S p m (erase r p m).2 := by
  cases r with
  | none =>
    refine ⟨Disk.remove_sublist _ _, fun e he hS => Disk.mem_remove.2 ⟨he, ?_⟩, [], by simp [erase],
      by simp⟩
    rintro rfl
    exact hS hp
  | some f => exact within_fail f

theorem within_deleteFile (hp : S p) : Within S p m (deleteFile o p m).2 :=
  (within_log _).trans (within_erase _ hp)

theorem within_removeDirectory (hp : S p) : Within S p m (removeDirectory o p m).2 :=
  (within_log _).trans (within_erase _ hp)

theorem within_deleteEntry (hp : S p) : Within S p m (deleteEntry o p m).2 :=
  within_setFileAttributes.trans (within_deleteFile hp)

theorem within_removeRoot (hp : S p) : Within S p m (removeRoot o p m).2 := by
  unfold removeRoot
  dsimp only
  split
  · exact within_findClose
  · split
    · exact within_findClose.trans within_setFileAttributes
    · split
      · exact within_findClose.trans (within_setFileAttributes.trans (within_removeDirectory hp))
      · exact within_findClose.trans (within_setFileAttributes.trans (within_removeDirectory hp))

variable {rec : Path → Machine → Option Nat × Machine}

/-- A round concerns its own entry only. -/
theorem within_visit (hrec : ∀ q m, Within (AtOrBelow q) q m (rec q m).2) (e : Str × Bool) :
    Within (AtOrBelow (p ++ [e.1])) (p ++ [e.1]) m (visit o rec p e m).2 := by
  unfold visit
  split
  · exact .refl
  · split
    · exact .refl
    · split
      · exact hrec _ _
      · exact within_deleteEntry List.prefix_rfl

theorem visit_dotted {e : Str × Bool} (h : dotted e.1 = true) : visit o rec p e m = (some 0, m) := by
  rw [visit, if_pos h]

/-- The entries that the loop may touch. -/
def Listed (p : Path) (l : List (Str × Bool)) (q : Path) : Prop :=
  ∃ e ∈ l, dotted e.1 = false ∧ p ++ [e.1] <+: q

theorem loop_listed (hrec : ∀ q m, Within (AtOrBelow q) q m (rec q m).2) (l : List (Str × Bool))
    (k : Nat) : Within (Listed p l) p m (loop o rec p l k m).2 := by
  induction l generalizing k m with
  | nil => exact .refl
  | cons e rest ih =>
    have hvisit : Within (Listed p (e :: rest)) p m (visit o rec p e m).2 := by
      by_cases hdot : dotted e.1 = true
      · rw [visit_dotted hdot]
        exact .refl
      · exact (within_visit hrec e).mono (fun x hx => ⟨e, by simp, by simpa using hdot, hx⟩)
          (List.prefix_append _ _)
    unfold loop
    dsimp only
    split
    · exact hvisit.trans within_findClose
    · have hnext := hvisit.trans (within_log "FindNextFile")
      split
      · exact hnext.trans (within_fail _)
      · split
        · exact hnext.trans (within_lastError _)
        · refine hnext.trans ((ih (k + 1)).mono (fun x hx => ?_) List.prefix_rfl)
          obtain ⟨e', he', hlisted⟩ := hx
          exact ⟨e', List.mem_cons_of_mem e he', hlisted⟩

theorem within_loop (hrec : ∀ q m, Within (AtOrBelow q) q m (rec q m).2) (l : List (Str × Bool))
    (k : Nat) : Within (Below p) p m (loop o rec p l k m).2 := by
  refine (loop_listed hrec l k).mono (fun x hx => ?_) List.prefix_rfl
  obtain ⟨e, -, -, hpre⟩ := hx
  exact ⟨e.1, hpre⟩

theorem deleteDir_within (n : Nat) (p : Path) (m : Machine) :
    Within (AtOrBelow p) p m (deleteDir o n p m).2 := by
  induction n generalizing p m with
  | zero => exact .refl
  | succ n ih =>
    unfold deleteDir
    split
    · exact .refl
    · dsimp only
      have hlog : Within (AtOrBelow p) p m (m.log "FindFirstFile" p) := within_log _
      split
      · exact hlog.trans (within_fail _)
      · have hloop := hlog.trans ((within_loop (o := o) ih (listing (m.log "FindFirstFile" p) p) 0).mono
          (fun _ => Below.atOrBelow) List.prefix_rfl)
        split
        · exact hloop
        · exact hloop.trans (within_removeRoot List.prefix_rfl)

/-! ## The recursion ends -/

theorem length_le_depth {d : Disk Str} {e : Path × Bool} (he : e ∈ d) : e.1.length ≤ depth d := by
  induction d with
  | nil => cases he
  | cons x d ih =>
    rw [depth, List.foldr_cons]
    rcases List.mem_cons.1 he with rfl | he
    · exact Nat.le_max_left _ _
    · exact Nat.le_trans (ih he) (Nat.le_max_right _ _)

theorem loop_returns {d : Disk Str} {l : List (Str × Bool)} {k : Nat}
    (hwithin : ∀ q m, Within (AtOrBelow q) q m (rec q m).2)
    (hrec : ∀ e ∈ l, dotted e.1 = false → ∀ m : Machine, m.entries.Sublist d →
      (rec (p ++ [e.1]) m).1 ≠ none)
    (hsub : m.entries.Sublist d) : (loop o rec p l k m).1 ≠ some none := by
  induction l generalizing k m with
  | nil => simp [loop]
  | cons e rest ih =>
    have hvisit : (visit o rec p e m).1 ≠ none := by
      unfold visit
      split
      · simp
      · rename_i hdot
        split
        · simp
        · split
          · exact hrec e (by simp) (by simpa using hdot) m hsub
          · simp
    unfold loop
    dsimp only
    split
    · simpa using hvisit
    · split
      · simp
      · split
        · simp
        · exact ih (fun e he => hrec e (List.mem_cons_of_mem _ he))
            ((within_visit hwithin e).sub.trans hsub)

/-- What the listing holds besides `.` and `..`. -/
theorem mem_listing {e : Str × Bool} (he : e ∈ listing m p) (hdot : dotted e.1 = false) :
    e ∈ m.entries.children p := by
  rcases List.mem_cons.1 he with rfl | he
  · cases hdot
  · rcases List.mem_cons.1 he with rfl | he
    · cases hdot
    · exact he

/-- Enough fuel: the recursion goes no deeper than the longest path. -/
theorem deleteDir_returns {n : Nat} (hn : 0 < n)
    (h : ∀ e ∈ m.entries, p <+: e.1 → e.1.length < p.length + n) : (deleteDir o n p m).1 ≠ none := by
  induction n generalizing p m with
  | zero => omega
  | succ n ih =>
    unfold deleteDir
    split
    · simp
    · dsimp only
      split
      · simp
      · have hloop : (loop o (deleteDir o n) p (listing (m.log "FindFirstFile" p) p) 0
            (m.log "FindFirstFile" p)).1 ≠ some none := by
          refine loop_returns (d := m.entries) (deleteDir_within n) (fun e he hdot m' hsub => ?_)
            (List.Sublist.refl _)
          have hchild : (p ++ [e.1], e.2) ∈ m.entries := Disk.mem_children.1 (mem_listing he hdot)
          have hlen := h _ hchild (List.prefix_append _ _)
          simp only [List.length_append, List.length_singleton] at hlen
          refine ih (by omega) fun x hx hpx => ?_
          have := h x (hsub.subset hx) (Disk.prefix_of_child hpx)
          simp only [List.length_append, List.length_singleton]
          omega
        split
        · rename_i r hr
          intro hnone
          dsimp only at hnone
          rw [hr, hnone] at hloop
          exact hloop rfl
        · simp

/-! ## What 0 means -/

theorem attempt_lastError (r : Option Failure) (h : m.lastError ≠ 0) :
    (attempt r m).2.lastError ≠ 0 := by
  cases r with
  | none => exact h
  | some f => exact f.code_ne

theorem attempt_false {r : Option Failure} (h : (attempt r m).1 = false) :
    (attempt r m).2.lastError ≠ 0 := by
  cases r with
  | none => cases h
  | some f => exact f.code_ne

theorem erase_false {r : Option Failure} (h : (erase r p m).1 = false) :
    (erase r p m).2.lastError ≠ 0 := by
  cases r with
  | none => cases h
  | some f => exact f.code_ne

theorem erase_true {r : Option Failure} (h : (erase r p m).1 = true) :
    ∀ e ∈ (erase r p m).2.entries, e.1 ≠ p := by
  cases r with
  | none => exact fun e he => (Disk.mem_remove.1 he).2
  | some f => cases h

/-- Behind the loop an error is pending or the enumeration is at its end. -/
theorem loop_lastError {l : List (Str × Bool)} {k : Nat} (hl : l ≠ [])
    (h : (loop o rec p l k m).1 = none) : (loop o rec p l k m).2.lastError ≠ 0 := by
  induction l generalizing k m with
  | nil => exact absurd rfl hl
  | cons e rest ih =>
    revert h
    unfold loop
    dsimp only
    split
    · simp
    · split
      · rename_i f _
        exact fun _ => f.code_ne
      · split
        · simp [noMoreFiles]
        · rename_i hrest
          exact ih hrest

/-- What is returned from inside the loop is an error. -/
theorem loop_some {l : List (Str × Bool)} {k : Nat} {r : Option Nat}
    (h : (loop o rec p l k m).1 = some r) : r ≠ some 0 := by
  induction l generalizing k m with
  | nil => cases h
  | cons e rest ih =>
    revert h
    unfold loop
    dsimp only
    split
    · rename_i hv
      intro h
      rw [← Option.some.inj h]
      exact hv
    · split
      · simp
      · split
        · simp
        · exact ih

theorem removeRoot_zero (h : (removeRoot o p m).1 = 0) (hm : m.lastError ≠ 0) :
    ∀ e ∈ (removeRoot o p m).2.entries, e.1 ≠ p := by
  have hclose : (findClose o p m).lastError ≠ 0 := attempt_lastError _ hm
  revert h
  unfold removeRoot
  dsimp only
  split
  · exact fun h => absurd h hclose
  · split
    · rename_i hset
      exact fun h => absurd h (attempt_false hset)
    · split
      · rename_i hremove
        exact fun h => absurd h (erase_false hremove)
      · rename_i hremove
        have hok : (removeDirectory o p (setFileAttributes o p (findClose o p m)).2).1 = true := by
          simpa using hremove
        exact fun _ => erase_true hok

/-- `FindFirstFile` on the directory is reached and fails. -/
def Outcomes.NotOpened (o : Outcomes) (p : Path) : Prop :=
  o.pattern p = true ∧ o.findFirstFile p ≠ none

theorem deleteDir_zero {n : Nat} (hroot : (p, true) ∈ m.entries) (hopen : ¬ o.NotOpened p)
    (h : (deleteDir o n p m).1 = some 0) : ∀ e ∈ (deleteDir o n p m).2.entries, e.1 ≠ p := by
  cases n with
  | zero => cases h
  | succ n =>
    revert h
    unfold deleteDir
    split
    · exact fun h => absurd (Option.some.inj h) (by decide)
    · rename_i hpattern
      have hfirst : o.findFirstFile p = none := by
        by_contra hne
        exact hopen ⟨by simpa using hpattern, hne⟩
      have hroot' : (p, true) ∈ (m.log "FindFirstFile" p).entries := hroot
      simp only [hroot', if_true, hfirst]
      split
      · rename_i r hr
        exact fun h => absurd h (loop_some hr)
      · rename_i hended
        exact fun h => removeRoot_zero (Option.some.inj h) (loop_lastError (by simp [listing]) hended)

/-! ## When everything goes -/

/-- The three calls that change an entry succeed on the tree at `p`. -/
structure Outcomes.Deletes (o : Outcomes) (d : Disk Str) (p : Path) : Prop where
  set : ∀ q k, (q, k) ∈ d → p <+: q → o.setFileAttributes q = none
  file : ∀ q, (q, false) ∈ d → p <+: q → o.deleteFile q = none
  directory : ∀ q, (q, true) ∈ d → p <+: q → o.removeDirectory q = none

/-- So do the calls that enumerate the tree at `p`, as often as they are made. -/
structure Outcomes.Enumerates (o : Outcomes) (d : Disk Str) (p : Path) : Prop where
  pattern : ∀ q, (q, true) ∈ d → p <+: q → o.pattern q = true
  filePath : ∀ q k, (q, k) ∈ d → Below p q → o.filePath q = true
  findFirstFile : ∀ q, (q, true) ∈ d → p <+: q → o.findFirstFile q = none
  findNextFile : ∀ q, (q, true) ∈ d → p <+: q → ∀ k < (d.children q).length + 2,
    o.findNextFile q k = none
  findClose : ∀ q, (q, true) ∈ d → p <+: q → o.findClose q = none

/-- No name below `p` begins with a dot. -/
def NoDots (d : Disk Str) (p : Path) : Prop :=
  ∀ q n k, p <+: q → (q ++ [n], k) ∈ d → dotted n = false

/-- Nothing is left of the tree at `p`. -/
def Gone (d : Disk Str) (p : Path) : Prop := ∀ e ∈ d, ¬ p <+: e.1

theorem Outcomes.Deletes.mono {d d' : Disk Str} (h : o.Deletes d p) (hd : d'.Sublist d)
    (hp : p <+: q) : o.Deletes d' q :=
  ⟨fun x k hx hq => h.set x k (hd.subset hx) (hp.trans hq),
    fun x hx hq => h.file x (hd.subset hx) (hp.trans hq),
    fun x hx hq => h.directory x (hd.subset hx) (hp.trans hq)⟩

theorem Outcomes.Enumerates.mono {d d' : Disk Str} (h : o.Enumerates d p) (hd : d'.Sublist d)
    (hp : p <+: q) : o.Enumerates d' q := by
  refine ⟨fun x hx hq => h.pattern x (hd.subset hx) (hp.trans hq),
    fun x k hx hq => h.filePath x k (hd.subset hx) (hq.mono hp),
    fun x hx hq => h.findFirstFile x (hd.subset hx) (hp.trans hq), fun x hx hq k hk => ?_,
    fun x hx hq => h.findClose x (hd.subset hx) (hp.trans hq)⟩
  have hle := (Disk.children_sublist hd x).length_le
  exact h.findNextFile x (hd.subset hx) (hp.trans hq) k (by omega)

theorem NoDots.mono {d d' : Disk Str} (h : NoDots d p) (hd : d'.Sublist d) (hp : p <+: q) :
    NoDots d' q :=
  fun x m k hx he => h x m k (hp.trans hx) (hd.subset he)

theorem deleteEntry_all (hset : o.setFileAttributes p = none) (hfile : o.deleteFile p = none) :
    (deleteEntry o p m).1 = 0 ∧ (deleteEntry o p m).2.entries = m.entries.remove p := by
  simp [deleteEntry, setFileAttributes, deleteFile, attempt, erase, hset, hfile, Machine.log]

/-- One round in which every call succeeds. -/
theorem visit_all {e : Str × Bool} (hdot : dotted e.1 = false)
    (htree : Disk.TreeAt m.entries p) (hmem : e ∈ m.entries.children p)
    (hdel : o.Deletes m.entries p) (henum : o.Enumerates m.entries p)
    (hrec : e.2 = true → (rec (p ++ [e.1]) m).1 = some 0 ∧
      Gone (rec (p ++ [e.1]) m).2.entries (p ++ [e.1])) :
    (visit o rec p e m).1 = some 0 ∧ Gone (visit o rec p e m).2.entries (p ++ [e.1]) := by
  have hentry : (p ++ [e.1], e.2) ∈ m.entries := Disk.mem_children.1 hmem
  have hpre : p <+: p ++ [e.1] := List.prefix_append _ _
  have hpath := henum.filePath _ _ hentry ⟨e.1, List.prefix_rfl⟩
  unfold visit
  rw [if_neg (by simp [hdot]), if_neg (by simp [hpath])]
  by_cases hkind : e.2 = true
  · rw [if_pos hkind]
    exact hrec hkind
  · rw [if_neg hkind]
    have hfalse : e.2 = false := by simpa using hkind
    rw [hfalse] at hentry
    obtain ⟨hzero, hentries⟩ := deleteEntry_all (m := m) (hdel.set _ _ hentry hpre)
      (hdel.file _ hentry hpre)
    refine ⟨by rw [hzero], fun x hx hpx => ?_⟩
    rw [hentries, Disk.mem_remove] at hx
    exact hx.2 (htree.eq_of_file hpre hentry hx.1 hpx)

theorem Gone.sub {d d' : Disk Str} (h : Gone d p) (hd : d'.Sublist d) : Gone d' p :=
  fun e he => h e (hd.subset he)

/-- A child that is not visited stays. -/
theorem children_of_within {n : Str} (h : Within (AtOrBelow (p ++ [n])) (p ++ [n]) m m')
    {e : Str × Bool} (hne : n ≠ e.1) (he : e ∈ m.entries.children p) : e ∈ m'.entries.children p :=
  Disk.mem_children.2 (h.same _ (Disk.mem_children.1 he) fun hn =>
    hne (Disk.child_inj hn List.prefix_rfl))

/-- The loop, when every call succeeds and no name but the first two begins
with a dot. -/
theorem loop_all {d : Disk Str} {l : List (Str × Bool)} {k : Nat} (hl : l ≠ [])
    (hwithin : ∀ q m, Within (AtOrBelow q) q m (rec q m).2)
    (hnodup : (l.map Prod.fst).Nodup) (hdel : o.Deletes d p) (henum : o.Enumerates d p)
    (hnext : ∀ j, k ≤ j → j < k + l.length → o.findNextFile p j = none)
    (hrec : ∀ n, ∀ m : Machine, m.entries.Sublist d → Disk.TreeAt m.entries (p ++ [n]) →
      (rec (p ++ [n]) m).1 = some 0 ∧ Gone (rec (p ++ [n]) m).2.entries (p ++ [n]))
    (hsub : m.entries.Sublist d)
    (htree : ∀ e ∈ l, dotted e.1 = false → e ∈ m.entries.children p)
    (hroot : Disk.TreeAt m.entries p) :
    (loop o rec p l k m).1 = none ∧ (loop o rec p l k m).2.lastError = noMoreFiles ∧
    ∀ e ∈ l, dotted e.1 = false → Gone (loop o rec p l k m).2.entries (p ++ [e.1]) := by
  induction l generalizing k m with
  | nil => exact absurd rfl hl
  | cons e rest ih =>
    obtain ⟨hnotin, hnodup⟩ := List.nodup_cons.1 hnodup
    have hvisit : (visit o rec p e m).1 = some 0 ∧
        (dotted e.1 = false → Gone (visit o rec p e m).2.entries (p ++ [e.1])) := by
      by_cases hdot : dotted e.1 = true
      · rw [visit_dotted hdot]
        exact ⟨rfl, fun h => absurd hdot (by simp [h])⟩
      · have hdot : dotted e.1 = false := by simpa using hdot
        have hmem := htree e (by simp) hdot
        have hall := visit_all hdot hroot hmem (hdel.mono hsub List.prefix_rfl)
          (henum.mono hsub List.prefix_rfl) fun hkind => hrec e.1 m hsub (hroot.child (hkind ▸ hmem))
        exact ⟨hall.1, fun _ => hall.2⟩
    have hframe := within_visit (o := o) (p := p) (m := m) hwithin e
    have hfirst : o.findNextFile p k = none := hnext k (Nat.le_refl k) (by simp)
    have hloop : loop o rec p (e :: rest) k m =
        if rest = [] then (none, { (visit o rec p e m).2.log "FindNextFile" p with
          lastError := noMoreFiles })
        else loop o rec p rest (k + 1) ((visit o rec p e m).2.log "FindNextFile" p) := by
      conv => lhs; unfold loop
      simp only [hvisit.1, ne_eq, not_true_eq_false, if_false, hfirst]
    rw [hloop]
    by_cases hrest : rest = []
    · rw [if_pos hrest]
      refine ⟨rfl, rfl, fun x hx hdot => ?_⟩
      rw [hrest, List.mem_singleton] at hx
      rw [hx] at hdot ⊢
      exact hvisit.2 hdot
    · rw [if_neg hrest]
      have hsub' : (visit o rec p e m).2.entries.Sublist d := hframe.sub.trans hsub
      have hroot' : Disk.TreeAt (visit o rec p e m).2.entries p := by
        by_cases hdot : dotted e.1 = true
        · rw [visit_dotted hdot]
          exact hroot
        · exact hroot.of_gone hframe.sub hframe.same (hvisit.2 (by simpa using hdot))
      obtain ⟨hnone, herror, hgone⟩ := ih (k := k + 1) hrest hnodup
        (m := (visit o rec p e m).2.log "FindNextFile" p)
        (fun j hj hlt => hnext j (by omega) (by rw [List.length_cons]; omega)) hsub'
        (fun x hx hdot => children_of_within hframe
          (fun heq => hnotin (heq ▸ List.mem_map_of_mem hx)) (htree x (by simp [hx]) hdot)) hroot'
      refine ⟨hnone, herror, fun x hx hdot => ?_⟩
      rcases List.mem_cons.1 hx with rfl | hx
      · exact (hvisit.2 hdot).sub (within_loop hwithin rest (k + 1)).sub
      · exact hgone x hx hdot

theorem listing_nodup (htree : Disk.TreeAt m.entries p)
    (hdots : ∀ e ∈ m.entries.children p, dotted e.1 = false) :
    ((listing m p).map Prod.fst).Nodup := by
  have hnames : ∀ n, dotted n = true → n ∉ (m.entries.children p).map Prod.fst := by
    intro n hn hmem
    obtain ⟨e, he, rfl⟩ := List.mem_map.1 hmem
    rw [hdots e he] at hn
    cases hn
  simp only [listing, List.map_cons, List.nodup_cons, List.mem_cons, not_or]
  exact ⟨⟨by simp, hnames _ rfl⟩, hnames _ rfl, htree.nodup_children p⟩

theorem removeRoot_all (hclose : o.findClose p = none) (hset : o.setFileAttributes p = none)
    (hdir : o.removeDirectory p = none) (hmore : m.lastError = noMoreFiles)
    (hempty : m.entries.children p = []) :
    (removeRoot o p m).1 = 0 ∧ (removeRoot o p m).2.entries = m.entries.remove p := by
  simp [removeRoot, findClose, setFileAttributes, removeDirectory, attempt, erase, hclose, hset, hdir,
    hmore, hempty, Machine.log]

theorem deleteDir_all {n : Nat} (hn : ∀ e ∈ m.entries, p <+: e.1 → e.1.length < p.length + n)
    (htree : Disk.TreeAt m.entries p) (hdel : o.Deletes m.entries p)
    (henum : o.Enumerates m.entries p) (hdots : NoDots m.entries p) :
    (deleteDir o n p m).1 = some 0 ∧ Gone (deleteDir o n p m).2.entries p := by
  induction n generalizing p m with
  | zero => exact absurd (hn _ htree.root List.prefix_rfl) (Nat.lt_irrefl _)
  | succ n ih =>
    have hroot := htree.root
    have hlevel : ∀ e ∈ m.entries.children p, dotted e.1 = false := fun e he =>
      hdots p e.1 e.2 List.prefix_rfl (Disk.mem_children.1 he)
    have hloop := loop_all (o := o) (p := p) (k := 0) (d := m.entries)
      (m := m.log "FindFirstFile" p) (by simp [listing]) (deleteDir_within n)
      (listing_nodup htree hlevel) hdel henum
      (fun j _ hj => henum.findNextFile p hroot List.prefix_rfl j (by simp [listing] at hj; omega))
      (fun c m' hsub htree' => by
        have hpre : p <+: p ++ [c] := List.prefix_append _ _
        refine ih (fun e he hc => ?_) htree' (hdel.mono hsub hpre) (henum.mono hsub hpre)
          (hdots.mono hsub hpre)
        have := hn e (hsub.subset he) (hpre.trans hc)
        simp only [List.length_append, List.length_singleton]
        omega)
      (List.Sublist.refl _) (fun e => mem_listing) htree
    have hsub := (within_loop (o := o) (p := p) (m := m.log "FindFirstFile" p)
      (deleteDir_within (o := o) n) (listing m p) 0).sub
    generalize hl : loop o (deleteDir o n) p (listing m p) 0 (m.log "FindFirstFile" p) = l at hloop hsub
    obtain ⟨hnone, herror, hgone⟩ := hloop
    have hbelow : ∀ e ∈ l.2.entries, p <+: e.1 → e.1 = p := by
      intro e he hpe
      by_contra hne
      obtain ⟨c, k, hc, hce⟩ := htree.exists_child List.prefix_rfl (hsub.subset he) hpe hne
      exact hgone (c, k) (by simp [listing, hc]) (hlevel _ hc) e he hce
    have hempty : l.2.entries.children p = [] := by
      rw [List.eq_nil_iff_forall_not_mem]
      intro x hx
      have hself := hbelow _ (Disk.mem_children.1 hx) (List.prefix_append _ _)
      simp at hself
    have hself : p <+: p := List.prefix_rfl
    obtain ⟨hzero, hentries⟩ := removeRoot_all (henum.findClose p hroot hself)
      (hdel.set p true hroot hself) (hdel.directory p hroot hself) herror hempty
    have hrun : deleteDir o (n + 1) p m = (some (removeRoot o p l.2).1, (removeRoot o p l.2).2) := by
      have hroot' : (p, true) ∈ (m.log "FindFirstFile" p).entries := hroot
      have hlist : listing (m.log "FindFirstFile" p) p = listing m p := rfl
      unfold deleteDir
      simp only [henum.pattern p hroot hself, Bool.true_eq_false, if_false, hroot', if_true,
        henum.findFirstFile p hroot hself, hlist, hl, hnone]
    rw [hrun]
    refine ⟨by rw [hzero], fun e he hpe => ?_⟩
    rw [hentries, Disk.mem_remove] at he
    exact he.2 (hbelow e he.1 hpe)

/-! ## When something stays -/

theorem Outcomes.Enumerates.of_agree {d d' : Disk Str} (h : o.Enumerates d' q)
    (htree : Disk.TreeAt d p) (hagree : ∀ e ∈ d, q <+: e.1 → e ∈ d') : o.Enumerates d q := by
  refine ⟨fun x hx hq => h.pattern x (hagree _ hx hq) hq,
    fun x k hx hq => h.filePath x k (hagree _ hx hq.atOrBelow) hq,
    fun x hx hq => h.findFirstFile x (hagree _ hx hq) hq, fun x hx hq k hk => ?_,
    fun x hx hq => h.findClose x (hagree _ hx hq) hq⟩
  have hle : (d.children x).length ≤ (d'.children x).length :=
    htree.length_children_le fun e he hxe => hagree e he (hq.trans hxe)
  exact h.findNextFile x (hagree _ hx hq) hq k (by omega)

theorem NoDots.of_agree {d d' : Disk Str} (h : NoDots d' q) (hagree : ∀ e ∈ d, q <+: e.1 → e ∈ d') :
    NoDots d q :=
  fun x n k hx he => h x n k hx (hagree _ he (hx.trans (List.prefix_append x [n])))

/-- If the root is gone, every call behind the loop has succeeded. -/
theorem removeRoot_gone (hroot : (p, true) ∈ m.entries)
    (hgone : ∀ e ∈ (removeRoot o p m).2.entries, e.1 ≠ p) :
    o.findClose p = none ∧ m.lastError = noMoreFiles ∧ m.entries.children p = [] ∧
      (removeRoot o p m).2.entries = m.entries.remove p := by
  have hstay : (removeRoot o p m).2.entries ≠ m.entries := by
    intro h
    rw [h] at hgone
    exact hgone _ hroot rfl
  cases hclose : o.findClose p with
  | some f =>
    simp [removeRoot, findClose, attempt, hclose, Machine.fail, Machine.log, f.more, noMoreFiles]
      at hstay
  | none =>
    by_cases hmore : m.lastError = noMoreFiles
    · cases hset : o.setFileAttributes p with
      | some f =>
        simp [removeRoot, findClose, setFileAttributes, attempt, hclose, hset, hmore, Machine.fail,
          Machine.log] at hstay
      | none =>
        by_cases hempty : m.entries.children p = []
        · cases hdir : o.removeDirectory p with
          | some f =>
            simp [removeRoot, findClose, setFileAttributes, removeDirectory, attempt, erase, hclose,
              hset, hmore, hempty, hdir, Machine.fail, Machine.log] at hstay
          | none => exact ⟨rfl, hmore, hempty, (removeRoot_all hclose hset hdir hmore hempty).2⟩
        · simp [removeRoot, findClose, setFileAttributes, removeDirectory, attempt, erase, hclose,
            hset, hmore, hempty, Machine.fail, Machine.log] at hstay
    · simp [removeRoot, findClose, attempt, hclose, hmore, Machine.log] at hstay

/-- A round that went on had its path and, in a directory, ran the recursive call. -/
theorem visit_zero {e : Str × Bool} (hdot : dotted e.1 = false)
    (h : (visit o rec p e m).1 = some 0) :
    o.filePath (p ++ [e.1]) = true ∧
      (e.2 = true → (visit o rec p e m).2 = (rec (p ++ [e.1]) m).2) := by
  unfold visit at h ⊢
  rw [if_neg (by simp [hdot])] at h ⊢
  cases hpath : o.filePath (p ++ [e.1]) with
  | false =>
    rw [hpath, if_pos rfl] at h
    exact absurd (Option.some.inj h) (by decide)
  | true =>
    refine ⟨rfl, fun hkind => ?_⟩
    rw [if_neg (by simp), if_pos hkind]

/-- The first round of a loop that reached the end of the enumeration. -/
theorem loop_cons {e : Str × Bool} {rest : List (Str × Bool)} {k : Nat}
    (hnone : (loop o rec p (e :: rest) k m).1 = none)
    (hmore : (loop o rec p (e :: rest) k m).2.lastError = noMoreFiles) :
    (visit o rec p e m).1 = some 0 ∧ o.findNextFile p k = none ∧
    ((rest = [] ∧ (loop o rec p (e :: rest) k m).2.entries = (visit o rec p e m).2.entries) ∨
      (rest ≠ [] ∧ loop o rec p (e :: rest) k m =
        loop o rec p rest (k + 1) ((visit o rec p e m).2.log "FindNextFile" p))) := by
  revert hnone hmore
  rw [loop]
  dsimp only
  split
  · simp
  · rename_i hv
    split
    · rename_i f _
      exact fun _ h => absurd h f.more
    · rename_i hnext
      split
      · rename_i hrest
        exact fun _ _ => ⟨by simpa using hv, hnext, .inl ⟨hrest, rfl⟩⟩
      · rename_i hrest
        exact fun _ _ => ⟨by simpa using hv, hnext, .inr ⟨hrest, rfl⟩⟩

/-- The loop, when nothing is left below the directory. -/
theorem loop_gone {l : List (Str × Bool)} {k : Nat}
    (hwithin : ∀ q m, Within (AtOrBelow q) q m (rec q m).2)
    (hrec : ∀ q m, Disk.TreeAt m.entries q → Gone (rec q m).2.entries q →
      o.Enumerates m.entries q ∧ NoDots m.entries q)
    (hnodup : (l.map Prod.fst).Nodup) (htree : Disk.TreeAt m.entries p)
    (hmem : ∀ e ∈ l, dotted e.1 = false → e ∈ m.entries.children p)
    (hnone : (loop o rec p l k m).1 = none)
    (hmore : (loop o rec p l k m).2.lastError = noMoreFiles)
    (hgone : ∀ x ∈ (loop o rec p l k m).2.entries, p <+: x.1 → x.1 = p) :
    (∀ j, k ≤ j → j < k + l.length → o.findNextFile p j = none) ∧
    ∀ e ∈ l, dotted e.1 = false → o.filePath (p ++ [e.1]) = true ∧
      (e.2 = true → o.Enumerates m.entries (p ++ [e.1]) ∧ NoDots m.entries (p ++ [e.1])) := by
  induction l generalizing k m with
  | nil => exact ⟨fun j hj hlt => by simp at hlt; omega, by simp⟩
  | cons e rest ih =>
    obtain ⟨hnotin, hnodup⟩ := List.nodup_cons.1 hnodup
    obtain ⟨hvisit, hnext, hrest⟩ := loop_cons hnone hmore
    have hframe := within_visit (o := o) (p := p) (m := m) hwithin e
    have hother : ∀ x ∈ rest, e.1 ≠ x.1 := fun x hx heq => hnotin (heq ▸ List.mem_map_of_mem hx)
    -- the rest of the loop does not touch this entry, so it is gone already
    have hnow : dotted e.1 = false → Gone (visit o rec p e m).2.entries (p ++ [e.1]) := by
      intro hdot x hx hpx
      have hlast : x ∈ (loop o rec p (e :: rest) k m).2.entries := by
        rcases hrest with ⟨-, hend⟩ | ⟨-, hloop⟩
        · rw [hend]
          exact hx
        · rw [hloop]
          refine (loop_listed hwithin rest (k + 1)).same x hx fun hlisted => ?_
          obtain ⟨e', he', -, hpe'⟩ := hlisted
          exact hother e' he' (Disk.child_inj hpx hpe')
      have heq := hgone x hlast (Disk.prefix_of_child hpx)
      rw [heq] at hpx
      exact Disk.child_not_above p _ hpx
    have hfirst : dotted e.1 = false → o.filePath (p ++ [e.1]) = true ∧
        (e.2 = true → o.Enumerates m.entries (p ++ [e.1]) ∧ NoDots m.entries (p ++ [e.1])) := by
      intro hdot
      obtain ⟨hpath, hdir⟩ := visit_zero hdot hvisit
      refine ⟨hpath, fun hkind => hrec _ _ (htree.child ?_) ?_⟩
      · exact hkind ▸ hmem e (by simp) hdot
      · rw [← hdir hkind]
        exact hnow hdot
    rcases hrest with ⟨hnil, -⟩ | ⟨hne, hloop⟩
    · refine ⟨fun j hj hlt => ?_, fun x hx hdot => ?_⟩
      · rw [hnil] at hlt
        have hjk : j = k := by simp at hlt; omega
        rw [hjk, hnext]
      · rw [hnil, List.mem_singleton] at hx
        rw [hx] at hdot ⊢
        exact hfirst hdot
    · have htree' : Disk.TreeAt (visit o rec p e m).2.entries p := by
        by_cases hdot : dotted e.1 = true
        · rw [visit_dotted hdot]
          exact htree
        · exact htree.of_gone hframe.sub hframe.same (hnow (by simpa using hdot))
      rw [hloop] at hnone hmore hgone
      obtain ⟨hnexts, hrests⟩ := ih (k := k + 1)
        (m := (visit o rec p e m).2.log "FindNextFile" p) hnodup htree' (fun x hx hdot =>
        children_of_within hframe (hother x hx) (hmem x (by simp [hx]) hdot)) hnone hmore hgone
      refine ⟨fun j hj hlt => ?_, fun x hx hdot => ?_⟩
      · rcases Nat.eq_or_lt_of_le hj with rfl | hlt'
        · exact hnext
        · exact hnexts j hlt' (by rw [List.length_cons] at hlt; omega)
      · rcases List.mem_cons.1 hx with rfl | hx
        · exact hfirst hdot
        · obtain ⟨hpath, hsub⟩ := hrests x hx hdot
          -- the visit has left the tree of this entry as it was
          have hagree : ∀ y ∈ m.entries, p ++ [x.1] <+: y.1 → y ∈ (visit o rec p e m).2.entries :=
            fun y hy hxy => hframe.same y hy fun hey => hother x hx (Disk.child_inj hey hxy)
          exact ⟨hpath, fun hkind => ⟨(hsub hkind).1.of_agree htree hagree,
            (hsub hkind).2.of_agree hagree⟩⟩

/-- The calls for the root and for its children are all calls. -/
theorem enumerates_of_children {d : Disk Str} (htree : Disk.TreeAt d p) (hpattern : o.pattern p = true)
    (hfirst : o.findFirstFile p = none)
    (hnext : ∀ k < (d.children p).length + 2, o.findNextFile p k = none)
    (hclose : o.findClose p = none) (hdots : ∀ e ∈ d.children p, dotted e.1 = false)
    (hchildren : ∀ e ∈ d.children p, o.filePath (p ++ [e.1]) = true ∧
      (e.2 = true → o.Enumerates d (p ++ [e.1]) ∧ NoDots d (p ++ [e.1]))) :
    o.Enumerates d p ∧ NoDots d p := by
  have hdir : ∀ q, (q, true) ∈ d → p <+: q → q ≠ p → ∃ n, p ++ [n] <+: q ∧
      o.Enumerates d (p ++ [n]) ∧ NoDots d (p ++ [n]) := by
    intro q hq hpq hne
    obtain ⟨n, hn, hpre⟩ := htree.exists_directory hq hpq hne
    exact ⟨n, hpre, (hchildren _ hn).2 rfl⟩
  refine ⟨⟨fun q hq hpq => ?_, fun q k hq hbelow => ?_, fun q hq hpq => ?_, fun q hq hpq => ?_,
    fun q hq hpq => ?_⟩, fun q n k hpq hq => ?_⟩
  · by_cases hne : q = p
    · rw [hne, hpattern]
    · obtain ⟨n, hpre, henum, -⟩ := hdir q hq hpq hne
      exact henum.pattern q hq hpre
  · obtain ⟨n, hpre⟩ := hbelow
    have hne : q ≠ p := fun heq => Disk.child_not_above p n (heq ▸ hpre)
    obtain ⟨c, kind, hc, hcq⟩ := htree.exists_child List.prefix_rfl hq (Disk.prefix_of_child hpre) hne
    by_cases heq : q = p ++ [c]
    · rw [heq]
      exact (hchildren _ hc).1
    · obtain ⟨c', k', hc', hcq'⟩ := htree.exists_child (List.prefix_append p [c]) hq hcq heq
      have hkind := htree.parent (p ++ [c]) c' k' (List.prefix_append p [c]) (Disk.mem_children.1 hc')
      exact ((hchildren _ (Disk.mem_children.2 hkind)).2 rfl).1.filePath q k hq ⟨c', hcq'⟩
  · by_cases hne : q = p
    · rw [hne, hfirst]
    · obtain ⟨n, hpre, henum, -⟩ := hdir q hq hpq hne
      exact henum.findFirstFile q hq hpre
  · by_cases hne : q = p
    · rw [hne]
      exact hnext
    · obtain ⟨n, hpre, henum, -⟩ := hdir q hq hpq hne
      exact henum.findNextFile q hq hpre
  · by_cases hne : q = p
    · rw [hne, hclose]
    · obtain ⟨n, hpre, henum, -⟩ := hdir q hq hpq hne
      exact henum.findClose q hq hpre
  · by_cases hne : q = p
    · rw [hne] at hq
      exact hdots _ (Disk.mem_children.2 hq)
    · obtain ⟨c, hpre, -, hnodots⟩ := hdir q (htree.parent q n k hpq hq) hpq hne
      exact hnodots q n k hpre hq

/-- If the tree is gone, every call in it has succeeded and no name in it
begins with a dot. -/
theorem enumerates_of_gone {n : Nat} (htree : Disk.TreeAt m.entries p)
    (hgone : Gone (deleteDir o n p m).2.entries p) :
    o.Enumerates m.entries p ∧ NoDots m.entries p := by
  induction n generalizing p m with
  | zero => exact absurd List.prefix_rfl (hgone _ htree.root)
  | succ n ih =>
    have hself : p <+: p := List.prefix_rfl
    have hroot : (p, true) ∈ (m.log "FindFirstFile" p).entries := htree.root
    unfold deleteDir at hgone
    split at hgone
    · exact absurd hself (hgone _ htree.root)
    · rename_i hpattern
      simp only [hroot, if_true] at hgone
      split at hgone
      · exact absurd hself (hgone _ htree.root)
      · rename_i hfirst
        have hkeep := within_loop (o := o) (p := p) (m := m.log "FindFirstFile" p)
          (deleteDir_within (o := o) n) (listing (m.log "FindFirstFile" p) p) 0
        have hlisted := loop_listed (o := o) (p := p) (m := m.log "FindFirstFile" p)
          (deleteDir_within (o := o) n) (listing (m.log "FindFirstFile" p) p) 0
        have hback := fun hnodup hmem => loop_gone (o := o) (p := p) (k := 0)
          (m := m.log "FindFirstFile" p) (l := listing (m.log "FindFirstFile" p) p)
          (deleteDir_within (o := o) n) (fun q m' => ih) hnodup htree hmem
        generalize loop o (deleteDir o n) p (listing (m.log "FindFirstFile" p) p) 0
          (m.log "FindFirstFile" p) = l at hgone hkeep hlisted hback
        have hrootl : (p, true) ∈ l.2.entries := hkeep.same _ htree.root (not_below_self p)
        split at hgone
        · exact absurd hself (hgone _ hrootl)
        · rename_i hnone
          obtain ⟨hclose, hmore, hempty, hentries⟩ := removeRoot_gone hrootl
            fun e he heq => hgone e he (heq ▸ List.prefix_rfl)
          dsimp only at hgone
          rw [hentries] at hgone
          have hbelow : ∀ x ∈ l.2.entries, p <+: x.1 → x.1 = p := by
            intro x hx hpx
            by_contra hne
            exact hgone x (Disk.mem_remove.2 ⟨hx, hne⟩) hpx
          have hdots : ∀ e ∈ m.entries.children p, dotted e.1 = false := by
            intro e he
            by_contra hdot
            have hstay := hlisted.same _ (Disk.mem_children.1 he) fun hl => by
              obtain ⟨e', -, hdot', hpre⟩ := hl
              exact hdot (Disk.child_inj hpre List.prefix_rfl ▸ hdot')
            have heq := hbelow _ hstay (List.prefix_append p [e.1])
            simp at heq
          obtain ⟨hnext, hchildren⟩ := hback (listing_nodup htree hdots) (fun e => mem_listing) hnone
            hmore hbelow
          refine enumerates_of_children htree (by simpa using hpattern) hfirst (fun k hk => ?_) hclose
            hdots fun e he => ?_
          · exact hnext k (Nat.zero_le k) (by simp [listing, Machine.log]; omega)
          · exact hchildren e (by simp [listing, Machine.log, he]) (hdots e he)

end

/-! ## `delete_directory` -/

/-- What `delete_directory` promises for the tree at `p`. -/
structure Right (o : Outcomes) (p : Path) (d : Disk Str) : Prop where
  returns : (deleteDirectory o p d).1 ≠ none
  all : o.Deletes d p → (deleteDirectory o p d).1 = some 0 ∧ Gone (deleteDirectory o p d).2.entries p
  zero : (deleteDirectory o p d).1 = some 0 → ∀ e ∈ (deleteDirectory o p d).2.entries, e.1 ≠ p
  within : Within (AtOrBelow p) p ⟨d, 0, []⟩ (deleteDirectory o p d).2

theorem deleteDirectory_fits {o : Outcomes} {p : Path} {d : Disk Str} (h : o.fullPath = .fits) :
    deleteDirectory o p d = deleteDir o (depth d + 1) p ⟨d, 0, []⟩ := by
  rw [deleteDirectory, h]

theorem depth_enough {p : Path} {d : Disk Str} :
    ∀ e ∈ d, p <+: e.1 → e.1.length < p.length + (depth d + 1) := by
  intro e he _
  have := length_le_depth he
  omega

theorem deleteDirectory_right_iff {o : Outcomes} {p : Path} {d : Disk Str} (htree : d.TreeAt p) :
    Right o p d ↔ o.fullPath ≠ .tooLong ∧ ¬ (o.fullPath = .fits ∧ o.NotOpened p) ∧
      (o.Deletes d p → o.fullPath = .fits ∧ o.Enumerates d p ∧ NoDots d p) := by
  cases hfull : o.fullPath with
  | tooLong =>
    have hrun : deleteDirectory o p d = (none, ⟨d, 0, []⟩) := by rw [deleteDirectory, hfull]
    refine ⟨fun h => absurd (by rw [hrun]) h.returns, fun h => absurd rfl h.1⟩
  | zero =>
    have hrun : deleteDirectory o p d = (some 1, ⟨d, 0, []⟩) := by rw [deleteDirectory, hfull]
    refine ⟨fun h => ⟨by simp, by simp, fun hdel => ?_⟩, fun h => ?_⟩
    · have hone := (h.all hdel).1
      rw [hrun] at hone
      cases hone
    · refine ⟨by simp [hrun], fun hdel => ?_, fun hzero => ?_, by rw [hrun]; exact .refl⟩
      · cases (h.2.2 hdel).1
      · rw [hrun] at hzero
        cases hzero
  | fits =>
    have hrun := deleteDirectory_fits (p := p) (d := d) hfull
    refine ⟨fun h => ⟨by simp, fun hopen => ?_, fun hdel => ⟨rfl, ?_⟩⟩, fun h => ?_⟩
    · -- 0 although the directory cannot be enumerated
      obtain ⟨hpattern, hfail⟩ := hopen.2
      obtain ⟨f, hf⟩ := Option.ne_none_iff_exists'.1 hfail
      have hroot : (p, true) ∈ (Machine.log "FindFirstFile" p ⟨d, 0, []⟩).entries := htree.root
      have hfirst : deleteDirectory o p d =
          (some 0, (Machine.log "FindFirstFile" p ⟨d, 0, []⟩).fail f) := by
        rw [hrun]
        simp only [deleteDir, hpattern, Bool.true_eq_false, if_false, hroot, if_true, hf]
      have hgone := h.zero (by rw [hfirst])
      rw [hfirst] at hgone
      exact hgone _ htree.root rfl
    · have hgone := (h.all hdel).2
      rw [hrun] at hgone
      exact enumerates_of_gone htree hgone
    · obtain ⟨-, hopen, hcond⟩ := h
      refine ⟨?_, fun hdel => ?_, fun hzero => ?_, ?_⟩
      · rw [hrun]
        exact deleteDir_returns (Nat.succ_pos _) depth_enough
      · obtain ⟨-, henum, hdots⟩ := hcond hdel
        rw [hrun]
        exact deleteDir_all depth_enough htree hdel henum hdots
      · rw [hrun] at hzero ⊢
        exact deleteDir_zero htree.root (fun h => hopen ⟨rfl, h⟩) hzero
      · rw [hrun]
        exact deleteDir_within _ _ _

/-- Every call succeeds. -/
def allSucceed : Outcomes :=
  ⟨.fits, fun _ => true, fun _ => true, fun _ => none, fun _ _ => none, fun _ => none,
    fun _ => none, fun _ => none, fun _ => none⟩

theorem allSucceed_deletes (d : Disk Str) (p : Path) : allSucceed.Deletes d p :=
  ⟨fun _ _ _ _ => rfl, fun _ _ _ => rfl, fun _ _ _ => rfl⟩

theorem allSucceed_enumerates (d : Disk Str) (p : Path) : allSucceed.Enumerates d p :=
  ⟨fun _ _ _ => rfl, fun _ _ _ _ => rfl, fun _ _ _ => rfl, fun _ _ _ _ _ => rfl, fun _ _ _ => rfl⟩

/-- A directory with one file. -/
def oneEntry (name : Str) : Disk Str := [([['t']], true), ([['t'], name], false)]

theorem mem_oneEntry {name n : Str} {q : Path} {k : Bool} (hq : [['t']] <+: q)
    (h : (q ++ [n], k) ∈ oneEntry name) : q = [['t']] ∧ n = name := by
  have hle := hq.length_le
  rcases List.mem_cons.1 h with h | h
  · have hlen := congrArg List.length (congrArg Prod.fst h)
    simp only [List.length_append, List.length_singleton] at hlen hle
    omega
  · have heq : q ++ [n] = [['t']] ++ [name] := congrArg Prod.fst (List.mem_singleton.1 h)
    obtain ⟨hpath, hname⟩ := List.append_inj' heq rfl
    exact ⟨hpath, List.singleton_inj.1 hname⟩

theorem oneEntry_treeAt (name : Str) : (oneEntry name).TreeAt [['t']] := by
  refine ⟨by simp [oneEntry], by simp [oneEntry], fun q n k hq he => ?_⟩
  rw [(mem_oneEntry hq he).1]
  simp [oneEntry]

theorem deleteDirectory_right_file : Right allSucceed [['t']] (oneEntry ['f']) := by
  refine (deleteDirectory_right_iff (oneEntry_treeAt ['f'])).2
    ⟨by simp [allSucceed], by simp [allSucceed, Outcomes.NotOpened], fun _ =>
      ⟨rfl, allSucceed_enumerates _ _, fun q n k hq he => ?_⟩⟩
  rw [(mem_oneEntry hq he).2]
  rfl

/-- The file `.x` is never deleted, so neither is its directory. -/
theorem dotFile_stays : ¬ ∀ (o : Outcomes) (p : Path) (d : Disk Str), d.TreeAt p → Right o p d := by
  intro h
  have htree := oneEntry_treeAt ['.', 'x']
  have hgone := ((h allSucceed [['t']] _ htree).all (allSucceed_deletes _ _)).2
  rw [deleteDirectory_fits rfl] at hgone
  have hdots := (enumerates_of_gone htree hgone).2
  have hdot := hdots [['t']] ['.', 'x'] false List.prefix_rfl (by simp [oneEntry])
  cases hdot

end Wubi.Launcher
