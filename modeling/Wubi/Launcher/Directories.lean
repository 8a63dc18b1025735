import Wubi.Launcher.Unpack
import Mathlib.Data.List.Perm.Basic

/-!
# Unpacking the entries of the archive

`unpack` makes two passes over the entries: the first counts an unsigned index
down from `NumFiles - 1` and creates the directories, the second counts up and
extracts everything else until a call fails.

**Trace.** A run is the list of what it does (`Ev`), where reading the entry
`Files + i` is an event as well. Reading an entry that does not exist ends the
run without a result, since nothing is known of what follows.

**Order.** 7-Zip writes a directory behind the directories in it (`Ordered`),
so counting down meets parents first. The loop ends before index 0, and
`NumFiles - 1` is `0xFFFFFFFF` for an empty archive (`unpack_visits_iff`).
-/
namespace Wubi.Launcher

/-- What `unpack` reads of an entry. -/
structure CFileItem where
  name : Bytes
  isDirectory : Bool
  deriving DecidableEq

/-- What `SzArchiveOpen` returns; `NumFiles` has 32 bits. -/
structure Database where
  files : List CFileItem
  numFiles_lt : files.length < 2 ^ 32

/-- What happens in a run. -/
inductive Ev where
  /-- `Files + i` is read -/
  | access (i : Nat)
  | createDirectory (name : Bytes)
  | extract (i : Nat)
  | openFileW (name : Bytes)
  | writeFile (name : Bytes)
  | closeFile (name : Bytes)
  deriving DecidableEq

/-- What the calls for entry `i` return: `SZ_OK` is 0; the others succeed or not. -/
structure Calls where
  extract : Nat → Nat
  openFileW : Nat → Bool
  writeFile : Nat → Bool
  closeFile : Nat → Bool

/-- mirrors src/7z/C/Types.h:74 -/
def szeFail : Nat := 0x80004005

/-- `for (..; i > 0; i--)`; False: an entry that does not exist was read. The
result of `create_directory` only decides about a debug message.
mirrors src/pylauncher/unpack.c:334-350 -/
def createDirectories (files : List CFileItem) : Nat → List Ev × Bool
  | 0 => ([], true)
  | i + 1 =>
    match files[i + 1]? with
    | none => ([.access (i + 1)], false)
    | some f =>
      let (t, ok) := createDirectories files i
      (.access (i + 1) :: if f.isDirectory then .createDirectory f.name :: t else t, ok)

/-- The calls for entry `i`, which is no directory, and `res`.
mirrors src/pylauncher/unpack.c:367-390 -/
def extractFile (c : Calls) (i : Nat) (name : Bytes) : List Ev × Nat :=
  if c.extract i ≠ 0 then ([.extract i], c.extract i)
  else if c.openFileW i = false then ([.extract i, .openFileW name], szeFail)
  else if c.writeFile i = false then ([.extract i, .openFileW name, .writeFile name], szeFail)
  else
    ([.extract i, .openFileW name, .writeFile name, .closeFile name],
      if c.closeFile i then 0 else szeFail)

/-- The entries from index `i` on.
mirrors src/pylauncher/unpack.c:352-394 -/
def extractFiles (c : Calls) : List CFileItem → Nat → List Ev × Nat
  | [], _ => ([], 0)
  | f :: fs, i =>
    if f.isDirectory then
      let (t, res) := extractFiles c fs (i + 1)
      (.access i :: t, res)
    else
      let (t, res) := extractFile c i f.name
      if res ≠ 0 then (.access i :: t, res)
      else
        let (t', res) := extractFiles c fs (i + 1)
        (.access i :: t ++ t', res)

/-- `db.Database.NumFiles-1` -/
def lastIndex (files : List CFileItem) : Nat := (files.length + (2 ^ 32 - 1)) % 2 ^ 32

/-- None: the file cannot be opened; an error is that of `SzArchiveOpen`. A run
without a result has read an entry that does not exist.
mirrors src/pylauncher/unpack.c:272-415 -/
def unpack (c : Calls) : Option (Except Nat Database) → List Ev × Option Nat
  | none => ([], some 1)
  | some (.error _) => ([], some 1)
  | some (.ok db) =>
    let dirs := createDirectories db.files (lastIndex db.files)
    if dirs.2 = false then (dirs.1, none)
    else
      let files := extractFiles c db.files 0
      (dirs.1 ++ files.1, some (if files.2 = 0 then 0 else 1))

/-! ## What a run should do -/

/-- `a` lies in the directory `d`, with a slash or a backslash between them. -/
def Inside (d a : Bytes) : Prop := d ++ [0x2F] <+: a ∨ d ++ [0x5C] <+: a

def directories (files : List CFileItem) : List CFileItem := files.filter (·.isDirectory)

/-- The order of 7-Zip: a directory stands behind the directories in it. -/
def Ordered (files : List CFileItem) : Prop :=
  (directories files).Pairwise fun f g => ¬ Inside f.name g.name

/-- The indices from `i` on of the entries that are no directories. -/
def plainFiles : List CFileItem → Nat → List Nat
  | [], _ => []
  | f :: fs, i => if f.isDirectory then plainFiles fs (i + 1) else i :: plainFiles fs (i + 1)

/-- Every call for entry `i` succeeds. -/
def Calls.succeeds (c : Calls) (i : Nat) : Bool :=
  c.extract i = 0 && c.openFileW i && c.writeFile i && c.closeFile i

/-- The list up to the first element that fails, which is included. -/
def throughFirst (p : Nat → Bool) : List Nat → List Nat
  | [] => []
  | i :: is => if p i then i :: throughFirst p is else [i]

def created (t : List Ev) : List Bytes :=
  t.filterMap fun | .createDirectory name => some name | _ => none

def extracted (t : List Ev) : List Nat :=
  t.filterMap fun | .extract i => some i | _ => none

/-- The trace of a run as it should be. -/
structure VisitsAll (c : Calls) (files : List CFileItem) (t : List Ev) : Prop where
  inBounds : ∀ i, .access i ∈ t → i < files.length
  /-- `create_directory` is called exactly once for every directory entry -/
  once : (created t).Perm ((directories files).map (·.name))
  /-- no directory is created behind one that lies in it -/
  parents : (created t).Pairwise fun a b => ¬ Inside b a
  /-- no directory is created once a file has been opened -/
  before : t.Pairwise fun a b => ∀ name dir, a = .openFileW name → b ≠ .createDirectory dir
  visited : extracted t = throughFirst c.succeeds (plainFiles files 0)

/-! ## The two passes -/

@[simp] theorem created_append {t t' : List Ev} : created (t ++ t') = created t ++ created t' :=
  List.filterMap_append

@[simp] theorem extracted_append {t t' : List Ev} :
    extracted (t ++ t') = extracted t ++ extracted t' :=
  List.filterMap_append

theorem mem_created {t : List Ev} {name : Bytes} : name ∈ created t ↔ .createDirectory name ∈ t := by
  unfold created
  rw [List.mem_filterMap]
  constructor
  · intro hboth
    obtain ⟨e, he, heq⟩ := hboth
    cases e <;> simp at heq
    rwa [← heq]
  · exact fun h => ⟨_, h, rfl⟩

theorem lastIndex_eq {files : List CFileItem} (h : files.length < 2 ^ 32) (hne : files ≠ []) :
    lastIndex files = files.length - 1 := by
  have hpos : 0 < files.length := List.length_pos_iff.2 hne
  unfold lastIndex
  omega

/-- The index wraps around. -/
theorem lastIndex_nil : ∃ n, lastIndex [] = n + 1 := ⟨2 ^ 32 - 2, by simp [lastIndex]⟩

/-- Within bounds the first pass creates the directories from index 1 on, the
last one first, and does nothing else. -/
theorem createDirectories_spec {files : List CFileItem} {n : Nat} (hn : n < files.length) :
    (createDirectories files n).2 = true ∧
    created (createDirectories files n).1 =
      ((directories ((files.take (n + 1)).drop 1)).map (·.name)).reverse ∧
    ∀ e ∈ (createDirectories files n).1, (∃ i < files.length, e = .access i) ∨
      ∃ dir, e = .createDirectory dir := by
  induction n with
  | zero =>
    refine ⟨rfl, ?_, fun e he => absurd he (by simp [createDirectories])⟩
    simp [createDirectories, created, directories]
  | succ n ih =>
    obtain ⟨hok, hcreated, hevents⟩ := ih (by omega)
    have hget : files[n + 1]? = some files[n + 1] := List.getElem?_eq_getElem hn
    have htake : (files.take (n + 1 + 1)).drop 1 = (files.take (n + 1)).drop 1 ++ [files[n + 1]] := by
      rw [List.take_add_one, hget, Option.toList_some, List.drop_append_of_le_length]
      simp
      omega
    unfold createDirectories
    simp only [hget, htake]
    refine ⟨hok, ?_, ?_⟩
    · cases hdir : files[n + 1].isDirectory with
      | true => simpa [created, directories, hdir] using hcreated
      | false => simpa [created, directories, hdir] using hcreated
    · intro e he
      cases hdir : files[n + 1].isDirectory with
      | true =>
        simp only [hdir, if_true, List.mem_cons] at he
        rcases he with rfl | rfl | he
        · exact .inl ⟨n + 1, hn, rfl⟩
        · exact .inr ⟨_, rfl⟩
        · exact hevents e he
      | false =>
        simp only [hdir, Bool.false_eq_true, if_false, List.mem_cons] at he
        rcases he with rfl | he
        · exact .inl ⟨n + 1, hn, rfl⟩
        · exact hevents e he

/-- In an empty archive the first pass reads an entry that does not exist. -/
theorem createDirectories_nil (n : Nat) : createDirectories [] (n + 1) = ([.access (n + 1)], false) :=
  rfl

/-- One entry of the second pass. -/
theorem extractFile_spec (c : Calls) (i : Nat) (name : Bytes) :
    extracted (extractFile c i name).1 = [i] ∧
    ((extractFile c i name).2 = 0 ↔ c.succeeds i = true) ∧
    ∀ e ∈ (extractFile c i name).1, (∀ k, e ≠ .access k) ∧ ∀ dir, e ≠ .createDirectory dir := by
  unfold extractFile Calls.succeeds
  split_ifs <;> simp_all [extracted, szeFail]

theorem extractFiles_spec (c : Calls) (fs : List CFileItem) (i : Nat) :
    extracted (extractFiles c fs i).1 = throughFirst c.succeeds (plainFiles fs i) ∧
    ∀ e ∈ (extractFiles c fs i).1, (∀ k, e = .access k → k < i + fs.length) ∧
      ∀ dir, e ≠ .createDirectory dir := by
  induction fs generalizing i with
  | nil => exact ⟨rfl, fun e he => absurd he (by simp [extractFiles])⟩
  | cons f fs ih =>
    obtain ⟨hext, hevents⟩ := ih (i + 1)
    have hlater : ∀ e ∈ (extractFiles c fs (i + 1)).1,
        (∀ k, e = .access k → k < i + (f :: fs).length) ∧ ∀ dir, e ≠ .createDirectory dir := by
      intro e he
      refine ⟨fun k hk => ?_, (hevents e he).2⟩
      have := (hevents e he).1 k hk
      rw [List.length_cons]
      omega
    have hhere : (∀ k, Ev.access i = .access k → k < i + (f :: fs).length) ∧
        ∀ dir, Ev.access i ≠ .createDirectory dir := by
      refine ⟨fun k hk => ?_, fun dir hdir => Ev.noConfusion hdir⟩
      cases hk
      simp
    obtain ⟨hone, hres, hfile⟩ := extractFile_spec c i f.name
    have hthis : ∀ e ∈ (extractFile c i f.name).1,
        (∀ k, e = .access k → k < i + (f :: fs).length) ∧ ∀ dir, e ≠ .createDirectory dir :=
      fun e he => ⟨fun k hk => absurd hk ((hfile e he).1 k), (hfile e he).2⟩
    unfold extractFiles plainFiles
    by_cases hdir : f.isDirectory = true
    · simp only [hdir, if_true]
      exact ⟨by simpa [extracted] using hext, List.forall_mem_cons.2 ⟨hhere, hlater⟩⟩
    · simp only [hdir, Bool.false_eq_true, if_false]
      by_cases hok : (extractFile c i f.name).2 = 0
      · simp only [hok, ne_eq, not_true_eq_false, if_false]
        refine ⟨?_, ?_⟩
        · have happ : extracted (.access i :: (extractFile c i f.name).1 ++ (extractFiles c fs (i + 1)).1) =
              extracted (extractFile c i f.name).1 ++ extracted (extractFiles c fs (i + 1)).1 := by
            rw [List.cons_append, ← extracted_append]
            rfl
          rw [happ, hone, hext, throughFirst, if_pos (hres.1 hok)]
          rfl
        · exact List.forall_mem_append.2 ⟨List.forall_mem_cons.2 ⟨hhere, hthis⟩, hlater⟩
      · simp only [hok, ne_eq, not_false_eq_true, if_true]
        refine ⟨?_, ?_⟩
        · have hstop : ¬ c.succeeds i = true := fun h => hok (hres.2 h)
          rw [throughFirst, if_neg hstop]
          exact hone
        · exact List.forall_mem_cons.2 ⟨hhere, hthis⟩

/-! ## The run -/

/-- A run on a database whose entry 0 exists. -/
theorem unpack_cons (c : Calls) {db : Database} {f : CFileItem} {fs : List CFileItem}
    (hdb : db.files = f :: fs) :
    (unpack c (some (.ok db))).1 =
      (createDirectories db.files fs.length).1 ++ (extractFiles c db.files 0).1 := by
  have hne : db.files ≠ [] := by simp [hdb]
  have hlast : lastIndex db.files = fs.length := by
    rw [lastIndex_eq db.numFiles_lt hne, hdb, List.length_cons, Nat.add_sub_cancel]
  have hlt : fs.length < db.files.length := by simp [hdb]
  have hok := (createDirectories_spec hlt).1
  unfold unpack
  simp only [hlast, hok, Bool.true_eq_false, if_false]

theorem created_unpack (c : Calls) {db : Database} {f : CFileItem} {fs : List CFileItem}
    (hdb : db.files = f :: fs) :
    created (unpack c (some (.ok db))).1 = ((directories fs).map (·.name)).reverse := by
  have hlt : fs.length < db.files.length := by simp [hdb]
  have hfirst := (createDirectories_spec hlt).2.1
  have hsecond : created (extractFiles c db.files 0).1 = [] := by
    rw [List.eq_nil_iff_forall_not_mem]
    intro dir hdir
    exact ((extractFiles_spec c db.files 0).2 _ (mem_created.1 hdir)).2 dir rfl
  have hrest : (db.files.take (fs.length + 1)).drop 1 = fs := by simp [hdb]
  rw [unpack_cons c hdb, created_append, hfirst, hsecond, hrest, List.append_nil]

theorem unpack_visits_iff (c : Calls) (db : Database) (hord : Ordered db.files) :
    VisitsAll c db.files (unpack c (some (.ok db))).1 ↔
      ∃ f, db.files.head? = some f ∧ f.isDirectory = false := by
  constructor
  · intro h
    cases hdb : db.files with
    | nil =>
      obtain ⟨n, hn⟩ := lastIndex_nil
      have htrace : (unpack c (some (.ok db))).1 = [.access (n + 1)] := by
        simp only [unpack, hdb, hn, createDirectories_nil, if_true]
      have hbound := h.inBounds (n + 1) (by simp [htrace])
      rw [hdb] at hbound
      exact absurd hbound (Nat.not_lt_zero _)
    | cons f fs =>
      refine ⟨f, rfl, ?_⟩
      cases hdir : f.isDirectory with
      | false => rfl
      | true =>
        -- one directory fewer is created than the archive has
        have hlen := h.once.length_eq
        have hdirs : directories (f :: fs) = f :: directories fs := by simp [directories, hdir]
        rw [created_unpack c hdb, hdb, hdirs] at hlen
        simp at hlen
  · intro hboth
    obtain ⟨f, hhead, hdir⟩ := hboth
    obtain ⟨fs, hdb⟩ : ∃ fs, db.files = f :: fs := by
      cases hdb : db.files with
      | nil => rw [hdb] at hhead; cases hhead
      | cons g fs =>
        rw [hdb] at hhead
        cases hhead
        exact ⟨fs, rfl⟩
    have hcreated := created_unpack c hdb
    have hdirs : directories db.files = directories fs := by simp [directories, hdb, hdir]
    have hlt : fs.length < db.files.length := by simp [hdb]
    obtain ⟨-, -, hfirst⟩ := createDirectories_spec hlt
    obtain ⟨hext, hsecond⟩ := extractFiles_spec c db.files 0
    refine ⟨fun i hi => ?_, ?_, ?_, ?_, ?_⟩
    · rw [unpack_cons c hdb] at hi
      rcases List.mem_append.1 hi with hi | hi
      · rcases hfirst _ hi with ⟨k, hk, heq⟩ | ⟨dir, heq⟩
        · cases heq
          exact hk
        · cases heq
      · have := (hsecond _ hi).1 i rfl
        omega
    · rw [hcreated, hdirs]
      exact List.reverse_perm _
    · rw [hcreated, List.pairwise_reverse, List.pairwise_map, ← hdirs]
      exact hord
    · rw [unpack_cons c hdb, List.pairwise_append]
      refine ⟨?_, ?_, ?_⟩
      · refine List.pairwise_of_forall_mem_list fun a ha b _ name dir hname => ?_
        rcases hfirst a ha with ⟨k, -, rfl⟩ | ⟨dir, rfl⟩ <;> cases hname
      · exact List.pairwise_of_forall_mem_list fun a _ b hb name dir _ => (hsecond b hb).2 dir
      · intro a ha b hb name dir _
        exact (hsecond b hb).2 dir
    · have hnone : extracted (createDirectories db.files fs.length).1 = [] := by
        rw [List.eq_nil_iff_forall_not_mem]
        intro k hk
        obtain ⟨e, he, heq⟩ := List.mem_filterMap.1 hk
        rcases hfirst e he with ⟨i, -, rfl⟩ | ⟨dir, rfl⟩ <;> cases heq
      rw [unpack_cons c hdb, extracted_append, hnone, List.nil_append, hext]

/-- An archive with one file, which is in the directory behind it. -/
def oneFile : Database where
  files := [⟨[0x64, 0x2F, 0x66], false⟩, ⟨[0x64], true⟩]
  numFiles_lt := by simp

/-- An archive with an empty directory only. -/
def oneDirectory : Database where
  files := [⟨[0x64], true⟩]
  numFiles_lt := by simp

/-- No call fails. -/
def noFailure : Calls := ⟨fun _ => 0, fun _ => true, fun _ => true, fun _ => true⟩

theorem unpack_visits_oneFile :
    VisitsAll noFailure oneFile.files (unpack noFailure (some (.ok oneFile))).1 :=
  (unpack_visits_iff noFailure oneFile (by simp [Ordered, directories, oneFile])).2 ⟨_, rfl, rfl⟩

/-- The directory is never created. -/
theorem oneDirectory_not_created :
    ¬ ∀ (c : Calls) (db : Database), Ordered db.files →
      VisitsAll c db.files (unpack c (some (.ok db))).1 := by
  intro h
  have hrun := h noFailure oneDirectory (by simp [Ordered, directories, oneDirectory])
  have hlen := hrun.once.length_eq
  rw [created_unpack _ (show oneDirectory.files = ⟨[0x64], true⟩ :: [] from rfl)] at hlen
  simp [directories, oneDirectory] at hlen

end Wubi.Launcher
