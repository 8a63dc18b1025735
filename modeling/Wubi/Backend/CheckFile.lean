import Wubi.Backend.Chunks
import Wubi.Core.Lines
import Wubi.Core.Words
import Mathlib.Data.List.Nodup

/-!
# Checking a file against md5sums

`check_file` looks for its reference in a file of lines `hash  ./path`. It takes
the first raw line that ends with `./rel` and an end of line, so the last line
is found only if an end of line stands behind it, and the line of another path
that ends with `./rel` is found as well.

**Text mode.** The content of md5sums is what `readlines` gets, with one
character for the end of a line.
-/
namespace Wubi.Backend

open Wubi.Tasks Wubi.Tasks.Prog

/-- The first line with the text at its end, or at its start, without its last
character.
mirrors src/wubi/backends/common/utils.py:288-291 -/
def findLine (lines : List Str) (text : Str) (endswith : Bool) : Option Str :=
  (lines.find? fun line => if endswith then text.isSuffixOf line else text.isPrefixOf line).map
    List.dropLast

/-- `relpath.replace("\\", "/")` -/
def slashes (relpath : Str) : Str := relpath.map fun c => if c = '\\' then '/' else c

variable (env : Env)

/-- mirrors src/wubi/backends/common/utils.py:280-291 -/
def findLineInFile (filePath text : Str) (endswith : Bool) : Fn (Option Str) := do
  let w ← .get
  match if filePath = [] then none else w.read env filePath with
  | none => return none
  | some content =>
    if endswith ∧ text = [] then .raise .indexError
    else
      io env
      return findLine content.readLines (if endswith then text.ensureNewline else text) endswith

/-- mirrors src/wubi/backends/common/backend.py:530-541 -/
def checkFile (filePath relpath md5sums : Str) (withTask : Bool) : Fn Bool := do
  let relpath := slashes relpath
  let md5line ← findLineInFile env md5sums ("./".toList ++ relpath) true
  match nonempty md5line with
  | none =>
    .raise (.exception ("Cannot find md5 in " ++ String.ofList md5sums ++ " for "
      ++ String.ofList relpath))
  | some md5line =>
    match md5line.words with
    | [] => .raise .indexError
    | referenceMd5 :: _ =>
      let md5 ← getFileMd5 env filePath withTask
      return decide (md5 = some referenceMd5)

/-! ## The lines of md5sums -/

/-- A line of md5sums: hash, white space, `./path`. -/
structure Entry where
  hash : Str
  gap : Str
  path : Str
  hash_ne : hash ≠ []
  hash_solid : Str.Solid hash
  gap_ne : gap ≠ []
  gap_space : ∀ c ∈ gap, Str.isSpace c = true ∧ c ≠ '\n'
  path_line : '\n' ∉ path

def Entry.line (e : Entry) : Str := e.hash ++ e.gap ++ "./".toList ++ e.path

/-- The file with these lines, with or without an end behind the last one. -/
def md5sumsText (es : List Entry) (final : Bool) : Str :=
  if final then Str.unlines (es.map Entry.line) else ['\n'].intercalate (es.map Entry.line)

/-- The entries whose lines have an end. -/
def ended (es : List Entry) (final : Bool) : List Entry := if final then es else es.dropLast

/-- What the line of an entry is searched for. -/
def pattern (rel : Str) : Str := Str.ensureNewline ("./".toList ++ slashes rel)

/-- The entry's line, with its end, ends with `./rel`. -/
def Entry.Ends (e : Entry) (rel : Str) : Prop := pattern rel <:+ e.line ++ ['\n']

/-- `e` is the first of `es` whose line ends with `./rel`. -/
def FirstEnds (es : List Entry) (rel : Str) (e : Entry) : Prop :=
  ∃ before behind, es = before ++ e :: behind ∧ (∀ d ∈ before, ¬ d.Ends rel) ∧ e.Ends rel

theorem Entry.line_ne (e : Entry) : e.line ≠ [] := by simp [Entry.line, e.hash_ne]

theorem Entry.not_mem_line (e : Entry) : '\n' ∉ e.line := by
  have hhash : '\n' ∉ e.hash := fun h => by
    have := e.hash_solid _ h
    simp [Str.isSpace] at this
  have hgap : '\n' ∉ e.gap := fun h => (e.gap_space _ h).2 rfl
  simp [Entry.line, hhash, hgap, e.path_line]

/-- The first word of the line is the hash. -/
theorem Entry.words_line (e : Entry) : ∃ rest, e.line.words = e.hash :: rest := by
  obtain ⟨c, gap, hgap⟩ := List.exists_cons_of_ne_nil e.gap_ne
  have hc : Str.isSpace c = true := (e.gap_space c (by simp [hgap])).1
  have hline : e.line = e.hash ++ c :: (gap ++ "./".toList ++ e.path) := by
    simp [Entry.line, hgap]
  rw [hline, Str.words_sep hc, Str.words_solid e.hash_ne e.hash_solid]
  exact ⟨_, rfl⟩

theorem pattern_getLast (rel : Str) : (pattern rel).getLast? = some '\n' := by
  unfold pattern Str.ensureNewline
  split
  · assumption
  · exact List.getLast?_concat

/-- A line without its end is no hit. -/
theorem not_pattern_suffix {rel l : Str} (h : '\n' ∉ l) : ¬ pattern rel <:+ l := by
  intro hboth
  obtain ⟨a, rfl⟩ := hboth
  have hmem : '\n' ∈ pattern rel := List.mem_of_getLast? (pattern_getLast rel)
  exact h (List.mem_append_right a hmem)

theorem readLines_last {l : Str} (hne : l ≠ []) (h : '\n' ∉ l) : Str.readLines l = [l] := by
  induction l with
  | nil => exact absurd rfl hne
  | cons c l ih =>
    simp only [List.mem_cons, not_or] at h
    cases l with
    | nil => simp [Str.readLines, Ne.symm h.1]
    | cons d l =>
      rw [Str.readLines, if_neg (Ne.symm h.1), ih (by simp) h.2]

theorem readLines_unlines_append {ls : List Str} {l : Str} (hls : ∀ x ∈ ls, '\n' ∉ x) :
    Str.readLines (Str.unlines ls ++ l) = ls.map (· ++ ['\n']) ++ Str.readLines l := by
  induction ls with
  | nil => rfl
  | cons x ls ih =>
    have hrest := ih fun y hy => hls y (List.mem_cons_of_mem x hy)
    rw [Str.unlines_cons, List.append_assoc, List.cons_append,
      Str.readLines_line (hls x List.mem_cons_self), hrest]
    rfl

/-- What `find_line_in_file` finds in the file. -/
theorem findLine_md5sums {es : List Entry} {final : Bool} {rel : Str} :
    findLine (md5sumsText es final).readLines (pattern rel) true =
      ((ended es final).find? fun e => (pattern rel).isSuffixOf (e.line ++ ['\n'])).map
        Entry.line := by
  have hmap : ∀ ds : List Entry,
      ((ds.map Entry.line).map (· ++ ['\n'])).find? (fun line => (pattern rel).isSuffixOf line) =
      (ds.find? fun e => (pattern rel).isSuffixOf (e.line ++ ['\n'])).map
        fun e => e.line ++ ['\n'] := by
    intro ds
    rw [List.map_map, List.find?_map]
    rfl
  have hlines : ∀ ds : List Entry, ∀ x ∈ ds.map Entry.line, '\n' ∉ x := by
    intro ds x hx
    obtain ⟨e, -, rfl⟩ := List.mem_map.1 hx
    exact e.not_mem_line
  have hdrop : ∀ o : Option Entry, (o.map fun e => e.line ++ ['\n']).map List.dropLast =
      o.map Entry.line := by
    intro o
    cases o <;> simp
  unfold findLine
  simp only [if_true]
  cases final with
  | true =>
    simp only [md5sumsText, ended, if_true]
    rw [Str.readLines_unlines (hlines es), hmap, hdrop]
  | false =>
    simp only [md5sumsText, ended, Bool.false_eq_true, if_false]
    rcases List.eq_nil_or_concat es with rfl | ⟨ds, last, rfl⟩
    · rfl
    · rw [List.concat_eq_append, List.map_append, List.map_singleton, Str.intercalate_unlines,
        readLines_unlines_append (hlines ds), readLines_last last.line_ne last.not_mem_line,
        List.find?_append, hmap]
      have hlast : ([last.line].find? fun line => (pattern rel).isSuffixOf line) = none := by
        simp [not_pattern_suffix last.not_mem_line]
      rw [hlast, Option.or_none, List.dropLast_concat, hdrop]

/-! ## The verdict -/

section
variable {env} {user : Nat → Bool} {withTask : Bool} {s : St World}

/-- The md5 of the file at `p`, None where there is no file. -/
def World.md5Of (env : Env) (w : World) (p : Str) : Option Str :=
  if p = [] then none else (w.read env p).map env.md5

theorem wp_getFileMd5_never {p : Str} (hio : ∀ k, env.ioError k = none)
    (hask : ∀ k, asks user withTask s k = false) :
    wp user (getFileMd5 env p withTask) (fun r _ => r = s.world.md5Of env p) (fun _ _ => False) s := by
  by_cases hp : p = []
  · simp [getFileMd5, World.md5Of, hp]
  · cases hread : s.world.read env p with
    | none => simp [getFileMd5, World.md5Of, hp, hread]
    | some content =>
      refine wp_mono (getFileMd5_whole hp hread) (fun r _ h => ?_) fun e _ h => ?_
      · rw [h.1 fun k _ => hask k]
        simp [World.md5Of, hp, hread]
      · obtain ⟨k, hk⟩ := h
        rw [hio k] at hk
        cases hk

theorem find_firstEnds {es : List Entry} {rel : Str} {e : Entry} (h : FirstEnds es rel e) :
    (es.find? fun e => (pattern rel).isSuffixOf (e.line ++ ['\n'])) = some e := by
  obtain ⟨before, behind, hes, hbefore, hend⟩ := h
  rw [List.find?_eq_some_iff_append]
  refine ⟨List.isSuffixOf_iff_suffix.2 hend, before, behind, hes, fun d hd => ?_⟩
  have hd := hbefore d hd
  unfold Entry.Ends at hd
  simpa [← List.isSuffixOf_iff_suffix] using hd

/-- Either no line is a hit, or there is a first one. -/
theorem firstEnds_or (es : List Entry) (rel : Str) :
    (∀ e ∈ es, ¬ e.Ends rel) ∨ ∃ e, FirstEnds es rel e := by
  induction es with
  | nil => exact .inl (by simp)
  | cons d es ih =>
    by_cases hd : d.Ends rel
    · exact .inr ⟨d, [], es, rfl, by simp, hd⟩
    · rcases ih with hnone | ⟨e, before, behind, rfl, hbefore, hend⟩
      · refine .inl fun e he => ?_
        rcases List.mem_cons.1 he with rfl | he
        · exact hd
        · exact hnone e he
      · refine .inr ⟨e, d :: before, behind, rfl, fun c hc => ?_, hend⟩
        rcases List.mem_cons.1 hc with rfl | hc
        · exact hd
        · exact hbefore c hc

variable {es : List Entry} {final : Bool} {rel p md5sums : Str} {Q : Bool → St World → Prop}
  {R : PyErr → St World → Prop}

theorem wp_findLineInFile {Q : Option Str → St World → Prop} (hne : md5sums ≠ [])
    (hread : s.world.read env md5sums = some (md5sumsText es final))
    (hio : ∀ k, env.ioError k = none) :
    wp user (findLineInFile env md5sums ("./".toList ++ slashes rel) true) Q R s ↔
      Q (((ended es final).find? fun e => (pattern rel).isSuffixOf (e.line ++ ['\n'])).map
        Entry.line) (s.map (World.advance 1)) := by
  have hline : findLine (md5sumsText es final).readLines (pattern rel) true = _ := findLine_md5sums
  have htext : "./".toList ++ slashes rel ≠ [] := by simp
  have hpattern : Str.ensureNewline ("./".toList ++ slashes rel) = pattern rel := rfl
  simp only [findLineInFile, wp_bind, wp_get, hne, if_false, hread, htext, and_false, wp_io, hio,
    if_true, wp_pure, hpattern, hline]
  simp

/-- The first hit gives the reference. -/
theorem wp_checkFile_hit {e : Entry} (hne : md5sums ≠ [])
    (hread : s.world.read env md5sums = some (md5sumsText es final))
    (hio : ∀ k, env.ioError k = none) (h : FirstEnds (ended es final) rel e) :
    wp user (checkFile env p rel md5sums withTask) Q R s ↔
      wp user (getFileMd5 env p withTask) (fun r s' => Q (decide (r = some e.hash)) s') R
        (s.map (World.advance 1)) := by
  obtain ⟨rest, hwords⟩ := e.words_line
  unfold checkFile
  rw [wp_bind, wp_findLineInFile hne hread hio, find_firstEnds h, Option.map_some]
  have hline : nonempty (some e.line) = some e.line := by simp [nonempty, e.line_ne]
  simp only [hline, hwords, wp_bind, wp_pure]

/-- Without a hit it raises. -/
theorem wp_checkFile_miss (hne : md5sums ≠ [])
    (hread : s.world.read env md5sums = some (md5sumsText es final))
    (hio : ∀ k, env.ioError k = none) (h : ∀ e ∈ ended es final, ¬ e.Ends rel) :
    wp user (checkFile env p rel md5sums withTask) Q R s ↔
      R (.exception ("Cannot find md5 in " ++ String.ofList md5sums ++ " for "
        ++ String.ofList (slashes rel))) (s.map (World.advance 1)) := by
  have hnone : ((ended es final).find? fun e => (pattern rel).isSuffixOf (e.line ++ ['\n'])) =
      none := by
    rw [List.find?_eq_none]
    intro e he
    have he := h e he
    unfold Entry.Ends at he
    simpa [← List.isSuffixOf_iff_suffix] using he
  unfold checkFile
  rw [wp_bind, wp_findLineInFile hne hread hio, hnone]
  exact Iff.rfl

end

/-- The verdict on a file whose md5 is `md5`: with the path listed it is
whether the entry's hash is that md5, otherwise there is none. -/
def Correct (es : List Entry) (rel : Str) (md5 : Option Str) : Except PyErr Bool → Prop
  | .ok b => ∃ e ∈ es, e.path = slashes rel ∧ (b = true ↔ md5 = some e.hash)
  | .error _ => ∀ e ∈ es, e.path ≠ slashes rel

/-- `check_file` is right about every file, whatever its md5. No operation on
the files fails, and the task, if there is one, never asks to stop. -/
def AlwaysCorrect (es : List Entry) (final : Bool) (rel : Str) : Prop :=
  ∀ (env : Env) (user : Nat → Bool) (withTask : Bool) (s : St World) (p md5sums : Str),
    md5sums ≠ [] → s.world.read env md5sums = some (md5sumsText es final) →
    (∀ k, env.ioError k = none) → (∀ k, asks user withTask s k = false) →
    wp user (checkFile env p rel md5sums withTask)
      (fun b _ => Correct es rel (s.world.md5Of env p) (.ok b))
      (fun e _ => Correct es rel (s.world.md5Of env p) (.error e)) s

/-- For a listed path the first line that has an end and ends with `./rel`
carries the entry's hash; for another path there is no such line. -/
def FindsEntry (es : List Entry) (final : Bool) (rel : Str) : Prop :=
  (∀ e ∈ es, e.path = slashes rel → ∃ d, FirstEnds (ended es final) rel d ∧ d.hash = e.hash) ∧
  ((∀ e ∈ es, e.path ≠ slashes rel) → ∀ e ∈ ended es final, ¬ e.Ends rel)

theorem correct_of_findsEntry {es : List Entry} {final : Bool} {rel : Str}
    (h : FindsEntry es final rel) : AlwaysCorrect es final rel := by
  obtain ⟨hlisted, hother⟩ := h
  intro env user withTask s p md5sums hne hread hio hask
  by_cases hex : ∃ e ∈ es, e.path = slashes rel
  · obtain ⟨e, he, hpath⟩ := hex
    obtain ⟨d, hfirst, hhash⟩ := hlisted e he hpath
    rw [wp_checkFile_hit hne hread hio hfirst]
    have hmd5 := wp_getFileMd5_never (p := p) (s := s.map (World.advance 1)) hio hask
    refine wp_mono hmd5 (fun r _ hr => ⟨e, he, hpath, ?_⟩) fun _ _ hf => hf.elim
    rw [hr, hhash, decide_eq_true_iff]
    exact Iff.rfl
  · have hpath : ∀ e ∈ es, e.path ≠ slashes rel := fun e he hp => hex ⟨e, he, hp⟩
    rw [wp_checkFile_miss hne hread hio (hother hpath)]
    exact hpath

/-- A run on a file with the given hash. -/
theorem exists_md5 (es : List Entry) (final : Bool) (hash : Str) :
    ∃ (env : Env) (s : St World) (p md5sums : Str), md5sums ≠ [] ∧
      s.world.read env md5sums = some (md5sumsText es final) ∧ (∀ k, env.ioError k = none) ∧
      (∀ k, asks (fun _ => false) false s k = false) ∧ s.world.md5Of env p = some hash := by
  let env : Env := { (default : Env) with md5 := fun _ => hash }
  let w : World := { (default : World) with file := fun _ => some (md5sumsText es final) }
  exact ⟨env, ⟨w, false, 0⟩, "linux".toList, "md5sums.txt".toList, by decide, rfl, fun _ => rfl,
    fun _ => rfl, rfl⟩

theorem checkFile_correct_iff {es : List Entry} {final : Bool} {rel : Str}
    (hpaths : (es.map Entry.path).Nodup) :
    AlwaysCorrect es final rel ↔ FindsEntry es final rel := by
  refine ⟨fun h => ⟨fun e he hpath => ?_, fun hother d hd hend => ?_⟩, correct_of_findsEntry⟩
  · -- a file with the entry's hash has to be accepted
    obtain ⟨env, s, p, md5sums, hne, hread, hio, hask, hmd5⟩ := exists_md5 es final e.hash
    have hrun := h env (fun _ => false) false s p md5sums hne hread hio hask
    rcases firstEnds_or (ended es final) rel with hnone | ⟨d, hfirst⟩
    · rw [wp_checkFile_miss hne hread hio hnone] at hrun
      exact absurd hpath (hrun e he)
    · refine ⟨d, hfirst, ?_⟩
      rw [wp_checkFile_hit hne hread hio hfirst] at hrun
      have hboth := wp_and hrun (wp_getFileMd5_never (p := p) (s := s.map (World.advance 1)) hio hask)
      obtain ⟨r, -, -, ⟨e', he', hpath', hb⟩, hr⟩ := exists_run (wp_mono hboth (fun _ _ h => h)
        fun _ _ h => h.2)
      have hsame : e' = e := List.inj_on_of_nodup_map hpaths he' he (hpath'.trans hpath.symm)
      subst hsame
      have hr : r = some e'.hash := hr.trans hmd5
      rw [hmd5, hr, decide_eq_true_iff, Option.some.injEq] at hb
      exact (hb.2 rfl).symm
  · obtain ⟨env, s, p, md5sums, hne, hread, hio, hask, hmd5⟩ := exists_md5 es final []
    have hrun := h env (fun _ => false) false s p md5sums hne hread hio hask
    rcases firstEnds_or (ended es final) rel with hnone | ⟨e, hfirst⟩
    · exact hnone d hd hend
    · rw [wp_checkFile_hit hne hread hio hfirst] at hrun
      have hboth := wp_and hrun (wp_getFileMd5_never (p := p) (s := s.map (World.advance 1)) hio hask)
      obtain ⟨-, -, -, ⟨e', he', hpath', -⟩, -⟩ := exists_run (wp_mono hboth (fun _ _ h => h)
        fun _ _ h => h.2)
      exact hother e' he' hpath'

/-- The line of a kernel in md5sums. -/
def kernelEntry : Entry where
  hash := "d41d8cd98f00b204e9800998ecf8427e".toList
  gap := "  ".toList
  path := "boot/vmlinuz".toList
  hash_ne := by simp
  hash_solid := by simp [Str.Solid, Str.isSpace]
  gap_ne := by simp
  gap_space := by simp [Str.isSpace]
  path_line := by simp

theorem kernelEntry_path : kernelEntry.path = slashes "boot\\vmlinuz".toList := by decide

/-- The line of a ramdisk, with a hash of its own. -/
def initrdEntry : Entry :=
  { kernelEntry with
    hash := "900150983cd24fb0d6963f7d28e17f72".toList
    path := "boot/initrd.gz".toList
    hash_ne := by simp
    hash_solid := by simp [Str.Solid, Str.isSpace]
    path_line := by simp }

def readmeEntry : Entry :=
  { initrdEntry with
    path := "README".toList
    path_line := by simp }

/-- The kernel is in the second line, and the last line has no end. -/
theorem checkFile_correct_kernel :
    AlwaysCorrect [initrdEntry, kernelEntry, readmeEntry] false "boot\\vmlinuz".toList := by
  have hend : kernelEntry.Ends "boot\\vmlinuz".toList :=
    ⟨"d41d8cd98f00b204e9800998ecf8427e  ".toList, by decide⟩
  have hbefore : ¬ initrdEntry.Ends "boot\\vmlinuz".toList := by
    unfold Entry.Ends
    decide
  refine (checkFile_correct_iff (by decide)).2 ⟨fun e he hpath => ?_, fun h => ?_⟩
  · obtain rfl | rfl | rfl : e = _ ∨ e = _ ∨ e = _ := by simpa using he
    · exact absurd hpath (by decide)
    · exact ⟨kernelEntry, ⟨[initrdEntry], [], rfl, fun d hd => List.mem_singleton.1 hd ▸ hbefore, hend⟩, rfl⟩
    · exact absurd hpath (by decide)
  · exact absurd kernelEntry_path (h kernelEntry (by simp))

/-- The only line has no end: the entry is listed, and `check_file` raises. -/
theorem unended_line_not_found :
    ¬ ∀ (es : List Entry) (final : Bool) (rel : Str), (es.map Entry.path).Nodup →
      AlwaysCorrect es final rel := by
  intro h
  obtain ⟨env, s, p, md5sums, hne, hread, hio, hask, -⟩ := exists_md5 [kernelEntry] false []
  have hrun := h [kernelEntry] false "boot\\vmlinuz".toList (by simp) env (fun _ => false) false s p
    md5sums hne hread hio hask
  rw [wp_checkFile_miss hne hread hio (by simp [ended])] at hrun
  exact hrun kernelEntry (by simp) kernelEntry_path

end Wubi.Backend
