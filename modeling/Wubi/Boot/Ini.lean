import Wubi.Backend.Model
import Wubi.Core.Lines

/-!
# The entry in `boot.ini`

Model of `modify_bootini` and `undo_bootini` of
`src/wubi/backends/win32/backend.py` on the text of the file.

In the Python literals `'C:\archldr.mbr'` and `'c:\archldr.mbr'` the two
characters `\a` are one, the bell: both functions use the same key, and it is
not the path of the loader.

Results:
* `undo_modify`: any number of reinstallations is undone, and two with the
  same name are one.
* `modify_hasEntry_iff`: the section ends up with one entry for the loader only
  where there was one and the function finds nothing to change.
-/
namespace Wubi.Boot

open Wubi.Backend (PyErr)

/-- The key as the source spells it, in lower case. -/
def key : Str := ['c', ':', '\x07', 'r', 'c', 'h', 'l', 'd', 'r', '.', 'm', 'b', 'r']

/-- `'C:\archldr.mbr = "%s"' % name`
mirrors src/wubi/backends/win32/backend.py:525 -/
def bootLine (name : Str) : Str :=
  ['C', ':', '\x07', 'r', 'c', 'h', 'l', 'd', 'r', '.', 'm', 'b', 'r', ' ', '=', ' ', '"'] ++
    (name ++ ['"'])

/-- mirrors src/wubi/backends/win32/backend.py:526 -/
def oldLine (name : Str) : Str :=
  (Str.strip ((bootLine name).takeWhile (· ≠ '='))).lower

theorem oldLine_eq {name : Str} : oldLine name = key := rfl

/-- `is_section` behind a line.
mirrors src/wubi/backends/win32/backend.py:534-537 -/
def inSection (isSection : Bool) (line : Str) : Bool :=
  if line.strip.lower = "[operating systems]".toList then true
  else if line.strip.head? = some '[' then false
  else isSection

/-- The loop over the lines: it ends with the first replacement or insertion.
mirrors src/wubi/backends/win32/backend.py:533-543 -/
def modifyLines (name : Str) : Bool → List Str → List Str
  | _, [] => []
  | isSection, line :: lines =>
    if inSection isSection line ∧ (oldLine name).isPrefixOf line.strip.lower then
      bootLine name :: lines
    else if inSection isSection line ∧ line.strip = [] then bootLine name :: line :: lines
    else line :: modifyLines name (inSection isSection line) lines

/-- The new text of the file; `content[-1]` raises on an empty one.
mirrors src/wubi/backends/win32/backend.py:528-545 -/
def modifyBootini (name content : Str) : Except PyErr Str :=
  if content = [] then .error .indexError
  else .ok (['\n'].intercalate (modifyLines name false (content.ensureNewline.splitOn '\n')))

/-- mirrors src/wubi/backends/common/utils.py:265-278 -/
def removeLineInFile (rmLine : Str) (text : Str) : Str :=
  (text.readLines.map fun (line : Str) => if rmLine.lower.isPrefixOf line.lower then [] else line).flatten

/-- mirrors src/wubi/backends/win32/backend.py:548-555 -/
def undoBootini (text : Str) : Str := removeLineInFile key text

/-! ## The line that is written -/

section
variable {name d e : Str}

theorem bootLine_head : (bootLine name).head? = some 'C' := rfl

theorem bootLine_strip : (bootLine name).strip = bootLine name := by
  have hlast : (bootLine name).getLast? = some '"' := by
    rw [bootLine, ← List.append_assoc, List.getLast?_concat]
  exact Str.strip_eq_self bootLine_head rfl hlast rfl

theorem key_bootLine : key.isPrefixOf (bootLine name).lower = true := by
  simp [key, bootLine, Str.lower]

theorem bootLine_newline (h : '\n' ∉ name) : '\n' ∉ bootLine name := by
  simp [bootLine, h]

/-! ## The loop -/

/-- A line that starts with the letter of the drive is no header. -/
theorem inSection_of_head {isSection : Bool} {line k : Str} (hk : k.head? = some 'c')
    (h : k.isPrefixOf line.strip.lower = true) : inSection isSection line = isSection := by
  obtain ⟨rest, hrest⟩ := List.isPrefixOf_iff_prefix.1 h
  have hc : line.strip.lower.head? = some 'c' := by
    rw [← hrest, List.head?_append, hk]
    rfl
  rw [inSection, if_neg, if_neg]
  · intro hb
    rw [Str.lower, List.head?_map, hb] at hc
    cases hc
  · intro hh
    rw [hh] at hc
    cases hc

theorem inSection_of_key {isSection : Bool} {line : Str}
    (h : key.isPrefixOf line.strip.lower = true) : inSection isSection line = isSection :=
  inSection_of_head rfl h

theorem inSection_of_blank {isSection : Bool} {line : Str} (h : line.strip = []) :
    inSection isSection line = isSection := by
  rw [inSection, h, if_neg (by decide), if_neg (by decide)]

/-- The entry that the loop replaces. -/
def OldEntry (isSection : Bool) (line : Str) : Prop :=
  isSection = true ∧ key.isPrefixOf line.strip.lower = true

/-- The blank line in front of which it inserts. -/
def BlankLine (isSection : Bool) (line : Str) : Prop := isSection = true ∧ line.strip = []

theorem modifyLines_old {isSection : Bool} {line : Str} {lines : List Str}
    (h : OldEntry isSection line) : modifyLines name isSection (line :: lines) = bootLine name :: lines := by
  rw [modifyLines, oldLine_eq, inSection_of_key h.2]
  exact if_pos h

theorem modifyLines_blank {isSection : Bool} {line : Str} {lines : List Str}
    (h : BlankLine isSection line) :
    modifyLines name isSection (line :: lines) = bootLine name :: line :: lines := by
  have hkey : ¬ (isSection = true ∧ key.isPrefixOf line.strip.lower = true) := by
    rw [h.2]
    intro hkey
    exact absurd hkey.2 (by decide)
  rw [modifyLines, oldLine_eq, inSection_of_blank h.2, if_neg hkey]
  exact if_pos h

theorem modifyLines_skip {isSection : Bool} {line : Str} {lines : List Str}
    (hkey : ¬ OldEntry isSection line) (hblank : ¬ BlankLine isSection line) :
    modifyLines name isSection (line :: lines) =
      line :: modifyLines name (inSection isSection line) lines := by
  rw [modifyLines, oldLine_eq, if_neg, if_neg]
  · intro h
    rw [inSection_of_blank h.2] at h
    exact hblank h
  · intro h
    rw [inSection_of_key h.2] at h
    exact hkey h

theorem oldEntry_bootLine : OldEntry true (bootLine d) := ⟨rfl, by rw [bootLine_strip]; exact key_bootLine⟩

theorem mem_modifyLines {isSection : Bool} {lines : List Str} {m : Str}
    (h : m ∈ modifyLines name isSection lines) : m ∈ lines ∨ m = bootLine name := by
  induction lines generalizing isSection with
  | nil => cases h
  | cons line lines ih =>
    by_cases hold : OldEntry isSection line
    · rw [modifyLines_old hold] at h
      exact (List.mem_cons.1 h).symm.imp_left (List.mem_cons_of_mem _)
    · by_cases hblank : BlankLine isSection line
      · rw [modifyLines_blank hblank] at h
        exact (List.mem_cons.1 h).symm
      · rw [modifyLines_skip hold hblank] at h
        rcases List.mem_cons.1 h with rfl | h
        · exact .inl List.mem_cons_self
        · exact (ih h).imp_left (List.mem_cons_of_mem _)

/-- A second pass finds the line of the first one and replaces it. -/
theorem modifyLines_again {isSection : Bool} {lines : List Str} :
    modifyLines e isSection (modifyLines d isSection lines) = modifyLines e isSection lines := by
  induction lines generalizing isSection with
  | nil => rfl
  | cons line lines ih =>
    by_cases hold : OldEntry isSection line
    · rw [modifyLines_old hold, modifyLines_old hold, hold.1, modifyLines_old oldEntry_bootLine]
    · by_cases hblank : BlankLine isSection line
      · rw [modifyLines_blank hblank, modifyLines_blank hblank, hblank.1,
          modifyLines_old oldEntry_bootLine]
      · rw [modifyLines_skip hold hblank, modifyLines_skip hold hblank,
          modifyLines_skip hold hblank, ih]

/-! ## Undoing -/

/-- What `undo_bootini` keeps. -/
def keepLine (line : Str) : Bool := !key.isPrefixOf line.lower

theorem keepLine_of {line : Str} (h : ¬ key.isPrefixOf line.strip.lower = true) :
    keepLine line = true := by
  rw [keepLine, Bool.not_eq_true', ← Bool.not_eq_true]
  intro hkey
  apply h
  rw [List.isPrefixOf_iff_prefix] at hkey ⊢
  exact Str.lower_prefix_strip (c := 'c') (d := 'r') rfl rfl rfl rfl hkey

theorem keepLine_bootLine : keepLine (bootLine d) = false := by rw [keepLine, key_bootLine]; rfl

/-- The loop ends in front of the empty string behind the last line, and
without the lines that undo removes the text is the old one. -/
theorem modifyLines_end {isSection : Bool} {lines : List Str}
    (hno : ∀ l ∈ lines, ¬ key.isPrefixOf l.strip.lower = true) :
    ∃ ms, modifyLines name isSection (lines ++ [[]]) = ms ++ [[]] ∧ ms.filter keepLine = lines := by
  have hkeep : ∀ {ls : List Str}, (∀ l ∈ ls, ¬ key.isPrefixOf l.strip.lower = true) →
      ls.filter keepLine = ls := by
    intro ls hls
    exact List.filter_eq_self.2 fun l hl => keepLine_of (hls l hl)
  induction lines generalizing isSection with
  | nil =>
    cases isSection with
    | true =>
      refine ⟨[bootLine name], modifyLines_blank ⟨rfl, rfl⟩, ?_⟩
      simp [keepLine_bootLine]
    | false =>
      refine ⟨[], ?_, rfl⟩
      have hold : ¬ OldEntry false [] := fun h => Bool.false_ne_true h.1
      have hblank : ¬ BlankLine false [] := fun h => Bool.false_ne_true h.1
      rw [List.nil_append, modifyLines_skip hold hblank]
      rfl
  | cons line lines ih =>
    have hold : ¬ OldEntry isSection line := fun h => hno line List.mem_cons_self h.2
    have hrest : ∀ l ∈ lines, ¬ key.isPrefixOf l.strip.lower = true :=
      fun l hl => hno l (List.mem_cons_of_mem _ hl)
    by_cases hblank : BlankLine isSection line
    · refine ⟨bootLine name :: line :: lines, ?_, ?_⟩
      · rw [List.cons_append, modifyLines_blank hblank]; rfl
      · rw [List.filter_cons_of_neg (by simp [keepLine_bootLine]), hkeep hno]
    · obtain ⟨ms, hms, hfilter⟩ := @ih (inSection isSection line) hrest
      refine ⟨line :: ms, ?_, ?_⟩
      · rw [List.cons_append, modifyLines_skip hold hblank, hms]; rfl
      · rw [List.filter_cons_of_pos (keepLine_of (hno line List.mem_cons_self)), hfilter]

theorem undoBootini_unlines {ls : List Str} (h : ∀ l ∈ ls, '\n' ∉ l) :
    undoBootini (Str.unlines ls) = Str.unlines (ls.filter keepLine) := by
  have hkey : ∀ l : Str, key.lower.isPrefixOf (Str.lower (l ++ ['\n'])) = key.isPrefixOf l.lower := by
    intro l
    have hlow : Str.lower (l ++ ['\n']) = l.lower ++ ['\n'] := List.map_append
    show key.isPrefixOf (Str.lower (l ++ ['\n'])) = _
    rw [hlow, Bool.eq_iff_iff, List.isPrefixOf_iff_prefix, List.isPrefixOf_iff_prefix]
    constructor
    · intro hp
      rcases List.prefix_concat_iff.1 hp with heq | hp
      · have := congrArg List.getLast? heq
        rw [List.getLast?_concat] at this
        cases this
      · exact hp
    · exact fun hp => hp.trans (List.prefix_append _ _)
  rw [undoBootini, removeLineInFile, Str.readLines_unlines h]
  clear h
  induction ls with
  | nil => rfl
  | cons l ls ih =>
    rw [List.map_cons, List.map_cons, List.flatten_cons, ih, hkey]
    cases hl : key.isPrefixOf l.lower with
    | true => rw [List.filter_cons_of_neg (by simp [keepLine, hl])]; rfl
    | false =>
      rw [List.filter_cons_of_pos (by simp [keepLine, hl]), Str.unlines_cons]
      simp

/-! ## On the text -/

/-- No line has the key. -/
def Fresh (content : Str) : Prop :=
  ∀ l ∈ content.splitOn '\n', ¬ key.isPrefixOf (Str.strip l).lower = true

instance {content : Str} : Decidable (Fresh content) :=
  inferInstanceAs (Decidable (∀ l ∈ content.splitOn '\n', _))

variable {content : Str}

theorem modify_text (hne : content ≠ []) (hfresh : Fresh content) :
    ∃ ls, Str.ensureNewline content = Str.unlines ls ∧
      (∀ d, modifyBootini d content =
        .ok (['\n'].intercalate (modifyLines d false (ls ++ [[]])))) ∧
      ∀ d, '\n' ∉ d → ∃ ms, modifyBootini d content = .ok (Str.unlines ms) ∧ ms ≠ [] ∧
        (∀ m ∈ ms, '\n' ∉ m) ∧ modifyLines d false (ls ++ [[]]) = ms ++ [[]] ∧
        ms.filter keepLine = ls := by
  obtain ⟨ls, hls, hnl, heq⟩ := Str.ensureNewline_eq hne
  have hmodify : ∀ d, modifyBootini d content =
      .ok (['\n'].intercalate (modifyLines d false (ls ++ [[]]))) := by
    intro d
    rw [modifyBootini, if_neg hne, heq, Str.splitOn_unlines hnl]
  refine ⟨ls, heq, hmodify, fun d hd => ?_⟩
  have hno : ∀ l ∈ ls, ¬ key.isPrefixOf l.strip.lower = true :=
    fun l hl => hfresh l (Str.mem_splitOn_of_mem hnl heq hl)
  have hend : ∃ ms, modifyLines d false (ls ++ [[]]) = ms ++ [[]] ∧ ms.filter keepLine = ls :=
    modifyLines_end hno
  obtain ⟨ms, hms, hfilter⟩ := hend
  refine ⟨ms, ?_, ?_, ?_, hms, hfilter⟩
  · rw [hmodify, hms, Str.intercalate_unlines, List.append_nil]
  · intro h
    exact hls (by rw [← hfilter, h]; rfl)
  · intro m hm
    have hmem : m ∈ modifyLines d false (ls ++ [[]]) := by
      rw [hms]
      exact List.mem_append_left _ hm
    rcases mem_modifyLines hmem with h | rfl
    · rcases List.mem_append.1 h with h | h
      · exact hnl m h
      · rw [List.mem_singleton.1 h]; exact List.not_mem_nil
    · exact bootLine_newline hd

/-- A pass on the result of another does what it does on the original text. -/
theorem modify_modify (hne : content ≠ []) (hfresh : Fresh content) (hd : '\n' ∉ d) :
    ∃ t, modifyBootini d content = .ok t ∧ ∀ e, modifyBootini e t = modifyBootini e content := by
  obtain ⟨ls, -, hmodify, hsome⟩ := modify_text hne hfresh
  obtain ⟨ms, hms, hmne, hnl, hlines, -⟩ := hsome d hd
  refine ⟨Str.unlines ms, hms, fun e => ?_⟩
  have htext : Str.unlines ms ≠ [] := by
    intro h
    have := Str.unlines_getLast hmne
    rw [h] at this
    cases this
  rw [modifyBootini, if_neg htext, Str.ensureNewline_unlines hmne, Str.splitOn_unlines hnl, ← hlines,
    modifyLines_again, hmodify]

/-- `n` passes are the last of them. -/
theorem modify_all (hne : content ≠ []) (hfresh : Fresh content) {ds : List Str}
    (hds : ∀ d ∈ ds, '\n' ∉ d) (hd : '\n' ∉ d) :
    (d :: ds).foldlM (fun c d => modifyBootini d c) content =
      modifyBootini ((d :: ds).getLast (List.cons_ne_nil d ds)) content := by
  induction ds generalizing d with
  | nil => simp
  | cons e ds ih =>
    obtain ⟨t, ht, hagain⟩ := modify_modify hne hfresh hd
    have hstep : (e :: ds).foldlM (fun c d => modifyBootini d c) t =
        (e :: ds).foldlM (fun c d => modifyBootini d c) content := by
      rw [List.foldlM_cons, List.foldlM_cons, hagain]
    rw [List.foldlM_cons, ht, List.getLast_cons (List.cons_ne_nil e ds),
      ← ih (fun x hx => hds x (List.mem_cons_of_mem _ hx)) (hds e List.mem_cons_self)]
    exact hstep

/-- Reinstallations are undone, and two with the same name are one. -/
theorem undo_modify (hne : content ≠ []) (hfresh : Fresh content) :
    (∀ names : List Str, names ≠ [] → (∀ d ∈ names, '\n' ∉ d) →
      (names.foldlM (fun c d => modifyBootini d c) content).map undoBootini =
        .ok (Str.ensureNewline content)) ∧
    ∀ d, '\n' ∉ d →
      (modifyBootini d content).bind (modifyBootini d) = modifyBootini d content := by
  constructor
  · intro names hnames hnl
    obtain ⟨d, ds, rfl⟩ := List.exists_cons_of_ne_nil hnames
    have hlast : '\n' ∉ (d :: ds).getLast (List.cons_ne_nil d ds) := hnl _ (List.getLast_mem _)
    rw [modify_all hne hfresh (fun x hx => hnl x (List.mem_cons_of_mem _ hx))
      (hnl d List.mem_cons_self)]
    obtain ⟨ls, heq, -, hsome⟩ := modify_text hne hfresh
    obtain ⟨ms, hms, -, hmnl, -, hfilter⟩ := hsome _ hlast
    rw [hms, heq, ← hfilter]
    exact congrArg Except.ok (undoBootini_unlines hmnl)
  · intro d hd
    obtain ⟨t, ht, hagain⟩ := modify_modify hne hfresh hd
    rw [ht]
    exact (hagain d).trans ht

/-- A file with one system in it. -/
def windowsIni : Str := "[operating systems]\nC:\\=\"XP\"\n".toList

/-- The entry goes in behind the one that is there. -/
theorem undo_modify_windows :
    modifyBootini ['U'] windowsIni = .ok ("[operating systems]\nC:\\=\"XP\"\n".toList ++
      (bootLine ['U'] ++ ['\n'])) ∧
    (([['U'], ['K'], ['U']].foldlM (fun c d => modifyBootini d c) windowsIni).map undoBootini =
      .ok windowsIni) ∧
    (modifyBootini ['U'] windowsIni).bind (modifyBootini ['U']) =
      modifyBootini ['U'] windowsIni := by
  obtain ⟨hundo, htwice⟩ := @undo_modify windowsIni (by decide) (by decide)
  exact ⟨by decide, hundo _ (by decide) (by decide), htwice _ (by decide)⟩

/-! ## The entry for the loader -/

/-- The file that has been copied to drive `C:`.
mirrors src/wubi/backends/win32/backend.py:522 -/
def loaderPath : Str := Str.join ['C', ':', '\\'] "archldr.mbr".toList

def isLoaderLine (line : Str) : Bool := loaderPath.lower.isPrefixOf line.strip.lower

/-- The lines of the section. -/
def osLines : Bool → List Str → List Str
  | _, [] => []
  | isSection, line :: lines =>
    if inSection isSection line then line :: osLines (inSection isSection line) lines
    else osLines (inSection isSection line) lines

/-- The section has one entry for the loader, `x`, which names the distro, and
the rest of the file is as before. -/
def HasEntry (name : Str) (before after : List Str) : Prop :=
  ∃ pre x post, after = pre ++ x :: post ∧ pre.foldl inSection false = true ∧
    (osLines false after).filter isLoaderLine = [x] ∧ name <:+: x ∧
    (before = pre ++ post ∨ ∃ old, isLoaderLine old = true ∧ before = pre ++ old :: post)

/-- The loop finds nothing to change: there is no blank line in front of the
first line with the key, and that line is the one it writes. -/
def Quiet (name : Str) : Bool → List Str → Prop
  | _, [] => True
  | isSection, line :: lines =>
    (OldEntry isSection line ∧ line = bootLine name) ∨
      (¬ OldEntry isSection line ∧ ¬ BlankLine isSection line ∧
        Quiet name (inSection isSection line) lines)

theorem modifyLines_eq_self_iff {isSection : Bool} {lines : List Str} :
    modifyLines name isSection lines = lines ↔ Quiet name isSection lines := by
  induction lines generalizing isSection with
  | nil => simp [modifyLines, Quiet]
  | cons line lines ih =>
    by_cases hold : OldEntry isSection line
    · rw [modifyLines_old hold]
      simp [Quiet, hold, eq_comm]
    · by_cases hblank : BlankLine isSection line
      · rw [modifyLines_blank hblank]
        have hne : bootLine name :: line :: lines ≠ line :: lines := by
          intro h
          have := congrArg List.length h
          simp at this
        simp [Quiet, hold, hblank, hne]
      · rw [modifyLines_skip hold hblank, List.cons.injEq, ih]
        simp [Quiet, hold, hblank]

/-- Where the loop changes something there is one more `bootLine`. -/
theorem count_modifyLines {isSection : Bool} {lines : List Str}
    (h : modifyLines name isSection lines ≠ lines) :
    (modifyLines name isSection lines).count (bootLine name) = lines.count (bootLine name) + 1 := by
  induction lines generalizing isSection with
  | nil => exact absurd rfl h
  | cons line lines ih =>
    by_cases hold : OldEntry isSection line
    · rw [modifyLines_old hold] at h ⊢
      have hne : line ≠ bootLine name := by
        intro heq
        exact h (by rw [heq])
      rw [List.count_cons_self, List.count_cons_of_ne hne]
    · by_cases hblank : BlankLine isSection line
      · rw [modifyLines_blank hblank, List.count_cons_self]
      · rw [modifyLines_skip hold hblank] at h ⊢
        have hrest : modifyLines name (inSection isSection line) lines ≠ lines := by
          intro heq
          exact h (by rw [heq])
        rw [List.count_cons, List.count_cons, ih hrest]
        omega

theorem loaderPath_lower : loaderPath.lower =
    ['c', ':', '\\', 'a', 'r', 'c', 'h', 'l', 'd', 'r', '.', 'm', 'b', 'r'] := by decide

theorem isLoaderLine_bootLine : isLoaderLine (bootLine d) = false := by
  rw [isLoaderLine, bootLine_strip, loaderPath_lower]
  rfl

theorem ne_bootLine {x : Str} (h : isLoaderLine x = true) : x ≠ bootLine d := by
  rintro rfl
  rw [isLoaderLine_bootLine] at h
  cases h

/-- No pass writes the entry. -/
theorem modifyLines_of_hasEntry {lines : List Str}
    (h : HasEntry name lines (modifyLines name false lines)) : modifyLines name false lines = lines := by
  obtain ⟨pre, x, post, hafter, -, hone, -, hbefore⟩ := h
  have hx : isLoaderLine x = true := by
    have hmem : x ∈ (osLines false (modifyLines name false lines)).filter isLoaderLine := by
      rw [hone]; exact List.mem_singleton_self x
    exact (List.mem_filter.1 hmem).2
  by_contra hne
  have hcount := count_modifyLines hne
  rw [hafter, List.count_append, List.count_cons_of_ne (ne_bootLine hx)] at hcount
  rcases hbefore with rfl | ⟨old, hold, rfl⟩
  · rw [List.count_append] at hcount
    omega
  · rw [List.count_append, List.count_cons_of_ne (ne_bootLine hold)] at hcount
    omega

theorem exists_of_mem_osLines {isSection : Bool} {lines : List Str} {x : Str}
    (hloader : isLoaderLine x = true) (hx : x ∈ osLines isSection lines) :
    ∃ pre post, lines = pre ++ x :: post ∧ pre.foldl inSection isSection = true := by
  have hsame : ∀ sec, inSection sec x = sec := by
    intro sec
    rw [isLoaderLine, loaderPath_lower] at hloader
    exact inSection_of_head rfl hloader
  induction lines generalizing isSection with
  | nil => cases hx
  | cons line lines ih =>
    rw [osLines] at hx
    by_cases hxl : x = line
    · subst hxl
      cases isSection with
      | true => exact ⟨[], lines, rfl, rfl⟩
      | false =>
        rw [hsame, if_neg (by decide)] at hx
        obtain ⟨pre, post, rfl, hpre⟩ := ih hx
        refine ⟨x :: pre, post, rfl, ?_⟩
        rw [List.foldl_cons, hsame]
        exact hpre
    · have hrest : x ∈ osLines (inSection isSection line) lines := by
        split at hx
        · exact (List.mem_cons.1 hx).resolve_left hxl
        · exact hx
      obtain ⟨pre, post, rfl, hpre⟩ := ih hrest
      exact ⟨line :: pre, post, rfl, hpre⟩

theorem hasEntry_iff {lines : List Str} :
    HasEntry name lines (modifyLines name false lines) ↔
      Quiet name false lines ∧ ∃ x, (osLines false lines).filter isLoaderLine = [x] ∧ name <:+: x := by
  rw [← modifyLines_eq_self_iff]
  constructor
  · intro h
    have hself := modifyLines_of_hasEntry h
    obtain ⟨-, x, -, -, -, hone, hname, -⟩ := h
    rw [hself] at hone
    exact ⟨hself, x, hone, hname⟩
  · intro h
    obtain ⟨hself, x, hone, hname⟩ := h
    have hmem : x ∈ (osLines false lines).filter isLoaderLine := by
      rw [hone]; exact List.mem_singleton_self x
    obtain ⟨hx, hloader⟩ := List.mem_filter.1 hmem
    obtain ⟨pre, post, hsplit, hpre⟩ := exists_of_mem_osLines hloader hx
    rw [hself]
    exact ⟨pre, x, post, hsplit, hpre, hone, hname, .inr ⟨x, hloader, hsplit⟩⟩

/-- The lines that the function works on. -/
def linesOf (content : Str) : List Str := content.ensureNewline.splitOn '\n'

/-- The call returns and leaves the entry in the file. -/
def Entered (name content : Str) : Prop :=
  ∃ text, modifyBootini name content = .ok text ∧
    HasEntry name (linesOf content) (text.splitOn '\n')

theorem modifyLines_ne_nil {isSection : Bool} {lines : List Str} (h : lines ≠ []) :
    modifyLines name isSection lines ≠ [] := by
  obtain ⟨line, lines, rfl⟩ := List.exists_cons_of_ne_nil h
  rw [modifyLines]
  split
  · exact List.cons_ne_nil _ _
  · split <;> exact List.cons_ne_nil _ _

/-- The lines of the new file, as the loop leaves them. -/
theorem splitOn_modifyBootini (hname : '\n' ∉ name) (hne : content ≠ []) :
    ∃ text, modifyBootini name content = .ok text ∧
      text.splitOn '\n' = modifyLines name false (linesOf content) := by
  refine ⟨_, if_neg hne, List.splitOn_intercalate '\n' (fun l hl => ?_) ?_⟩
  · rcases mem_modifyLines hl with h | rfl
    · exact Str.not_mem_of_mem_splitOn h
    · exact bootLine_newline hname
  · exact modifyLines_ne_nil (List.splitOn_ne_nil _ _)

theorem mem_of_filter_osLines {lines : List Str} {x : Str}
    (h : (osLines false lines).filter isLoaderLine = [x]) : x ∈ lines := by
  have hmem : x ∈ (osLines false lines).filter isLoaderLine := by
    rw [h]; exact List.mem_singleton_self x
  obtain ⟨hx, hloader⟩ := List.mem_filter.1 hmem
  obtain ⟨pre, post, rfl, -⟩ := exists_of_mem_osLines hloader hx
  exact List.mem_append_right _ List.mem_cons_self

/-- The section has its entry afterwards only where it had it before and the
call changes nothing. -/
theorem modify_hasEntry_iff :
    Entered name content ↔ Quiet name false (linesOf content) ∧
      ∃ x, (osLines false (linesOf content)).filter isLoaderLine = [x] ∧ name <:+: x := by
  by_cases hname : '\n' ∈ name
  · -- no line holds such a name
    have hno : ∀ {text x : Str}, x ∈ text.splitOn '\n' → ¬ name <:+: x :=
      fun hx h => Str.not_mem_of_mem_splitOn hx (h.subset hname)
    constructor
    · intro ⟨text, _, _, x, _, _, _, hone, hin, _⟩
      exact absurd hin (hno (mem_of_filter_osLines hone))
    · intro ⟨_, x, hone, hin⟩
      exact absurd hin (hno (mem_of_filter_osLines hone))
  · by_cases hne : content = []
    · subst hne
      constructor
      · intro ⟨text, htext, _⟩
        cases htext
      · intro ⟨_, x, hone, _⟩
        have hnil : (osLines false (linesOf [])).filter isLoaderLine = [] := by decide
        rw [hnil] at hone
        cases hone
    · obtain ⟨text, htext, hlines⟩ := splitOn_modifyBootini hname hne
      rw [← hasEntry_iff]
      constructor
      · intro ⟨text', htext', h⟩
        rw [htext, Except.ok.injEq] at htext'
        rwa [← htext', hlines] at h
      · intro h
        exact ⟨text, htext, by rwa [hlines]⟩

/-- A fresh file gets no entry for the loader. -/
theorem fresh_file_not_entered : ¬ Entered ['A'] "[operating systems]\n".toList := by
  intro ⟨text, htext, pre, x, post, _, _, hone, _⟩
  have hrun : (modifyBootini ['A'] "[operating systems]\n".toList).map
      (fun t => (osLines false (t.splitOn '\n')).filter isLoaderLine) = .ok [] := by decide
  rw [htext] at hrun
  have hnil : (osLines false (text.splitOn '\n')).filter isLoaderLine = [] := Except.ok.inj hrun
  rw [hnil] at hone
  cases hone

end

end Wubi.Boot
