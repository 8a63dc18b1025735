import Wubi.Core.Find

/-!
# The menu block in `config.sys`

Model of `modify_configsys` and `undo_configsys` of
`src/wubi/backends/win32/backend.py` on the text of the file. The markers end
with a line: a marker line is one that ends in the text of the marker. The text
is what `read` gives in text mode, with one character for the end of a line.

Results:
* `undo_modify_configsys`: on a file without markers undoing leaves the text
  and blanks.
* `undoConfigsys_iff`: nothing outside the first complete block is lost or
  duplicated exactly where neither marker occurs or the first start comes
  before the first end.
-/
namespace Wubi.Boot

open Str (find pyFind sliceTo sliceFrom FirstAt)

def startText : Str := "REM WUBI MENU START".toList

def endText : Str := "REM WUBI MENU END".toList

/-- The marker that both functions look for. -/
def menuStart : Str := startText ++ ['\n']

def menuEnd : Str := endText ++ ['\n']

def menuLine (line : String) : Str := List.replicate 8 ' ' ++ line.toList ++ ['\n']

/-- What is appended; `$distro` stands there as it is.
mirrors src/wubi/backends/win32/backend.py:571-583 -/
def menuBlock : Str :=
  '\n' :: ((["REM WUBI MENU START", "[menu]", "menucolor=15,0", "menuitem=windows,Windows",
    "menuitem=archldr,$distro", "menudefault=windows,10", "[archldr]", "device=archldr.exe",
    "[windows]"].map menuLine).flatten ++ '\n' :: (menuLine "REM WUBI MENU END" ++
      List.replicate 8 ' '))

/-- mirrors src/wubi/backends/win32/backend.py:566-584 -/
def modifyConfigsys (config : Str) : Str :=
  if menuStart <:+: config then config else config ++ menuBlock

/-- mirrors src/wubi/backends/win32/backend.py:593-598 -/
def undoConfigsys (config : Str) : Str :=
  let s := pyFind menuStart config
  let e := pyFind menuEnd config
  let e := if s > 0 ∧ e > 0 then e + endText.length else e
  sliceTo config s ++ sliceFrom config e

/-! ## Undoing what was done -/

/-- No line holds the text of a marker. -/
def Unmarked (c : Str) : Prop := ∀ l ∈ c.splitOn '\n', ¬ startText <:+: l ∧ ¬ endText <:+: l

theorem startText_newline : '\n' ∉ startText := by decide

theorem endText_newline : '\n' ∉ endText := by decide

theorem menuStart_ne_nil : menuStart ≠ [] := by simp [menuStart]

theorem menuEnd_ne_nil : menuEnd ≠ [] := by simp [menuEnd]

theorem lengths : menuStart.length = 20 ∧ menuEnd.length = 18 ∧ endText.length = 17 := by
  decide

/-- What is left of the block around the text between the markers. -/
theorem indent_isSpace : ∀ x ∈ '\n' :: List.replicate 8 ' ', Str.isSpace x = true := by
  intro x hx
  rcases List.mem_cons.1 hx with rfl | hx
  · rfl
  · rw [List.eq_of_mem_replicate hx]
    rfl

theorem menuBlock_eq : find menuStart menuBlock = some 9 ∧
    find menuEnd menuBlock = some 236 ∧
    menuBlock.drop (236 + endText.length) = '\n' :: List.replicate 8 ' ' ∧
    menuBlock.take 9 = '\n' :: List.replicate 8 ' ' := by decide +kernel

variable {c c' : Str} {s e : Nat}

theorem undoConfigsys_found (hs : FirstAt menuStart c s) (he : FirstAt menuEnd c e)
    (hs0 : 0 < s) (he0 : 0 < e) : undoConfigsys c = c.take s ++ c.drop (e + endText.length) := by
  rw [undoConfigsys, pyFind, pyFind, (Str.find_eq_some menuStart_ne_nil).2 hs,
    (Str.find_eq_some menuEnd_ne_nil).2 he]
  have hpos : (s : Int) > 0 ∧ (e : Int) > 0 := by omega
  simp only [if_pos hpos, ← Int.natCast_add, Str.sliceTo_nat, Str.sliceFrom_nat]

/-- A marker at the very beginning counts as none for the end of the block. -/
theorem undoConfigsys_edge (hs : FirstAt menuStart c s) (he : FirstAt menuEnd c e)
    (h : s = 0 ∨ e = 0) : undoConfigsys c = c.take s ++ c.drop e := by
  rw [undoConfigsys, pyFind, pyFind, (Str.find_eq_some menuStart_ne_nil).2 hs,
    (Str.find_eq_some menuEnd_ne_nil).2 he]
  have hpos : ¬ ((s : Int) > 0 ∧ (e : Int) > 0) := by omega
  simp only [if_neg hpos, Str.sliceTo_nat, Str.sliceFrom_nat]

theorem undo_modify_configsys (h : Unmarked c) :
    ∃ w, (∀ x ∈ w, Str.isSpace x = true) ∧ undoConfigsys (modifyConfigsys c) = c ++ w := by
  have hstart : ¬ startText <:+: c := by
    intro hin
    obtain ⟨l, hl, hin⟩ := Str.infix_line startText_newline hin
    exact (h l hl).1 hin
  have hend : ¬ endText <:+: c := by
    intro hin
    obtain ⟨l, hl, hin⟩ := Str.infix_line endText_newline hin
    exact (h l hl).2 hin
  have hno : ¬ menuStart <:+: c := fun hin =>
    hstart ((List.prefix_append startText ['\n']).isInfix.trans hin)
  obtain ⟨hfs, hfe, hdrop, htake⟩ := menuBlock_eq
  have hs' : find menuStart (c ++ menuBlock) = some (9 + c.length) := by
    rw [menuStart, menuBlock, Str.find_append startText_newline hstart]
    exact congrArg (Option.map (· + c.length)) hfs
  have he' : find menuEnd (c ++ menuBlock) = some (236 + c.length) := by
    rw [menuEnd, menuBlock, Str.find_append endText_newline hend]
    exact congrArg (Option.map (· + c.length)) hfe
  refine ⟨('\n' :: List.replicate 8 ' ') ++ ('\n' :: List.replicate 8 ' '),
    fun x hx => (List.mem_append.1 hx).elim (indent_isSpace x) (indent_isSpace x), ?_⟩
  rw [modifyConfigsys, if_neg hno, undoConfigsys_found ((Str.find_eq_some menuStart_ne_nil).1 hs')
    ((Str.find_eq_some menuEnd_ne_nil).1 he') (by omega) (by omega), Nat.add_comm 9,
    List.take_length_add_append, htake, Nat.add_right_comm, Nat.add_comm _ c.length,
    List.drop_length_add_append, hdrop, List.append_assoc]

/-! ## What undoing removes -/

/-- The first complete block: the first start marker is at `s`, and the first
end marker behind it at `e`. -/
def Block (c : Str) (s e : Nat) : Prop :=
  FirstAt menuStart c s ∧ s < e ∧ menuEnd <+: c.drop e ∧
    ∀ j, s < j → j < e → ¬ menuEnd <+: c.drop j

/-- `c'` is `c` without a part of its first complete block. -/
def OnlyBlockRemoved (c c' : Str) : Prop :=
  ∃ i k, i ≤ k ∧ k ≤ c.length ∧ c' = c.take i ++ c.drop k ∧
    (i = k ∨ ∃ s e, Block c s e ∧ s ≤ i ∧ k ≤ e + menuEnd.length)

/-- The markers do not overlap. -/
theorem marks_apart (hs : menuStart <+: c.drop s) (he : menuEnd <+: c.drop e) (h : e ≤ s) :
    e + 18 ≤ s := by
  by_contra hlt
  rw [List.prefix_iff_getElem?] at hs he
  have hfirst : ∀ j, j < 18 → menuEnd[j]? = some 'R' → j = 0 := by decide
  have hR : (c)[s]? = some 'R' := by
    have := hs 0 (by rw [lengths.1]; omega)
    rw [List.getElem?_drop] at this
    exact this
  have hj : menuEnd[s - e]? = some 'R' := by
    have hlen : s - e < menuEnd.length := by rw [lengths.2.1]; omega
    have := he (s - e) hlen
    rw [List.getElem?_drop, Nat.add_sub_cancel' h, hR] at this
    rw [List.getElem?_eq_getElem hlen, this]
  have hzero := hfirst (s - e) (by omega) hj
  have heq : s = e := by omega
  subst heq
  have hS := hs 14 (by rw [lengths.1]; omega)
  have hE := he 14 (by rw [lengths.2.1]; omega)
  rw [hS] at hE
  have : menuStart[14]? ≠ menuEnd[14]? := by decide
  rw [List.getElem?_eq_getElem (by rw [lengths.1]; omega),
    List.getElem?_eq_getElem (by rw [lengths.2.1]; omega)] at this
  exact this hE

theorem OnlyBlockRemoved.length_le (h : OnlyBlockRemoved c c') : c'.length ≤ c.length := by
  obtain ⟨i, k, hik, hk, rfl, -⟩ := h
  rw [List.length_append, List.length_take, List.length_drop]
  omega

/-- Something is missing only if there is a complete block. -/
theorem OnlyBlockRemoved.block (h : OnlyBlockRemoved c c') (hlt : c'.length < c.length) :
    ∃ s e, Block c s e := by
  obtain ⟨i, k, hik, hk, rfl, rfl | ⟨s, e, hblock, -⟩⟩ := h
  · rw [List.take_append_drop] at hlt
    exact absurd hlt (Nat.lt_irrefl _)
  · exact ⟨s, e, hblock⟩

/-- Neither marker occurs, or both do and the start comes first. -/
def Paired (c : Str) : Prop :=
  (¬ menuStart <:+: c ∧ ¬ menuEnd <:+: c) ∨
    ∃ s e, FirstAt menuStart c s ∧ FirstAt menuEnd c e ∧ s < e

theorem undoConfigsys_of_paired (h : Paired c) : OnlyBlockRemoved c (undoConfigsys c) := by
  obtain ⟨-, hend, hlen⟩ := lengths
  rcases h with ⟨hs, he⟩ | ⟨s, e, hs, he, hlt⟩
  · -- both indices are -1
    refine ⟨c.length, c.length, Nat.le_refl _, Nat.le_refl _, ?_, .inl rfl⟩
    rw [undoConfigsys, pyFind, pyFind, (Str.find_eq_none menuStart_ne_nil).2 hs,
      (Str.find_eq_none menuEnd_ne_nil).2 he]
    simp [Str.sliceTo_last, Str.sliceFrom_last]
  · have hblock : Block c s e := ⟨hs, hlt, he.1, fun j _ hj => he.2 j hj⟩
    have he_le := FirstAt.length_le menuEnd_ne_nil he.1
    rw [hend] at he_le
    rcases Nat.eq_zero_or_pos s with rfl | hpos
    · -- a start at the very beginning: the end marker stays
      refine ⟨0, e, Nat.zero_le e, by omega, ?_, .inr ⟨0, e, hblock, Nat.le_refl 0, by omega⟩⟩
      exact undoConfigsys_edge hs he (.inl rfl)
    · refine ⟨s, e + endText.length, by omega, by omega, ?_, .inr ⟨s, e, hblock, Nat.le_refl s, ?_⟩⟩
      · exact undoConfigsys_found hs he hpos (by omega)
      · omega

theorem paired_of_undoConfigsys (h : OnlyBlockRemoved c (undoConfigsys c)) : Paired c := by
  obtain ⟨hstart, hend, hlen⟩ := lengths
  have hle := h.length_le
  cases hs : find menuStart c with
  | none =>
    have hs' := (Str.find_eq_none menuStart_ne_nil).1 hs
    cases he : find menuEnd c with
    | none => exact .inl ⟨hs', (Str.find_eq_none menuEnd_ne_nil).1 he⟩
    | some e =>
      -- all but the last character, and again from the end marker on
      have he_le := FirstAt.length_le menuEnd_ne_nil ((Str.find_eq_some menuEnd_ne_nil).1 he).1
      have hneg : ¬ ((-1 : Int) > 0 ∧ (e : Int) > 0) := by omega
      rw [undoConfigsys, pyFind, pyFind, hs, he] at hle
      simp only [if_neg hneg, Str.sliceTo_last, Str.sliceFrom_nat, List.length_append,
        List.length_take, List.length_drop] at hle
      omega
  | some s =>
    have hs' := (Str.find_eq_some menuStart_ne_nil).1 hs
    have hs_le := FirstAt.length_le menuStart_ne_nil hs'.1
    cases he : find menuEnd c with
    | none =>
      -- everything from the start marker on but the last character
      have hlt : (undoConfigsys c).length < c.length := by
        have hneg : ¬ ((s : Int) > 0 ∧ (-1 : Int) > 0) := by omega
        rw [undoConfigsys, pyFind, pyFind, hs, he]
        simp only [if_neg hneg, Str.sliceTo_nat, Str.sliceFrom_last, List.length_append,
          List.length_take, List.length_drop]
        omega
      obtain ⟨s', e', -, -, hend', -⟩ := h.block hlt
      exact absurd (FirstAt.isInfix hend') ((Str.find_eq_none menuEnd_ne_nil).1 he)
    | some e =>
      have he' := (Str.find_eq_some menuEnd_ne_nil).1 he
      refine .inr ⟨s, e, hs', he', ?_⟩
      by_contra hes
      -- what lies between the markers is there twice
      have hapart := marks_apart hs'.1 he'.1 (Nat.le_of_not_lt hes)
      rcases Nat.eq_zero_or_pos e with rfl | hpos
      · rw [undoConfigsys_edge hs' he' (.inr rfl), List.length_append, List.length_take,
          List.length_drop] at hle
        omega
      · rw [undoConfigsys_found hs' he' (by omega) hpos, List.length_append, List.length_take,
          List.length_drop] at hle
        omega

/-- Undoing is right after `modifyConfigsys` on a file without markers, and on
any file exactly where the markers are paired. -/
theorem undoConfigsys_iff (c : Str) :
    (Unmarked c →
      ∃ w, (∀ x ∈ w, Str.isSpace x = true) ∧ undoConfigsys (modifyConfigsys c) = c ++ w) ∧
    (OnlyBlockRemoved c (undoConfigsys c) ↔ Paired c) :=
  ⟨undo_modify_configsys, paired_of_undoConfigsys, undoConfigsys_of_paired⟩

/-- Without the end marker the file is cut off at the start marker. -/
theorem lone_start_cuts : undoConfigsys ("a\nREM WUBI MENU START\nb\n".toList) = "a\n\n".toList ∧
    ¬ OnlyBlockRemoved ("a\nREM WUBI MENU START\nb\n".toList) "a\n\n".toList := by
  have hno : ¬ menuEnd <:+: "a\nREM WUBI MENU START\nb\n".toList := by decide
  refine ⟨by decide, fun h => ?_⟩
  obtain ⟨s, e, -, -, hend, -⟩ := h.block (by decide)
  exact hno (FirstAt.isInfix hend)

end Wubi.Boot
