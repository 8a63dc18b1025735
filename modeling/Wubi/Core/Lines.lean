import Wubi.Core.Text

/-!
# Texts and their lines

`readLines` is Python's `readlines` on a text file, `unlines` puts an end
after every line. A text is its lines (`exists_unlines`), and both ways of
cutting it, `readlines` and `split('\n')`, find them again.
-/
namespace Wubi.Str

/-- `f.readlines()`: the lines with their ends. -/
def readLines : Str → List Str
  | [] => []
  | c :: s =>
    if c = '\n' then ['\n'] :: readLines s
    else match readLines s with
      | [] => [[c]]
      | l :: ls => (c :: l) :: ls

/-- Every line with its end. -/
def unlines (ls : List Str) : Str := (ls.map (· ++ ['\n'])).flatten

@[simp] theorem unlines_nil : unlines [] = [] := rfl

@[simp] theorem unlines_cons {l : Str} {ls : List Str} :
    unlines (l :: ls) = l ++ '\n' :: unlines ls := by simp [unlines]

theorem unlines_append {ls ms : List Str} : unlines (ls ++ ms) = unlines ls ++ unlines ms := by
  simp [unlines]

theorem readLines_line {l s : Str} (hl : '\n' ∉ l) :
    readLines (l ++ '\n' :: s) = (l ++ ['\n']) :: readLines s := by
  induction l with
  | nil => simp [readLines]
  | cons c l ih =>
    simp only [List.mem_cons, not_or] at hl
    rw [List.cons_append, readLines, if_neg (Ne.symm hl.1), ih hl.2]
    rfl

theorem readLines_unlines {ls : List Str} (h : ∀ l ∈ ls, '\n' ∉ l) :
    readLines (unlines ls) = ls.map (· ++ ['\n']) := by
  induction ls with
  | nil => rfl
  | cons l ls ih =>
    rw [unlines_cons, readLines_line (h l List.mem_cons_self),
      ih fun m hm => h m (List.mem_cons_of_mem _ hm)]
    rfl

theorem intercalate_unlines {ls : List Str} {last : Str} :
    ['\n'].intercalate (ls ++ [last]) = unlines ls ++ last := by
  induction ls with
  | nil => simp [List.intercalate]
  | cons l ls ih =>
    cases ls with
    | nil => simp [List.intercalate]
    | cons m ls =>
      rw [unlines_cons, List.append_assoc]
      show _ = l ++ '\n' :: (unlines (m :: ls) ++ last)
      rw [← ih]
      simp [List.intercalate]

theorem splitOn_unlines_append {ls : List Str} {last : Str} (h : ∀ l ∈ ls, '\n' ∉ l)
    (hlast : '\n' ∉ last) : (unlines ls ++ last).splitOn '\n' = ls ++ [last] := by
  rw [← intercalate_unlines]
  refine List.splitOn_intercalate '\n' (fun l hl => ?_) (by simp)
  rcases List.mem_append.1 hl with hl | hl
  · exact h l hl
  · rw [List.mem_singleton.1 hl]; exact hlast

/-- `split('\n')` finds an empty string behind the last end of line. -/
theorem splitOn_unlines {ls : List Str} (h : ∀ l ∈ ls, '\n' ∉ l) :
    (unlines ls).splitOn '\n' = ls ++ [[]] := by
  have hlast : (unlines ls ++ []).splitOn '\n' = ls ++ [[]] := splitOn_unlines_append h (by simp)
  rwa [List.append_nil] at hlast

/-- Every text is made of lines, the last of which may lack its end. -/
theorem exists_unlines (s : Str) :
    ∃ ls last, (∀ l ∈ ls, '\n' ∉ l) ∧ '\n' ∉ last ∧ s = unlines ls ++ last := by
  induction s with
  | nil => exact ⟨[], [], by simp, by simp, rfl⟩
  | cons c s ih =>
    obtain ⟨ls, last, hls, hlast, rfl⟩ := ih
    by_cases hc : c = '\n'
    · refine ⟨[] :: ls, last, ?_, hlast, by simp [hc]⟩
      intro l hl
      rcases List.mem_cons.1 hl with rfl | hl
      · simp
      · exact hls l hl
    · cases ls with
      | nil => exact ⟨[], c :: last, by simp, by simp [Ne.symm hc, hlast], rfl⟩
      | cons m ls =>
        refine ⟨(c :: m) :: ls, last, ?_, hlast, by simp⟩
        intro l hl
        rcases List.mem_cons.1 hl with rfl | hl
        · simp [Ne.symm hc, hls m List.mem_cons_self]
        · exact hls l (List.mem_cons_of_mem _ hl)

theorem not_mem_of_mem_splitOn {s l : Str} (h : l ∈ s.splitOn '\n') : '\n' ∉ l := by
  obtain ⟨ls, last, hls, hlast, rfl⟩ := exists_unlines s
  rw [splitOn_unlines_append hls hlast] at h
  rcases List.mem_append.1 h with h | h
  · exact hls l h
  · rw [List.mem_singleton.1 h]; exact hlast

/-- `if s[-1] != '\n': s += '\n'` -/
def ensureNewline (s : Str) : Str := if s.getLast? = some '\n' then s else s ++ ['\n']

theorem unlines_getLast {ls : List Str} (h : ls ≠ []) : (unlines ls).getLast? = some '\n' := by
  obtain ⟨ms, l, rfl⟩ := List.eq_nil_or_concat ls |>.resolve_left h
  rw [List.concat_eq_append, unlines_append]
  simp

@[simp] theorem ensureNewline_unlines {ls : List Str} (h : ls ≠ []) :
    ensureNewline (unlines ls) = unlines ls := if_pos (unlines_getLast h)

/-- The lines of a text that has been given a final end of line. -/
theorem ensureNewline_eq {s : Str} (hs : s ≠ []) :
    ∃ ls, ls ≠ [] ∧ (∀ l ∈ ls, '\n' ∉ l) ∧ ensureNewline s = unlines ls := by
  obtain ⟨ls, last, hls, hlast, rfl⟩ := exists_unlines s
  cases last with
  | nil =>
    have hne : ls ≠ [] := by intro h; simp [h] at hs
    exact ⟨ls, hne, hls, by simp [hne]⟩
  | cons c last =>
    have hend : (unlines ls ++ c :: last).getLast? ≠ some '\n' := by
      rw [List.getLast?_append_of_ne_nil _ (List.cons_ne_nil _ _)]
      intro h
      exact hlast (List.mem_of_getLast? h)
    refine ⟨ls ++ [c :: last], by simp, ?_, ?_⟩
    · intro l hl
      rcases List.mem_append.1 hl with hl | hl
      · exact hls l hl
      · rw [List.mem_singleton.1 hl]; exact hlast
    · rw [ensureNewline, if_neg hend, unlines_append]
      simp

/-- The lines of a text are lines of it with a final end of line. -/
theorem mem_splitOn_of_mem {s : Str} {ls : List Str} (hls : ∀ l ∈ ls, '\n' ∉ l)
    (heq : ensureNewline s = unlines ls) {l : Str} (hl : l ∈ ls) : l ∈ s.splitOn '\n' := by
  by_cases hend : s.getLast? = some '\n'
  · rw [ensureNewline, if_pos hend] at heq
    rw [heq, splitOn_unlines hls]
    exact List.mem_append_left _ hl
  · rw [ensureNewline, if_neg hend] at heq
    have hne : ls ≠ [] := List.ne_nil_of_mem hl
    obtain ⟨ms, m, rfl⟩ := (List.eq_nil_or_concat ls).resolve_left hne
    rw [List.concat_eq_append] at heq hl hls
    have hs : s = unlines ms ++ m := by
      rw [unlines_append] at heq
      have : s ++ ['\n'] = (unlines ms ++ m) ++ ['\n'] := by simpa using heq
      exact List.append_cancel_right this
    rw [hs, splitOn_unlines_append (fun l h => hls l (List.mem_append_left _ h)) (hls m (by simp))]
    exact hl

/-! ## `strip` and `lower` -/

theorem isSpace_toLower {c : Char} (h : isSpace c = true) : isSpace c.toLower = true := by
  simp only [isSpace, Bool.or_eq_true, beq_iff_eq] at h
  rcases h with ((((rfl | rfl) | rfl) | rfl) | rfl) | rfl <;> decide

theorem strip_eq_self {s : Str} {c d : Char} (hc : s.head? = some c) (hcs : isSpace c = false)
    (hd : s.getLast? = some d) (hds : isSpace d = false) : s.strip = s := by
  cases s with
  | nil => cases hc
  | cons a s =>
    cases hc
    rw [strip, List.dropWhile_cons_of_neg (by simp [hcs])]
    rw [List.rdropWhile_eq_self_iff]
    intro hne
    rw [List.getLast?_eq_getLast_of_ne_nil hne] at hd
    rw [Option.some.inj hd, hds]
    decide

/-- A prefix that neither starts nor ends with a blank survives `strip`. -/
theorem prefix_strip {a s : Str} {c d : Char} (hc : a.head? = some c) (hcs : isSpace c = false)
    (hd : a.getLast? = some d) (hds : isSpace d = false) (h : a <+: s) : a <+: s.strip := by
  obtain ⟨b, rfl⟩ := h
  cases a with
  | nil => cases hc
  | cons x a =>
    cases hc
    rw [strip, List.cons_append, List.dropWhile_cons_of_neg (by simp [hcs]), ← List.cons_append]
    induction b using List.reverseRecOn with
    | nil =>
      rw [List.append_nil]
      have hself : (c :: a).rdropWhile isSpace = c :: a := by
        rw [List.rdropWhile_eq_self_iff]
        intro hne
        rw [List.getLast?_eq_getLast_of_ne_nil hne] at hd
        rw [Option.some.inj hd, hds]
        decide
      exact hself.symm ▸ List.prefix_rfl
    | append_singleton b y ih =>
      rw [← List.append_assoc]
      by_cases hy : isSpace y = true
      · rw [List.rdropWhile_concat_pos _ _ _ hy]; exact ih
      · rw [List.rdropWhile_concat_neg _ _ _ hy, List.append_assoc]
        exact List.prefix_append _ _

/-- The same for a prefix of the line in lower case. -/
theorem lower_prefix_strip {k s : Str} {c d : Char} (hc : k.head? = some c) (hcs : isSpace c = false)
    (hd : k.getLast? = some d) (hds : isSpace d = false) (h : k <+: s.lower) : k <+: s.strip.lower := by
  have hspace : ∀ {x y : Char}, x.toLower = y → isSpace y = false → isSpace x = false := by
    intro x y hxy hy
    by_contra hx
    rw [Bool.not_eq_false] at hx
    rw [← hxy, isSpace_toLower hx] at hy
    cases hy
  obtain ⟨rest, hrest⟩ := h
  obtain ⟨a, b, rfl, rfl, -⟩ : ∃ a b, s = a ++ b ∧ a.map Char.toLower = k ∧ b.map Char.toLower = rest :=
    List.map_eq_append_iff.1 hrest.symm
  rw [List.head?_map] at hc
  rw [List.getLast?_map] at hd
  obtain ⟨x, hx, hxc⟩ := Option.map_eq_some_iff.1 hc
  obtain ⟨y, hy, hyd⟩ := Option.map_eq_some_iff.1 hd
  have hkeep : a <+: (a ++ b : Str).strip :=
    prefix_strip hx (hspace hxc hcs) hy (hspace hyd hds) (List.prefix_append a b)
  exact hkeep.map Char.toLower

end Wubi.Str
