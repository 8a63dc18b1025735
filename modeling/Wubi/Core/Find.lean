import Mathlib.Data.List.Infix
import Wubi.Core.Lines

/-!
# Searching and slicing

`find` is Python's, with `none` for the -1 that `pyFind` gives, `replace` is
Python's too, and `sliceTo`, `sliceFrom` are `s[:i]` and `s[i:]` with indices
that may be negative. `FirstAt` says what `find` finds.
-/
namespace Wubi.Str

/-- The place of the first occurrence. -/
def find (m : Str) : Str → Option Nat
  | [] => if m = [] then some 0 else none
  | c :: s => if m.isPrefixOf (c :: s) then some 0 else (find m s).map (· + 1)

/-- `s.find(m)` -/
def pyFind (m s : Str) : Int :=
  match find m s with
  | some i => i
  | none => -1

/-- `s[:i]` -/
def sliceTo (s : Str) (i : Int) : Str :=
  if 0 ≤ i then s.take i.toNat else s.take (s.length - (-i).toNat)

/-- `s[i:]` -/
def sliceFrom (s : Str) (i : Int) : Str :=
  if 0 ≤ i then s.drop i.toNat else s.drop (s.length - (-i).toNat)

@[simp] theorem sliceTo_nat {s : Str} {i : Nat} : sliceTo s i = s.take i := by simp [sliceTo]

@[simp] theorem sliceFrom_nat {s : Str} {i : Nat} : sliceFrom s i = s.drop i := by simp [sliceFrom]

theorem sliceTo_last {s : Str} : sliceTo s (-1) = s.take (s.length - 1) := rfl

theorem sliceFrom_last {s : Str} : sliceFrom s (-1) = s.drop (s.length - 1) := rfl

/-- `s.replace(m, r)` behind `skip` characters that belong to an occurrence. -/
def replaceFrom (m r : Str) : Nat → Str → Str
  | _, [] => []
  | skip + 1, _ :: s => replaceFrom m r skip s
  | 0, c :: s =>
    if m.isPrefixOf (c :: s) then r ++ replaceFrom m r (m.length - 1) s
    else c :: replaceFrom m r 0 s

/-- `s.replace(m, r)` for a text `m` that is not empty. -/
def replace (m r s : Str) : Str := replaceFrom m r 0 s

/-- The first occurrence of `m` in `s` is at `i`. -/
def FirstAt (m s : Str) (i : Nat) : Prop := m <+: s.drop i ∧ ∀ j, j < i → ¬ m <+: s.drop j

variable {m s : Str} {i j : Nat}

theorem FirstAt.length_le (hm : m ≠ []) (h : m <+: s.drop i) : i + m.length ≤ s.length := by
  have hlen := h.length_le
  have hpos := List.length_pos_of_ne_nil hm
  rw [List.length_drop] at hlen
  omega

theorem FirstAt.isInfix (h : m <+: s.drop i) : m <:+: s :=
  h.isInfix.trans (List.drop_suffix i s).isInfix

theorem FirstAt.unique (h : FirstAt m s i) (h' : FirstAt m s j) : i = j := by
  rcases Nat.lt_trichotomy i j with hlt | heq | hgt
  · exact absurd h.1 (h'.2 i hlt)
  · exact heq
  · exact absurd h'.1 (h.2 j hgt)

theorem firstAt_of_find (hm : m ≠ []) (h : find m s = some i) : FirstAt m s i := by
  induction s generalizing i with
  | nil =>
    rw [find, if_neg hm] at h
    cases h
  | cons c s ih =>
    rw [find] at h
    split at h
    · rename_i hp
      cases h
      exact ⟨List.isPrefixOf_iff_prefix.1 hp, fun j hj => absurd hj (Nat.not_lt_zero j)⟩
    · rename_i hp
      obtain ⟨k, hk, rfl⟩ := Option.map_eq_some_iff.1 h
      obtain ⟨hat, hfirst⟩ := ih hk
      refine ⟨hat, fun j hj => ?_⟩
      cases j with
      | zero => exact fun hpre => hp (List.isPrefixOf_iff_prefix.2 hpre)
      | succ j => exact hfirst j (by omega)

theorem find_eq_none (hm : m ≠ []) : find m s = none ↔ ¬ m <:+: s := by
  induction s with
  | nil => simp [find, hm]
  | cons c s ih =>
    rw [find, List.infix_cons_iff, not_or, ← ih, ← List.isPrefixOf_iff_prefix]
    split
    · simp [*]
    · simp [*]

theorem find_eq_some (hm : m ≠ []) : find m s = some i ↔ FirstAt m s i := by
  constructor
  · exact firstAt_of_find hm
  · intro h
    cases hf : find m s with
    | none => exact absurd (FirstAt.isInfix h.1) ((find_eq_none hm).1 hf)
    | some j => rw [(firstAt_of_find hm hf).unique h]

/-- The first occurrence of a character. -/
theorem find_char {c : Char} {a b : Str} (h : c ∉ a) : find [c] (a ++ c :: b) = some a.length := by
  induction a with
  | nil => simp [find]
  | cons x a ih =>
    simp only [List.mem_cons, not_or] at h
    have hx : ¬ [c].isPrefixOf (x :: (a ++ c :: b)) = true := by
      simp [List.isPrefixOf, h.1]
    rw [List.cons_append, find, if_neg hx, ih h.2]
    rfl

/-! ## Behind an end of line -/

/-- What does not hold `c` does not reach over one. -/
theorem prefix_of_sep {c : Char} {b : Str} (hm : c ∉ m) (h : m <+: s ++ c :: b) : m <+: s := by
  induction s generalizing m with
  | nil =>
    rcases List.prefix_cons_iff.1 h with rfl | ⟨t, rfl, -⟩
    · exact List.prefix_rfl
    · exact absurd List.mem_cons_self hm
  | cons x s ih =>
    rcases List.prefix_cons_iff.1 h with rfl | ⟨t, rfl, ht⟩
    · exact List.nil_prefix
    · rw [List.cons_prefix_cons]
      exact ⟨rfl, ih (fun hmem => hm (List.mem_cons_of_mem _ hmem)) ht⟩

theorem infix_of_newline {b : Str} (hm : '\n' ∉ m) (h : m <:+: s ++ '\n' :: b) :
    m <:+: s ∨ m <:+: b := by
  induction s with
  | nil =>
    rcases List.infix_cons_iff.1 h with h | h
    · exact .inl (prefix_of_sep (s := []) hm h).isInfix
    · exact .inr h
  | cons c s ih =>
    rcases List.infix_cons_iff.1 h with h | h
    · exact .inl (prefix_of_sep (s := c :: s) hm h).isInfix
    · exact (ih h).imp_left fun hs => List.infix_cons_iff.2 (.inr hs)

/-- A text without ends of line lies in one line. -/
theorem infix_line (hm : '\n' ∉ m) (h : m <:+: s) : ∃ l ∈ s.splitOn '\n', m <:+: l := by
  obtain ⟨ls, last, hls, hlast, rfl⟩ := exists_unlines s
  rw [splitOn_unlines_append hls hlast]
  clear hls hlast
  induction ls with
  | nil => exact ⟨last, List.mem_singleton_self last, h⟩
  | cons l ls ih =>
    rw [unlines_cons, List.append_assoc] at h
    rcases infix_of_newline hm h with h | h
    · exact ⟨l, List.mem_cons_self, h⟩
    · obtain ⟨l', hl', hin⟩ := ih h
      exact ⟨l', List.mem_cons_of_mem _ hl', hin⟩

/-- A text that ends a line is searched behind the part without it. -/
theorem find_append {c b : Str} (hm : '\n' ∉ m) (h : ¬ m <:+: c) :
    find (m ++ ['\n']) (c ++ '\n' :: b) = (find (m ++ ['\n']) ('\n' :: b)).map (· + c.length) := by
  induction c with
  | nil => simp
  | cons x c ih =>
    have hrest : ¬ m <:+: c := fun hin => h (List.infix_cons_iff.2 (.inr hin))
    have hpre : ¬ (m ++ ['\n']).isPrefixOf (x :: (c ++ '\n' :: b)) = true := by
      intro hp
      have hm' : m <+: x :: c ++ '\n' :: b :=
        (List.prefix_append m ['\n']).trans (List.isPrefixOf_iff_prefix.1 hp)
      exact h (prefix_of_sep hm hm').isInfix
    rw [List.cons_append, find, if_neg hpre, ih hrest, Option.map_map]
    congr 1

end Wubi.Str
