import Wubi.Core.Text

/-!
# Words of a text

`s.split()` cuts a text at white space. A space between two texts separates
their words (`words_sep`), so the words of a line are those of its parts in
turn (`words_join`). `flatMap_inj` is for lines whose parts have at least the
words that they should have.
-/
namespace Wubi.Str

/-- The text holds no white space. -/
def Solid (s : Str) : Prop := ∀ c ∈ s, isSpace c = false

theorem Solid.append {a b : Str} (ha : Solid a) (hb : Solid b) : Solid (a ++ b) := by
  intro c hc
  rcases List.mem_append.1 hc with h | h
  · exact ha c h
  · exact hb c h

theorem Solid.right {a b : Str} (h : Solid (a ++ b)) : Solid b :=
  fun c hc => h c (List.mem_append_right a hc)

@[simp] theorem words_nil : words [] = [] := rfl

theorem words_solid {s : Str} (hs : s ≠ []) (h : Solid s) : words s = [s] := by
  rw [words, List.splitOnP_eq_singleton h]
  simp [hs]

theorem words_sep {a b : Str} {c : Char} (hc : isSpace c = true) :
    words (a ++ c :: b) = words a ++ words b := by
  rw [words, words, words, List.splitOnP_append_cons a b hc, List.filter_append]

theorem mem_splitOnP {p : Char → Bool} {s w : Str} (h : w ∈ s.splitOnP p) :
    ∀ c ∈ w, p c = false := by
  induction s generalizing w with
  | nil =>
    rw [List.splitOnP_nil, List.mem_singleton] at h
    simp [h]
  | cons x s ih =>
    rw [List.splitOnP_cons_eq_if_modifyHead] at h
    split at h
    · rcases List.mem_cons.1 h with rfl | h
      · simp
      · exact ih h
    · rename_i hx
      cases hs : s.splitOnP p with
      | nil => exact absurd hs (List.splitOnP_ne_nil p s)
      | cons v vs =>
        rw [hs, List.modifyHead_cons] at h
        rcases List.mem_cons.1 h with rfl | h
        · intro c hc
          rcases List.mem_cons.1 hc with rfl | hc
          · simpa using hx
          · exact ih (hs ▸ List.mem_cons_self) c hc
        · exact ih (hs ▸ List.mem_cons_of_mem v h)

theorem solid_of_mem_words {s w : Str} (h : w ∈ words s) : Solid w :=
  mem_splitOnP (List.mem_filter.1 h).1

/-- A character that is no white space continues the word in front of it. -/
theorem words_head {x y : Str} {c : Char} (hx : Solid x) (hc : isSpace c = false) :
    ∃ w ws, words (x ++ c :: y) = (x ++ c :: w) :: ws := by
  induction y generalizing x c with
  | nil =>
    have hsolid : Solid (x ++ [c]) := hx.append (by simpa [Solid] using hc)
    exact ⟨[], [], words_solid (by simp) hsolid⟩
  | cons d y ih =>
    have hsolid : Solid (x ++ [c]) := hx.append (by simpa [Solid] using hc)
    cases hd : isSpace d with
    | true =>
      have hcut : x ++ c :: d :: y = (x ++ [c]) ++ d :: y := by simp
      rw [hcut, words_sep hd, words_solid (by simp) hsolid]
      exact ⟨[], words y, rfl⟩
    | false =>
      obtain ⟨w, ws, heq⟩ := ih hsolid hd
      have hcut : x ++ c :: d :: y = (x ++ [c]) ++ d :: y := by simp
      rw [hcut, heq]
      exact ⟨d :: w, ws, by simp⟩

theorem words_join {ts : List Str} : words (List.intercalate [' '] ts) = ts.flatMap words := by
  induction ts with
  | nil => rfl
  | cons t ts ih =>
    cases ts with
    | nil => simp
    | cons t' ts =>
      rw [List.intercalate_cons_cons, List.append_assoc, List.singleton_append, words_sep rfl, ih]
      rfl

theorem length_flatMap_le {α β : Type} {W E : α → List β} {ts : List α}
    (h : ∀ t ∈ ts, (E t).length ≤ (W t).length) :
    (ts.flatMap E).length ≤ (ts.flatMap W).length := by
  induction ts with
  | nil => exact Nat.le_refl _
  | cons t ts ih =>
    have hhead := h t List.mem_cons_self
    have hrest := ih fun t' ht' => h t' (List.mem_cons_of_mem t ht')
    rw [List.flatMap_cons, List.flatMap_cons, List.length_append, List.length_append]
    omega

/-- Parts that have at least the words they should have, and together the same
words, have the same words each. -/
theorem flatMap_inj {α β : Type} {W E : α → List β} {ts : List α}
    (h : ∀ t ∈ ts, (E t).length ≤ (W t).length) (heq : ts.flatMap W = ts.flatMap E) :
    ∀ t ∈ ts, W t = E t := by
  induction ts with
  | nil => exact fun t ht => nomatch ht
  | cons t ts ih =>
    have hrest : ∀ t' ∈ ts, (E t').length ≤ (W t').length :=
      fun t' ht' => h t' (List.mem_cons_of_mem t ht')
    have hle := length_flatMap_le hrest
    have hhead := h t List.mem_cons_self
    rw [List.flatMap_cons, List.flatMap_cons] at heq
    have hlen := congrArg List.length heq
    rw [List.length_append, List.length_append] at hlen
    obtain ⟨hW, hflat⟩ := List.append_inj heq (by omega)
    intro t' ht'
    rcases List.mem_cons.1 ht' with rfl | ht'
    · exact hW
    · exact ih hrest hflat t' ht'

end Wubi.Str
