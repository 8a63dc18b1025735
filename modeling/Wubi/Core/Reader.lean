import Wubi.Core.Ensures

/-!
# Reading a stream that comes in parts

A reader says how many items it needs next, and is called with that many when they are
there. What has come in before that is kept in a buffer. The reader may stop: what comes
in afterwards is dropped.

**Results.** The parts in which the stream comes in make no difference (`feed_append`).
An invariant that relates the state to what has been read is kept (`feed_read`).
-/
namespace Wubi

structure Reader (σ ε α : Type) where
  need : σ → Nat
  halted : σ → Bool
  take : σ → List α → Except ε σ
  /-- It does not need nothing twice in a row. -/
  progress : ∀ {s s' : σ}, need s = 0 → take s [] = .ok s' → 0 < need s' ∨ halted s' = true

namespace Reader

variable {σ ε α : Type} (r : Reader σ ε α)

/-- What comes in is `xs`; `buf` is there already. -/
def feed (s : σ) (buf xs : List α) : Except ε (σ × List α) :=
  if r.halted s then .ok (s, buf)
  else if xs.length < r.need s - buf.length then .ok (s, buf ++ xs)
  else
    match _h : r.take s (buf ++ xs.take (r.need s - buf.length)) with
    | .error e => .error e
    | .ok s' => feed s' [] (xs.drop (r.need s - buf.length))
termination_by (buf.length + xs.length, if r.halted s = false ∧ r.need s = 0 then 1 else 0)
decreasing_by
  rename_i hgo _
  rcases Nat.eq_zero_or_pos (buf.length + min (r.need s - buf.length) xs.length) with hnil | hpos
  · have hbuf : buf = [] := List.length_eq_zero_iff.1 (by omega)
    subst hbuf
    rw [List.length_nil, Nat.sub_zero] at hnil
    have hneed : r.need s = 0 := by
      rename_i hlong
      rw [List.length_nil, Nat.sub_zero] at hlong
      omega
    have hdone : ¬(r.halted s' = false ∧ r.need s' = 0) := by
      rintro ⟨hgo', hzero'⟩
      rw [hneed] at _h
      rcases r.progress hneed _h with hpos' | hhalt
      · omega
      · rw [hgo'] at hhalt
        cases hhalt
    rw [if_neg hdone, if_pos ⟨by simpa using hgo, hneed⟩, hneed]
    exact Prod.Lex.right _ Nat.zero_lt_one
  · refine Prod.Lex.left _ _ ?_
    rw [List.length_drop, List.length_nil]
    omega

variable {r} {s : σ} {buf xs ys : List α}

theorem feed_halted (h : r.halted s = true) : r.feed s buf xs = .ok (s, buf) := by
  rw [feed, if_pos h]

theorem feed_short (h : r.halted s = false) (hlt : xs.length < r.need s - buf.length) :
    r.feed s buf xs = .ok (s, buf ++ xs) := by
  rw [feed, if_neg (by simp [h]), if_pos hlt]

theorem feed_take (h : r.halted s = false) (hge : r.need s - buf.length ≤ xs.length) :
    r.feed s buf xs = r.take s (buf ++ xs.take (r.need s - buf.length)) >>= fun s' =>
      r.feed s' [] (xs.drop (r.need s - buf.length)) := by
  rw [feed, if_neg (by simp [h]), if_neg (by omega)]
  cases r.take s (buf ++ xs.take (r.need s - buf.length)) <;> rfl

/-- The next that is needed has come in. -/
theorem feed_next {s' : σ} {x : List α} (h : r.halted s = false) (hx : x.length = r.need s)
    (htake : r.take s x = .ok s') : r.feed s [] (x ++ xs) = r.feed s' [] xs := by
  rw [feed_take h (by rw [List.length_append]; omega), List.length_nil, Nat.sub_zero, ← hx,
    List.nil_append, List.take_left, List.drop_left, htake]
  rfl

/-- The parts in which the stream comes in make no difference. -/
theorem feed_append (s : σ) (buf xs ys : List α) :
    r.feed s buf (xs ++ ys) = r.feed s buf xs >>= fun c => r.feed c.1 c.2 ys := by
  fun_induction feed r s buf xs with
  | case1 s buf xs hhalt =>
    rw [feed_halted hhalt]
    exact (feed_halted hhalt).symm
  | case2 s buf xs hgo hshort =>
    have hgo : r.halted s = false := by simpa using hgo
    change _ = r.feed s (buf ++ xs) ys
    have hleft : r.need s - (buf ++ xs).length = r.need s - buf.length - xs.length := by
      rw [List.length_append, Nat.sub_add_eq]
    by_cases hstill : (xs ++ ys).length < r.need s - buf.length
    · rw [List.length_append] at hstill
      rw [feed_short hgo (by rw [List.length_append]; exact hstill),
        feed_short hgo (by rw [hleft]; omega), List.append_assoc]
    · rw [List.length_append] at hstill
      rw [feed_take hgo (by rw [List.length_append]; omega), feed_take hgo (by rw [hleft]; omega),
        hleft, List.take_append, List.take_of_length_le (Nat.le_of_lt hshort), List.drop_append,
        List.drop_eq_nil_of_le (Nat.le_of_lt hshort), List.nil_append, List.append_assoc]
  | case3 s buf xs hgo hlong e herr =>
    rw [feed_take (by simpa using hgo) (by rw [List.length_append]; omega),
      List.take_append_of_le_length (Nat.le_of_not_lt hlong), herr]
    rfl
  | case4 s buf xs hgo hlong s' hok ih =>
    rw [feed_take (by simpa using hgo) (by rw [List.length_append]; omega),
      List.take_append_of_le_length (Nat.le_of_not_lt hlong), hok,
      List.drop_append_of_le_length (Nat.le_of_not_lt hlong)]
    exact ih

/-- What every call keeps is kept. -/
theorem feed_keeps {E : ε → Prop} {I : σ → Prop} (buf xs : List α) (h : I s)
    (htake : ∀ s x, I s → Ensures E (r.take s x) I) :
    Ensures E (r.feed s buf xs) fun c => I c.1 := by
  fun_induction feed r s buf xs with
  | case1 s buf xs hhalt => exact h
  | case2 s buf xs hgo hshort => exact h
  | case3 s buf xs hgo hlong e herr =>
    have hnext := htake s (buf ++ xs.take (r.need s - buf.length)) h
    rw [herr] at hnext
    exact hnext
  | case4 s buf xs hgo hlong s' hok ih =>
    have hnext := htake s (buf ++ xs.take (r.need s - buf.length)) h
    rw [hok] at hnext
    exact ih hnext

/-- What is read next is there, and is as long as what is needed. -/
theorem next_read (hbuf : buf.length ≤ r.need s) (hlong : r.need s - buf.length ≤ xs.length)
    (done : List α) :
    (buf ++ xs.take (r.need s - buf.length)).length = r.need s ∧
      done ++ buf ++ xs = done ++ (buf ++ xs.take (r.need s - buf.length)) ++
        xs.drop (r.need s - buf.length) := by
  refine ⟨?_, ?_⟩
  · rw [List.length_append, List.length_take]
    omega
  · rw [List.append_assoc, List.append_assoc, List.append_assoc, List.take_append_drop]

/-- An invariant of the state and of what has been read so far, for a stream that is a
part of `w` so far. In the end all of it has been read or is in the buffer, and more is
needed; or the reader has stopped. -/
theorem feed_read {E : ε → Prop} {I : σ → List α → Prop} {w done : List α} (buf xs : List α)
    (h : I s done) (hbuf : buf.length ≤ r.need s) (hw : done ++ buf ++ xs <+: w)
    (htake : ∀ s done x, I s done → r.halted s = false → x.length = r.need s → done ++ x <+: w →
      Ensures E (r.take s x) fun s' => I s' (done ++ x)) :
    Ensures E (r.feed s buf xs) fun c => ∃ done', I c.1 done' ∧
      (r.halted c.1 = true ∧ done' <+: w ∨
        r.halted c.1 = false ∧ done' ++ c.2 = done ++ buf ++ xs ∧ c.2.length < r.need c.1) := by
  fun_induction feed r s buf xs generalizing done with
  | case1 s buf xs hhalt =>
    exact ⟨done, h, .inl ⟨hhalt, (List.prefix_append _ _).trans ((List.append_assoc _ _ _) ▸ hw)⟩⟩
  | case2 s buf xs hgo hshort =>
    refine ⟨done, h, .inr ⟨by simpa using hgo, (List.append_assoc _ _ _).symm, ?_⟩⟩
    dsimp only
    rw [List.length_append]
    omega
  | case3 s buf xs hgo hlong e herr =>
    obtain ⟨hlen, hsplit⟩ := next_read hbuf (Nat.le_of_not_lt hlong) done
    rw [hsplit] at hw
    have hnext := htake s done _ h (by simpa using hgo) hlen ((List.prefix_append _ _).trans hw)
    rw [herr] at hnext
    exact hnext
  | case4 s buf xs hgo hlong s' hok ih =>
    obtain ⟨hlen, hsplit⟩ := next_read hbuf (Nat.le_of_not_lt hlong) done
    have hnext := htake s done _ h (by simpa using hgo) hlen
      ((List.prefix_append _ _).trans (hsplit ▸ hw))
    rw [hok] at hnext
    rw [hsplit] at hw ⊢
    have hrest := ih hnext (Nat.zero_le _) (by rw [List.append_nil]; exact hw)
    rw [List.append_nil] at hrest
    exact hrest

end Reader

end Wubi
