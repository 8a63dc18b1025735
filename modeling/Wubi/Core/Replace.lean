import Wubi.Core.Find

/-!
# Replacing one text after another

`replace m r s` is taken apart by `replace_induction`: at each place `m` stands
there or it does not. A character that is not in `m` cuts the text in two that
are replaced alone (`replace_sep`), and so does it for a list of replacements
(`replaceAll_sep`). `placeholder name` is `$(name)`.
-/
namespace Wubi.Str

variable {m r s : Str}

theorem replaceFrom_eq_drop {skip : Nat} : replaceFrom m r skip s = replace m r (s.drop skip) := by
  induction s generalizing skip with
  | nil =>
    rw [List.drop_nil]
    cases skip <;> rfl
  | cons c s ih =>
    cases skip with
    | zero => rfl
    | succ skip => exact ih

theorem replace_hit (hm : m ≠ []) : replace m r (m ++ s) = r ++ replace m r s := by
  cases m with
  | nil => exact absurd rfl hm
  | cons c t =>
    have hpre : (c :: t).isPrefixOf (c :: t ++ s) = true :=
      List.isPrefixOf_iff_prefix.2 (List.prefix_append _ _)
    rw [List.cons_append] at hpre
    rw [List.cons_append, replace, replaceFrom, if_pos hpre, replaceFrom_eq_drop]
    simp

theorem replace_miss {c : Char} (h : ¬ m <+: c :: s) :
    replace m r (c :: s) = c :: replace m r s := by
  rw [replace, replaceFrom, if_neg fun hp => h (List.isPrefixOf_iff_prefix.1 hp)]
  rfl

/-- Each text that is not empty comes down to a shorter one. -/
theorem length_induction {P : Str → Prop} (nil : P [])
    (step : ∀ s, s ≠ [] → ∃ t, t.length < s.length ∧ (P t → P s)) (s : Str) : P s := by
  induction hn : s.length using Nat.strongRecOn generalizing s with
  | _ n ih =>
    rcases eq_or_ne s [] with rfl | hne
    · exact nil
    · obtain ⟨t, hlt, hts⟩ := step s hne
      exact hts (ih _ (hn ▸ hlt) t rfl)

/-- A text is empty, starts with `m`, or starts with a character at which `m`
does not stand. -/
theorem replace_induction {P : Str → Prop} (hm : m ≠ []) (nil : P []) (hit : ∀ s, P s → P (m ++ s))
    (miss : ∀ c s, ¬ m <+: c :: s → P s → P (c :: s)) (s : Str) : P s := by
  refine length_induction nil (fun s hne => ?_) s
  by_cases hp : m <+: s
  · obtain ⟨t, rfl⟩ := hp
    have hpos := List.length_pos_of_ne_nil hm
    exact ⟨t, by rw [List.length_append]; omega, hit t⟩
  · obtain ⟨c, t, rfl⟩ := List.exists_cons_of_ne_nil hne
    exact ⟨t, Nat.lt_succ_self _, miss c t hp⟩

theorem replace_of_not_infix (h : ¬ m <:+: s) : replace m r s = s := by
  induction s with
  | nil => rfl
  | cons c s ih =>
    rw [List.infix_cons_iff, not_or] at h
    rw [replace_miss h.1, ih h.2]

theorem replace_self (hm : m ≠ []) : replace m m s = s := by
  induction s using replace_induction hm with
  | nil => rfl
  | hit s ih => rw [replace_hit hm, ih]
  | miss c s h ih => rw [replace_miss h, ih]

theorem replace_sep {c : Char} {a b : Str} (hm : m ≠ []) (hc : c ∉ m) :
    replace m r (a ++ c :: b) = replace m r a ++ c :: replace m r b := by
  have hcut : ∀ {a : Str}, m <+: a ++ c :: b → m <+: a := fun h => prefix_of_sep hc h
  induction a using replace_induction hm with
  | nil =>
    have hmiss : ¬ m <+: c :: b := by
      intro h
      exact hm (List.prefix_nil.1 (hcut (a := []) h))
    exact replace_miss hmiss
  | hit a ih => rw [List.append_assoc, replace_hit hm, replace_hit hm, ih, List.append_assoc]
  | miss x a h ih =>
    have hmiss : ¬ m <+: x :: (a ++ c :: b) := fun hp => h (hcut (a := x :: a) hp)
    rw [List.cons_append, replace_miss hmiss, replace_miss h, ih, List.cons_append]

theorem mem_replace {c : Char} (hm : m ≠ []) (h : c ∈ replace m r s) : c ∈ r ∨ c ∈ s := by
  induction s using replace_induction hm with
  | nil => exact .inr h
  | hit s ih =>
    rw [replace_hit hm, List.mem_append] at h
    rcases h with h | h
    · exact .inl h
    · exact (ih h).imp_right (List.mem_append_right m)
  | miss x s hx ih =>
    rw [replace_miss hx, List.mem_cons] at h
    rcases h with rfl | h
    · exact .inr List.mem_cons_self
    · exact (ih h).imp_right (List.mem_cons_of_mem x)

/-- The text up to and behind the first occurrence. -/
theorem replace_first (hm : m ≠ []) (h : m <:+: s) :
    ∃ a b, s = a ++ m ++ b ∧ replace m r s = a ++ r ++ replace m r b := by
  induction s using replace_induction hm with
  | nil => exact absurd (List.infix_nil.1 h) hm
  | hit s _ => exact ⟨[], s, rfl, replace_hit hm⟩
  | miss c s hc ih =>
    obtain ⟨a, b, hs, heq⟩ := ih ((List.infix_cons_iff.1 h).resolve_left hc)
    refine ⟨c :: a, b, by rw [hs]; rfl, ?_⟩
    rw [replace_miss hc, heq]
    rfl

theorem length_replace (hm : m ≠ []) :
    ∃ n, (replace m r s).length + n * m.length = s.length + n * r.length := by
  induction s using replace_induction hm with
  | nil => exact ⟨0, by simp [replace, replaceFrom]⟩
  | hit s ih =>
    obtain ⟨n, hn⟩ := ih
    refine ⟨n + 1, ?_⟩
    rw [replace_hit hm, List.length_append, List.length_append, Nat.add_mul, Nat.add_mul]
    omega
  | miss c s hc ih =>
    obtain ⟨n, hn⟩ := ih
    refine ⟨n, ?_⟩
    rw [replace_miss hc, List.length_cons, List.length_cons]
    omega

/-- A text in which `m` occurs is left as it is by `m` alone. -/
theorem eq_of_replace_eq (hm : m ≠ []) (h : m <:+: s) (heq : replace m r s = s) : r = m := by
  obtain ⟨a, b, hs, hr⟩ := replace_first (r := r) hm h
  have hrest : r ++ replace m r b = m ++ b := by
    have := hr.symm.trans (heq.trans hs)
    rw [List.append_assoc, List.append_assoc] at this
    exact List.append_cancel_left this
  obtain ⟨n, hn⟩ := @length_replace m r b hm
  have hlen := congrArg List.length hrest
  rw [List.length_append, List.length_append] at hlen
  have hcount : (n + 1) * m.length = (n + 1) * r.length := by
    rw [Nat.add_mul, Nat.add_mul]
    omega
  have hsame := Nat.eq_of_mul_eq_mul_left (Nat.succ_pos n) hcount
  exact (List.append_inj hrest hsame.symm).1

theorem length_replace_le (hm : m ≠ []) (hr : r.length ≤ m.length) :
    (replace m r s).length ≤ s.length := by
  obtain ⟨n, hn⟩ := @length_replace m r s hm
  have hle : n * r.length ≤ n * m.length := Nat.mul_le_mul_left n hr
  omega

theorem length_replace_lt (hm : m ≠ []) (hr : r.length < m.length) (h : m <:+: s) :
    (replace m r s).length < s.length := by
  obtain ⟨a, b, hs, heq⟩ := replace_first (r := r) hm h
  have hle : (replace m r b).length ≤ b.length := length_replace_le hm (Nat.le_of_lt hr)
  rw [heq, hs]
  simp only [List.length_append]
  omega

/-! ## Several replacements in turn -/

/-- `for k, v in ps: s = s.replace(k, v)` -/
def replaceAll (ps : List (Str × Str)) (s : Str) : Str :=
  ps.foldl (fun s p => replace p.1 p.2 s) s

variable {ps : List (Str × Str)}

@[simp] theorem replaceAll_cons {p : Str × Str} :
    replaceAll (p :: ps) s = replaceAll ps (replace p.1 p.2 s) := rfl

theorem replaceAll_append {ps qs : List (Str × Str)} :
    replaceAll (ps ++ qs) s = replaceAll qs (replaceAll ps s) := List.foldl_append

theorem replaceAll_sep {c : Char} {a b : Str} (h : ∀ p ∈ ps, p.1 ≠ [] ∧ c ∉ p.1) :
    replaceAll ps (a ++ c :: b) = replaceAll ps a ++ c :: replaceAll ps b := by
  induction ps generalizing a b with
  | nil => rfl
  | cons p ps ih =>
    obtain ⟨hm, hc⟩ := h p List.mem_cons_self
    rw [replaceAll_cons, replace_sep hm hc, ih fun q hq => h q (List.mem_cons_of_mem p hq)]
    rfl

theorem replaceAll_join {c : Char} {ts : List Str} (h : ∀ p ∈ ps, p.1 ≠ [] ∧ c ∉ p.1) :
    replaceAll ps (List.intercalate [c] ts) = List.intercalate [c] (ts.map (replaceAll ps)) := by
  induction ts with
  | nil =>
    have hnil : ∀ ps : List (Str × Str), replaceAll ps [] = [] := by
      intro ps
      induction ps with
      | nil => rfl
      | cons p ps ih => exact ih
    exact hnil ps
  | cons t ts ih =>
    cases ts with
    | nil => simp
    | cons t' ts =>
      rw [List.intercalate_cons_cons, List.append_assoc, List.singleton_append, replaceAll_sep h, ih]
      simp [List.intercalate_cons_cons]

/-- Replacements that leave the text as it is, each for itself. -/
theorem replaceAll_fixed (h : ∀ p ∈ ps, replace p.1 p.2 s = s) : replaceAll ps s = s := by
  induction ps with
  | nil => rfl
  | cons p ps ih =>
    rw [replaceAll_cons, h p List.mem_cons_self]
    exact ih fun q hq => h q (List.mem_cons_of_mem p hq)

/-! ## Placeholders -/

/-- `"$(%s)" % name` -/
def placeholder (name : Str) : Str := '$' :: '(' :: (name ++ [')'])

theorem placeholder_ne_nil {name : Str} : placeholder name ≠ [] := nofun

theorem not_mem_placeholder {c : Char} {name : Str} (h : c ∉ name) (hd : c ≠ '$') (ho : c ≠ '(')
    (hc : c ≠ ')') : c ∉ placeholder name := by
  simp [placeholder, h, hd, ho, hc]

/-- What stands before the first `c`. -/
theorem eq_of_append_sep {c : Char} {a b x y : Str} (ha : c ∉ a) (hb : c ∉ b)
    (h : a ++ c :: x = b ++ c :: y) : a = b :=
  have hstop : (c != c) = false := bne_self_eq_false c
  (append_cons_inj (bne_of_not_mem ha) (bne_of_not_mem hb) hstop hstop h).1

/-- At a placeholder stands no other one. -/
theorem eq_of_placeholder_prefix_append {a b s : Str} (ha : ')' ∉ a) (hb : ')' ∉ b)
    (h : placeholder a <+: placeholder b ++ s) : a = b := by
  obtain ⟨t, ht⟩ := h
  have hname : a ++ ')' :: t = b ++ ')' :: s := by simpa [placeholder] using ht
  exact eq_of_append_sep ha hb hname

theorem placeholder_infix {a b : Str} (ha : ')' ∉ a) (hb : ')' ∉ b) (hd : '$' ∉ b)
    (h : placeholder a <:+: placeholder b) : a = b := by
  have htail : '$' ∉ '(' :: (b ++ [')']) := by simp [hd]
  have hpre : placeholder a <+: placeholder b := by
    refine (List.infix_cons_iff.1 h).resolve_right fun hin => htail ?_
    exact hin.subset List.mem_cons_self
  exact eq_of_placeholder_prefix_append (s := []) ha hb (by rwa [List.append_nil])

end Wubi.Str
