import Wubi.Core.Replace

/-!
# Filling in placeholders

`substitute` goes over a template once and puts a value in the place of each
placeholder of some names. A loop of `replace` puts the values in one after the
other (`fill`), and so it may find a placeholder that no one wrote into the
template.

A placeholder begins with the only `$` that it holds, so nothing reaches over
the beginning of one: what `replace`, `substitute` and `occurrences` do with a
text, they do with its parts (the `_cut` lemmas).

Results:
* `replace_substitute_iff`: one more `replace` is one more name filled in if and
  only if it finds the placeholders of the template and no others.
* `fill_eq_substitute_iff`: the loop is the one pass, in every order and at
  every point, if and only if no value makes a placeholder that another one
  then replaces.
-/
namespace Wubi.Str

/-! ## Occurrences -/

/-- The number of places at which `m` stands. -/
def occurrences (m : Str) : Str → Nat
  | [] => 0
  | c :: s => (if m.isPrefixOf (c :: s) then 1 else 0) + occurrences m s

variable {c : Char} {m r s : Str}

theorem occurrences_cons : occurrences m (c :: s) =
    (if m.isPrefixOf (c :: s) then 1 else 0) + occurrences m s := rfl

theorem occurrences_miss (h : ¬ m <+: c :: s) : occurrences m (c :: s) = occurrences m s := by
  rw [occurrences, if_neg fun hp => h (List.isPrefixOf_iff_prefix.1 hp), Nat.zero_add]

theorem occurrences_eq_zero (hm : m ≠ []) : occurrences m s = 0 ↔ ¬ m <:+: s := by
  induction s with
  | nil => simp [occurrences, hm]
  | cons c s ih =>
    rw [List.infix_cons_iff, not_or, ← ih, occurrences, ← List.isPrefixOf_iff_prefix]
    split
    · simp [*]
    · simp [*]

theorem occurrences_append_le {a b : Str} :
    occurrences m a + occurrences m b ≤ occurrences m (a ++ b) := by
  induction a with
  | nil => simp [occurrences]
  | cons c a ih =>
    rw [List.cons_append, occurrences, occurrences]
    by_cases hp : m.isPrefixOf (c :: a) = true
    · have hp' : m.isPrefixOf (c :: (a ++ b)) = true := by
        rw [List.isPrefixOf_iff_prefix] at hp ⊢
        exact hp.trans (List.prefix_append (c :: a) b)
      rw [if_pos hp, if_pos hp']
      omega
    · rw [if_neg hp]
      omega

/-! ### A text that begins with the only `c` in it -/

theorem prefix_cut {x : Char} {a b : Str} (hm : c ∉ m) (h : c :: m <+: x :: (a ++ c :: b)) :
    c :: m <+: x :: a := by
  obtain ⟨rfl, ht⟩ := List.cons_prefix_cons.1 h
  exact List.cons_prefix_cons.2 ⟨rfl, prefix_of_sep hm ht⟩

theorem not_prefix_of_not_mem {x : Char} {a b : Str} (h : c ∉ x :: a) : ¬ c :: m <+: x :: b := by
  intro hp
  obtain ⟨rfl, -⟩ := List.cons_prefix_cons.1 hp
  exact h List.mem_cons_self

theorem occurrences_cut {a b : Str} (hm : c ∉ m) :
    occurrences (c :: m) (a ++ c :: b) = occurrences (c :: m) a + occurrences (c :: m) (c :: b) := by
  induction a with
  | nil => simp [occurrences]
  | cons x a ih =>
    have hcut : (c :: m).isPrefixOf (x :: (a ++ c :: b)) = (c :: m).isPrefixOf (x :: a) := by
      rw [Bool.eq_iff_iff, List.isPrefixOf_iff_prefix, List.isPrefixOf_iff_prefix]
      exact ⟨prefix_cut hm, fun h => h.trans (List.prefix_append (x :: a) (c :: b))⟩
    rw [List.cons_append, occurrences_cons, occurrences_cons, hcut, ih, Nat.add_assoc]

theorem occurrences_skip {a b : Str} (ha : c ∉ a) :
    occurrences (c :: m) (a ++ b) = occurrences (c :: m) b := by
  induction a with
  | nil => rfl
  | cons x a ih =>
    rw [List.cons_append, occurrences_miss (not_prefix_of_not_mem ha)]
    exact ih fun hmem => ha (List.mem_cons_of_mem x hmem)

theorem occurrences_hit (hm : c ∉ m) :
    occurrences (c :: m) (c :: m ++ s) = 1 + occurrences (c :: m) s := by
  have hp : (c :: m).isPrefixOf (c :: (m ++ s)) = true :=
    List.isPrefixOf_iff_prefix.2 (List.prefix_append (c :: m) s)
  rw [List.cons_append, occurrences, if_pos hp, occurrences_skip hm]

theorem replace_cut {a b : Str} (hm : c ∉ m) :
    replace (c :: m) r (a ++ c :: b) = replace (c :: m) r a ++ replace (c :: m) r (c :: b) := by
  induction a using replace_induction (List.cons_ne_nil c m) with
  | nil => rfl
  | hit a ih =>
    have hne : c :: m ≠ [] := List.cons_ne_nil c m
    rw [List.append_assoc, replace_hit hne, replace_hit hne, ih, List.append_assoc]
  | miss x a h ih =>
    rw [List.cons_append, replace_miss fun hp => h (prefix_cut hm hp), replace_miss h, ih,
      List.cons_append]

/-- As long as the text with each occurrence exchanged. -/
theorem length_replace_occurrences (hm : c ∉ m) :
    (replace (c :: m) r s).length + occurrences (c :: m) s * (c :: m).length =
      s.length + occurrences (c :: m) s * r.length := by
  induction s using replace_induction (List.cons_ne_nil c m) with
  | nil => simp [replace, replaceFrom, occurrences]
  | hit s ih =>
    rw [replace_hit (List.cons_ne_nil c m), occurrences_hit hm, List.length_append,
      List.length_append, Nat.add_mul, Nat.add_mul, Nat.one_mul, Nat.one_mul]
    omega
  | miss x s h ih =>
    rw [replace_miss h, occurrences_miss h]
    simp only [List.length_cons] at ih ⊢
    omega

theorem exists_first (hm : m ≠ []) (h : m <:+: s) : ∃ a b, s = a ++ (m ++ b) ∧ ¬ m <:+: a := by
  induction s with
  | nil => exact absurd (List.infix_nil.1 h) hm
  | cons c s ih =>
    by_cases hp : m <+: c :: s
    · obtain ⟨b, hb⟩ := hp
      exact ⟨[], b, hb.symm, fun hin => hm (List.infix_nil.1 hin)⟩
    · obtain ⟨a, b, rfl, ha⟩ := ih ((List.infix_cons_iff.1 h).resolve_left hp)
      refine ⟨c :: a, b, rfl, fun hin => ?_⟩
      rcases List.infix_cons_iff.1 hin with hpre | hin
      · exact hp (hpre.trans (List.prefix_append (c :: a) (m ++ b)))
      · exact ha hin

/-- A text holds no `m`, or it is cut in two by the first one. -/
theorem first_induction {P : Str → Prop} (hm : m ≠ []) (fresh : ∀ s, ¬ m <:+: s → P s)
    (first : ∀ a b, ¬ m <:+: a → P b → P (a ++ (m ++ b))) (s : Str) : P s := by
  obtain ⟨n, hn⟩ : ∃ n, s.length ≤ n := ⟨_, Nat.le_refl _⟩
  induction n generalizing s with
  | zero =>
    refine fresh s fun h => hm ?_
    rw [List.length_eq_zero_iff.1 (Nat.le_zero.1 hn)] at h
    exact List.infix_nil.1 h
  | succ n ih =>
    by_cases h : m <:+: s
    · obtain ⟨a, b, rfl, ha⟩ := exists_first hm h
      have hpos := List.length_pos_of_ne_nil hm
      rw [List.length_append, List.length_append] at hn
      exact first a b ha (ih b (by omega))
    · exact fresh s h

/-! ## One pass -/

/-- Names that can stand between `$(` and `)`. -/
structure Names (κ : Type) where
  name : κ → Str
  inj : ∀ j k, name j = name k → j = k
  legal : ∀ k, '$' ∉ name k ∧ ')' ∉ name k

namespace Names

variable {κ : Type} (N : Names κ)

/-- `"$(%s)" % name` -/
def hole (k : κ) : Str := placeholder (N.name k)

/-- The placeholder behind its `$`. -/
def tail (k : κ) : Str := '(' :: (N.name k ++ [')'])

theorem hole_eq {k : κ} : N.hole k = '$' :: N.tail k := rfl

theorem hole_ne_nil {k : κ} : N.hole k ≠ [] := List.cons_ne_nil _ _

theorem not_mem_tail {k : κ} : '$' ∉ N.tail k := by
  simp [tail, (N.legal k).1]

theorem eq_of_hole_prefix_append {j k : κ} (h : N.hole j <+: N.hole k ++ s) : j = k :=
  N.inj j k (eq_of_placeholder_prefix_append (N.legal j).2 (N.legal k).2 h)

/-- The names in `done` are filled in, behind `skip` characters that belong to a
placeholder. -/
def substituteFrom (value : κ → Str) (done : List κ) : Nat → Str → Str
  | _, [] => []
  | skip + 1, _ :: s => substituteFrom value done skip s
  | 0, c :: s =>
    match done.find? fun k => (N.hole k).isPrefixOf (c :: s) with
    | some k => value k ++ substituteFrom value done ((N.hole k).length - 1) s
    | none => c :: substituteFrom value done 0 s

/-- Every placeholder of a name in `done` becomes the value of the name. -/
def substitute (value : κ → Str) (done : List κ) (s : Str) : Str :=
  N.substituteFrom value done 0 s

variable {N} {value : κ → Str} {done : List κ} {k : κ}

theorem substituteFrom_eq_drop {skip : Nat} :
    N.substituteFrom value done skip s = N.substitute value done (s.drop skip) := by
  induction s generalizing skip with
  | nil =>
    rw [List.drop_nil]
    cases skip <;> rfl
  | cons c s ih =>
    cases skip with
    | zero => rfl
    | succ skip => exact ih

theorem substitute_hit (hk : k ∈ done) :
    N.substitute value done (N.hole k ++ s) = value k ++ N.substitute value done s := by
  have hpre : (N.hole k).isPrefixOf (N.hole k ++ s) = true :=
    List.isPrefixOf_iff_prefix.2 (List.prefix_append _ _)
  have hfind : done.find? (fun j => (N.hole j).isPrefixOf (N.hole k ++ s)) = some k := by
    cases hj : done.find? fun j => (N.hole j).isPrefixOf (N.hole k ++ s) with
    | none => exact absurd hpre (List.find?_eq_none.1 hj k hk)
    | some j =>
      have hpj := List.find?_some hj
      rw [N.eq_of_hole_prefix_append (List.isPrefixOf_iff_prefix.1 hpj)]
  rw [hole_eq, List.cons_append] at hfind
  rw [hole_eq, List.cons_append, substitute, substituteFrom, hfind]
  simp [substituteFrom_eq_drop, hole_eq]

theorem substitute_miss (h : ∀ k ∈ done, ¬ N.hole k <+: c :: s) :
    N.substitute value done (c :: s) = c :: N.substitute value done s := by
  have hfind : done.find? (fun j => (N.hole j).isPrefixOf (c :: s)) = none :=
    List.find?_eq_none.2 fun j hj hp => h j hj (List.isPrefixOf_iff_prefix.1 hp)
  rw [substitute, substituteFrom, hfind]
  rfl

/-- A text is empty, starts with a placeholder of one of the names, or starts
with a character at which there is none. -/
theorem hole_induction (N : Names κ) (done : List κ) {P : Str → Prop} (nil : P [])
    (hit : ∀ k s, k ∈ done → P s → P (N.hole k ++ s))
    (miss : ∀ c s, (∀ k ∈ done, ¬ N.hole k <+: c :: s) → P s → P (c :: s)) (s : Str) : P s := by
  refine length_induction nil (fun s hne => ?_) s
  by_cases h : ∃ k ∈ done, N.hole k <+: s
  · obtain ⟨k, hk, t, rfl⟩ := h
    have hpos := List.length_pos_of_ne_nil (N.hole_ne_nil (k := k))
    exact ⟨t, by rw [List.length_append]; omega, hit k t hk⟩
  · obtain ⟨c, t, rfl⟩ := List.exists_cons_of_ne_nil hne
    exact ⟨t, Nat.lt_succ_self _, miss c t fun k hk hp => h ⟨k, hk, hp⟩⟩

theorem substitute_congr {done' : List κ} (h : ∀ k, k ∈ done ↔ k ∈ done') :
    N.substitute value done s = N.substitute value done' s := by
  induction s using hole_induction N done with
  | nil => rfl
  | hit k s hk ih => rw [substitute_hit hk, substitute_hit ((h k).1 hk), ih]
  | miss c s hc ih =>
    have hc' : ∀ k ∈ done', ¬ N.hole k <+: c :: s := fun k hk => hc k ((h k).2 hk)
    rw [substitute_miss hc, substitute_miss hc', ih]

theorem substitute_nil : N.substitute value [] s = s := by
  induction s with
  | nil => rfl
  | cons c s ih =>
    have hnone : ∀ k ∈ ([] : List κ), ¬ N.hole k <+: c :: s := by simp
    rw [substitute_miss hnone, ih]

theorem substitute_skip {a b : Str} (ha : '$' ∉ a) :
    N.substitute value done (a ++ b) = a ++ N.substitute value done b := by
  induction a with
  | nil => rfl
  | cons x a ih =>
    have hmiss : ∀ k ∈ done, ¬ N.hole k <+: x :: (a ++ b) := fun k _ => not_prefix_of_not_mem ha
    rw [List.cons_append, substitute_miss hmiss, ih fun hmem => ha (List.mem_cons_of_mem x hmem)]
    rfl

/-- The placeholder of another name stays. -/
theorem substitute_other (hk : k ∉ done) :
    N.substitute value done (N.hole k ++ s) = N.hole k ++ N.substitute value done s := by
  have hmiss : ∀ j ∈ done, ¬ N.hole j <+: N.hole k ++ s := by
    intro j hj hp
    rw [N.eq_of_hole_prefix_append hp] at hj
    exact hk hj
  rw [hole_eq, List.cons_append] at hmiss
  rw [hole_eq, List.cons_append, substitute_miss hmiss, substitute_skip N.not_mem_tail]
  rfl

theorem substitute_cut {a b : Str} : N.substitute value done (a ++ '$' :: b) =
    N.substitute value done a ++ N.substitute value done ('$' :: b) := by
  induction a using hole_induction N done with
  | nil => rfl
  | hit k a hk ih =>
    rw [List.append_assoc, substitute_hit hk, substitute_hit hk, ih, List.append_assoc]
  | miss x a h ih =>
    have hmiss : ∀ k ∈ done, ¬ N.hole k <+: x :: (a ++ '$' :: b) :=
      fun k hk hp => h k hk (prefix_cut N.not_mem_tail hp)
    rw [List.cons_append, substitute_miss hmiss, substitute_miss h, ih, List.cons_append]

/-- A name whose placeholder is not there. -/
theorem substitute_fresh (hk : ¬ N.hole k <:+: s) :
    N.substitute value (done ++ [k]) s = N.substitute value done s := by
  induction s using hole_induction N (done ++ [k]) with
  | nil => rfl
  | hit j s hj ih =>
    have hjk : j ≠ k := by
      rintro rfl
      exact hk (List.prefix_append _ _).isInfix
    have hj' : j ∈ done := by simpa [hjk] using hj
    rw [substitute_hit hj, substitute_hit hj', ih fun h => hk (h.trans (List.suffix_append _ _).isInfix)]
  | miss c s h ih =>
    have hmiss : ∀ j ∈ done, ¬ N.hole j <+: c :: s := fun j hj => h j (List.mem_append_left _ hj)
    rw [substitute_miss h, substitute_miss hmiss, ih fun hin => hk (List.infix_cons_iff.2 (.inr hin))]

/-! ## Cut at the placeholders of one name -/

theorem occurrences_hole {a b : Str} : occurrences (N.hole k) (a ++ (N.hole k ++ b)) =
    occurrences (N.hole k) a + (1 + occurrences (N.hole k) b) := by
  have hhit : occurrences (N.hole k) (N.hole k ++ b) = 1 + occurrences (N.hole k) b :=
    occurrences_hit N.not_mem_tail
  rw [← hhit]
  exact occurrences_cut N.not_mem_tail

theorem occurrences_other {j : κ} {a b : Str} (hj : j ≠ k) :
    occurrences (N.hole k) (a ++ (N.hole j ++ b)) =
      occurrences (N.hole k) a + occurrences (N.hole k) b := by
  have hmiss : ¬ N.hole k <+: N.hole j ++ b := fun hp => hj (N.eq_of_hole_prefix_append hp).symm
  have htail : occurrences (N.hole k) (N.tail j ++ b) = occurrences (N.hole k) b :=
    occurrences_skip N.not_mem_tail
  rw [hole_eq (k := j), List.cons_append] at hmiss
  rw [hole_eq (k := j), List.cons_append, ← htail, ← occurrences_miss hmiss]
  exact occurrences_cut N.not_mem_tail

theorem replace_hole {a b : Str} : replace (N.hole k) r (a ++ (N.hole k ++ b)) =
    replace (N.hole k) r a ++ (r ++ replace (N.hole k) r b) := by
  rw [← replace_hit N.hole_ne_nil]
  exact replace_cut N.not_mem_tail

theorem substitute_first_other {a b : Str} (hk : k ∉ done) :
    N.substitute value done (a ++ (N.hole k ++ b)) =
      N.substitute value done a ++ (N.hole k ++ N.substitute value done b) := by
  rw [← substitute_other hk]
  exact substitute_cut

theorem substitute_first {a b : Str} (ha : ¬ N.hole k <:+: a) :
    N.substitute value (done ++ [k]) (a ++ (N.hole k ++ b)) =
      N.substitute value done a ++ (value k ++ N.substitute value (done ++ [k]) b) := by
  have hk : k ∈ done ++ [k] := List.mem_append_right _ (List.mem_singleton_self k)
  rw [← substitute_hit hk, ← substitute_fresh ha]
  exact substitute_cut

/-- Filling in a name takes no placeholder of another one away. -/
theorem occurrences_substitute_le {j : κ} (hjk : j ≠ k) :
    occurrences (N.hole k) (N.substitute value done s) ≤
      occurrences (N.hole k) (N.substitute value (done ++ [j]) s) := by
  by_cases hj : j ∈ done
  · have hsame : ∀ i, i ∈ done ↔ i ∈ done ++ [j] := by simpa using hj
    rw [substitute_congr hsame]
  · induction s using first_induction (N.hole_ne_nil (k := j)) with
    | fresh s h => rw [substitute_fresh h]
    | first a b h ih =>
      rw [substitute_first_other hj, substitute_first h, occurrences_other hjk]
      have happ := @occurrences_append_le (N.hole k) (N.substitute value done a)
        (value j ++ N.substitute value (done ++ [j]) b)
      have happ' := @occurrences_append_le (N.hole k) (value j)
        (N.substitute value (done ++ [j]) b)
      omega

theorem occurrences_substitute_mono {done' : List κ} (value : κ → Str) (h : ∀ j, j ∈ done → j ∈ done')
    (hk : k ∉ done') : occurrences (N.hole k) (N.substitute value done s) ≤
      occurrences (N.hole k) (N.substitute value done' s) := by
  have hsteps : ∀ more : List κ, k ∉ done ++ more →
      occurrences (N.hole k) (N.substitute value done s) ≤
        occurrences (N.hole k) (N.substitute value (done ++ more) s) := by
    intro more
    induction more using List.reverseRecOn with
    | nil => simp
    | append_singleton more j ih =>
      intro hmem
      rw [← List.append_assoc] at hmem ⊢
      simp only [List.mem_append, List.mem_singleton, not_or] at hmem
      have hmore : k ∉ done ++ more := by simpa using hmem.1
      exact (ih hmore).trans (occurrences_substitute_le (Ne.symm hmem.2))
  have hsame : ∀ j, j ∈ done' ↔ j ∈ done ++ done' := by
    intro j
    simp only [List.mem_append]
    exact ⟨Or.inr, fun hj => hj.elim (h j) id⟩
  rw [substitute_congr hsame]
  refine hsteps done' ?_
  rwa [← hsame]

theorem le_occurrences_substitute (value : κ → Str) (hk : k ∉ done) :
    occurrences (N.hole k) s ≤ occurrences (N.hole k) (N.substitute value done s) := by
  have := @occurrences_substitute_mono s κ N [] k done value (by simp) hk
  rwa [substitute_nil] at this

/-! ## One more replacement -/

theorem length_substitute_add (value : κ → Str) (hk : k ∉ done) :
    (N.substitute value (done ++ [k]) s).length +
      occurrences (N.hole k) s * (N.hole k).length =
    (N.substitute value done s).length + occurrences (N.hole k) s * (value k).length := by
  induction s using first_induction (N.hole_ne_nil (k := k)) with
  | fresh s h => simp [substitute_fresh h, (occurrences_eq_zero N.hole_ne_nil).2 h]
  | first a b h ih =>
    rw [substitute_first h, substitute_first_other hk, occurrences_hole,
      (occurrences_eq_zero N.hole_ne_nil).2 h]
    simp only [List.length_append, Nat.add_mul, Nat.zero_add, Nat.one_mul]
    omega

/-- A value that is its own placeholder. -/
theorem substitute_self (hk : k ∉ done) (hv : value k = N.hole k) :
    N.substitute value (done ++ [k]) s = N.substitute value done s := by
  induction s using first_induction (N.hole_ne_nil (k := k)) with
  | fresh s h => exact substitute_fresh h
  | first a b h ih => rw [substitute_first h, substitute_first_other hk, hv, ih]

theorem replace_substitute (hk : k ∉ done)
    (h : occurrences (N.hole k) (N.substitute value done s) = occurrences (N.hole k) s) :
    replace (N.hole k) (value k) (N.substitute value done s) =
      N.substitute value (done ++ [k]) s := by
  induction s using first_induction (N.hole_ne_nil (k := k)) with
  | fresh s hs =>
    rw [(occurrences_eq_zero N.hole_ne_nil).2 hs, occurrences_eq_zero N.hole_ne_nil] at h
    rw [ replace_of_not_infix h, substitute_fresh hs]
  | first a b ha ih =>
    rw [substitute_first_other hk, occurrences_hole, occurrences_hole,
      (occurrences_eq_zero N.hole_ne_nil).2 ha] at h
    have hb := le_occurrences_substitute (N := N) (s := b) value hk
    have ha' : occurrences (N.hole k) (N.substitute value done a) = 0 := by omega
    rw [occurrences_eq_zero N.hole_ne_nil] at ha'
    rw [substitute_first_other hk, replace_hole, substitute_first ha, replace_of_not_infix ha',
      ih (by omega)]

/-- A value as long as its placeholder, where lengths do not tell. -/
theorem of_replace_substitute (hk : k ∉ done) (hlen : (value k).length = (N.hole k).length)
    (h : replace (N.hole k) (value k) (N.substitute value done s) =
      N.substitute value (done ++ [k]) s) : value k = N.hole k ∨
    occurrences (N.hole k) (N.substitute value done s) = occurrences (N.hole k) s := by
  induction s using first_induction (N.hole_ne_nil (k := k)) with
  | fresh s hs =>
    rw [substitute_fresh hs] at h
    by_cases hin : N.hole k <:+: N.substitute value done s
    · exact .inl (eq_of_replace_eq N.hole_ne_nil hin h)
    · rw [(occurrences_eq_zero N.hole_ne_nil).2 hs, (occurrences_eq_zero N.hole_ne_nil).2 hin]
      exact .inr rfl
  | first a b ha ih =>
    rw [substitute_first_other hk, replace_hole, substitute_first ha] at h
    have hsame := length_replace_occurrences (r := value k) (s := N.substitute value done a)
      (N.not_mem_tail (k := k))
    rw [← hole_eq, hlen] at hsame
    obtain ⟨hleft, hright⟩ := List.append_inj h (Nat.add_right_cancel hsame)
    by_cases hin : N.hole k <:+: N.substitute value done a
    · exact .inl (eq_of_replace_eq N.hole_ne_nil hin hleft)
    · refine (ih (List.append_cancel_left hright)).imp_right fun hb => ?_
      rw [substitute_first_other hk, occurrences_hole, occurrences_hole, hb,
        (occurrences_eq_zero N.hole_ne_nil).2 ha, (occurrences_eq_zero N.hole_ne_nil).2 hin]

theorem replace_substitute_iff (hk : k ∉ done) :
    replace (N.hole k) (value k) (N.substitute value done s) =
        N.substitute value (done ++ [k]) s ↔
      value k = N.hole k ∨
        occurrences (N.hole k) (N.substitute value done s) = occurrences (N.hole k) s := by
  constructor
  · intro h
    by_cases hlen : (value k).length = (N.hole k).length
    · exact of_replace_substitute hk hlen h
    · refine .inr ?_
      have hrep := length_replace_occurrences (r := value k) (s := N.substitute value done s)
        (N.not_mem_tail (k := k))
      have hsub := length_substitute_add (N := N) (s := s) value hk
      obtain ⟨d, hd⟩ := Nat.exists_eq_add_of_le (le_occurrences_substitute (N := N) (s := s) value hk)
      rw [← hole_eq, h, hd, Nat.add_mul, Nat.add_mul] at hrep
      have hsame : d * (value k).length = d * (N.hole k).length := by omega
      rcases Nat.eq_zero_or_pos d with rfl | hpos
      · exact hd
      · exact absurd (Nat.eq_of_mul_eq_mul_left hpos hsame) hlen
  · rintro (hv | h)
    · rw [hv, replace_self N.hole_ne_nil, substitute_self hk hv]
    · exact replace_substitute hk h

/-! ## The loop -/

/-- `for k, v in dic.items(): s = s.replace("$(%s)" % k, v)` -/
def fill (N : Names κ) (value : κ → Str) (order : List κ) (s : Str) : Str :=
  replaceAll (order.map fun k => (N.hole k, value k)) s

theorem fill_append_singleton :
    N.fill value (done ++ [k]) s = replace (N.hole k) (value k) (N.fill value done s) := by
  simp [fill, replaceAll_append]
  rfl

/-- In every order and at every point of the loop, the text is the template with
the values of the names so far in the place of their placeholders. -/
def Simultaneous (N : Names κ) (value : κ → Str) (all : List κ) (s : Str) : Prop :=
  ∀ order, order.Perm all → ∀ done, done <+: order →
    N.fill value done s = N.substitute value done s

/-- Filling in all other names makes no placeholder that replacing the name would
then change. -/
def Apart [DecidableEq κ] (N : Names κ) (value : κ → Str) (all : List κ) (s : Str) : Prop :=
  ∀ k ∈ all, value k ≠ N.hole k →
    occurrences (N.hole k) (N.substitute value (all.erase k) s) = occurrences (N.hole k) s

variable {all : List κ}

/-- The loop then returns the one pass, whatever the order. -/
theorem Simultaneous.fill_eq (h : N.Simultaneous value all s) {order : List κ}
    (hperm : order.Perm all) : N.fill value order s = N.substitute value all s :=
  (h order hperm order List.prefix_rfl).trans (substitute_congr fun _ => hperm.mem_iff)

variable [DecidableEq κ]

theorem apart_of_simultaneous (hall : all.Nodup) (h : N.Simultaneous value all s) :
    N.Apart value all s := by
  intro k hk hv
  have hperm : (all.erase k ++ [k]).Perm all :=
    (List.perm_append_singleton k (all.erase k)).trans (List.perm_cons_erase hk).symm
  have hothers := h _ hperm (all.erase k) (List.prefix_append _ _)
  have hlast := h _ hperm (all.erase k ++ [k]) List.prefix_rfl
  rw [fill_append_singleton, hothers, replace_substitute_iff hall.not_mem_erase] at hlast
  exact hlast.resolve_left hv

theorem simultaneous_of_apart (hall : all.Nodup) (h : N.Apart value all s) :
    N.Simultaneous value all s := by
  intro order hperm done hdone
  induction done using List.reverseRecOn with
  | nil => exact substitute_nil.symm
  | append_singleton done k ih =>
    have hnodup : (done ++ [k]).Nodup := (hperm.nodup_iff.2 hall).sublist hdone.sublist
    have hk : k ∉ done := fun hmem => (List.nodup_append.1 hnodup).2.2 k hmem k
      (List.mem_singleton_self k) rfl
    have hin : ∀ j ∈ done ++ [k], j ∈ all := fun j hj => hperm.subset (hdone.subset hj)
    rw [fill_append_singleton, ih ((List.prefix_append done [k]).trans hdone),
      replace_substitute_iff hk]
    by_cases hv : value k = N.hole k
    · exact .inl hv
    · have hothers := h k (hin k (by simp)) hv
      have hsub : ∀ j, j ∈ done → j ∈ all.erase k := by
        intro j hj
        have hjk : j ≠ k := fun heq => hk (heq ▸ hj)
        exact (List.mem_erase_of_ne hjk).2 (hin j (List.mem_append_left _ hj))
      have hle := occurrences_substitute_mono (N := N) (s := s) value hsub hall.not_mem_erase
      have hge := le_occurrences_substitute (N := N) (s := s) value hk
      exact .inr (by omega)

theorem simultaneous_iff (hall : all.Nodup) :
    N.Simultaneous value all s ↔ N.Apart value all s :=
  ⟨apart_of_simultaneous hall, simultaneous_of_apart hall⟩

end Names

end Wubi.Str
