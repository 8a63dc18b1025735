import Mathlib.Data.List.Basic

/-!
# Patterns with named groups

`hits r s` are the matches of a pattern at the start of a text in the order in
which a backtracking matcher tries them: the left side of an alternative first,
one more repetition before none. `Matches r w c` says what a pattern matches
without any order: `r` takes the whole of `w`, with the groups `c`.

Results:
* `mem_hits`: the hits are the matches, none is missing and none is made up.
* `matches_of_firstMatch`: what is found is a match at the start of the text.
* `firstMatch_eq_some`: where a text begins with one match only, up to the
  groups, a backtracking matcher finds these groups whatever it tries first.
* `matches_seq`, `matches_plus_cls`, `matches_lit` and the others take a pattern
  apart.
-/
namespace Wubi

/-- A pattern over the letters `α` with groups named in `γ`. -/
inductive Regex (γ α : Type) where
  | eps
  | cls (p : α → Bool)
  | seq (r q : Regex γ α)
  | alt (r q : Regex γ α)
  | star (r : Regex γ α)
  | group (g : γ) (r : Regex γ α)

namespace Regex

variable {γ α : Type}

/-- The texts of the groups in the order in which the groups are closed. -/
abbrev Groups (γ α : Type) := List (γ × List α)

/-- `m.group(g)`: a group that is closed several times keeps its last text. -/
def Groups.get [BEq γ] (c : Groups γ α) (g : γ) : Option (List α) := c.reverse.lookup g

/-- A text, letter by letter. -/
def lit [BEq α] : List α → Regex γ α
  | [] => eps
  | a :: w => seq (cls (· == a)) (lit w)

def plus (r : Regex γ α) : Regex γ α := seq r (star r)

def opt (r : Regex γ α) : Regex γ α := alt r eps

/-- The pattern takes the whole text. A repetition takes at least one letter. -/
inductive Matches : Regex γ α → List α → Groups γ α → Prop
  | eps : Matches eps [] []
  | cls {p : α → Bool} {a : α} : p a = true → Matches (cls p) [a] []
  | seq {r q : Regex γ α} {w v : List α} {c d : Groups γ α} :
      Matches r w c → Matches q v d → Matches (seq r q) (w ++ v) (c ++ d)
  | altLeft {r q : Regex γ α} {w : List α} {c : Groups γ α} :
      Matches r w c → Matches (alt r q) w c
  | altRight {r q : Regex γ α} {w : List α} {c : Groups γ α} :
      Matches q w c → Matches (alt r q) w c
  | starNil {r : Regex γ α} : Matches (star r) [] []
  | starCons {r : Regex γ α} {w v : List α} {c d : Groups γ α} :
      w ≠ [] → Matches r w c → Matches (star r) v d → Matches (star r) (w ++ v) (c ++ d)
  | group {g : γ} {r : Regex γ α} {w : List α} {c : Groups γ α} :
      Matches r w c → Matches (group g r) w (c ++ [(g, w)])

/-! ## Taking a pattern apart -/

section
variable {r q : Regex γ α} {w : List α} {c : Groups γ α} {p : α → Bool}

theorem matches_seq : Matches (seq r q) w c ↔
    ∃ w₁ c₁ w₂ c₂, Matches r w₁ c₁ ∧ Matches q w₂ c₂ ∧ w = w₁ ++ w₂ ∧ c = c₁ ++ c₂ := by
  constructor
  · intro h
    cases h with
    | seq hr hq => exact ⟨_, _, _, _, hr, hq, rfl, rfl⟩
  · intro hsplit
    obtain ⟨w₁, c₁, w₂, c₂, hr, hq, rfl, rfl⟩ := hsplit
    exact .seq hr hq

theorem matches_group {g : γ} : Matches (group g r) w c ↔ ∃ d, Matches r w d ∧ c = d ++ [(g, w)] := by
  constructor
  · intro h
    cases h with
    | group hr => exact ⟨_, hr, rfl⟩
  · intro hsplit
    obtain ⟨d, hr, rfl⟩ := hsplit
    exact .group hr

theorem matches_alt : Matches (alt r q) w c ↔ Matches r w c ∨ Matches q w c := by
  constructor
  · intro h
    cases h with
    | altLeft hr => exact .inl hr
    | altRight hq => exact .inr hq
  · intro hsplit
    rcases hsplit with hr | hq
    · exact .altLeft hr
    · exact .altRight hq

theorem matches_eps : Matches (eps : Regex γ α) w c ↔ w = [] ∧ c = [] := by
  constructor
  · intro h
    cases h
    exact ⟨rfl, rfl⟩
  · intro hsplit
    obtain ⟨rfl, rfl⟩ := hsplit
    exact .eps

theorem matches_opt : Matches (opt r) w c ↔ Matches r w c ∨ (w = [] ∧ c = []) := by
  rw [opt, matches_alt, matches_eps]

theorem matches_lit [BEq α] [LawfulBEq α] {v : List α} :
    Matches (lit v : Regex γ α) w c ↔ w = v ∧ c = [] := by
  induction v generalizing w c with
  | nil => exact matches_eps
  | cons a v ih =>
    rw [lit, matches_seq]
    constructor
    · intro hsplit
      obtain ⟨w₁, c₁, w₂, c₂, hcls, hlit, rfl, rfl⟩ := hsplit
      obtain ⟨rfl, rfl⟩ := ih.1 hlit
      cases hcls with
      | cls h => exact ⟨by rw [eq_of_beq h]; rfl, rfl⟩
    · intro hsplit
      obtain ⟨rfl, rfl⟩ := hsplit
      exact ⟨[a], [], v, [], .cls (beq_self_eq_true a), ih.2 ⟨rfl, rfl⟩, rfl, rfl⟩

theorem matches_star_cls : Matches (star (cls p) : Regex γ α) w c ↔ (∀ a ∈ w, p a = true) ∧ c = [] := by
  constructor
  · intro h
    generalize hr : star (cls p) = r at h
    induction h with
    | starNil => exact ⟨fun a ha => absurd ha List.not_mem_nil, rfl⟩
    | starCons _ hone _ _ ih =>
      cases hr
      obtain ⟨hall, rfl⟩ := ih rfl
      cases hone with
      | cls hp => exact ⟨List.forall_mem_cons.2 ⟨hp, hall⟩, rfl⟩
    | _ => cases hr
  · intro hsplit
    obtain ⟨hall, rfl⟩ := hsplit
    induction w with
    | nil => exact .starNil
    | cons a w ih =>
      obtain ⟨ha, hw⟩ := List.forall_mem_cons.1 hall
      exact .starCons (List.cons_ne_nil a []) (.cls ha) (ih hw)

theorem matches_plus_cls : Matches (plus (cls p) : Regex γ α) w c ↔
    w ≠ [] ∧ (∀ a ∈ w, p a = true) ∧ c = [] := by
  rw [plus, matches_seq]
  constructor
  · intro hsplit
    obtain ⟨w₁, c₁, w₂, c₂, hone, hmore, rfl, rfl⟩ := hsplit
    obtain ⟨hall, rfl⟩ := matches_star_cls.1 hmore
    cases hone with
    | cls hp => exact ⟨List.cons_ne_nil _ _, List.forall_mem_cons.2 ⟨hp, hall⟩, rfl⟩
  · intro hsplit
    obtain ⟨hne, hall, rfl⟩ := hsplit
    cases w with
    | nil => exact absurd rfl hne
    | cons a w =>
      obtain ⟨ha, hw⟩ := List.forall_mem_cons.1 hall
      exact ⟨[a], [], w, [], .cls ha, matches_star_cls.2 ⟨hw, rfl⟩, rfl, rfl⟩

theorem matches_lit_seq [BEq α] [LawfulBEq α] {v : List α} :
    Matches (seq (lit v) r) w c ↔ ∃ w', Matches r w' c ∧ w = v ++ w' := by
  rw [matches_seq]
  constructor
  · intro hsplit
    obtain ⟨w₁, c₁, w₂, c₂, hlit, hr, rfl, rfl⟩ := hsplit
    obtain ⟨rfl, rfl⟩ := matches_lit.1 hlit
    exact ⟨w₂, hr, rfl⟩
  · intro hsplit
    obtain ⟨w', hr, rfl⟩ := hsplit
    exact ⟨v, [], w', c, matches_lit.2 ⟨rfl, rfl⟩, hr, rfl, rfl⟩

theorem matches_group_plus {g : γ} : Matches (group g (plus (cls p))) w c ↔
    (w ≠ [] ∧ ∀ a ∈ w, p a = true) ∧ c = [(g, w)] := by
  rw [matches_group]
  constructor
  · intro hsplit
    obtain ⟨d, hplus, rfl⟩ := hsplit
    obtain ⟨hne, hall, rfl⟩ := matches_plus_cls.1 hplus
    exact ⟨⟨hne, hall⟩, rfl⟩
  · intro hsplit
    obtain ⟨⟨hne, hall⟩, rfl⟩ := hsplit
    exact ⟨[], matches_plus_cls.2 ⟨hne, hall, rfl⟩, rfl⟩

/-- A named run of a class and what follows it. -/
theorem matches_field_seq {g : γ} : Matches (seq (group g (plus (cls p))) r) w c ↔
    ∃ v w' c', (v ≠ [] ∧ ∀ a ∈ v, p a = true) ∧ Matches r w' c' ∧ w = v ++ w' ∧
      c = (g, v) :: c' := by
  rw [matches_seq]
  constructor
  · intro hsplit
    obtain ⟨v, c₁, w', c', hfield, hr, rfl, rfl⟩ := hsplit
    obtain ⟨hv, rfl⟩ := matches_group_plus.1 hfield
    exact ⟨v, w', c', hv, hr, rfl, rfl⟩
  · intro hsplit
    obtain ⟨v, w', c', hv, hr, rfl, rfl⟩ := hsplit
    exact ⟨v, [(g, v)], w', c', matches_group_plus.2 ⟨hv, rfl⟩, hr, rfl, rfl⟩

end

/-! ## The matcher -/

/-- What a match takes of a text, its groups, and what it leaves. -/
@[ext] structure Hit (γ α : Type) where
  text : List α
  groups : Groups γ α
  rest : List α

/-- The two matches as one. -/
def Hit.andThen (h k : Hit γ α) : Hit γ α := ⟨h.text ++ k.text, h.groups ++ k.groups, k.rest⟩

def Hit.close (g : γ) (h : Hit γ α) : Hit γ α := { h with groups := h.groups ++ [(g, h.text)] }

/-- Up to `n` repetitions, one more before none. -/
def starHits (once : List α → List (Hit γ α)) : Nat → List α → List (Hit γ α)
  | 0, s => [⟨[], [], s⟩]
  | n + 1, s =>
    (((once s).filter fun h => !h.text.isEmpty).flatMap fun h =>
      (starHits once n h.rest).map h.andThen) ++ [⟨[], [], s⟩]

/-- The matches at the start of a text, the first one first. -/
def hits : Regex γ α → List α → List (Hit γ α)
  | eps, s => [⟨[], [], s⟩]
  | cls _, [] => []
  | cls p, a :: s => if p a then [⟨[a], [], s⟩] else []
  | seq r q, s => (hits r s).flatMap fun h => (hits q h.rest).map h.andThen
  | alt r q, s => hits r s ++ hits q s
  | star r, s => starHits (hits r) s.length s
  | group g r, s => (hits r s).map (Hit.close g)

/-- `pattern.match(s)`: the groups of the match that is found first. -/
def firstMatch (r : Regex γ α) (s : List α) : Option (Groups γ α) :=
  (hits r s).head?.map Hit.groups

/-! ## The hits are the matches -/

/-- The hit is a match of `r` at the start of `s`. -/
def Hit.Of (r : Regex γ α) (s : List α) (h : Hit γ α) : Prop :=
  Matches r h.text h.groups ∧ s = h.text ++ h.rest

theorem of_starHits {r : Regex γ α} (hr : ∀ {s h}, h ∈ hits r s → h.Of r s) {n : Nat} {s : List α}
    {h : Hit γ α} (hmem : h ∈ starHits (hits r) n s) : h.Of (star r) s := by
  induction n generalizing s h with
  | zero =>
    obtain rfl := List.mem_singleton.1 hmem
    exact ⟨.starNil, rfl⟩
  | succ n ih =>
    rw [starHits, List.mem_append, List.mem_flatMap, List.mem_singleton] at hmem
    rcases hmem with ⟨k, hk, hmap⟩ | rfl
    · obtain ⟨hk, hne⟩ := List.mem_filter.1 hk
      obtain ⟨k', hk', rfl⟩ := List.mem_map.1 hmap
      obtain ⟨hmatch, hs⟩ := hr hk
      obtain ⟨hmatch', hs'⟩ := ih hk'
      have htext : k.text ≠ [] := by simpa using hne
      refine ⟨.starCons htext hmatch hmatch', ?_⟩
      unfold Hit.andThen
      rw [hs, hs', List.append_assoc]
    · exact ⟨.starNil, rfl⟩

theorem mem_starHits {r : Regex γ α} (hr : ∀ {s h}, h.Of r s → h ∈ hits r s) {n : Nat} {s t : List α}
    {w : List α} {c : Groups γ α} (hmatch : Matches (star r) w c) (hs : s = w ++ t)
    (hn : w.length ≤ n) : ⟨w, c, t⟩ ∈ starHits (hits r) n s := by
  induction n generalizing s w c with
  | zero =>
    have hw : w = [] := List.length_eq_zero_iff.1 (by omega)
    cases hmatch with
    | starNil => simp [starHits, hs]
    | starCons hne => exact absurd (List.append_eq_nil_iff.1 hw).1 hne
  | succ n ih =>
    rw [starHits, List.mem_append, List.mem_flatMap]
    cases hmatch with
    | starNil => simp [hs]
    | @starCons _ w v c d hne hone hmore =>
      left
      have hpos := List.length_pos_of_ne_nil hne
      rw [List.length_append] at hn
      refine ⟨⟨w, c, v ++ t⟩, List.mem_filter.2 ⟨hr ⟨hone, ?_⟩, ?_⟩, ?_⟩
      · rw [hs, List.append_assoc]
      · simpa using hne
      · exact List.mem_map.2 ⟨⟨v, d, t⟩, ih hmore rfl (by omega), rfl⟩

theorem mem_hits {r : Regex γ α} {s : List α} {h : Hit γ α} : h ∈ hits r s ↔ h.Of r s := by
  induction r generalizing s h with
  | eps =>
    constructor
    · intro hmem
      obtain rfl := List.mem_singleton.1 hmem
      exact ⟨.eps, rfl⟩
    · intro hsplit
      obtain ⟨hmatch, hs⟩ := hsplit
      obtain ⟨w, c, t⟩ := h
      cases hmatch
      simp [hits, hs]
  | cls p =>
    constructor
    · intro hmem
      cases s with
      | nil => exact absurd hmem List.not_mem_nil
      | cons a s =>
        by_cases hp : p a = true
        · rw [hits, if_pos hp] at hmem
          obtain rfl := List.mem_singleton.1 hmem
          exact ⟨.cls hp, rfl⟩
        · rw [hits, if_neg hp] at hmem
          exact absurd hmem List.not_mem_nil
    · intro hsplit
      obtain ⟨hmatch, hs⟩ := hsplit
      obtain ⟨w, c, t⟩ := h
      cases hmatch with
      | cls hp =>
        rw [hs]
        simp [hits, hp]
  | seq r q ihr ihq =>
    rw [hits, List.mem_flatMap]
    constructor
    · intro hsplit
      obtain ⟨k, hk, hmap⟩ := hsplit
      obtain ⟨k', hk', rfl⟩ := List.mem_map.1 hmap
      obtain ⟨hmatch, hs⟩ := ihr.1 hk
      obtain ⟨hmatch', hs'⟩ := ihq.1 hk'
      refine ⟨.seq hmatch hmatch', ?_⟩
      unfold Hit.andThen
      rw [hs, hs', List.append_assoc]
    · intro hsplit
      obtain ⟨hmatch, hs⟩ := hsplit
      obtain ⟨x, e, t⟩ := h
      obtain ⟨w, c, v, d, hr, hq, rfl, rfl⟩ := matches_seq.1 hmatch
      refine ⟨⟨w, c, v ++ t⟩, ihr.2 ⟨hr, ?_⟩, List.mem_map.2 ⟨⟨v, d, t⟩, ihq.2 ⟨hq, rfl⟩, rfl⟩⟩
      exact hs.trans (List.append_assoc w v t)
  | alt r q ihr ihq =>
    rw [hits, List.mem_append, ihr, ihq]
    constructor
    · intro hsplit
      rcases hsplit with ⟨hmatch, hs⟩ | ⟨hmatch, hs⟩
      · exact ⟨.altLeft hmatch, hs⟩
      · exact ⟨.altRight hmatch, hs⟩
    · intro hsplit
      obtain ⟨hmatch, hs⟩ := hsplit
      rcases matches_alt.1 hmatch with hr | hq
      · exact .inl ⟨hr, hs⟩
      · exact .inr ⟨hq, hs⟩
  | star r ih =>
    constructor
    · exact of_starHits ih.1
    · intro hsplit
      obtain ⟨hmatch, hs⟩ := hsplit
      refine mem_starHits ih.2 hmatch hs ?_
      rw [hs, List.length_append]
      omega
  | group g r ih =>
    rw [hits, List.mem_map]
    constructor
    · intro hsplit
      obtain ⟨k, hk, rfl⟩ := hsplit
      obtain ⟨hmatch, hs⟩ := ih.1 hk
      exact ⟨.group hmatch, hs⟩
    · intro hsplit
      obtain ⟨hmatch, hs⟩ := hsplit
      obtain ⟨c, hr, hgroups⟩ := matches_group.1 hmatch
      exact ⟨⟨h.text, c, h.rest⟩, ih.2 ⟨hr, hs⟩, Hit.ext rfl hgroups.symm rfl⟩

theorem matches_of_firstMatch {r : Regex γ α} {s : List α} {c : Groups γ α}
    (h : firstMatch r s = some c) : ∃ w t, Matches r w c ∧ s = w ++ t := by
  unfold firstMatch at h
  obtain ⟨hit, hhead, rfl⟩ := Option.map_eq_some_iff.1 h
  obtain ⟨hmatch, hs⟩ := mem_hits.1 (List.mem_of_head? hhead)
  exact ⟨hit.text, hit.rest, hmatch, hs⟩

/-- Where all matches at the start of a text have the same groups, the first one
that is tried has them. -/
theorem firstMatch_eq_some {r : Regex γ α} {w t : List α} {c : Groups γ α} (hmatch : Matches r w c)
    (hunique : ∀ w' c' t', Matches r w' c' → w ++ t = w' ++ t' → c' = c) :
    firstMatch r (w ++ t) = some c := by
  have hmem : ⟨w, c, t⟩ ∈ hits r (w ++ t) := mem_hits.2 ⟨hmatch, rfl⟩
  unfold firstMatch
  cases hhits : hits r (w ++ t) with
  | nil =>
    rw [hhits] at hmem
    exact absurd hmem List.not_mem_nil
  | cons h hs =>
    have hfirst : h.Of r (w ++ t) := mem_hits.1 (by rw [hhits]; exact List.mem_cons_self)
    exact congrArg some (hunique _ _ _ hfirst.1 hfirst.2)

end Regex

end Wubi
