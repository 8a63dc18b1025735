import Mathlib.Data.List.Nodup
import Mathlib.Data.List.Perm.Basic
import Mathlib.Logic.Function.Basic

/-!
# Lists whose elements know their positions

`Positions l pos` says that `pos` gives the index of every element of `l`, which
are then all different. Three changes keep it up without a search: an element is
taken out and the last one takes its place (`Positions.swapOut`), an element is
put in at an index and the one that was there goes to the end
(`Positions.putIn`), and an element goes to the end while the others move up
(`Positions.toEnd`).
-/
namespace Wubi

open Function

structure Positions (l : List Nat) (pos : Nat → Nat) : Prop where
  pos_eq : ∀ {j p}, l[j]? = some p → pos p = j

namespace Positions

variable {l : List Nat} {pos : Nat → Nat}

theorem inj (h : Positions l pos) {i j p : Nat} (hi : l[i]? = some p) (hj : l[j]? = some p) :
    i = j := (h.pos_eq hi).symm.trans (h.pos_eq hj)

theorem getElem (h : Positions l pos) {p : Nat} (hp : p ∈ l) : l[pos p]? = some p := by
  obtain ⟨j, hj⟩ := List.mem_iff_getElem?.1 hp
  rwa [h.pos_eq hj]

theorem congr {pos' : Nat → Nat} (h : Positions l pos) (heq : ∀ p ∈ l, pos' p = pos p) :
    Positions l pos' := ⟨fun hj => (heq _ (List.mem_of_getElem? hj)).trans (h.pos_eq hj)⟩

/-- The element `x` is taken out, the last one takes its place. -/
theorem swapOut {init : List Nat} {x z : Nat} (h : Positions (init ++ [z]) pos)
    (hx : x ∈ init ++ [z]) :
    Positions ((init ++ [z]).set (pos x) z).dropLast (update pos z (pos x)) ∧
      ∀ q, q ∈ ((init ++ [z]).set (pos x) z).dropLast ↔ q ∈ init ++ [z] ∧ q ≠ x := by
  have hz : (init ++ [z])[init.length]? = some z := List.getElem?_concat_length
  have hat := h.getElem hx
  obtain ⟨hlt, -⟩ := List.getElem?_eq_some_iff.1 hat
  rw [List.length_append, List.length_singleton] at hlt
  rcases Nat.lt_succ_iff_lt_or_eq.1 hlt with hlt | heq
  · have hset : ((init ++ [z]).set (pos x) z).dropLast = init.set (pos x) z := by
      rw [List.set_append_left _ _ hlt, List.dropLast_concat]
    have hne : x ≠ z := by
      rintro rfl
      exact absurd (h.pos_eq hz) (by omega)
    rw [hset]
    refine ⟨⟨fun {j q} hj => ?_⟩, fun q => ?_⟩
    · rcases eq_or_ne j (pos x) with rfl | hjx
      · rw [List.getElem?_set_self hlt] at hj
        obtain rfl := Option.some_inj.1 hj
        exact update_self ..
      · rw [List.getElem?_set_ne hjx.symm] at hj
        have hjlt := (List.getElem?_eq_some_iff.1 hj).1
        have hold : (init ++ [z])[j]? = some q := by rw [List.getElem?_append_left hjlt, hj]
        rw [update_of_ne, h.pos_eq hold]
        rintro rfl
        exact absurd (h.inj hold hz) (by omega)
    · rw [List.mem_iff_getElem?]
      constructor
      · rintro ⟨j, hj⟩
        rcases eq_or_ne j (pos x) with rfl | hjx
        · rw [List.getElem?_set_self hlt] at hj
          obtain rfl := Option.some_inj.1 hj
          exact ⟨by simp, hne.symm⟩
        · rw [List.getElem?_set_ne hjx.symm] at hj
          refine ⟨List.mem_append_left _ (List.mem_of_getElem? hj), ?_⟩
          rintro rfl
          have hjlt := (List.getElem?_eq_some_iff.1 hj).1
          exact hjx (h.pos_eq (by rw [List.getElem?_append_left hjlt, hj])).symm
      · rintro ⟨hq, hqx⟩
        rcases List.mem_append.1 hq with hq | hq
        · obtain ⟨j, hj⟩ := List.mem_iff_getElem?.1 hq
          refine ⟨j, ?_⟩
          rw [List.getElem?_set_ne, hj]
          rintro rfl
          rw [List.getElem?_append_left hlt, hj] at hat
          exact hqx (Option.some_inj.1 hat)
        · obtain rfl := List.mem_singleton.1 hq
          exact ⟨pos x, List.getElem?_set_self hlt⟩
  · obtain rfl : x = z := by
      rw [heq] at hat
      exact Option.some_inj.1 (hat.symm.trans hz)
    have hset : ((init ++ [x]).set (pos x) x).dropLast = init := by
      rw [heq, List.set_append_right _ _ (Nat.le_refl _), Nat.sub_self, List.set_cons_zero,
        List.dropLast_concat]
    rw [hset]
    have hnot : x ∉ init := by
      intro hmem
      obtain ⟨j, hj⟩ := List.mem_iff_getElem?.1 hmem
      have hjlt := (List.getElem?_eq_some_iff.1 hj).1
      exact absurd (h.inj (by rw [List.getElem?_append_left hjlt, hj]) hz) (by omega)
    refine ⟨⟨fun {j q} hj => ?_⟩, fun q => ?_⟩
    · have hjlt := (List.getElem?_eq_some_iff.1 hj).1
      rw [update_of_ne]
      · exact h.pos_eq (by rw [List.getElem?_append_left hjlt, hj])
      · rintro rfl
        exact hnot (List.mem_of_getElem? hj)
    · rw [List.mem_append, List.mem_singleton]
      constructor
      · intro hq
        refine ⟨.inl hq, ?_⟩
        rintro rfl
        exact hnot hq
      · rintro ⟨hq | rfl, hqx⟩
        · exact hq
        · exact absurd rfl hqx

/-- A new element at the end. -/
theorem concat (h : Positions l pos) {x : Nat} (hx : x ∉ l) :
    Positions (l ++ [x]) (update pos x l.length) := by
  refine ⟨fun {j q} hj => ?_⟩
  rcases Nat.lt_or_ge j l.length with hlt | hge
  · rw [List.getElem?_append_left hlt] at hj
    rw [update_of_ne, h.pos_eq hj]
    rintro rfl
    exact hx (List.mem_of_getElem? hj)
  · obtain ⟨hlt, -⟩ := List.getElem?_eq_some_iff.1 hj
    rw [List.length_append, List.length_singleton] at hlt
    obtain rfl : j = l.length := by omega
    rw [List.getElem?_concat_length] at hj
    obtain rfl := Option.some_inj.1 hj
    exact update_self ..

/-- The new element `x` is put in at `i`, the one that was there goes to the end. -/
theorem putIn (h : Positions l pos) {x i old : Nat} (hx : x ∉ l) (hi : l[i]? = some old) :
    Positions ((l ++ [old]).set i x) (update (update pos old l.length) x i) ∧
      ∀ q, q ∈ (l ++ [old]).set i x ↔ q = x ∨ q ∈ l := by
  obtain ⟨hlt, -⟩ := List.getElem?_eq_some_iff.1 hi
  have hold : old ∈ l := List.mem_of_getElem? hi
  have hxold : x ≠ old := fun heq => hx (heq ▸ hold)
  rw [List.set_append_left _ _ hlt]
  constructor
  · refine ⟨fun {j q} hj => ?_⟩
    rcases Nat.lt_or_ge j l.length with hjlt | hge
    · rw [List.getElem?_append_left (by rwa [List.length_set])] at hj
      rcases eq_or_ne j i with rfl | hji
      · rw [List.getElem?_set_self hlt] at hj
        obtain rfl := Option.some_inj.1 hj
        exact update_self ..
      · rw [List.getElem?_set_ne hji.symm] at hj
        rw [update_of_ne, update_of_ne, h.pos_eq hj]
        · rintro rfl
          exact hji (h.inj hj hi)
        · rintro rfl
          exact hx (List.mem_of_getElem? hj)
    · have hjlt := (List.getElem?_eq_some_iff.1 hj).1
      rw [List.length_append, List.length_singleton, List.length_set] at hjlt
      obtain rfl : j = (l.set i x).length := by rw [List.length_set]; omega
      rw [List.getElem?_concat_length] at hj
      obtain rfl := Option.some_inj.1 hj
      rw [update_of_ne hxold.symm, update_self, List.length_set]
  · intro q
    rw [List.mem_append, List.mem_singleton, List.mem_iff_getElem?]
    constructor
    · rintro (⟨j, hj⟩ | rfl)
      · rcases eq_or_ne j i with rfl | hji
        · rw [List.getElem?_set_self hlt] at hj
          exact .inl (Option.some_inj.1 hj).symm
        · rw [List.getElem?_set_ne hji.symm] at hj
          exact .inr (List.mem_of_getElem? hj)
      · exact .inr hold
    · rintro (rfl | hq)
      · exact .inl ⟨i, List.getElem?_set_self hlt⟩
      · obtain ⟨j, hj⟩ := List.mem_iff_getElem?.1 hq
        rcases eq_or_ne j i with rfl | hji
        · exact .inr (Option.some_inj.1 (hj.symm.trans hi))
        · exact .inl ⟨j, by rw [List.getElem?_set_ne hji.symm, hj]⟩

/-! ## Counting again -/

/-- The elements from the index `k` on are given their positions. -/
def recount (l : List Nat) (k : Nat) (pos : Nat → Nat) : Nat → Nat :=
  (List.range' k (l.length - k)).foldl (fun f i => update f (l.getD i 0) i) pos

theorem recount_of_not_mem {k q : Nat} (hq : q ∉ l) : recount l k pos q = pos q := by
  have hks : ∀ i ∈ List.range' k (l.length - k), i < l.length := fun i hi => by
    have := List.mem_range'_1.1 hi
    omega
  rw [recount]
  generalize List.range' k (l.length - k) = ks at hks
  induction ks generalizing pos with
  | nil => rfl
  | cons i ks ih =>
    have hi := hks i List.mem_cons_self
    rw [List.foldl_cons, ih fun j hj => hks j (List.mem_cons_of_mem i hj), update_of_ne]
    rintro rfl
    rw [List.getD_eq_getElem?_getD, List.getElem?_eq_getElem hi] at hq
    exact hq (List.getElem_mem hi)

theorem recount_foldl (hnodup : l.Nodup) (ks : List Nat) (hks : ∀ k ∈ ks, k < l.length)
    (pos : Nat → Nat) {j p : Nat} (hj : l[j]? = some p) :
    ks.foldl (fun f i => update f (l.getD i 0) i) pos p = if j ∈ ks then j else pos p := by
  induction ks generalizing pos with
  | nil => rfl
  | cons k ks ih =>
    have hk := hks k List.mem_cons_self
    rw [List.foldl_cons, ih fun i hi => hks i (List.mem_cons_of_mem k hi)]
    by_cases hmem : j ∈ ks
    · rw [if_pos hmem, if_pos (List.mem_cons_of_mem k hmem)]
    · rw [if_neg hmem]
      rcases eq_or_ne j k with rfl | hjk
      · rw [if_pos List.mem_cons_self, List.getD_eq_getElem?_getD, hj, Option.getD_some,
          update_self]
      · rw [if_neg fun hin => (List.mem_cons.1 hin).elim hjk hmem, update_of_ne]
        intro heq
        obtain ⟨hjlt, hjp⟩ := List.getElem?_eq_some_iff.1 hj
        rw [List.getD_eq_getElem?_getD, List.getElem?_eq_getElem hk, Option.getD_some, ← hjp] at heq
        exact hjk ((hnodup.getElem_inj_iff).1 heq)

theorem nodup (h : Positions l pos) : l.Nodup := by
  rw [List.nodup_iff_getElem?_ne_getElem?]
  intro i j hij hj heq
  have hi : l[i]? = some l[j] := by rw [heq, List.getElem?_eq_getElem]
  exact absurd (h.inj hi (List.getElem?_eq_getElem hj)) (by omega)

/-- The element `x` goes to the end, those behind it move up. -/
theorem toEnd (h : Positions l pos) {x : Nat} (hx : x ∈ l) :
    Positions (l.eraseIdx (pos x) ++ [x]) (recount (l.eraseIdx (pos x) ++ [x]) (pos x) pos) ∧
      (l.eraseIdx (pos x) ++ [x]).Perm l := by
  have hat := h.getElem hx
  obtain ⟨hlt, hget⟩ := List.getElem?_eq_some_iff.1 hat
  have hperm : (l.eraseIdx (pos x) ++ [x]).Perm l := by
    have hcons := List.getElem_cons_eraseIdx_perm hlt
    rw [hget] at hcons
    exact (List.perm_append_singleton _ _).trans hcons
  refine ⟨⟨fun {j q} hj => ?_⟩, hperm⟩
  have hjlt := (List.getElem?_eq_some_iff.1 hj).1
  have hlen : (l.eraseIdx (pos x) ++ [x]).length = l.length := hperm.length_eq
  rw [recount, recount_foldl (hperm.nodup_iff.2 h.nodup) _ _ _ hj]
  · split
    · rfl
    · rename_i hout
      have hbefore : j < pos x := by
        by_contra hge
        exact hout (List.mem_range'_1.2 (by omega))
      have herase : (l.eraseIdx (pos x)).length = l.length - 1 := List.length_eraseIdx_of_lt hlt
      rw [List.getElem?_append_left (by omega), List.getElem?_eraseIdx_of_lt hbefore] at hj
      exact h.pos_eq hj
  · intro k hk
    have hrange := List.mem_range'_1.1 hk
    omega

end Positions

end Wubi
