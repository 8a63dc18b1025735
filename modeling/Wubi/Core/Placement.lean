import Mathlib.Data.Finset.Card
import Mathlib.Logic.Function.Basic

/-!
# Items in slots

`n` items come in any order and are put into `n` slots, which can only be
opened from the front: `holes` are the slots that are not open yet. An item whose
own slot is still a hole waits in another one, and gives way when that one's
owner comes in.

`Slots` is what this keeps up; `spare` are the slots that are open and empty,
which is one at most and only while an item is being put down. `Slots.opened`
opens the first hole, and `Slots.move` puts an item into the spare slot, so that
the one it came from is spare.

**Results.** There is a hole while an item is missing (`Slots.exists_hole`), and
when none is missing each lies in its own slot (`Slots.home_of_full`).
-/
namespace Wubi

open Function

/-- Every slot holds one item or is empty, an item is away from its slot only
while that is empty, and the last slot takes no guest unless it is `roomy`. -/
structure Slots (n : Nat) (roomy : Prop) (places : Nat → Option Nat) (spare holes : List Nat) :
    Prop where
  item_lt : ∀ {p v}, places p = some v → p < n
  slot_lt : ∀ {p v}, places p = some v → v < n
  inj : ∀ {p q v}, places p = some v → places q = some v → p = q
  empty : ∀ {v}, v ∈ spare ++ holes ↔ v < n ∧ ∀ p, places p ≠ some v
  apart : (spare ++ holes).Nodup
  home : ∀ {p v}, places p = some v → v ≠ p → p ∈ spare ++ holes
  sorted : holes.Pairwise (· < ·)
  last : ∀ {p v}, places p = some v → v + 1 = n → p = v ∨ roomy

namespace Slots

/-- The items that have been put down. -/
def placed (n : Nat) (places : Nat → Option Nat) : Finset Nat :=
  (Finset.range n).filter fun p => (places p).isSome

variable {n : Nat} {roomy : Prop} {places : Nat → Option Nat} {spare holes : List Nat}

theorem mem_placed {p : Nat} : p ∈ placed n places ↔ p < n ∧ ∃ v, places p = some v := by
  simp [placed, Option.isSome_iff_exists]

/-! ## Counting -/

/-- As many items are missing as there are empty slots. -/
theorem card_placed (h : Slots n roomy places spare holes) :
    (placed n places).card + (spare ++ holes).length = n := by
  have hslots : (placed n places).image (fun p => (places p).getD 0) =
      Finset.range n \ (spare ++ holes).toFinset := by
    ext v
    simp only [Finset.mem_image, mem_placed, Finset.mem_sdiff, Finset.mem_range,
      List.mem_toFinset, h.empty]
    constructor
    · rintro ⟨p, ⟨-, w, hw⟩, rfl⟩
      rw [hw, Option.getD_some]
      exact ⟨h.slot_lt hw, fun hfree => hfree.2 p hw⟩
    · rintro ⟨hv, hfree⟩
      simp only [hv, true_and, not_forall, not_not] at hfree
      obtain ⟨p, hp⟩ := hfree
      exact ⟨p, ⟨h.item_lt hp, v, hp⟩, by rw [hp, Option.getD_some]⟩
  have hinj : Set.InjOn (fun p => (places p).getD 0) (placed n places) := by
    intro p hp q hq heq
    obtain ⟨-, v, hv⟩ := mem_placed.1 hp
    obtain ⟨-, w, hw⟩ := mem_placed.1 hq
    simp only [hv, hw, Option.getD_some] at heq
    exact h.inj hv (heq ▸ hw)
  have hsub : (spare ++ holes).toFinset ⊆ Finset.range n := fun v hv =>
    Finset.mem_range.2 (h.empty.1 (List.mem_toFinset.1 hv)).1
  have hcard := Finset.card_sdiff_add_card_eq_card hsub
  rw [← hslots, Finset.card_image_of_injOn hinj, Finset.card_range,
    List.toFinset_card_of_nodup h.apart] at hcard
  exact hcard

theorem placed_subset {s : Finset Nat} (hs : ∀ p ∈ s, places p = none) :
    placed n places ⊆ Finset.range n \ s := by
  intro q hq
  obtain ⟨hqn, v, hv⟩ := mem_placed.1 hq
  refine Finset.mem_sdiff.2 ⟨Finset.mem_range.2 hqn, fun hmem => ?_⟩
  rw [hs q hmem] at hv
  cases hv

/-- There are no more missing items than empty slots. -/
theorem card_missing_le (h : Slots n roomy places spare holes) {s : Finset Nat}
    (hn : ∀ p ∈ s, p < n) (hs : ∀ p ∈ s, places p = none) :
    s.card ≤ (spare ++ holes).length := by
  have hle := Finset.card_le_card (placed_subset (n := n) hs)
  have hsub : s ⊆ Finset.range n := fun p hp => Finset.mem_range.2 (hn p hp)
  have hcard := Finset.card_sdiff_add_card_eq_card hsub
  rw [Finset.card_range] at hcard
  have hall := h.card_placed
  omega

/-- While an item is missing there is a hole for it. -/
theorem exists_hole (h : Slots n roomy places [] holes) {p : Nat} (hp : p < n)
    (hmissing : places p = none) : holes ≠ [] := by
  rintro rfl
  have hle := h.card_missing_le (s := {p}) (by simpa using hp) (by simpa using hmissing)
  simp at hle

/-- With one hole left, one item is missing. -/
theorem missing_unique {v : Nat} (h : Slots n roomy places [] [v]) {p q : Nat} (hp : p < n) (hq : q < n)
    (hpn : places p = none) (hqn : places q = none) : p = q := by
  by_contra hne
  have hle := h.card_missing_le (s := {p, q}) (by simp [hp, hq]) (by simp [hpn, hqn])
  rw [Finset.card_pair hne] at hle
  simp at hle

/-- When no item is missing, each lies in its own slot. -/
theorem home_of_full (h : Slots n roomy places spare holes) (hfull : ∀ p < n, ∃ v, places p = some v)
    {p : Nat} (hp : p < n) : places p = some p := by
  obtain ⟨v, hv⟩ := hfull p hp
  have hall : placed n places = Finset.range n := by
    ext q
    rw [mem_placed, Finset.mem_range]
    exact ⟨fun hq => hq.1, fun hq => ⟨hq, hfull q hq⟩⟩
  have hcard := h.card_placed
  rw [hall, Finset.card_range] at hcard
  have hnil : spare ++ holes = [] := List.eq_nil_of_length_eq_zero (by omega)
  by_contra hne
  have hmem := h.home hv fun heq => hne (heq ▸ hv)
  rw [hnil] at hmem
  cases hmem

/-! ## Putting an item down -/

/-- A slot that is not empty holds an item. -/
theorem occupied (h : Slots n roomy places spare holes) {v : Nat} (hv : v < n)
    (hne : v ∉ spare ++ holes) : ∃ p, places p = some v := by
  by_contra hno
  exact hne (h.empty.2 ⟨hv, fun p hp => hno ⟨p, hp⟩⟩)

/-- The first hole is opened. -/
theorem opened {v : Nat} (h : Slots n roomy places [] (v :: holes)) : Slots n roomy places [v] holes :=
  ⟨h.item_lt, h.slot_lt, h.inj, h.empty, h.apart, h.home, h.sorted.of_cons, h.last⟩

/-- The item `p` is put into the spare slot, whose owner is `p` or is missing. -/
theorem move {f p : Nat} (h : Slots n roomy places [f] holes) (hp : p < n)
    (hslot : p = f ∨ p ∈ holes) (howner : p = f ∨ places f = none)
    (hlast : f + 1 = n → p = f ∨ roomy) :
    Slots n roomy (update places p (some f)) (places p).toList holes := by
  have hf := h.empty.1 (List.mem_append_left holes (List.mem_singleton_self f))
  have hfh : f ∉ holes := (List.nodup_cons.1 h.apart).1
  have hholes : ∀ v ∈ holes, v < n ∧ ∀ q, places q ≠ some v := fun v hv =>
    h.empty.1 (List.mem_append_right [f] hv)
  have hplace : ∀ {q v}, update places p (some f) q = some v →
      q = p ∧ v = f ∨ q ≠ p ∧ places q = some v := by
    intro q v hv
    rcases eq_or_ne q p with rfl | hqp
    · rw [update_self] at hv
      exact .inl ⟨rfl, (Option.some_inj.1 hv).symm⟩
    · rw [update_of_ne hqp] at hv
      exact .inr ⟨hqp, hv⟩
  refine ⟨?_, ?_, ?_, ?_, ?_, ?_, h.sorted, ?_⟩
  · intro q v hv
    obtain ⟨rfl, rfl⟩ | ⟨-, hv⟩ := hplace hv
    · exact hp
    · exact h.item_lt hv
  · intro q v hv
    obtain ⟨rfl, rfl⟩ | ⟨-, hv⟩ := hplace hv
    · exact hf.1
    · exact h.slot_lt hv
  · intro q r v hqv hrv
    obtain ⟨hq, hv⟩ | ⟨-, hq⟩ := hplace hqv <;> obtain ⟨hr, hv'⟩ | ⟨-, hr⟩ := hplace hrv
    · rw [hq, hr]
    · exact absurd (hv ▸ hr) (hf.2 r)
    · exact absurd (hv' ▸ hq) (hf.2 q)
    · exact h.inj hq hr
  · intro v
    rw [List.mem_append, Option.mem_toList]
    constructor
    · rintro (hv | hv)
      · refine ⟨h.slot_lt hv, fun q hq => ?_⟩
        obtain ⟨rfl, rfl⟩ | ⟨hqp, hq⟩ := hplace hq
        · exact hf.2 q hv
        · exact hqp (h.inj hq hv)
      · refine ⟨(hholes v hv).1, fun q hq => ?_⟩
        obtain ⟨rfl, rfl⟩ | ⟨-, hq⟩ := hplace hq
        · exact hfh hv
        · exact (hholes v hv).2 q hq
    · intro ⟨hvn, hno⟩
      by_cases hpv : places p = some v
      · exact .inl hpv
      · have hvf : v ≠ f := fun heq => hno p (by rw [update_self, heq])
        have hmem : v ∈ [f] ++ holes := h.empty.2 ⟨hvn, fun q hq => ?_⟩
        · exact .inr ((List.mem_cons.1 hmem).resolve_left hvf)
        · refine hno q ?_
          rw [update_of_ne]
          · exact hq
          · rintro rfl
            exact hpv hq
  · cases hold : places p with
    | none => exact (List.nodup_cons.1 h.apart).2
    | some v =>
      exact List.nodup_cons.2 ⟨fun hv => (hholes v hv).2 p hold, (List.nodup_cons.1 h.apart).2⟩
  · intro q v hv hne
    refine List.mem_append_right _ ?_
    obtain ⟨rfl, rfl⟩ | ⟨hqp, hq⟩ := hplace hv
    · exact hslot.resolve_left (Ne.symm hne)
    · refine (List.mem_cons.1 (h.home hq hne)).resolve_left fun hqf => ?_
      obtain rfl | hnone := howner
      · exact hqp hqf
      · rw [hqf, hnone] at hq
        cases hq
  · intro q v hv hvn
    obtain ⟨rfl, rfl⟩ | ⟨-, hq⟩ := hplace hv
    · exact hlast hvn
    · exact h.last hq hvn

/-- The first hole's owner is in the last slot only where that is roomy. -/
theorem roomy_of_guest {v old : Nat} (h : Slots n roomy places [] (v :: holes))
    (hv : places v = some old) (hlast : old + 1 = n) : roomy := by
  refine (h.last hv hlast).resolve_left fun heq => ?_
  exact (h.empty.1 List.mem_cons_self).2 v (heq ▸ hv)

/-- The slot where the first hole's owner waits has no owner elsewhere. -/
theorem owner_missing {v old : Nat} (h : Slots n roomy places [] (v :: holes))
    (hv : places v = some old) : places old = none := by
  have hfree := (h.empty.1 (List.mem_cons_self (a := v) (l := holes))).2
  cases hold : places old with
  | none => rfl
  | some w =>
    by_cases hw : w = old
    · rw [hw] at hold
      exact absurd (h.inj hv hold ▸ hv) (hfree v)
    · exact absurd hv ((h.empty.1 (h.home hold hw)).2 v)

/-- The last slot is opened for its owner alone. -/
theorem eq_of_opened_last {v p : Nat} (h : Slots n roomy places [] (v :: holes)) (hv : places v = none)
    (hp : p < n) (hpn : places p = none) (hlast : v + 1 = n) : p = v := by
  have hlt := (List.pairwise_cons.1 h.sorted).1
  have hnil : holes = [] := by
    refine List.eq_nil_iff_forall_not_mem.2 fun w hw => ?_
    have hwn := (h.empty.1 (List.mem_cons_of_mem v hw)).1
    have hvw := hlt w hw
    omega
  subst hnil
  exact h.missing_unique hp (h.empty.1 List.mem_cons_self).1 hpn hv

end Slots

end Wubi
