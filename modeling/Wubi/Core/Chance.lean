import Mathlib.Data.List.Basic

/-!
# Random choices

`random.randrange`, `random.choice` and `random.shuffle` give any result that they
can. A `Chance` fixes them all beforehand: what the draw number `d` gives. What is
proved for every `Chance` holds whatever is drawn.
-/
namespace Wubi

structure Chance where
  /-- `randrange d k`, for `0 < k` -/
  randrange : Nat → Nat → Nat
  randrange_lt : ∀ d {k}, 0 < k → randrange d k < k
  shuffle : {α : Type} → Nat → List α → List α
  shuffle_perm : ∀ {α : Type} (d : Nat) (l : List α), (shuffle d l).Perm l

namespace Chance

variable (ch : Chance)

/-- `choice(l)`, `none` where it raises `IndexError`. -/
def choice {α : Type} (d : Nat) (l : List α) : Option α := l[ch.randrange d l.length]?

theorem choice_mem {α : Type} {d : Nat} {l : List α} (h : l ≠ []) :
    ∃ x ∈ l, ch.choice d l = some x := by
  have hlt := ch.randrange_lt d (List.length_pos_iff.2 h)
  exact ⟨_, List.getElem_mem hlt, List.getElem?_eq_getElem hlt⟩

@[simp] theorem mem_shuffle {α : Type} {d : Nat} {l : List α} {x : α} :
    x ∈ ch.shuffle d l ↔ x ∈ l := (ch.shuffle_perm d l).mem_iff

/-- The first of them is drawn every time. -/
def first : Chance where
  randrange _ _ := 0
  randrange_lt _ _ h := h
  shuffle _ l := l
  shuffle_perm _ l := .refl l

end Chance

end Wubi
