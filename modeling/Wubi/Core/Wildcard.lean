import Mathlib.Data.Finset.Insert
import Mathlib.Data.Finset.Lattice.Basic
import Mathlib.Data.List.AList

/-!
# Dictionaries with a wildcard key

A `Level` is a Python dictionary whose keys are values or `None`; what it does
not hold is the `default` of its values. `update` is `setdefault` followed by a
change of what it returned, `both` what the value and the wildcard stand for.
Levels nest: the values of one may be dictionaries again.

**Results.** A change that adds to a value adds under its own key only
(`Adds.update`), and a loop over `both t k` that collects meets what `t` holds
under the patterns that agree with `k` (`Gathers.both`). Both conclude what they
assume, one level up, so that for nested levels they are used once for each.
-/
namespace Wubi

abbrev Level (κ β : Type) := AList fun _ : Option κ => β

/-- The coordinate `p` of a pattern is the wildcard, or is `k`. -/
def Agrees {κ : Type} (p : Option κ) (k : κ) : Prop := ∀ x ∈ p, x = k

theorem agrees_iff {κ : Type} {p : Option κ} {k : κ} : Agrees p k ↔ p = some k ∨ p = none := by
  cases p with
  | none => simp [Agrees]
  | some x => simp [Agrees]

instance {κ : Type} [DecidableEq κ] (p : Option κ) (k : κ) : Decidable (Agrees p k) :=
  decidable_of_iff _ agrees_iff.symm

namespace Level

variable {κ β : Type} [DecidableEq κ] [Inhabited β]

/-- `t.get(p, na)` -/
def get (t : Level κ β) (p : Option κ) : β := (t.lookup p).getD default

/-- `t.setdefault(p, na)`, then changed in its place. -/
def update (p : Option κ) (f : β → β) (t : Level κ β) : Level κ β := t.insert p (f (t.get p))

/-- What the value `k` and the wildcard stand for. -/
def both (t : Level κ β) (k : κ) : List β := [t.get (some k), t.get none]

@[simp] theorem get_update_self (t : Level κ β) (p : Option κ) (f : β → β) :
    (t.update p f).get p = f (t.get p) := by
  simp [update, get]

theorem get_update_ne (t : Level κ β) {p q : Option κ} (h : q ≠ p) (f : β → β) :
    (t.update p f).get q = t.get q := by
  simp [update, get, AList.lookup_insert_ne h]

/-- The change `f` makes `A` true of a value, and nothing else that `P` can say. -/
def Adds (f : β → β) (P : β → Prop) (A : Prop) : Prop := ∀ b, P (f b) ↔ A ∨ P b

/-- What a change adds, an update adds under its own key. -/
theorem Adds.update {f : β → β} {P : β → Prop} {A : Prop} (h : Adds f P A) (p q : Option κ) :
    Adds (Level.update p f) (fun t : Level κ β => P (t.get q)) (q = p ∧ A) := by
  intro t
  by_cases hq : q = p
  · subst hq
    simp [h (t.get q)]
  · simp [get_update_ne t hq, hq]

theorem exists_both {t : Level κ β} {k : κ} {P : β → Prop} :
    (∃ b ∈ t.both k, P b) ↔ ∃ p, Agrees p k ∧ P (t.get p) := by
  simp [both, agrees_iff, or_and_right, exists_or]

/-! ## Loops that collect -/

/-- One round of a loop adds to the set, of `x`, what `P` says. -/
def Gathers {α : Type} (f : Finset α → β → Finset α) (x : α) (P : β → Prop) : Prop :=
  ∀ s b, x ∈ f s b ↔ x ∈ s ∨ P b

omit [Inhabited β] in
theorem Gathers.foldl {α : Type} {f : Finset α → β → Finset α} {x : α} {P : β → Prop}
    (h : Gathers f x P) (l : List β) (s : Finset α) :
    x ∈ l.foldl f s ↔ x ∈ s ∨ ∃ b ∈ l, P b := by
  induction l generalizing s with
  | nil => simp
  | cons b l ih => simp [ih, h s b, or_assoc]

/-- The loop over the value's part and the wildcard's part. -/
theorem Gathers.both {α : Type} {f : Finset α → β → Finset α} {x : α} {P : β → Prop}
    (h : Gathers f x P) (k : κ) :
    Gathers (fun s t => (Level.both t k).foldl f s) x
      fun t => ∃ p, Agrees p k ∧ P (t.get p) := by
  intro s t
  rw [h.foldl, exists_both]

/-- `s |= t.get(k, nas)`, and the same for the wildcard. -/
theorem gathers_sets {α : Type} [DecidableEq α] (x : α) (k : κ) :
    Gathers (fun s (t : Level κ (Finset α)) => s ∪ t.get (some k) ∪ t.get none) x
      fun t => ∃ p, Agrees p k ∧ x ∈ t.get p := by
  intro s t
  simp only [Finset.mem_union, agrees_iff, or_and_right, exists_or, exists_eq_left, or_assoc]

end Level

end Wubi
