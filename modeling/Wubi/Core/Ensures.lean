/-!
# What a computation ensures

`Ensures E x P`: the result of `x` satisfies `P`, or `x` stops with an error that
satisfies `E`. The rules follow the way computations are put together: a result,
one after the other, a choice, and a loop with its invariant.
-/
namespace Wubi

variable {ε α β σ : Type} {E : ε → Prop} {P Q : α → Prop}

def Ensures (E : ε → Prop) (x : Except ε α) (P : α → Prop) : Prop :=
  match x with
  | .ok a => P a
  | .error e => E e

namespace Ensures

theorem ok {a : α} (h : P a) : Ensures E (.ok a) P := h

theorem mono {x : Except ε α} (h : Ensures E x P) (hPQ : ∀ a, P a → Q a) : Ensures E x Q := by
  cases x with
  | ok a => exact hPQ a h
  | error e => exact h

theorem bind {x : Except ε α} {f : α → Except ε β} {R : β → Prop} (h : Ensures E x P)
    (hf : ∀ a, P a → Ensures E (f a) R) : Ensures E (x >>= f) R := by
  cases x with
  | ok a => exact hf a h
  | error e => exact h

theorem ite {p : Prop} [Decidable p] {x y : Except ε α} (hx : p → Ensures E x P)
    (hy : ¬p → Ensures E y P) : Ensures E (if p then x else y) P := by
  split
  · rename_i hp
    exact hx hp
  · rename_i hp
    exact hy hp

/-- A loop, with the invariant `I`. -/
theorem foldlM {I : σ → Prop} {f : σ → α → Except ε σ} {l : List α} {s : σ} (hs : I s)
    (hf : ∀ a ∈ l, ∀ s, I s → Ensures E (f s a) I) : Ensures E (l.foldlM f s) I := by
  induction l generalizing s with
  | nil => exact hs
  | cons a l ih =>
    rw [List.foldlM_cons]
    exact (hf a List.mem_cons_self s hs).bind fun s hs =>
      ih hs fun b hb => hf b (List.mem_cons_of_mem a hb)

/-- A loop whose invariant says what is still to be done. -/
theorem foldlM_rest {I : List α → σ → Prop} {f : σ → α → Except ε σ} {l : List α} {s : σ}
    (hs : I l s) (hf : ∀ a l s, I (a :: l) s → Ensures E (f s a) (I l)) :
    Ensures E (l.foldlM f s) (I []) := by
  induction l generalizing s with
  | nil => exact hs
  | cons a l ih =>
    rw [List.foldlM_cons]
    exact (hf a l s hs).bind fun s hs => ih hs

end Ensures

/-- A loop without errors, with the invariant `I`. -/
theorem foldl_inv {I : σ → Prop} {f : σ → α → σ} {l : List α} {s : σ} (hs : I s)
    (hf : ∀ a ∈ l, ∀ s, I s → I (f s a)) : I (l.foldl f s) := by
  induction l generalizing s with
  | nil => exact hs
  | cons a l ih =>
    rw [List.foldl_cons]
    exact ih (hf a List.mem_cons_self s hs) fun b hb => hf b (List.mem_cons_of_mem a hb)

end Wubi
