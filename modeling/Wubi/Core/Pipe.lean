/-!
# Pipes

A pipe of capacity `n` holds at most `n` elements, in order. `push` fails on a
full pipe and `pop` on an empty one, which is where a writer and a reader block.
-/
namespace Wubi

structure Pipe (n : Nat) (α : Type) where
  data : List α
  le : data.length ≤ n

namespace Pipe

variable {n : Nat} {α : Type}

def empty : Pipe n α := ⟨[], Nat.zero_le n⟩

def push (p : Pipe n α) (a : α) : Option (Pipe n α) :=
  if h : p.data.length < n then some ⟨p.data ++ [a], by rwa [List.length_append]⟩ else none

def pop (p : Pipe n α) : Option (α × Pipe n α) :=
  match p with
  | ⟨[], _⟩ => none
  | ⟨a :: data, h⟩ => some (a, ⟨data, Nat.le_of_succ_le h⟩)

@[simp] theorem data_empty : (empty : Pipe n α).data = [] := rfl

theorem push_eq_some {p q : Pipe n α} {a : α} (h : p.push a = some q) : q.data = p.data ++ [a] := by
  unfold push at h
  split at h
  · rw [← Option.some.inj h]
  · cases h

theorem push_eq_none {p : Pipe n α} {a : α} (h : p.push a = none) : p.data.length = n := by
  have hle := p.le
  unfold push at h
  split at h
  · cases h
  · omega

theorem pop_eq_some {p q : Pipe n α} {a : α} (h : p.pop = some (a, q)) : p.data = a :: q.data := by
  obtain ⟨data, hle⟩ := p
  cases data with
  | nil => cases h
  | cons b data =>
    unfold pop at h
    simp only [Option.some.injEq, Prod.mk.injEq] at h
    rw [← h.2, h.1]

theorem pop_eq_none {p : Pipe n α} (h : p.pop = none) : p.data = [] := by
  obtain ⟨data, hle⟩ := p
  cases data with
  | nil => rfl
  | cons b data => cases h

end Pipe

end Wubi
