import Mathlib.Data.List.Basic

/-!
# Media that are read and written at positions

A medium has a byte at every position. `read` takes a stretch of it, `write` lays
a string over it: the string is there afterwards (`write_at`), and what lies apart
from it stays (`write_apart`).
-/
namespace Wubi

abbrev Medium (β : Type) := Nat → β

namespace Medium

variable {β : Type} (d : Medium β)

def read (pos len : Nat) : List β := (List.range len).map fun i => d (pos + i)

def write (pos : Nat) (data : List β) : Medium β := fun j =>
  if h : pos ≤ j ∧ j - pos < data.length then data.get ⟨j - pos, h.2⟩ else d j

@[simp] theorem length_read (pos len : Nat) : (d.read pos len).length = len := by simp [read]

@[simp] theorem read_zero (pos : Nat) : d.read pos 0 = [] := rfl

theorem read_add (pos m n : Nat) : d.read pos (m + n) = d.read pos m ++ d.read (pos + m) n := by
  rw [read, List.range_add, List.map_append, List.map_map]
  refine congrArg (d.read pos m ++ ·) (List.map_congr_left fun i _ => ?_)
  rw [Function.comp_apply, Nat.add_assoc]

theorem write_at {pos : Nat} {data : List β} {i : Nat} (hi : i < data.length) :
    d.write pos data (pos + i) = data[i] := by
  have hsub : pos + i - pos = i := by omega
  simp [write, hsub, hi]

theorem write_apart {pos : Nat} {data : List β} {j : Nat} (h : j < pos ∨ pos + data.length ≤ j) :
    d.write pos data j = d j :=
  dif_neg (by omega)

end Medium

end Wubi
