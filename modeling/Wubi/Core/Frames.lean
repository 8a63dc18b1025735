import Mathlib.Data.List.Basic

/-!
# Messages with their length in front

A `Framing` says how a length is written. The stream of a list of messages can be read
back: what a stream begins with is the stream of the messages it begins with.
-/
namespace Wubi

variable {α : Type}

theorem prefix_append_inj {a a' b b' : List α} (h : a ++ b <+: a' ++ b')
    (hlen : a.length = a'.length) : a = a' ∧ b <+: b' := by
  obtain ⟨c, hc⟩ := h
  rw [List.append_assoc] at hc
  obtain ⟨ha, hb⟩ := List.append_inj hc hlen
  exact ⟨ha, ⟨c, hb⟩⟩

theorem eq_of_prefix_append {a a' b' : List α} (h : a <+: a' ++ b')
    (hlen : a.length = a'.length) : a = a' := by
  rw [← List.append_nil a] at h
  exact (prefix_append_inj h hlen).1

structure Framing (α : Type) where
  header : Nat → List α
  width : Nat
  width_pos : 0 < width
  length_header : ∀ n, (header n).length = width
  /-- the lengths that can be written -/
  bound : Nat
  header_inj : ∀ {n n'}, n < bound → n' < bound → header n = header n' → n = n'

namespace Framing

variable (f : Framing α)

def frame (m : List α) : List α := f.header m.length ++ m

def frames (ms : List (List α)) : List α := ms.flatMap f.frame

variable {f} {ms sent : List (List α)}

@[simp] theorem frames_nil : f.frames [] = [] := rfl

theorem frames_append (ms ms' : List (List α)) :
    f.frames (ms ++ ms') = f.frames ms ++ f.frames ms' := List.flatMap_append ..

theorem frames_concat (ms : List (List α)) (m : List α) :
    f.frames (ms ++ [m]) = f.frames ms ++ f.header m.length ++ m := by
  rw [frames_append, List.append_assoc]
  simp [frames, frame]

theorem frames_cons (m : List α) (ms : List (List α)) :
    f.frames (m :: ms) = f.header m.length ++ (m ++ f.frames ms) := by
  simp [frames, frame]

theorem frames_split {x : List α} (hms : ∀ m ∈ ms, m.length < f.bound)
    (hsent : ∀ m ∈ sent, m.length < f.bound) (h : f.frames ms ++ x <+: f.frames sent) :
    ∃ rest, sent = ms ++ rest ∧ x <+: f.frames rest := by
  induction ms generalizing sent with
  | nil => exact ⟨sent, rfl, h⟩
  | cons m ms ih =>
    cases sent with
    | nil =>
      have hnil := List.prefix_nil.1 h
      have hlen := congrArg List.length hnil
      rw [frames_cons, List.length_append, List.length_append, f.length_header] at hlen
      have hpos := f.width_pos
      simp at hlen
      omega
    | cons m' sent =>
      rw [frames_cons, frames_cons, List.append_assoc] at h
      obtain ⟨hheader, hrest⟩ := prefix_append_inj h (by rw [f.length_header, f.length_header])
      have hlen := f.header_inj (hms m List.mem_cons_self) (hsent m' List.mem_cons_self) hheader
      rw [List.append_assoc] at hrest
      obtain ⟨rfl, htail⟩ := prefix_append_inj hrest hlen
      obtain ⟨rest, rfl, hx⟩ := ih (fun m hm => hms m (List.mem_cons_of_mem _ hm))
        (fun m hm => hsent m (List.mem_cons_of_mem _ hm)) htail
      exact ⟨rest, rfl, hx⟩

theorem frames_rest {x : List α} (hms : ∀ m ∈ ms, m.length < f.bound)
    (hsent : ∀ m ∈ sent, m.length < f.bound) (h : f.frames ms ++ x = f.frames sent) :
    ∃ rest, sent = ms ++ rest ∧ x = f.frames rest := by
  obtain ⟨rest, rfl, -⟩ := frames_split (x := x) hms hsent ⟨[], by rw [List.append_nil, h]⟩
  rw [frames_append] at h
  exact ⟨rest, rfl, List.append_cancel_left h⟩

theorem frames_prefix (hms : ∀ m ∈ ms, m.length < f.bound)
    (hsent : ∀ m ∈ sent, m.length < f.bound) (h : f.frames ms <+: f.frames sent) :
    ms <+: sent := by
  obtain ⟨rest, hrest, -⟩ := frames_split (x := []) hms hsent (by rw [List.append_nil]; exact h)
  exact ⟨rest, hrest.symm⟩

/-- What comes after the messages is the length of the next one. -/
theorem frames_next {x : List α} (hms : ∀ m ∈ ms, m.length < f.bound)
    (hsent : ∀ m ∈ sent, m.length < f.bound) (h : f.frames ms ++ x <+: f.frames sent)
    (hx : x.length = f.width) : ∃ m ∈ sent, x = f.header m.length := by
  obtain ⟨rest, rfl, hrest⟩ := frames_split hms hsent h
  cases rest with
  | nil =>
    have hpos := f.width_pos
    rw [List.prefix_nil.1 hrest] at hx
    exact absurd hx (by simp; omega)
  | cons m rest =>
    rw [frames_cons] at hrest
    exact ⟨m, List.mem_append_right _ List.mem_cons_self,
      eq_of_prefix_append hrest (by rw [hx, f.length_header])⟩

end Framing

end Wubi
