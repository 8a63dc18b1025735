import Wubi.Tasks.Step
import Mathlib.Data.List.Basic

/-!
# The shape of a thread's stack

A stack is well nested (`Nested`): a loop over subtasks is followed by the
`finish()` of the same task, that by the caller of `set_progress` or by the
`return` of the same task, and a function by what called it. `calls` are the
tasks whose `__call__` has not returned, `bodies` those whose function has
not, the innermost first; a start adds one to each (`Move.calls`,
`Move.bodies`).
-/
namespace Wubi.Tasks

variable {W V E : Type}

/-! ## Nested stacks -/

/-- The frame takes the result of a call. -/
def Frame.Waits : Frame W V E → Prop
  | .awaitCall _ _ | .subtasks _ _ => True
  | _ => False

/-- Below a function is what called it; below the thread's own code, nothing. -/
def CalledFrom (fs : List (Frame W V E)) : Option Nat → Prop
  | none => fs = []
  | some _ => ∃ g gs, fs = g :: gs ∧ g.Waits

def Nested : List (Frame W V E) → Prop
  | [] => True
  | .body own _ :: fs | .awaitProgress own _ :: fs | .awaitCall own _ :: fs =>
    CalledFrom fs own ∧ Nested fs
  | .subtasks t _ :: fs => (∃ gs, fs = .finish t :: gs) ∧ Nested fs
  | .finish t :: fs =>
    ((∃ own k gs, fs = .awaitProgress own k :: gs) ∨ ∃ gs, fs = .result t :: gs) ∧ Nested fs
  | .result _ :: fs => (∃ g gs, fs = g :: gs ∧ g.Waits) ∧ Nested fs

theorem nested_resumeCall {v : Option V} {fs : List (Frame W V E)} (h : Nested fs) :
    Nested (resumeCall v fs) := by
  unfold resumeCall
  split
  · exact h
  · exact h

theorem nested_resumeProgress {fs : List (Frame W V E)} (h : Nested fs) :
    Nested (resumeProgress fs) := by
  unfold resumeProgress
  split
  · exact h
  · exact h

theorem nested_tail {t : Nat} {fs : List (Frame W V E)} (h : CalledFrom fs (some t))
    (hn : Nested fs) : Nested (tail t fs) :=
  ⟨⟨_, rfl⟩, .inr ⟨_, rfl⟩, h, hn⟩

theorem Move.nested {s : Store W V E} {f : Frame W V E} {fs fs' : List (Frame W V E)}
    {ev : Ev W V E} (hm : Move s f fs ev fs') (h : Nested (f :: fs)) : Nested fs' := by
  cases hm with
  | crash => trivial
  | exit | loopEnd => exact h.2
  | returned | nonFatal => exact nested_tail h.1 h.2
  | fatal | result => exact nested_resumeCall h.2
  | finish => exact nested_resumeProgress h.2
  | call => exact ⟨⟨_, _, rfl, trivial⟩, h⟩
  | launch => exact ⟨⟨_, _, rfl, trivial⟩, h⟩
  | reachSize => exact ⟨⟨_, rfl⟩, .inl ⟨_, _, _, rfl⟩, h⟩
  | _ => exact h

/-! ## Open calls -/

/-- The task whose `__call__` has not returned: in its function, or after it. -/
def Frame.opens : Frame W V E → Option Nat
  | .body own _ | .awaitProgress own _ | .awaitCall own _ => own
  | .result t => some t
  | .subtasks _ _ | .finish _ => none

/-- The open calls, the innermost first. -/
def calls (stk : List (Frame W V E)) : List Nat := stk.filterMap Frame.opens

/-- The functions that are running, the innermost first. -/
def bodies (stk : List (Frame W V E)) : List Nat := stk.filterMap Frame.runs

section
variable {s : Store W V E} {f : Frame W V E} {fs fs' : List (Frame W V E)} {ev : Ev W V E}

theorem calls_cons : calls (f :: fs) = f.opens.toList ++ calls fs := by
  unfold calls
  rw [List.filterMap_cons]
  cases f.opens <;> rfl

theorem bodies_cons : bodies (f :: fs) = f.runs.toList ++ bodies fs := by
  unfold bodies
  rw [List.filterMap_cons]
  cases f.runs <;> rfl

@[simp] theorem calls_resumeProgress : calls (resumeProgress fs) = calls fs :=
  filterMap_resumeProgress fun _ _ _ => rfl

@[simp] theorem calls_resumeCall {v : Option V} : calls (resumeCall v fs) = calls fs :=
  filterMap_resumeCall fun _ _ _ => rfl

@[simp] theorem bodies_resumeProgress : bodies (resumeProgress fs) = bodies fs :=
  filterMap_resumeProgress fun _ _ _ => rfl

@[simp] theorem bodies_resumeCall {v : Option V} : bodies (resumeCall v fs) = bodies fs :=
  filterMap_resumeCall fun _ _ _ => rfl

theorem calls_owned {t : Nat} (h : t ∈ calls fs) : Owns fs t := by
  obtain ⟨f, hf, ho⟩ := List.mem_filterMap.1 h
  refine ⟨f, hf, ?_⟩
  cases f <;> first | exact ho | cases ho

theorem bodies_calls {t : Nat} (h : t ∈ bodies fs) : t ∈ calls fs := by
  obtain ⟨f, hf, ho⟩ := List.mem_filterMap.1 h
  refine List.mem_filterMap.2 ⟨f, hf, ?_⟩
  cases f <;> first | exact ho | cases ho

/-- A start opens a call, `return` closes one. -/
theorem Move.calls (hm : Move s f fs ev fs') (hraise : ∀ own e, f ≠ .body own (.raise e)) :
    (∃ t, ev = .start t ∧ Tasks.calls fs' = t :: Tasks.calls (f :: fs)) ∨
      (∃ t, f = .result t ∧ Tasks.calls (f :: fs) = t :: Tasks.calls fs') ∨
      (∀ t, ev ≠ .start t) ∧ Tasks.calls fs' = Tasks.calls (f :: fs) := by
  cases hm with
  | crash | fatal | nonFatal => exact absurd rfl (hraise _ _)
  | call | launch => exact .inl ⟨_, rfl, by simp [calls_cons, Frame.opens]⟩
  | result => exact .inr (.inl ⟨_, rfl, by simp [calls_cons, Frame.opens]⟩)
  | _ =>
    refine .inr (.inr ⟨?_, ?_⟩)
    · intro t h; cases h
    · simp [calls_cons, Frame.opens, tail]

theorem Move.bodies (hm : Move s f fs ev fs') (hraise : ∀ own e, f ≠ .body own (.raise e)) :
    (∃ t, ev = .start t ∧ Tasks.bodies fs' = t :: Tasks.bodies (f :: fs)) ∨
      (∃ t v, ev = .returned t v ∧ Tasks.bodies (f :: fs) = t :: Tasks.bodies fs') ∨
      (∀ t, ev ≠ .start t) ∧ (∀ t v, ev ≠ .returned t v) ∧
        Tasks.bodies fs' = Tasks.bodies (f :: fs) := by
  cases hm with
  | crash | fatal | nonFatal => exact absurd rfl (hraise _ _)
  | call | launch => exact .inl ⟨_, rfl, by simp [bodies_cons, Frame.runs]⟩
  | returned => exact .inr (.inl ⟨_, _, rfl, by simp [bodies_cons, Frame.runs, tail]⟩)
  | _ =>
    refine .inr (.inr ⟨?_, ?_, ?_⟩)
    · intro t h; cases h
    · intro t v h; cases h
    · simp [bodies_cons, Frame.runs]

end

end Wubi.Tasks
