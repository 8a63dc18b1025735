import Wubi.Tasks.Closed
import Mathlib.Data.List.Nodup

/-!
# The pre-order of a tree

`preorder` lists a task and what is below it, each task before its subtasks and
those in their order. It holds exactly the task and what is `Below` it
(`mem_preorder`), nothing twice if no task has a subtask twice
(`preorder_nodup`), which is so for the tree that a task list is built with
(`init_subtasks_nodup`).
-/
namespace Wubi.Tasks

variable {W V E : Type}

section
variable {ts : List (Task W V E)} {t u c d : Nat}

theorem Below.lt (hs : IsTree ts) (h : Below ts t u) : t < u := by
  induction h with
  | child hp => exact (hs.parent_lt' hp).1
  | step hp _ ih =>
    have := (hs.parent_lt' hp).1
    omega

/-- What is below a subtask is below the task. -/
theorem Below.up (hc : (ts.getD c default).parent = some t) (h : Below ts c u) : Below ts t u := by
  induction h with
  | child hp => exact .step hp (.child hc)
  | step hp _ ih => exact .step hp ih

theorem not_below_sibling (hs : IsTree ts) (hc : (ts.getD c default).parent = some t)
    (hd : (ts.getD d default).parent = some t) : ¬ Below ts d c := by
  have hlt := (hs.parent_lt' hd).1
  intro h
  cases h with
  | child hp =>
    have := Option.some.inj (hc.symm.trans hp)
    omega
  | step hp h =>
    cases hc.symm.trans hp
    have := h.lt hs
    omega

/-- No task is below two subtasks of one task. -/
theorem sibling_unique (hs : IsTree ts) (hc : (ts.getD c default).parent = some t)
    (hd : (ts.getD d default).parent = some t) (hcu : Below ts c u) (hdu : Below ts d u) :
    c = d := by
  induction hcu with
  | child hp =>
    cases hdu with
    | child hq => exact Option.some.inj (hp.symm.trans hq)
    | step hq h =>
      cases hp.symm.trans hq
      exact absurd h (not_below_sibling hs hc hd)
  | step hp h ih =>
    cases hdu with
    | child hq =>
      cases hp.symm.trans hq
      exact absurd h (not_below_sibling hs hd hc)
    | step hq h' =>
      cases hp.symm.trans hq
      exact ih h'

end

namespace Store

/-- A task and what is below it, `k` levels deep. -/
def preorder (s : Store W V E) : Nat → Nat → List Nat
  | 0, _ => []
  | k + 1, t => t :: (s.task t).subtasks.flatMap (s.preorder k)

variable {s : Store W V E} {t u : Nat}

theorem preorder_eq (hs : s.Tree) (ht : t < s.n) :
    s.preorder s.n t = t :: (s.task t).subtasks.flatMap (s.preorder s.n) := by
  rw [hs.levels_below s.preorder (fun t l => t :: l.flatten) (fun _ _ => rfl) s.n (s.n + 1) t ht
    (by omega) (by omega)]
  rfl

theorem below_of_mem_preorder (hs : s.Tree) {k : Nat} (h : u ∈ s.preorder k t) :
    u = t ∨ Below s.tasks t u := by
  induction k generalizing t with
  | zero => cases h
  | succ k ih =>
    rcases List.mem_cons.1 h with h | h
    · exact .inl h
    · obtain ⟨c, hc, hu⟩ := List.mem_flatMap.1 h
      have hp := (hs.mem_subtasks hc).2.2
      rcases ih hu with rfl | hb
      · exact .inr (.child hp)
      · exact .inr (hb.up hp)

/-- One level more has the subtasks of what is there. -/
theorem mem_preorder_step (hs : s.Tree) {k p : Nat} (hp : (s.task u).parent = some p)
    (h : p ∈ s.preorder k t) : u ∈ s.preorder (k + 1) t := by
  induction k generalizing t with
  | zero => cases h
  | succ k ih =>
    refine List.mem_cons_of_mem _ (List.mem_flatMap.2 ?_)
    rcases List.mem_cons.1 h with rfl | h
    · exact ⟨u, hs.mem_of_parent hp, List.mem_cons_self ..⟩
    · obtain ⟨c, hc, hpc⟩ := List.mem_flatMap.1 h
      exact ⟨c, hc, ih hpc⟩

theorem mem_preorder (hs : s.Tree) (ht : t < s.n) :
    u ∈ s.preorder s.n t ↔ u = t ∨ Below s.tasks t u := by
  refine ⟨below_of_mem_preorder hs, ?_⟩
  intro hboth
  rcases hboth with rfl | h
  · rw [preorder_eq hs ht]
    exact List.mem_cons_self ..
  · induction h with
    | child hp =>
      have hlt := (hs.parent_lt hp).2
      rw [preorder_eq hs ht]
      refine List.mem_cons_of_mem _ (List.mem_flatMap.2 ⟨_, hs.mem_of_parent hp, ?_⟩)
      rw [preorder_eq hs hlt]
      exact List.mem_cons_self ..
    | step hp _ ih =>
      have h := mem_preorder_step hs hp ih
      rwa [hs.levels_below s.preorder (fun t l => t :: l.flatten) (fun _ _ => rfl) (s.n + 1) s.n t ht
        (by omega) (by omega)] at h

theorem lt_of_mem_preorder (hs : s.Tree) (ht : t < s.n) {k : Nat} (h : u ∈ s.preorder k t) :
    u < s.n := by
  rcases below_of_mem_preorder hs h with rfl | hb
  · exact ht
  · cases hb with
    | child hp => exact (hs.parent_lt hp).2
    | step hp _ => exact (hs.parent_lt hp).2

/-- The parent of what is there is there, too, but for the first task. -/
theorem parent_mem_preorder (hs : s.Tree) (ht : t < s.n) {p : Nat} (h : u ∈ s.preorder s.n t)
    (hp : (s.task u).parent = some p) : u = t ∨ p ∈ s.preorder s.n t := by
  refine (below_of_mem_preorder hs h).imp_right fun hb => (mem_preorder hs ht).2 ?_
  cases hb with
  | child hq => exact .inl (Option.some.inj (hp.symm.trans hq))
  | step hq hb =>
    cases hp.symm.trans hq
    exact .inr hb

theorem mem_preorder_root (hs : s.Tree) (ht : t < s.n) : t ∈ s.preorder s.n 0 := by
  refine (mem_preorder hs hs.zero_lt).2 (hs.induct (P := fun t => t = 0 ∨ Below s.tasks 0 t)
    (.inl rfl) ?_ ht)
  intro t p hp ih
  rcases ih with rfl | hb
  · exact .inr (.child hp)
  · exact .inr (.step hp hb)

theorem preorder_nodup (hs : s.Tree) (hsub : ∀ t, (s.task t).subtasks.Nodup) (k t : Nat) :
    (s.preorder k t).Nodup := by
  induction k generalizing t with
  | zero => exact List.nodup_nil
  | succ k ih =>
    refine List.nodup_cons.2 ⟨?_, List.nodup_flatMap.2 ⟨fun c _ => ih c, ?_⟩⟩
    · intro h
      obtain ⟨c, hc, ht⟩ := List.mem_flatMap.1 h
      have hlt := (hs.parent_lt (hs.mem_subtasks hc).2.2).1
      rcases below_of_mem_preorder hs ht with rfl | hb
      · omega
      · have := hb.lt hs
        omega
    · refine (hsub t).pairwise_of_forall_ne fun c hc d hd hcd u huc hud => hcd ?_
      have hpc := (hs.mem_subtasks hc).2.2
      have hpd := (hs.mem_subtasks hd).2.2
      rcases below_of_mem_preorder hs huc with rfl | hbc
      · rcases below_of_mem_preorder hs hud with rfl | hbd
        · rfl
        · exact absurd hbd (not_below_sibling hs hpc hpd)
      · rcases below_of_mem_preorder hs hud with rfl | hbd
        · exact absurd hbc (not_below_sibling hs hpd hpc)
        · exact sibling_unique hs hpc hpd hbc hbd

end Store

/-- Subtasks are added once, when they are created. -/
theorem subtasks_closed : AllocClosed (fun _ _ _ _ => True) (fun _ _ => True)
    fun ts ts' : List (Task W V E) =>
      (∀ t, (ts.getD t default).subtasks.Nodup ∧
        ∀ c ∈ (ts.getD t default).subtasks, c < ts.length) →
      ∀ t, (ts'.getD t default).subtasks.Nodup ∧
        ∀ c ∈ (ts'.getD t default).subtasks, c < ts'.length where
  refl _ h := h
  trans _ _ _ h k hq := k (h hq)
  keep _ _ _ _ _ _ := trivial
  push ts p r sz w fn hp _ _ := by
    refine ⟨fun h t => ?_, trivial⟩
    obtain ⟨hnd, hlt⟩ := h t
    rw [getD_push _ _ _ _ hp, length_link, List.length_append]
    split
    · exact ⟨List.nodup_nil, fun c hc => by cases hc⟩
    · split
      · refine ⟨?_, fun c hc => ?_⟩
        · rw [List.nodup_append]
          refine ⟨hnd, List.nodup_singleton _, fun a ha b hb => ?_⟩
          have := hlt a ha
          rw [List.mem_singleton.1 hb]
          omega
        · rcases List.mem_append.1 hc with hc | hc
          · have := hlt c hc
            omega
          · rw [List.mem_singleton.1 hc]
            simp
      · exact ⟨hnd, fun c hc => by have := hlt c hc; omega⟩

theorem init_subtasks_nodup (threaded : Bool) (w : W) (tasks : List (NewTask W V E))
    (others : List (Script W V E)) (t : Nat) :
    ((initSys threaded w tasks others).store.task t).subtasks.Nodup := by
  refine ((allocAll_rule subtasks_closed tasks [rootTask] 0 (NewTask.forallAll_true tasks)
    Nat.one_pos trivial).1 ?_ t).1
  intro u
  cases u <;> exact ⟨List.nodup_nil, fun c hc => by cases hc⟩

end Wubi.Tasks
