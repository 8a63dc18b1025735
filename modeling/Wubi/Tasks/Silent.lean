import Wubi.Tasks.Percent
import Wubi.Tasks.Preorder
import Wubi.Tasks.Once

/-!
# Task lists whose functions only work

A function is `Silent` if it returns and makes no call on a task. The worker of
a task list of silent functions starts them in the pre-order of the tree.

**Stacks.** `Path` lists the stacks that the worker goes through: a task that
runs, loops over its subtasks, finishes or returns, with the loops of the tasks
above it below. `todo` are the tasks that such a stack will start, in order, and
`openTasks` those that it has started and not finished.

**Invariant.** `Walk`: what has been started and what is to do is the pre-order
of the tree; a task is INACTIVE if it is to do, ACTIVE if it is open, else
COMPLETED; and it has completed its size if it is COMPLETED, else nothing. The
order of the starts, the nesting, the growing percentage and the end are read
off it.
-/
namespace Wubi.Tasks

variable {W V E : Type}

/-- The function returns and makes no call on a task. -/
inductive Script.Silent : Script W V E → Prop
  | ret (v : Option V) : Silent (.ret v)
  | act (f : W → W) {k : W → Script W V E} : (∀ w, (k w).Silent) → Silent (.act f k)

/-- A task object with a size and a positive weight, whose function is silent. -/
def SilentNew (_ : Bool) (size weight : Num) (fn : Nat → Script W V E) : Prop :=
  0 ≤ size.val ∧ 0 < weight.val ∧ ∀ t, (fn t).Silent

/-- The pre-order of the whole tree. -/
def Store.inPreorder (s : Store W V E) : List Nat := s.preorder s.n 0

/-! ## Stacks of silent functions -/

/-- The stack below a call of task `t`: that of the thread, or the loop over the
subtasks of its parent. -/
inductive Caller (s : Store W V E) : Nat → List (Frame W V E) → Prop
  | root : Caller s 0 [.awaitCall none fun _ => .ret none]
  | loop {t p i : Nat} {fs : List (Frame W V E)} : (s.task p).subtasks[i]? = some t →
      Caller s p fs → Caller s t (.subtasks p (i + 1) :: .finish p :: .result p :: fs)

inductive Path (s : Store W V E) : List (Frame W V E) → Prop
  | idle : Path s [.body none (.call 0 fun _ => .ret none)]
  | body {t : Nat} {p : Script W V E} {fs : List (Frame W V E)} :
      p.Silent → Caller s t fs → Path s (.body (some t) p :: fs)
  | loop {t i : Nat} {fs : List (Frame W V E)} :
      Caller s t fs → Path s (.subtasks t i :: .finish t :: .result t :: fs)
  | finish {t : Nat} {fs : List (Frame W V E)} :
      Caller s t fs → Path s (.finish t :: .result t :: fs)
  | result {t : Nat} {fs : List (Frame W V E)} : Caller s t fs → Path s (.result t :: fs)
  | last : Path s [.body none (.ret none)]
  | ended : Path s []

/-- The tasks that the stack will start. -/
def todo (s : Store W V E) : List (Frame W V E) → List Nat
  | [] => []
  | .body none (.call t _) :: fs => s.preorder s.n t ++ todo s fs
  | .body (some t) _ :: fs => (s.task t).subtasks.flatMap (s.preorder s.n) ++ todo s fs
  | .subtasks t i :: fs => ((s.task t).subtasks.drop i).flatMap (s.preorder s.n) ++ todo s fs
  | _ :: fs => todo s fs

/-- The task that the frame will finish. -/
def Frame.pending : Frame W V E → Option Nat
  | .body own _ => own
  | .finish t => some t
  | _ => none

/-- The tasks that the stack has started and will finish, the innermost first. -/
def openTasks (stk : List (Frame W V E)) : List Nat := stk.filterMap Frame.pending

section
variable {s : Store W V E} {t u p : Nat} {fs : List (Frame W V E)}

@[simp] theorem todo_body {q : Script W V E} : todo s (.body (some t) q :: fs) =
    (s.task t).subtasks.flatMap (s.preorder s.n) ++ todo s fs := rfl

@[simp] theorem todo_subtasks {i : Nat} : todo s (.subtasks t i :: fs) =
    ((s.task t).subtasks.drop i).flatMap (s.preorder s.n) ++ todo s fs := rfl

@[simp] theorem todo_finish : todo s (.finish t :: fs) = todo s fs := rfl

@[simp] theorem todo_result : todo s (.result t :: fs) = todo s fs := rfl

@[simp] theorem open_body {q : Script W V E} :
    openTasks (.body (some t) q :: fs) = t :: openTasks fs := rfl

@[simp] theorem open_subtasks {i : Nat} : openTasks (.subtasks t i :: fs) = openTasks fs := rfl

@[simp] theorem open_finish : openTasks (.finish t :: fs) = t :: openTasks fs := rfl

@[simp] theorem open_result : openTasks (.result t :: fs) = openTasks fs := rfl

theorem Caller.todo_resume (h : Caller s t fs) {v : Option V} :
    todo s (resumeCall v fs) = todo s fs ∧ openTasks (resumeCall v fs) = openTasks fs := by
  cases h <;> exact ⟨rfl, rfl⟩

/-- The parent of an open task is open. -/
theorem Caller.parent_open (hs : s.Tree) (h : Caller s t fs) (hu : u ∈ t :: openTasks fs)
    (hp : (s.task u).parent = some p) : p ∈ openTasks fs := by
  induction h generalizing u with
  | root =>
    rw [List.mem_singleton.1 hu, hs.root] at hp
    cases hp
  | loop hi _ ih =>
    have hpt := (hs.mem_subtasks (List.mem_of_getElem? hi)).2.2
    rcases List.mem_cons.1 hu with rfl | hu
    · cases hpt.symm.trans hp
      exact List.mem_cons_self ..
    · exact List.mem_cons_of_mem _ (ih hu hp)

theorem Caller.open_lt (hs : s.Tree) (h : Caller s t fs) (hu : u ∈ openTasks fs) : u < t := by
  induction h generalizing u with
  | root => cases hu
  | loop hi _ ih =>
    have hlt := (hs.parent_lt (hs.mem_subtasks (List.mem_of_getElem? hi)).2.2).1
    rcases List.mem_cons.1 hu with rfl | hu
    · exact hlt
    · have := ih hu
      omega

/-- The parent of a task in a pre-order that starts with a subtask of `t` is
`t`, or is in that pre-order. -/
theorem parent_of_mem_flatMap (hs : s.Tree) {l : List Nat} (hl : ∀ c ∈ l, c ∈ (s.task t).subtasks)
    (hu : u ∈ l.flatMap (s.preorder s.n)) (hp : (s.task u).parent = some p) :
    p = t ∨ p ∈ l.flatMap (s.preorder s.n) := by
  obtain ⟨c, hc, huc⟩ := List.mem_flatMap.1 hu
  obtain ⟨-, hcn, hct⟩ := hs.mem_subtasks (hl c hc)
  rcases s.parent_mem_preorder hs hcn huc hp with rfl | h
  · exact .inl (Option.some.inj (hp.symm.trans hct))
  · exact .inr (List.mem_flatMap.2 ⟨c, hc, h⟩)

/-- The parent of a task that is to do is to do, or open. -/
theorem Caller.parent_todo (hs : s.Tree) (h : Caller s t fs) (hu : u ∈ todo s fs)
    (hp : (s.task u).parent = some p) : p ∈ openTasks fs ∨ p ∈ todo s fs := by
  induction h with
  | root => cases hu
  | loop hi _ ih =>
    simp only [todo_subtasks, todo_finish, todo_result, open_subtasks, open_finish, open_result,
      List.mem_cons, List.mem_append] at hu ⊢
    rcases hu with hu | hu
    · exact (parent_of_mem_flatMap hs (fun c hc => List.mem_of_mem_drop hc) hu hp).imp .inl .inl
    · exact (ih hu).imp .inr .inr

theorem Path.parent_todo (hs : s.Tree) {stk : List (Frame W V E)} (h : Path s stk)
    (hu : u ∈ todo s stk) (hp : (s.task u).parent = some p) :
    p ∈ openTasks stk ∨ p ∈ todo s stk := by
  cases h with
  | idle =>
    rw [show todo s [.body none (.call 0 fun _ => .ret none)] = s.preorder s.n 0 from
      List.append_nil _] at hu ⊢
    rcases s.parent_mem_preorder hs hs.zero_lt hu hp with rfl | h
    · rw [hs.root] at hp
      cases hp
    · exact .inr h
  | body _ hc =>
    simp only [todo_body, open_body, List.mem_cons, List.mem_append] at hu ⊢
    rcases hu with hu | hu
    · exact (parent_of_mem_flatMap hs (fun c hc => hc) hu hp).imp .inl .inl
    · exact (hc.parent_todo hs hu hp).imp .inr .inr
  | loop hc =>
    simp only [todo_subtasks, todo_finish, todo_result, open_subtasks, open_finish, open_result,
      List.mem_cons, List.mem_append] at hu ⊢
    rcases hu with hu | hu
    · exact (parent_of_mem_flatMap hs (fun c hc => List.mem_of_mem_drop hc) hu hp).imp .inl .inl
    · exact (hc.parent_todo hs hu hp).imp .inr .inr
  | finish hc =>
    simp only [todo_finish, todo_result, open_finish, open_result, List.mem_cons] at hu ⊢
    exact (hc.parent_todo hs hu hp).imp_left .inr
  | result hc =>
    simp only [todo_result, open_result] at hu ⊢
    exact hc.parent_todo hs hu hp
  | last | ended => cases hu

theorem Path.parent_open (hs : s.Tree) {stk : List (Frame W V E)} (h : Path s stk)
    (hu : u ∈ openTasks stk) (hp : (s.task u).parent = some p) : p ∈ openTasks stk := by
  cases h with
  | body _ hc | loop hc | finish hc =>
    simp only [open_body, open_subtasks, open_finish, open_result] at hu ⊢
    exact List.mem_cons_of_mem _ (hc.parent_open hs hu hp)
  | result hc =>
    simp only [open_result] at hu ⊢
    exact hc.parent_open hs (List.mem_cons_of_mem _ hu) hp
  | idle | last | ended => cases hu

end

/-! ## Steps of silent functions -/

/-- The event starts, finishes and creates nothing. -/
def Ev.Quiet : Ev W V E → Prop
  | .tau | .act _ | .returned _ _ => True
  | _ => False

/-- What a step does to the tasks that are to do and to those that are open. -/
theorem Path.move {s₀ s : Store W V E} {f : Frame W V E} {fs fs' : List (Frame W V E)}
    {ev : Ev W V E} (h₀ : s₀.Tree) (h : Path s₀ (f :: fs)) (hm : Move s f fs ev fs')
    (hsub : ∀ t, (s.task t).subtasks = (s₀.task t).subtasks) (hfn : ∀ t u, ((s.task t).fn u).Silent)
    (hstart : ∀ c ∈ todo s₀ (f :: fs),
      (∀ p, (s₀.task c).parent = some p → p ∈ openTasks (f :: fs)) → s.canStart c = true) :
    Path s₀ fs' ∧
      ((∃ c, ev = .start c ∧ todo s₀ (f :: fs) = c :: todo s₀ fs' ∧
          openTasks fs' = c :: openTasks (f :: fs)) ∨
        (∃ t, ev = .finish t ∧ todo s₀ fs' = todo s₀ (f :: fs) ∧
          openTasks (f :: fs) = t :: openTasks fs' ∧ ∀ u ∈ openTasks fs', u < t) ∨
        ev.Quiet ∧ todo s₀ fs' = todo s₀ (f :: fs) ∧ openTasks fs' = openTasks (f :: fs)) := by
  cases h with
  | idle =>
    have htodo : todo s₀ [.body (V := V) (E := E) none (.call 0 fun _ => .ret none)] =
        0 :: ((s₀.task 0).subtasks.flatMap (s₀.preorder s₀.n) ++ []) := by
      rw [List.append_nil, ← Store.preorder_eq h₀ h₀.zero_lt]
      exact List.append_nil _
    have hcan : s.canStart 0 = true := by
      refine hstart 0 (by rw [htodo]; exact List.mem_cons_self ..) fun p hp => ?_
      rw [h₀.root] at hp
      cases hp
    cases hm with
    | call => exact ⟨.body (hfn 0 0) .root, .inl ⟨0, rfl, htodo, rfl⟩⟩
    | callRefused _ hno => exact absurd hcan (by rw [hno]; decide)
  | body hp hc =>
    cases hp with
    | ret v =>
      cases hm
      exact ⟨.loop hc, .inr (.inr ⟨trivial, by simp [tail], by simp [tail]⟩)⟩
    | act g hk =>
      cases hm
      exact ⟨.body (hk _) hc, .inr (.inr ⟨trivial, rfl, rfl⟩)⟩
  | loop hc =>
    rename_i t i gs
    cases hm with
    | launch hi hcan =>
      rename_i c
      rw [hsub] at hi
      obtain ⟨hlt, hget⟩ := List.getElem?_eq_some_iff.1 hi
      have hcn := (h₀.mem_subtasks (List.mem_of_getElem? hi)).2.1
      refine ⟨.body (hfn c c) (.loop hi hc), .inl ⟨c, rfl, ?_, by simp⟩⟩
      rw [todo_subtasks, todo_body, todo_subtasks, List.drop_eq_getElem_cons hlt, hget,
        List.flatMap_cons, Store.preorder_eq h₀ hcn]
      simp
    | skip hi hno =>
      rename_i c
      rw [hsub] at hi
      obtain ⟨hlt, hget⟩ := List.getElem?_eq_some_iff.1 hi
      obtain ⟨-, hcn, hct⟩ := h₀.mem_subtasks (List.mem_of_getElem? hi)
      have hcan : s.canStart c = true := by
        refine hstart c ?_ fun p hp => ?_
        · rw [todo_subtasks, List.drop_eq_getElem_cons hlt, hget, List.flatMap_cons,
            Store.preorder_eq h₀ hcn]
          simp
        · cases hct.symm.trans hp
          simp
      exact absurd hcan (by rw [hno]; decide)
    | loopEnd hi =>
      rw [hsub] at hi
      refine ⟨.finish hc, .inr (.inr ⟨trivial, ?_, by simp⟩)⟩
      rw [todo_subtasks, List.drop_eq_nil_of_le (List.getElem?_eq_none_iff.1 hi)]
      rfl
  | finish hc =>
    cases hm
    refine ⟨.result hc, .inr (.inl ⟨_, rfl, rfl, rfl, fun u hu => hc.open_lt h₀ ?_⟩)⟩
    simpa [resumeProgress] using hu
  | result hc =>
    cases hm
    obtain ⟨htodo, hopen⟩ := hc.todo_resume (v := (s.task _).result)
    refine ⟨?_, .inr (.inr ⟨trivial, htodo, hopen⟩)⟩
    cases hc with
    | root => exact .last
    | loop _ hc => exact .loop hc
  | last =>
    cases hm
    exact ⟨.ended, .inr (.inr ⟨trivial, rfl, rfl⟩)⟩

/-! ## The invariant -/

/-- A task has completed its size if it is COMPLETED, else nothing. -/
def Task.AllOrNothing (τ : Task W V E) : Prop :=
  τ.completed = if τ.status = .completed then τ.size else .int 0

/-- The tree that a task list of silent functions is built with. -/
structure SilentTree (s₀ : Store W V E) : Prop where
  tree : s₀.Tree
  nodup : ∀ t, (s₀.task t).subtasks.Nodup
  size : ∀ t, 0 ≤ (s₀.task t).size.val
  weight : ∀ t, 0 < (s₀.task t).weight.val
  silent : ∀ t u, ((s₀.task t).fn u).Silent

/-- The same tree, with the same sizes, weights and functions. -/
structure SameTree (s₀ s : Store W V E) : Prop where
  n : s.n = s₀.n
  shape : ∀ t, (s.task t).shape = (s₀.task t).shape
  size : ∀ t, (s.task t).size = (s₀.task t).size

namespace SameTree

variable {s₀ s : Store W V E} (h : SameTree s₀ s)
include h

theorem parent (t : Nat) : (s.task t).parent = (s₀.task t).parent := congrArg Prod.fst (h.shape t)

theorem subtasks (t : Nat) : (s.task t).subtasks = (s₀.task t).subtasks :=
  congrArg (fun x => x.2.1) (h.shape t)

theorem weight (t : Nat) : (s.task t).weight = (s₀.task t).weight :=
  congrArg (fun x => x.2.2.1) (h.shape t)

theorem fn (t : Nat) : (s.task t).fn = (s₀.task t).fn := congrArg (fun x => x.2.2.2.2) (h.shape t)

end SameTree

/-- The events of a walk: starts, `finish()` and the quiet ones. -/
def Ev.Walks (ev : Ev W V E) : Prop := (∃ c, ev = .start c) ∨ (∃ t, ev = .finish t) ∨ ev.Quiet

theorem SameTree.apply {s₀ s : Store W V E} {ev : Ev W V E} (h : SameTree s₀ s) (hs : s.Tree)
    (hev : ∀ t ∈ ev.target, t < s.n) (hw : ev.Walks) : SameTree s₀ (s.apply ev) := by
  have hadd : ∀ p new, ev ≠ .add p new := by
    intro p new he
    rcases hw with ⟨c, rfl⟩ | ⟨t, rfl⟩ | hq
    · cases he
    · cases he
    · rw [he] at hq
      exact hq
  have hsize : ∀ u, ((s.apply ev).task u).size = (s.task u).size := by
    intro u
    rcases hw with ⟨c, rfl⟩ | ⟨t, rfl⟩ | hq
    · exact s.modify_keep c u _ (·.size) fun _ => rfl
    · simp only [Store.apply, Store.task_finish]
      split <;> rfl
    · cases ev with
      | tau | act => rfl
      | returned t v => exact s.modify_keep t u _ (·.size) fun _ => rfl
      | _ => exact hq.elim
  obtain ⟨hn, hshape⟩ := Store.apply_shape hs hev hadd
  exact ⟨hn.trans h.n, fun t => (hshape t).trans (h.shape t), fun t => (hsize t).trans (h.size t)⟩

structure Walk (s₀ : Store W V E) (ls : List (Nat × Ev W V E)) (s : Sys W V E)
    (stk : List (Frame W V E)) : Prop where
  wf : s.WF
  threads : s.threads = [stk]
  same : SameTree s₀ s.store
  path : Path s₀ stk
  order : starts ls ++ todo s₀ stk = s₀.inPreorder
  opened : ∀ t ∈ openTasks stk, t ∈ starts ls
  status : ∀ t < s₀.n, (s.store.task t).status =
    if t ∈ todo s₀ stk then .inactive else if t ∈ openTasks stk then .active else .completed
  amount : ∀ t, (s.store.task t).AllOrNothing

section
variable {s₀ : Store W V E} {s s' : Sys W V E} {ls : List (Nat × Ev W V E)} {i : Nat} {ev : Ev W V E}
  {stk : List (Frame W V E)}

theorem Walk.todo_nodup (h : Walk s₀ ls s stk) (h₀ : SilentTree s₀) :
    (starts ls ++ todo s₀ stk).Nodup := by
  rw [h.order]
  exact s₀.preorder_nodup h₀.tree h₀.nodup _ 0

theorem Walk.open_not_todo (h : Walk s₀ ls s stk) (h₀ : SilentTree s₀) {t : Nat}
    (ht : t ∈ openTasks stk) : t ∉ todo s₀ stk := fun hmem =>
  (List.nodup_append.1 (h.todo_nodup h₀)).2.2 t (h.opened t ht) t hmem rfl

theorem Walk.mem_lt (h : Walk s₀ ls s stk) (h₀ : SilentTree s₀) {t : Nat}
    (ht : t ∈ starts ls ++ todo s₀ stk) : t < s₀.n := by
  rw [h.order] at ht
  exact s₀.lt_of_mem_preorder h₀.tree h₀.tree.zero_lt ht

/-- An open task and all tasks above it are ACTIVE. -/
theorem Walk.isActive (h : Walk s₀ ls s stk) (h₀ : SilentTree s₀) {t : Nat}
    (ht : t ∈ openTasks stk) : s.store.isActive (t + 1) t = true := by
  have hlt : t < s.store.n := h.same.n ▸ h.mem_lt h₀ (List.mem_append_left _ (h.opened t ht))
  have hactive : ∀ u, u < s.store.n → u ∈ openTasks stk → (s.store.task u).status = .active := by
    intro u hu hmem
    rw [h.status u (h.same.n ▸ hu), if_neg (h.open_not_todo h₀ hmem), if_pos hmem]
  revert ht
  refine h.wf.tree.induct (P := fun t => t ∈ openTasks stk → s.store.isActive (t + 1) t = true)
    ?_ ?_ hlt
  · intro ht
    rw [h.wf.tree.isActive_eq, h.wf.tree.root, hactive 0 h.wf.tree.zero_lt ht]
    rfl
  · intro t p hp ih ht
    rw [h.wf.tree.isActive_eq, hp, hactive t (h.wf.tree.parent_lt hp).2 ht]
    exact ih (h.path.parent_open h₀.tree ht (h.same.parent t ▸ hp))

theorem Walk.canStart (h : Walk s₀ ls s stk) (h₀ : SilentTree s₀) {c : Nat}
    (hc : c ∈ todo s₀ stk) (hp : ∀ p, (s₀.task c).parent = some p → p ∈ openTasks stk) :
    s.store.canStart c = true := by
  refine (s.store.canStart_iff c).2 ⟨?_, fun p hcp => ?_⟩
  · rw [h.status c (h.mem_lt h₀ (List.mem_append_right _ hc)), if_pos hc]
  · exact h.isActive h₀ (hp p (h.same.parent c ▸ hcp))

/-- A start, a `finish()` and a quiet event keep the amounts of a task. -/
theorem allOrNothing_apply {s : Store W V E} {ev : Ev W V E}
    (hev : (∃ c, ev = .start c ∧ (s.task c).status ≠ .completed) ∨ (∃ t, ev = .finish t) ∨ ev.Quiet)
    {u : Nat} (h : (s.task u).AllOrNothing) : ((s.apply ev).task u).AllOrNothing := by
  unfold Task.AllOrNothing at *
  rcases hev with ⟨c, rfl, hc⟩ | ⟨t, rfl⟩ | hq
  · simp only [Store.apply, Store.task_modify]
    split
    · rename_i hcu
      rw [← hcu.1, if_neg hc] at h
      simpa [← hcu.1] using h
    · exact h
  · simp only [Store.apply, Store.task_finish]
    split
    · rfl
    · exact h
  · cases ev with
    | tau | act => exact h
    | returned t v =>
      simp only [Store.apply, Store.task_modify]
      split
      · exact h
      · exact h
    | _ => exact hq.elim

theorem Ev.Quiet.sets {s : Store W V E} {ev : Ev W V E} (h : ev.Quiet) (u : Nat) :
    ev.sets s u = none ∧ ev.started = none := by
  cases ev <;> first | exact ⟨rfl, rfl⟩ | exact h.elim

/-- What a step does to the tasks that are to do and to those that are open. -/
theorem Walk.move {f : Frame W V E} {fs fs' : List (Frame W V E)} (h : Walk s₀ ls s (f :: fs))
    (h₀ : SilentTree s₀) (hm : Move s.store f fs ev fs') : Path s₀ fs' ∧
      ((∃ c, ev = .start c ∧ todo s₀ (f :: fs) = c :: todo s₀ fs' ∧
          openTasks fs' = c :: openTasks (f :: fs)) ∨
        (∃ t, ev = .finish t ∧ todo s₀ fs' = todo s₀ (f :: fs) ∧
          openTasks (f :: fs) = t :: openTasks fs' ∧ ∀ u ∈ openTasks fs', u < t) ∨
        ev.Quiet ∧ todo s₀ fs' = todo s₀ (f :: fs) ∧ openTasks fs' = openTasks (f :: fs)) :=
  h.path.move h₀.tree hm h.same.subtasks (fun t u => h.same.fn t ▸ h₀.silent t u)
    fun _ hc hp => h.canStart h₀ hc hp

/-- What a step starts is no more to do. -/
theorem Walk.todo_length {f : Frame W V E} {fs fs' : List (Frame W V E)}
    (h : Walk s₀ ls s (f :: fs)) (h₀ : SilentTree s₀) (hm : Move s.store f fs ev fs') : ev.Walks ∧
      (todo s₀ fs').length + ev.started.toList.length = (todo s₀ (f :: fs)).length := by
  rcases (h.move h₀ hm).2 with ⟨c, rfl, htodo, -⟩ | ⟨t, rfl, htodo, -⟩ | ⟨hq, htodo, -⟩
  · exact ⟨.inl ⟨c, rfl⟩, by rw [htodo]; rfl⟩
  · exact ⟨.inr (.inl ⟨t, rfl⟩), by rw [htodo]; rfl⟩
  · exact ⟨.inr (.inr hq), by rw [htodo, (hq.sets (s := s.store) 0).2]; rfl⟩

theorem Walk.step (h : Walk s₀ ls s stk) (h₀ : SilentTree s₀) (hst : step s i = some (ev, s')) :
    ∃ stk', Walk s₀ (ls ++ [(i, ev)]) s' stk' := by
  have hev := h.wf.target_lt hst
  have hwf := h.wf.step hst
  obtain ⟨f, fs, fs', rfl, rfl, hm, rfl⟩ := step_single hst h.threads
  have hstatus := Store.apply_status h.wf.tree hev
  have hnodup := h.todo_nodup h₀
  obtain ⟨hpath, hcases⟩ := h.move h₀ hm
  have hsame := h.same.apply h.wf.tree hev (h.todo_length h₀ hm).1
  have hstarts := starts_concat ls 0 ev
  rcases hcases with ⟨c, rfl, htodo, hopen⟩ | ⟨t, rfl, htodo, hopen, hlt⟩ | ⟨hq, htodo, hopen⟩
  · rw [htodo] at hnodup
    have hc : c ∉ todo s₀ fs' := (List.nodup_cons.1 (List.nodup_append.1 hnodup).2.1).1
    refine ⟨fs', hwf, rfl, hsame, hpath, ?_, ?_, ?_, ?_⟩
    · rw [hstarts, ← h.order, htodo]
      simp [Ev.started]
    · intro u hu
      rw [hopen] at hu
      rw [hstarts]
      rcases List.mem_cons.1 hu with rfl | hu
      · exact List.mem_append_right _ (List.mem_singleton_self u)
      · exact List.mem_append_left _ (h.opened u hu)
    · intro u hu
      rw [hstatus u, h.status u hu, htodo, hopen]
      by_cases huc : u = c
      · rw [huc]
        simp [Ev.sets, hc]
      · simp [Ev.sets, huc]
    · intro u
      refine allOrNothing_apply (.inl ⟨c, rfl, ?_⟩) (h.amount u)
      rw [((s.store.canStart_iff c).1 hm.of_start).1]
      decide
  · have ht : t ∈ openTasks (f :: fs) := by rw [hopen]; exact List.mem_cons_self ..
    have htodo' := h.open_not_todo h₀ ht
    refine ⟨fs', hwf, rfl, hsame, hpath, ?_, ?_, ?_, ?_⟩
    · rw [hstarts, ← h.order, htodo]
      simp [Ev.started]
    · intro u hu
      rw [hstarts]
      refine List.mem_append_left _ (h.opened u ?_)
      rw [hopen]
      exact List.mem_cons_of_mem _ hu
    · intro u hu
      rw [hstatus u, h.status u hu, htodo, hopen]
      by_cases hut : u = t
      · have hnot : t ∉ openTasks fs' := fun hmem => Nat.lt_irrefl t (hlt t hmem)
        rw [hut]
        simp [Ev.sets, htodo', hnot]
      · simp [Ev.sets, hut]
    · exact fun u => allOrNothing_apply (.inr (.inl ⟨t, rfl⟩)) (h.amount u)
  · refine ⟨fs', hwf, rfl, hsame, hpath, ?_, ?_, ?_, ?_⟩
    · rw [hstarts, (hq.sets (s := s.store) 0).2, htodo, ← h.order]
      simp
    · intro u hu
      rw [hstarts]
      exact List.mem_append_left _ (h.opened u (hopen ▸ hu))
    · intro u hu
      rw [hstatus u, (hq.sets u).1, htodo, hopen]
      exact h.status u hu
    · exact fun u => allOrNothing_apply (.inr (.inr hq)) (h.amount u)

theorem Walk.run (h : Walk s₀ ls s stk) (h₀ : SilentTree s₀) {threaded : Bool}
    {ms : List (Nat × Ev W V E)} (hr : (taskList threaded).Run s ms s') :
    ∃ stk', Walk s₀ (ls ++ ms) s' stk' := by
  refine LTS.history_of_step (I := fun ls s => ∃ stk, Walk s₀ ls s stk) ?_ hr ⟨stk, h⟩
  intro ls s l s' ⟨stk, h⟩ hst
  exact h.step h₀ hst

/-! ## What the invariant says -/

/-- Below a COMPLETED task everything is COMPLETED. -/
theorem Walk.nested (h : Walk s₀ ls s stk) (h₀ : SilentTree s₀) {t c : Nat}
    (hc : c ∈ (s.store.task t).subtasks) (ht : (s.store.task t).status = .completed) :
    (s.store.task c).status = .completed := by
  rw [h.same.subtasks] at hc
  obtain ⟨htn, hcn, hp⟩ := h₀.tree.mem_subtasks hc
  have htodo : t ∉ todo s₀ stk := by
    intro hmem
    rw [h.status t htn, if_pos hmem] at ht
    cases ht
  have hopen : t ∉ openTasks stk := by
    intro hmem
    rw [h.status t htn, if_neg htodo, if_pos hmem] at ht
    cases ht
  have hctodo : c ∉ todo s₀ stk := by
    intro hmem
    rcases h.path.parent_todo h₀.tree hmem hp with hm | hm
    · exact hopen hm
    · exact htodo hm
  have hcopen : c ∉ openTasks stk := fun hmem => hopen (h.path.parent_open h₀.tree hmem hp)
  rw [h.status c hcn, if_neg hctodo, if_neg hcopen]

theorem Walk.balanced (h : Walk s₀ ls s stk) (h₀ : SilentTree s₀) (t : Nat) :
    (s.store.task t).Balanced := by
  have hsize : 0 ≤ (s.store.task t).size.val := by
    rw [h.same.size]
    exact h₀.size t
  have hamount := h.amount t
  unfold Task.AllOrNothing at hamount
  by_cases hc : (s.store.task t).status = .completed
  · rw [if_pos hc] at hamount
    exact ⟨hamount ▸ hsize, le_of_eq (congrArg Num.val hamount), fun _ => congrArg Num.val hamount⟩
  · rw [if_neg hc] at hamount
    exact ⟨by simp [hamount, Num.val], by simpa [hamount, Num.val] using hsize, fun h => absurd h hc⟩

theorem Walk.range (h : Walk s₀ ls s stk) (h₀ : SilentTree s₀) :
    0 ≤ s.store.getPercentCompleted 0 ∧ s.store.getPercentCompleted 0 ≤ 1 :=
  (Store.inRange (h.balanced h₀) (fun t => h.same.weight t ▸ (h₀.weight t).le) 0).percent

/-- A COMPLETED task stays COMPLETED. -/
theorem Walk.completed_step (h : Walk s₀ ls s stk) (h₀ : SilentTree s₀)
    (hst : Tasks.step s i = some (ev, s')) {t : Nat} (ht : (s.store.task t).status = .completed) :
    (s'.store.task t).status = .completed := by
  have hev := h.wf.target_lt hst
  obtain ⟨f, fs, fs', rfl, rfl, hm, rfl⟩ := step_single hst h.threads
  have hwalks := (h.todo_length h₀ hm).1
  rw [Store.apply_status h.wf.tree hev]
  rcases hwalks with ⟨c, rfl⟩ | ⟨u, rfl⟩ | hq
  · have hc : c ≠ t := by
      rintro rfl
      rw [((s.store.canStart_iff c).1 hm.of_start).1] at ht
      cases ht
    simp [Ev.sets, Ne.symm hc, ht]
  · simp only [Ev.sets]
    split
    · rfl
    · exact ht
  · rw [(hq.sets t).1]
    exact ht

theorem Walk.getWeight_eq (h : Walk s₀ ls s stk) (t : Nat) :
    s.store.getWeight t = s₀.getWeight t := by
  unfold Store.getWeight
  rw [h.same.n]
  have hw : ∀ t, ((s.store.task t).size.mul (s.store.task t).weight).val =
      ((s₀.task t).size.mul (s₀.task t).weight).val := fun t => by
    rw [h.same.size, h.same.weight]
  refine le_antisymm ?_ ?_
  · exact Store.sumTree_mono (P := fun _ => True) (fun t => (h.same.subtasks t).symm)
      (fun _ _ _ _ => trivial) (fun t _ => le_of_eq (hw t)) _ trivial
  · exact Store.sumTree_mono (P := fun _ => True) h.same.subtasks
      (fun _ _ _ _ => trivial) (fun t _ => le_of_eq (hw t).symm) _ trivial

theorem Walk.percent_eq (h : Walk s₀ ls s stk) : s.store.getPercentCompleted 0 =
    if s₀.getWeight 0 ≠ 0 then s.store.getCompleted 0 / s₀.getWeight 0 else 0 := by
  unfold Store.getPercentCompleted
  rw [h.getWeight_eq]

theorem Walk.percent_step (h : Walk s₀ ls s stk) (h₀ : SilentTree s₀)
    (hst : Tasks.step s i = some (ev, s')) :
    s.store.getPercentCompleted 0 ≤ s'.store.getPercentCompleted 0 := by
  obtain ⟨stk', h'⟩ := h.step h₀ hst
  have hamount : ∀ t, (s.store.task t).completed.val ≤ (s'.store.task t).completed.val := by
    intro t
    have hc := h.amount t
    have hc' := h'.amount t
    unfold Task.AllOrNothing at hc hc'
    by_cases ht : (s.store.task t).status = .completed
    · rw [if_pos ht, h.same.size] at hc
      rw [if_pos (h.completed_step h₀ hst ht), h'.same.size] at hc'
      rw [hc, hc']
    · rw [if_neg ht] at hc
      rw [hc]
      exact (h'.balanced h₀ t).nonneg
  have hcompleted : s.store.getCompleted 0 ≤ s'.store.getCompleted 0 := by
    unfold Store.getCompleted
    rw [h.same.n, h'.same.n]
    refine Store.sumTree_mono (P := fun _ => True)
      (fun t => (h'.same.subtasks t).trans (h.same.subtasks t).symm) (fun _ _ _ _ => trivial)
      (fun t _ => ?_) _ trivial
    rw [Num.val_mul, Num.val_mul, h.same.weight, h'.same.weight]
    exact mul_le_mul_of_nonneg_right (hamount t) (h₀.weight t).le
  have hweight : 0 ≤ s₀.getWeight 0 := by
    refine Store.sumTree_nonneg (fun t => ?_) _ 0
    rw [Num.val_mul]
    exact mul_nonneg (h₀.size t) (h₀.weight t).le
  rw [h.percent_eq, h'.percent_eq]
  split
  · exact div_le_div_of_nonneg_right hcompleted hweight
  · exact le_refl 0

theorem Walk.percent_run (h : Walk s₀ ls s stk) (h₀ : SilentTree s₀) {threaded : Bool}
    {ms : List (Nat × Ev W V E)} (hr : (taskList threaded).Run s ms s') :
    s.store.getPercentCompleted 0 ≤ s'.store.getPercentCompleted 0 := by
  have hinv := LTS.run_of_step (I := fun s₁ => (∃ ls stk, Walk s₀ ls s₁ stk) ∧
    s.store.getPercentCompleted 0 ≤ s₁.store.getPercentCompleted 0) ?_ hr ⟨⟨ls, stk, h⟩, le_refl _⟩
  · exact hinv.2
  · intro s₁ l s₂ ⟨⟨ls₁, stk₁, h₁⟩, hle⟩ hst
    obtain ⟨stk₂, h₂⟩ := h₁.step h₀ hst
    exact ⟨⟨_, stk₂, h₂⟩, hle.trans (h₁.percent_step h₀ hst)⟩

/-- At the end everything has been started and is COMPLETED. -/
theorem Walk.at_end (h : Walk s₀ ls s []) (h₀ : SilentTree s₀) : starts ls = s₀.inPreorder ∧
    ∀ t < s₀.n, (starts ls).count t = 1 ∧ (s.store.task t).status = .completed ∧
      (s.store.task t).completed = (s.store.task t).size := by
  have horder : starts ls = s₀.inPreorder := by simpa [todo] using h.order
  refine ⟨horder, fun t ht => ?_⟩
  have hstatus : (s.store.task t).status = .completed := by simpa [todo, openTasks] using h.status t ht
  refine ⟨?_, hstatus, ?_⟩
  · rw [horder]
    exact List.count_eq_one_of_mem (s₀.preorder_nodup h₀.tree h₀.nodup _ 0)
      (s₀.mem_preorder_root h₀.tree ht)
  · have hamount := h.amount t
    rwa [Task.AllOrNothing, if_pos hstatus] at hamount

theorem Walk.percent_over (h : Walk s₀ ls s []) (h₀ : SilentTree s₀)
    (hw : s.store.getWeight 0 ≠ 0) : s.store.getPercentCompleted 0 = 1 := by
  have hfull : ∀ t < s.store.n, ((s.store.task t).completed.mul (s.store.task t).weight).val =
      ((s.store.task t).size.mul (s.store.task t).weight).val := by
    intro t ht
    rw [((h.at_end h₀).2 t (h.same.n ▸ ht)).2.2]
  have hsum : s.store.getCompleted 0 = s.store.getWeight 0 := by
    refine le_antisymm ?_ ?_
    · exact Store.sumTree_mono (P := fun t => t < s.store.n) (fun _ => rfl)
        (fun t _ c hc => (h.wf.tree.mem_subtasks hc).2.1) (fun t ht => le_of_eq (hfull t ht)) _
        h.wf.tree.zero_lt
    · exact Store.sumTree_mono (P := fun t => t < s.store.n) (fun _ => rfl)
        (fun t _ c hc => (h.wf.tree.mem_subtasks hc).2.1) (fun t ht => le_of_eq (hfull t ht).symm) _
        h.wf.tree.zero_lt
  unfold Store.getPercentCompleted
  rw [if_pos hw, hsum]
  exact div_self hw

end

/-! ## The end of the walk -/

/-- What is left to do with a frame, an open start apart. -/
def Frame.cost : Frame W V E → Nat
  | .body _ _ | .awaitCall _ _ => 4
  | .awaitProgress _ _ => 0
  | _ => 1

/-- The steps that the stack still takes are no more than this, those within
functions apart. -/
def cost (s : Store W V E) (stk : List (Frame W V E)) : Nat :=
  (stk.map Frame.cost).sum + 5 * (todo s stk).length

theorem Path.cost_lt {s₀ s : Store W V E} {f : Frame W V E} {fs fs' : List (Frame W V E)}
    {ev : Ev W V E} (h : Path s₀ (f :: fs)) (hm : Move s f fs ev fs') (hw : ev.Walks)
    (hact : ∀ g, ev ≠ .act g) (htodo : (todo s₀ fs').length + ev.started.toList.length =
      (todo s₀ (f :: fs)).length) : cost s₀ fs' < cost s₀ (f :: fs) := by
  have hrefuse : ∀ t, ev ≠ .refuse t := by
    rintro t rfl
    rcases hw with ⟨c, hc⟩ | ⟨u, hu⟩ | hq
    · cases hc
    · cases hu
    · exact hq
  unfold cost
  rw [← htodo]
  cases h with
  | idle =>
    cases hm with
    | call => simp [Frame.cost, Ev.started]; omega
    | callRefused => exact absurd rfl (hrefuse _)
  | body hp hc =>
    cases hp with
    | ret v => cases hm; simp [Frame.cost, Ev.started, tail]; omega
    | act g hk => cases hm; exact absurd rfl (hact g)
  | loop hc =>
    cases hm with
    | launch => simp [Frame.cost, Ev.started]; omega
    | skip => exact absurd rfl (hrefuse _)
    | loopEnd => simp [Frame.cost, Ev.started]
  | finish hc => cases hm; simp [Frame.cost, Ev.started, resumeProgress]
  | result hc =>
    cases hm
    cases hc with
    | root => simp [Frame.cost, Ev.started, resumeCall]
    | loop => simp [Frame.cost, Ev.started, resumeCall]
  | last => cases hm; simp [Frame.cost, Ev.started]

section
variable {s₀ : Store W V E} {s s' : Sys W V E} {ls : List (Nat × Ev W V E)}
  {stk : List (Frame W V E)} {threaded : Bool}

/-- As long as there is a frame, there is a step. -/
theorem Walk.exists_step {f : Frame W V E} {fs : List (Frame W V E)} (h : Walk s₀ ls s (f :: fs)) :
    ∃ ev s', Tasks.step s 0 = some (ev, s') := by
  have hframe : ∃ r, stepFrame s.store fs f = some r := by
    cases h.path with
    | idle =>
      simp only [stepFrame, stepBody, if_pos h.wf.tree.zero_lt]
      split <;> exact ⟨_, rfl⟩
    | body hp _ => cases hp <;> exact ⟨_, rfl⟩
    | loop _ =>
      simp only [stepFrame]
      split
      · split <;> exact ⟨_, rfl⟩
      · exact ⟨_, rfl⟩
    | finish _ | result _ | last => exact ⟨_, rfl⟩
  obtain ⟨r, hr⟩ := hframe
  refine ⟨r.1, ⟨s.store.apply r.1, s.threads.set 0 r.2⟩, ?_⟩
  unfold Tasks.step
  rw [h.threads]
  simp [hr]

theorem Walk.ended_iff (h : Walk s₀ ls s stk) : (taskList threaded).Ended s ↔ stk = [] := by
  cases stk with
  | nil =>
    simp only [iff_true]
    intro l s' hst
    obtain ⟨f, fs, fs', -, hnil, -⟩ := step_single hst h.threads
    cases hnil
  | cons f fs =>
    simp only [reduceCtorEq, iff_false]
    obtain ⟨ev, s', hst⟩ := h.exists_step
    intro hend
    exact hend (0, ev) s' hst

/-- The next step, with the stack that it leaves. -/
theorem Walk.next (threaded : Bool) {f : Frame W V E} {fs : List (Frame W V E)}
    (h₀ : SilentTree s₀) (h : Walk s₀ ls s (f :: fs)) :
    ∃ ev s' fs', (taskList threaded).step s (0, ev) s' ∧ Move s.store f fs ev fs' ∧
      Walk s₀ (ls ++ [(0, ev)]) s' fs' := by
  obtain ⟨ev, s', hst⟩ := h.exists_step
  obtain ⟨stk', h'⟩ := h.step h₀ hst
  obtain ⟨g, gs, fs', -, hstk, hm, rfl⟩ := step_single hst h.threads
  cases hstk
  have hfs : fs' = stk' := List.singleton_inj.1 h'.threads
  subst hfs
  exact ⟨ev, _, fs', hst, hm, h'⟩

/-- A function that only works comes to its return. -/
theorem Walk.body_ended (h₀ : SilentTree s₀) {t : Nat} {fs : List (Frame W V E)} {p : Script W V E}
    (hp : p.Silent)
    (hret : ∀ s ls v, Walk s₀ ls s (.body (some t) (.ret v) :: fs) →
      ∃ ms s', (taskList threaded).Run s ms s' ∧ (taskList threaded).Ended s')
    (h : Walk s₀ ls s (.body (some t) p :: fs)) :
    ∃ ms s', (taskList threaded).Run s ms s' ∧ (taskList threaded).Ended s' := by
  induction hp generalizing s ls with
  | ret v => exact hret s ls v h
  | act g _ ih =>
    obtain ⟨ev, s₁, fs', hst, hm, h₁⟩ := h.next threaded h₀
    cases hm
    obtain ⟨ms, s', hrun, hend⟩ := ih _ h₁
    exact ⟨_ :: ms, s', .cons hst hrun, hend⟩

/-- Every walk can be continued to its end. -/
theorem Walk.exists_ended (h₀ : SilentTree s₀) (h : Walk s₀ ls s stk) :
    ∃ ms s', (taskList threaded).Run s ms s' ∧ (taskList threaded).Ended s' := by
  induction hN : cost s₀ stk using Nat.strongRecOn generalizing s ls stk with
  | _ N ih =>
    -- a step that is not within a function costs something
    have hnext : ∀ (s : Sys W V E) ls f fs, Walk s₀ ls s (f :: fs) → cost s₀ (f :: fs) = N →
        (∀ own g k, f ≠ .body own (.act g k)) →
        ∃ ms s', (taskList threaded).Run s ms s' ∧ (taskList threaded).Ended s' := by
      intro s ls f fs h hN hf
      obtain ⟨ev, s₁, fs', hst, hm, h₁⟩ := h.next threaded h₀
      have hact : ∀ g, ev ≠ .act g := by
        rintro g rfl
        cases hm
        exact hf _ _ _ rfl
      obtain ⟨hw, htodo⟩ := h.todo_length h₀ hm
      have hlt := h.path.cost_lt hm hw hact htodo
      obtain ⟨ms, s', hrun, hend⟩ := ih _ (hN ▸ hlt) h₁ rfl
      exact ⟨_ :: ms, s', .cons hst hrun, hend⟩
    cases h.path with
    | ended => exact ⟨[], s, .nil s, h.ended_iff.2 rfl⟩
    | body hp hc =>
      refine h.body_ended h₀ hp fun s ls v h => hnext s ls _ _ h hN ?_
      intro own g k he
      cases he
    | _ =>
      refine hnext s ls _ _ h hN ?_
      intro own g k he
      cases he

/-! ## The task list -/

/-- A task object as a silent one is created. -/
structure Task.Works (τ : Task W V E) : Prop where
  size : 0 ≤ τ.size.val
  weight : 0 < τ.weight.val
  silent : ∀ t, (τ.fn t).Silent
  completed : τ.completed = .int 0

theorem works_init (threaded : Bool) (w : W) {tasks : List (NewTask W V E)}
    (h : NewTask.ForallAll SilentNew tasks) (t : Nat) :
    ((initSys threaded w tasks []).store.task t).Works := by
  have hclosed : AllocClosed (W := W) (V := V) (E := E) SilentNew (fun _ _ => True) fun ts ts' =>
      (∀ u, (ts.getD u default).Works) → ∀ u, (ts'.getD u default).Works := by
    refine closed_all (Q := Task.Works) ?_ ?_
    · intro p r sz w fn ⟨hsz, hw, hfn⟩
      exact ⟨hsz, hw, hfn, rfl⟩
    · intro τ l h
      exact ⟨h.size, h.weight, h.silent, h.completed⟩
  refine (allocAll_rule hclosed tasks [rootTask] 0 h Nat.one_pos trivial).1 ?_ t
  intro u
  cases u with
  | zero => exact ⟨by norm_num [rootTask, Task.init, Num.val], by norm_num [rootTask, Task.init, Num.val],
      fun _ => .ret none, rfl⟩
  | succ u => exact ⟨by norm_num [Num.val, default], by norm_num [Num.val, default],
      fun _ => .ret none, rfl⟩

theorem silent_init (threaded : Bool) (w : W) {tasks : List (NewTask W V E)}
    (h : NewTask.ForallAll SilentNew tasks) :
    SilentTree (initSys threaded w tasks []).store where
  tree := (wf_init threaded w tasks []).tree
  nodup t := init_subtasks_nodup threaded w tasks [] t
  size t := (works_init threaded w h t).size
  weight t := (works_init threaded w h t).weight
  silent t := (works_init threaded w h t).silent

theorem walk_init (threaded : Bool) (w : W) {tasks : List (NewTask W V E)}
    (h : NewTask.ForallAll SilentNew tasks) :
    Walk (initSys threaded w tasks []).store [] (initSys threaded w tasks [])
      [.body none (.call 0 fun _ => .ret none)] where
  wf := wf_init threaded w tasks []
  threads := rfl
  same := ⟨rfl, fun _ => rfl, fun _ => rfl⟩
  path := .idle
  order := List.append_nil _
  opened t ht := by cases ht
  status t ht := by
    have htodo : t ∈ todo (initSys threaded w tasks []).store
        [.body none (.call 0 fun _ => .ret none)] :=
      List.mem_append_left _ (Store.mem_preorder_root (wf_init threaded w tasks []).tree ht)
    rw [init_inactive, if_pos htodo]
  amount t := by
    rw [Task.AllOrNothing, init_inactive]
    exact (works_init threaded w h t).completed

theorem Walk.deterministic {l₁ l₂ : Nat × Ev W V E} {s₁ s₂ : Sys W V E} (h : Walk s₀ ls s stk)
    (h₁ : (taskList threaded).step s l₁ s₁) (h₂ : (taskList threaded).step s l₂ s₂) : s₁ = s₂ := by
  obtain ⟨i, ev₁⟩ := l₁
  obtain ⟨j, ev₂⟩ := l₂
  obtain ⟨_, _, _, hi, -⟩ := step_single h₁ h.threads
  obtain ⟨_, _, _, hj, -⟩ := step_single h₂ h.threads
  subst hi hj
  have hev : some (ev₁, s₁) = some (ev₂, s₂) := h₁.symm.trans h₂
  cases hev
  rfl

end

/-- What the worker of a task list does, from `s₀` on, in every state and so at
every notification; `order` and `complete` are about the tree of `s₀`. -/
structure WalksInOrder (threaded : Bool) (s₀ : Sys W V E) : Prop where
  order : ∀ ls s, (taskList threaded).Run s₀ ls s → starts ls <+: s₀.store.inPreorder
  nested : ∀ ls s, (taskList threaded).Run s₀ ls s → ∀ t, ∀ c ∈ (s.store.task t).subtasks,
    (s.store.task t).status = .completed → (s.store.task c).status = .completed
  range : ∀ ls s, (taskList threaded).Run s₀ ls s →
    0 ≤ s.store.getPercentCompleted 0 ∧ s.store.getPercentCompleted 0 ≤ 1
  monotone : ∀ ls s ms s', (taskList threaded).Run s₀ ls s → (taskList threaded).Run s ms s' →
    s.store.getPercentCompleted 0 ≤ s'.store.getPercentCompleted 0
  ends : ∀ ls s, (taskList threaded).Run s₀ ls s →
    ∃ ms s', (taskList threaded).Run s ms s' ∧ (taskList threaded).Ended s'
  bounded : ∃ n, ∀ ls s, (taskList threaded).Run s₀ ls s → ls.length ≤ n
  complete : ∀ ls s, (taskList threaded).Run s₀ ls s → (taskList threaded).Ended s →
    starts ls = s₀.store.inPreorder ∧
      (∀ t < s₀.store.n, (starts ls).count t = 1 ∧ (s.store.task t).status = .completed ∧
        (s.store.task t).completed = (s.store.task t).size) ∧
      (s.store.getWeight 0 ≠ 0 → s.store.getPercentCompleted 0 = 1)

/-- **In pre-order.** A task list whose functions only work starts them in the
pre-order of the tree, each once, completes no task before its subtasks, never
lowers its percentage, and ends with everything COMPLETED and 1. -/
theorem silent_walksInOrder (threaded : Bool) (w : W) (tasks : List (NewTask W V E))
    (h : NewTask.ForallAll SilentNew tasks) :
    WalksInOrder threaded (initSys threaded w tasks []) := by
  have h₀ := silent_init threaded w h
  have hwalk : ∀ ls s, (taskList threaded).Run (initSys threaded w tasks []) ls s →
      ∃ stk, Walk (initSys threaded w tasks []).store ls s stk := fun ls s hr =>
    (walk_init threaded w h).run h₀ hr
  have hends : ∃ ms s', (taskList threaded).Run (initSys threaded w tasks []) ms s' ∧
      (taskList threaded).Ended s' := (walk_init threaded w h).exists_ended h₀
  refine ⟨?_, ?_, ?_, ?_, ?_, ?_, ?_⟩
  · intro ls s hr
    obtain ⟨stk, hs⟩ := hwalk ls s hr
    exact ⟨_, hs.order⟩
  · intro ls s hr t c hc ht
    obtain ⟨stk, hs⟩ := hwalk ls s hr
    exact hs.nested h₀ hc ht
  · intro ls s hr
    obtain ⟨stk, hs⟩ := hwalk ls s hr
    exact hs.range h₀
  · intro ls s ms s' hr hr'
    obtain ⟨stk, hs⟩ := hwalk ls s hr
    exact hs.percent_run h₀ hr'
  · intro ls s hr
    obtain ⟨stk, hs⟩ := hwalk ls s hr
    exact hs.exists_ended h₀
  · obtain ⟨ms, s', hrun, hend⟩ := hends
    refine ⟨ms.length, fun ls s hr => ?_⟩
    refine hrun.length_le_ended (I := fun s => ∃ ls stk,
      Walk (initSys threaded w tasks []).store ls s stk) ?_ ?_ hend ⟨_, _, walk_init threaded w h⟩ hr
    · intro s l s' ⟨ls, stk, hs⟩ hst
      obtain ⟨stk', hs'⟩ := hs.step h₀ hst
      exact ⟨_, stk', hs'⟩
    · intro s l₁ s₁ l₂ s₂ ⟨ls, stk, hs⟩ h₁ h₂
      exact hs.deterministic h₁ h₂
  · intro ls s hr hend
    obtain ⟨stk, hs⟩ := hwalk ls s hr
    obtain rfl := hs.ended_iff.1 hend
    obtain ⟨horder, hall⟩ := hs.at_end h₀
    exact ⟨horder, hall, hs.percent_over h₀⟩

/-- A task of weight 1/2 below one of size 2, and one of size 0 after them. -/
def silentList : List (NewTask Nat Unit Nat) :=
  [.mk true (.int 2) (.int 1) (fun _ => .act (· + 1) fun _ => .ret none)
    [.mk false (.int 1) (.float (1 / 2)) (fun _ => .ret (some ())) []],
   .mk true (.int 0) (.int 1) (fun _ => .ret none) []]

theorem silent_walksInOrder_three : WalksInOrder true (initSys true 0 silentList []) := by
  refine silent_walksInOrder true 0 silentList ⟨⟨⟨?_, ?_, ?_⟩, ⟨⟨?_, ?_, ?_⟩, trivial⟩, trivial⟩,
    ⟨⟨?_, ?_, ?_⟩, trivial⟩, trivial⟩
  · norm_num [Num.val]
  · norm_num [Num.val]
  · exact fun _ => .act _ fun _ => .ret none
  · norm_num [Num.val]
  · norm_num [Num.val]
  · exact fun _ => .ret (some ())
  · norm_num [Num.val]
  · norm_num [Num.val]
  · exact fun _ => .ret none

/-- Task 2 is below task 1, and task 3 is the root's second subtask. -/
example : (initSys true 0 silentList []).store.inPreorder = [0, 1, 2, 3] := rfl

end Wubi.Tasks
