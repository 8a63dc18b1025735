import Wubi.Tasks.Step

/-!
# The status of a task moves forward

`Forward x y`: a task may go from status `x` to `y`, that is, INACTIVE to
ACTIVE, ACTIVE to one of the three final states, INACTIVE to CANCELLED. The
code keeps to it only in orderly runs: `finish()` overwrites every status but
COMPLETED, and it is called

* by `__call__` after a function that raised (FAILED, a task that is not
  required), and by the root's `__call__` after a required task failed under
  it (CANCELLED);
* after a function that was cancelled while it ran (CANCELLED);
* by functions, on any task.

`Orderly` excludes these by what a step is about to do; then every frame on a
stack belongs to a task that is ACTIVE or COMPLETED (`Sys.Owned`), so each
`finish()` that `__call__` still owes finds its task in one of the two.
-/
namespace Wubi.Tasks

variable {W V E : Type}

namespace Status

def Final (x : Status) : Prop := x = .completed ∨ x = .failed ∨ x = .cancelled

def Forward (x y : Status) : Prop :=
  x = y ∨ (x = .inactive ∧ (y = .active ∨ y = .cancelled)) ∨ (x = .active ∧ y.Final)

/-- ACTIVE, or ended as it should. -/
def Running (x : Status) : Prop := x = .active ∨ x = .completed

theorem Forward.of_final {x y : Status} (h : x.Forward y) (hx : x.Final) : y = x := by
  rcases h with h | ⟨h, -⟩ | ⟨h, -⟩
  · exact h.symm
  · rw [h] at hx; rcases hx with hx | hx | hx <;> cases hx
  · rw [h] at hx; rcases hx with hx | hx | hx <;> cases hx

end Status

/-- The step is about to do nothing out of order: no function raises, only
tasks that have not started are cancelled, and functions finish only tasks
that have. -/
def Orderly (s : Sys W V E) (l : Nat × Ev W V E) : Prop :=
  match l.2 with
  | .raised _ _ => False
  | .cancel t => (s.store.task t).status = .inactive ∨ (s.store.task t).status = .cancelled
  | .progress t c sz => c.ge (s.store.newSize t sz) = true → (s.store.task t).status.Running
  | .finish t =>
    (∃ own k fs, s.threads[l.1]? = some (.body own (.finish t k) :: fs)) →
      (s.store.task t).status.Running
  | _ => True

/-- Every frame belongs to a task that is ACTIVE or COMPLETED. -/
def Sys.Owned (s : Sys W V E) : Prop :=
  ∀ stk ∈ s.threads, ∀ t, Owns stk t → (s.store.task t).status.Running

theorem orderly_forward {s s' : Sys W V E} {i : Nat} {ev : Ev W V E} (hw : s.WF) (ho : s.Owned)
    (hst : step s i = some (ev, s')) (hc : Orderly s (i, ev)) (t : Nat) :
    (s.store.task t).status.Forward (s'.store.task t).status ∧
      ((s.store.task t).status.Running → (s'.store.task t).status.Running) := by
  rw [Sys.WF.store_eq hst, Store.apply_status hw.tree (hw.target_lt hst)]
  cases he : ev.sets s.store t with
  | none => exact ⟨.inl rfl, id⟩
  | some x =>
    obtain ⟨f, fs, fs', hth, hm, -⟩ := step_move hst
    rcases Ev.sets_eq he with ⟨rfl, rfl⟩ | ⟨rfl, rfl⟩ | ⟨rfl, rfl⟩ | ⟨_, _, rfl, -⟩
    · exact ⟨.inr (.inl ⟨((s.store.canStart_iff t).1 hm.of_start).1, .inl rfl⟩),
        fun _ => .inl rfl⟩
    · have hrun : (s.store.task t).status.Running := by
        cases hm with
        | finishOf => exact hc ⟨_, _, _, hth⟩
        | finish => exact ho _ (List.mem_of_getElem? hth) t (carries_cons.2 (.inl rfl))
      refine ⟨?_, fun _ => .inr rfl⟩
      rcases hrun with h | h
      · exact .inr (.inr ⟨h, .inl rfl⟩)
      · exact .inl h
    · rcases (show _ = _ ∨ _ = _ from hc) with h | h
      · exact ⟨.inr (.inl ⟨h, .inr rfl⟩), fun hr => by rw [h] at hr; rcases hr with hr | hr <;> cases hr⟩
      · exact ⟨.inl h, fun hr => by rw [h] at hr; rcases hr with hr | hr <;> cases hr⟩
    · exact hc.elim

theorem owned_step {s s' : Sys W V E} {i : Nat} {ev : Ev W V E} (hw : s.WF) (ho : s.Owned)
    (hst : step s i = some (ev, s')) (hc : Orderly s (i, ev)) : s'.Owned := by
  have hkeep := fun t => (orderly_forward hw ho hst hc t).2
  refine threads_step hst ho ?_ fun stk _ hstk t ht => hkeep t (hstk t ht)
  intro f fs fs' hm hf t ht
  rcases hm.owns ht with h | rfl | ⟨own, c, sz, k, -, rfl, hge⟩
  · exact hkeep t (hf t h)
  · -- a task that starts is ACTIVE
    rw [Sys.WF.store_eq hst, Store.apply_status hw.tree (hw.target_lt hst)]
    exact .inl (by simp [Ev.sets])
  · exact hkeep t (hc hge)

theorem owned_init (threaded : Bool) (w : W) (tasks : List (NewTask W V E))
    (others : List (Script W V E)) : (initSys threaded w tasks others).Owned := by
  intro stk hstk t ⟨f, hf, hown⟩
  simp only [initSys, List.mem_cons, List.mem_map] at hstk
  rcases hstk with rfl | ⟨p, -, rfl⟩ <;> cases List.mem_singleton.1 hf <;> cases hown

theorem owned_inductive (threaded : Bool) :
    ((taskList (W := W) (V := V) (E := E) threaded).restrict Orderly).Inductive
      fun s => s.WF ∧ s.Owned where
  init := by
    intro s ⟨w, tasks, others, hs⟩
    subst hs
    exact ⟨wf_init threaded w tasks others, owned_init threaded w tasks others⟩
  step _ _ _ h hst := ⟨h.1.step hst.1, owned_step h.1 h.2 hst.1 hst.2⟩

/-- **The status law in orderly runs.** Each step moves the status of every
task forward, and a final status stays along the rest of the run. -/
theorem status_forward {threaded : Bool} {s₀ s s' : Sys W V E} {ls ms : List (Nat × Ev W V E)}
    (hi : (taskList threaded).init s₀) (hr : ((taskList threaded).restrict Orderly).Run s₀ ls s)
    (hr' : ((taskList threaded).restrict Orderly).Run s ms s') (t : Nat) :
    (∀ l s₁, ((taskList threaded).restrict Orderly).step s l s₁ →
      (s.store.task t).status.Forward (s₁.store.task t).status) ∧
      ((s.store.task t).status.Final → (s'.store.task t).status = (s.store.task t).status) := by
  have hI := (owned_inductive threaded).reachable s ⟨s₀, ls, hi, hr⟩
  refine ⟨fun l s₁ hst => (orderly_forward hI.1 hI.2 hst.1 hst.2 t).1, fun hfin => ?_⟩
  have hstay : (s'.WF ∧ s'.Owned) ∧ (s'.store.task t).status = (s.store.task t).status := by
    refine LTS.run_of_step (I := fun b : Sys W V E =>
      (b.WF ∧ b.Owned) ∧ (b.store.task t).status = (s.store.task t).status) ?_ hr' ⟨hI, rfl⟩
    intro a l b ⟨ha, hsame⟩ hst
    refine ⟨(owned_inductive threaded).step a l b ha hst, ?_⟩
    have hf := (orderly_forward ha.1 ha.2 hst.1 hst.2 t).1
    rw [hsame] at hf
    exact hf.of_final hfin
  exact hstay.2

/-- One task that returns. -/
def returningList : Sys Unit Unit Nat :=
  initSys true () [.mk true (.int 1) (.int 1) (fun _ => .ret none) []] []

theorem status_forward_returning :
    (∀ l s₁, ((taskList true).restrict Orderly).step (exec [0, 0, 0, 0, 0] returningList).2 l s₁ →
      ((exec [0, 0, 0, 0, 0] returningList).2.store.task 1).status.Forward
        (s₁.store.task 1).status) ∧
      (((exec [0, 0, 0, 0, 0] returningList).2.store.task 1).status.Final →
        ((exec [0, 0, 0, 0, 0, 0] returningList).2.store.task 1).status =
          ((exec [0, 0, 0, 0, 0] returningList).2.store.task 1).status) := by
  have hr : ((taskList true).restrict Orderly).Run returningList
      (exec [0, 0, 0, 0, 0] returningList).1 (exec [0, 0, 0, 0, 0] returningList).2 :=
    .cons ⟨rfl, trivial⟩ (.cons ⟨rfl, trivial⟩ (.cons ⟨rfl, trivial⟩
      (.cons ⟨rfl, trivial⟩ (.cons ⟨rfl, trivial⟩ (.nil _)))))
  have hr' : ((taskList true).restrict Orderly).Run (exec [0, 0, 0, 0, 0] returningList).2
      [(0, .finish 1)] (exec [0, 0, 0, 0, 0, 0] returningList).2 :=
    .cons ⟨rfl, fun ⟨_, _, _, h⟩ => by cases h⟩ (.nil _)
  exact status_forward ⟨(), _, [], rfl⟩ hr hr' 1

/-- A task that is not required and raises. -/
def optionalList : Sys Unit Unit Nat :=
  initSys true () [.mk false (.int 1) (.int 1) (fun _ => .raise 1) []] []

/-- A required task that raises. -/
def requiredList : Sys Unit Unit Nat :=
  initSys true () [.mk true (.int 1) (.int 1) (fun _ => .raise 1) []] []

/-- A task whose function raised ends COMPLETED, and so does a root that was
cancelled because of a failure. -/
theorem failed_then_completed :
    (((exec (.replicate 4 0) optionalList).2.store.task 1).status = .failed ∧
      ((exec (.replicate 6 0) optionalList).2.store.task 1).status = .completed) ∧
    (((exec (.replicate 4 0) requiredList).2.store.task 0).status = .cancelled ∧
      ((exec (.replicate 6 0) requiredList).2.store.task 0).status = .completed) :=
  ⟨⟨rfl, rfl⟩, rfl, rfl⟩

end Wubi.Tasks
