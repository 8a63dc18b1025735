import Wubi.Tasks.Step

/-!
# Cancellation of a `ThreadedTaskList`

A required task whose function raises cancels the root; so does any thread
that calls `cancel()` on it. The root's status does not stay CANCELLED: the
`finish()` that is pending on the worker's stack overwrites it. What stays is
`Halted`: the event is set, and the root is neither INACTIVE nor ACTIVE.

* No guard of `__call__` passes in a halted state, at any depth: `is_active`
  of every parent asks the root (`halted_no_start`).
* Every `set_progress` returns True: `is_cancelled` of every task asks the
  event (`Tree.isCancelled_of_stopped`).

`halted_run` is the invariant along every later run; `cancel_is_final` is the
statement about a run in which the cancellation happens.
-/
namespace Wubi.Tasks

variable {W V E : Type}

structure Store.Halted (s : Store W V E) : Prop where
  stopped : s.stopped = true
  root : (s.task 0).status ≠ .inactive ∧ (s.task 0).status ≠ .active

/-- The events that cancel the root. -/
def Ev.CancelsRoot (s : Store W V E) : Ev W V E → Prop
  | .raised t _ => (s.task t).isRequired = true
  | .cancel t => t = 0
  | _ => False

namespace Store

variable {s : Store W V E}

/-- An event that writes no status but COMPLETED, FAILED or CANCELLED keeps a
store halted. -/
theorem halted_apply {ev : Ev W V E} (h : s.Halted) (hs : s.Tree)
    (hev : ∀ t ∈ ev.target, t < s.n) (hstart : ∀ t, ev ≠ .start t) : (s.apply ev).Halted where
  stopped := by rw [apply_stopped hs hev, h.stopped]; rfl
  root := by
    have hset : ∀ x, ev.sets s 0 = some x → x ≠ .inactive ∧ x ≠ .active := by
      intro x hx
      rcases Ev.sets_eq hx with ⟨h', -⟩ | ⟨-, rfl⟩ | ⟨-, rfl⟩ | ⟨_, _, -, ⟨-, rfl⟩ | ⟨-, -, rfl⟩⟩
      · exact absurd h' (hstart 0)
      all_goals decide
    rw [apply_status hs hev]
    cases he : ev.sets s 0 with
    | none => exact h.root
    | some x => exact hset x he

/-- The cancellation itself. -/
theorem halted_of_cancelsRoot {ev : Ev W V E} (hs : s.Tree) (hev : ∀ t ∈ ev.target, t < s.n)
    (hthr : s.threaded = true) (hc : ev.CancelsRoot s) : (s.apply ev).Halted where
  stopped := by
    rw [apply_stopped hs hev, hthr]
    cases ev with
    | raised t e => simpa [Ev.CancelsRoot] using Or.inr hc
    | cancel t =>
      have h0 : t = 0 := hc
      subst h0
      simp [hs.root]
    | _ => cases hc
  root := by
    rw [apply_status hs hev]
    have hset : ev.sets s 0 = some .cancelled := by
      cases ev with
      | raised t e => exact if_pos ⟨rfl, hc⟩
      | cancel t => exact if_pos (show t = 0 from hc).symm
      | _ => cases hc
    rw [hset, Option.getD_some]; decide

end Store

/-! ## Steps and runs -/

theorem halted_no_start {s s' : Sys W V E} {i : Nat} {ev : Ev W V E} (hw : s.WF)
    (h : s.store.Halted) (hst : step s i = some (ev, s')) (t : Nat) : ev ≠ .start t := by
  rintro rfl
  rcases root_of_start hw hst with ⟨-, hr⟩ | ⟨-, hr⟩
  · exact h.root.1 hr
  · exact h.root.2 hr

theorem halted_step {s s' : Sys W V E} {i : Nat} {ev : Ev W V E} (hw : s.WF)
    (h : s.store.Halted) (hst : step s i = some (ev, s')) : s'.store.Halted := by
  rw [Sys.WF.store_eq hst]
  exact Store.halted_apply h hw.tree (hw.target_lt hst) (halted_no_start hw h hst)

theorem halted_run {threaded : Bool} {s s' : Sys W V E} {ls : List (Nat × Ev W V E)} (hw : s.WF)
    (h : s.store.Halted) (hr : (taskList threaded).Run s ls s') : s'.WF ∧ s'.store.Halted :=
  LTS.run_of_step (I := fun s => s.WF ∧ s.store.Halted)
    (fun _ _ _ hI hst => ⟨hI.1.step hst, halted_step hI.1 hI.2 hst⟩) hr ⟨hw, h⟩

theorem threaded_reachable {threaded : Bool} {s : Sys W V E}
    (h : (taskList threaded).Reachable s) : s.store.threaded = threaded := by
  have hI : (taskList (W := W) (V := V) (E := E) threaded).Inductive
      fun s => s.store.threaded = threaded := by
    refine ⟨by rintro _ ⟨w, tasks, others, rfl⟩; rfl, fun s l s' hs hst => ?_⟩
    rw [Sys.WF.store_eq hst, Store.apply_threaded, hs]
  exact hI.reachable s h

/-- In a halted state no task becomes ACTIVE from INACTIVE. -/
theorem halted_status {s s' : Sys W V E} {i : Nat} {ev : Ev W V E} (hw : s.WF)
    (h : s.store.Halted) (hst : step s i = some (ev, s')) (t : Nat)
    (hin : (s.store.task t).status = .inactive) : (s'.store.task t).status ≠ .active := by
  intro hact
  rcases active_of_step hw hst hact with he | ⟨hact, -⟩
  · exact halted_no_start hw h hst t he
  · rw [hin] at hact; cases hact

/-- In a halted state `set_progress` returns True and changes nothing. -/
theorem halted_setProgress {s s' : Sys W V E} {i : Nat} {ev : Ev W V E} (hw : s.WF)
    (h : s.store.Halted) (hst : step s i = some (ev, s')) {own : Option Nat} {t : Nat} {c : Num}
    {sz : Option Num} {k : Bool → Script W V E} {fs : List (Frame W V E)}
    (hth : s.threads[i]? = some (.body own (.setProgress t c sz k) :: fs)) :
    ev = .stop t ∧ s' = ⟨s.store, s.threads.set i (.body own (k true) :: fs)⟩ := by
  obtain ⟨f, fs₁, fs', hth', hm, rfl⟩ := step_move hst
  rw [hth] at hth'
  cases hth'
  have hcan : ∀ {u}, u < s.store.n → s.store.isCancelled (u + 1) u = true :=
    fun hu => hw.tree.isCancelled_of_stopped h.stopped hu
  cases hm with
  | stop => exact ⟨rfl, rfl⟩
  | progress ht hnc => rw [hcan ht] at hnc; cases hnc
  | reachSize ht hnc => rw [hcan ht] at hnc; cases hnc

/-- **Cancellation is final.** In every run of a `ThreadedTaskList`, over any
tree and scripts and with any number of threads: after the step in which a
required task's function raises or a thread cancels the root, no step takes a
task from INACTIVE to ACTIVE, and every `set_progress` returns True to its
caller and leaves the task objects as they are. -/
theorem cancel_is_final {s₀ s₁ s₂ s₃ s₄ : Sys W V E} {ls ms : List (Nat × Ev W V E)} {i j : Nat}
    {ev ev' : Ev W V E} (hi : (taskList true).init s₀) (hr : (taskList true).Run s₀ ls s₁)
    (hst : step s₁ i = some (ev, s₂)) (hc : ev.CancelsRoot s₁.store)
    (hr' : (taskList true).Run s₂ ms s₃) (hst' : step s₃ j = some (ev', s₄)) :
    (∀ t, (s₃.store.task t).status = .inactive → (s₄.store.task t).status ≠ .active) ∧
      ∀ own t c sz k fs, s₃.threads[j]? = some (.body own (.setProgress t c sz k) :: fs) →
        ev' = .stop t ∧ s₄ = ⟨s₃.store, s₃.threads.set j (.body own (k true) :: fs)⟩ := by
  have hreach : (taskList true).Reachable s₁ := ⟨s₀, ls, hi, hr⟩
  have hw := wf_reachable hreach
  have hhalt : s₂.store.Halted := by
    rw [Sys.WF.store_eq hst]
    exact Store.halted_of_cancelsRoot hw.tree (hw.target_lt hst) (threaded_reachable hreach) hc
  obtain ⟨hw₃, h₃⟩ := halted_run (hw.step hst) hhalt hr'
  exact ⟨fun t => halted_status hw₃ h₃ hst' t,
    fun own t c sz k fs hth => halted_setProgress hw₃ h₃ hst' hth⟩

/-- A required task that raises, a task after it, and a thread that reports
progress on the latter. -/
def raisingList : Sys Unit Unit Nat :=
  initSys true () [.mk true (.int 1) (.int 1) (fun _ => .raise 7) [],
    .mk true (.int 5) (.int 1) (fun _ => .ret none) []] [.setProgress 2 (.int 3) none fun _ => .ret none]

theorem cancel_is_final_raising :
    (∀ t, ((exec [0, 0, 0, 0, 0] raisingList).2.store.task t).status = .inactive →
      ((exec [0, 0, 0, 0, 0, 1] raisingList).2.store.task t).status ≠ .active) ∧
      ∀ own t c sz k fs,
        (exec [0, 0, 0, 0, 0] raisingList).2.threads[1]? = some (.body own (.setProgress t c sz k) :: fs) →
        (Ev.stop 2 : Ev Unit Unit Nat) = .stop t ∧ (exec [0, 0, 0, 0, 0, 1] raisingList).2 =
          ⟨(exec [0, 0, 0, 0, 0] raisingList).2.store,
            (exec [0, 0, 0, 0, 0] raisingList).2.threads.set 1 (.body own (k true) :: fs)⟩ :=
  cancel_is_final ⟨(), _, _, rfl⟩ (exec_run true [0, 0, 0] raisingList)
    (show step _ 0 = some (.raised 1 7, _) from rfl) rfl
    (exec_run true [0] (exec [0, 0, 0, 0] raisingList).2) rfl

end Wubi.Tasks
