import Wubi.Tasks.Once

/-!
# A task that is not required and fails

`calm x` changes a tree so that the function of task `x` returns None where it
raised; everything that it does before stays. The worker's runs of the two trees
are the same outside `x`, as long as no subtask of `x` is INACTIVE when `x`
raises.

**Window.** From the `except` branch to its `finish()` the task is FAILED in one
run and, say, ACTIVE in the other. All that runs in between is the loop over its
subtasks, which skips every one of them in both runs. After `finish()` the task
is COMPLETED in both; what it has completed and its error may differ and are
read by nobody.

`Sim` relates the states of the two runs; it is kept by every step (`Sim.step`).
`nonFatal_sameOutside`: the two runs take the same steps, and at every point
their states differ in task `x` and its function only.
-/
namespace Wubi.Tasks

variable {W V E : Type}

/-! ## The tree in which `x` does not raise -/

mutual

/-- `own`: this is the function of task `x`. -/
def Script.calm (x : Nat) (own : Bool) : Script W V E → Script W V E
  | .ret v => .ret v
  | .raise e => if own then .ret none else .raise e
  | .act f k => .act f fun w => (k w).calm x own
  | .addSubtask t new k => .addSubtask t (new.calm x) fun u => (k u).calm x own
  | .setProgress t c sz k => .setProgress t c sz fun b => (k b).calm x own
  | .setSize t sz k => .setSize t sz (k.calm x own)
  | .finish t k => .finish t (k.calm x own)
  | .cancel t k => .cancel t (k.calm x own)
  | .call t k => .call t fun v => (k v).calm x own

/-- Every function, with the case that it is run as that of task `x`. -/
def NewTask.calm (x : Nat) : NewTask W V E → NewTask W V E
  | .mk isRequired size weight fn subtasks =>
    .mk isRequired size weight (fun t => (fn t).calm x (t == x)) (NewTask.calmAll x subtasks)

def NewTask.calmAll (x : Nat) : List (NewTask W V E) → List (NewTask W V E)
  | [] => []
  | new :: news => new.calm x :: NewTask.calmAll x news

end

def Frame.calm (x : Nat) : Frame W V E → Frame W V E
  | .body own p => .body own (p.calm x (own == some x))
  | .awaitProgress own k => .awaitProgress own fun b => (k b).calm x (own == some x)
  | .awaitCall own k => .awaitCall own fun v => (k v).calm x (own == some x)
  | .subtasks t i => .subtasks t i
  | .finish t => .finish t
  | .result t => .result t

def Ev.calm (x : Nat) : Ev W V E → Ev W V E
  | .raised t e => if t = x then .returned t none else .raised t e
  | .add p new => .add p (new.calm x)
  | ev => ev

/-! ## Related stores -/

/-- Task `t` of the two trees. -/
structure TaskSim (x t : Nat) (τ τ' : Task W V E) : Prop where
  parent : τ'.parent = τ.parent
  subtasks : τ'.subtasks = τ.subtasks
  size : τ'.size = τ.size
  weight : τ'.weight = τ.weight
  isRequired : τ'.isRequired = τ.isRequired
  result : τ'.result = τ.result
  fn : τ'.fn = fun u => (τ.fn u).calm x (u == x)
  status : t ≠ x → τ'.status = τ.status
  completed : t ≠ x → τ'.completed = τ.completed
  error : t ≠ x → τ'.error = τ.error

/-- The task objects of the two trees. -/
structure ListSim (x : Nat) (ts ts' : List (Task W V E)) : Prop where
  length : ts'.length = ts.length
  task : ∀ t, TaskSim x t (ts.getD t default) (ts'.getD t default)

theorem taskSim_default (x t : Nat) : TaskSim x t (default : Task W V E) default :=
  ⟨rfl, rfl, rfl, rfl, rfl, rfl, rfl, fun _ => rfl, fun _ => rfl, fun _ => rfl⟩

theorem taskSim_init (x t p : Nat) (isRequired : Bool) (size weight : Num)
    (fn : Nat → Script W V E) :
    TaskSim x t (Task.init (some p) isRequired size weight fn)
      (Task.init (some p) isRequired size weight fun u => (fn u).calm x (u == x)) :=
  ⟨rfl, rfl, rfl, rfl, rfl, rfl, rfl, fun _ => rfl, fun _ => rfl, fun _ => rfl⟩

theorem ListSim.push {x p : Nat} {ts ts' : List (Task W V E)} (h : ListSim x ts ts')
    (hp : p < ts.length) (isRequired : Bool) (size weight : Num) (fn : Nat → Script W V E) :
    ListSim x (link (ts ++ [Task.init (some p) isRequired size weight fn]) p ts.length)
      (link (ts' ++ [Task.init (some p) isRequired size weight fun u => (fn u).calm x (u == x)]) p
        ts'.length) where
  length := by simp [h.length]
  task t := by
    have ht := h.task t
    rw [getD_push _ _ _ _ hp, getD_push _ _ _ _ (h.length ▸ hp), h.length]
    split
    · exact taskSim_init x t p isRequired size weight fn
    · split
      · exact { ht with subtasks := by rw [ht.subtasks] }
      · exact ht

mutual

theorem ListSim.alloc {x : Nat} : ∀ (new : NewTask W V E) {ts ts' : List (Task W V E)} {p : Nat},
    ListSim x ts ts' → p < ts.length → ListSim x (alloc ts p new) (alloc ts' p (new.calm x))
  | .mk isRequired size weight fn subtasks, ts, ts', p, h, hp => by
    simp only [NewTask.calm, Tasks.alloc, h.length]
    refine ListSim.allocAll subtasks ?_ (by simp)
    have hpush := h.push hp isRequired size weight fn
    rwa [h.length] at hpush

theorem ListSim.allocAll {x : Nat} : ∀ (news : List (NewTask W V E)) {ts ts' : List (Task W V E)}
    {p : Nat}, ListSim x ts ts' → p < ts.length →
      ListSim x (allocAll ts p news) (allocAll ts' p (NewTask.calmAll x news))
  | [], _, _, _, h, _ => by simpa only [NewTask.calmAll, Tasks.allocAll] using h
  | new :: news, ts, ts', p, h, hp => by
    simp only [NewTask.calmAll, Tasks.allocAll]
    refine ListSim.allocAll news (ListSim.alloc new h hp) ?_
    have hlt := (alloc_rule (closed_old (fun _ => ()) (fun _ _ => rfl) 0) new ts p new.forall_true hp
      trivial).2
    omega

end

/-- The two stores, the status of `x` apart. -/
structure StoreSim (x : Nat) (s s' : Store W V E) : Prop where
  threaded : s'.threaded = s.threaded
  stopped : s'.stopped = s.stopped
  world : s'.world = s.world
  tasks : ListSim x s.tasks s'.tasks

namespace StoreSim

variable {x : Nat} {s s' : Store W V E}

theorem n (h : StoreSim x s s') : s'.n = s.n := h.tasks.length

theorem task (h : StoreSim x s s') (t : Nat) : TaskSim x t (s.task t) (s'.task t) := h.tasks.task t

/-- Where `x` has the same status too, every task has. -/
theorem status (h : StoreSim x s s') (hx : (s'.task x).status = (s.task x).status) (t : Nat) :
    (s'.task t).status = (s.task t).status := by
  by_cases ht : t = x
  · rw [ht]
    exact hx
  · exact (h.task t).status ht

theorem isActive (h : StoreSim x s s') (hx : (s'.task x).status = (s.task x).status) (k t : Nat) :
    s'.isActive k t = s.isActive k t := by
  induction k generalizing t with
  | zero => rfl
  | succ k ih =>
    rw [Store.isActive, Store.isActive, h.status hx, (h.task t).parent]
    cases (s.task t).parent with
    | none => rfl
    | some p => simp only [ih]

theorem isCancelled (h : StoreSim x s s') (hx : (s'.task x).status = (s.task x).status) (k t : Nat) :
    s'.isCancelled k t = s.isCancelled k t := by
  induction k generalizing t with
  | zero => rfl
  | succ k ih =>
    rw [Store.isCancelled, Store.isCancelled, h.status hx, (h.task t).parent]
    cases (s.task t).parent with
    | none => rw [h.stopped]
    | some p => simp only [ih]

theorem canStart (h : StoreSim x s s') (hx : (s'.task x).status = (s.task x).status) (t : Nat) :
    s'.canStart t = s.canStart t := by
  unfold Store.canStart
  rw [h.status hx, (h.task t).parent]
  cases (s.task t).parent with
  | none => rfl
  | some p => simp only [h.isActive hx]

theorem newSize (h : StoreSim x s s') (t : Nat) (sz : Option Num) :
    s'.newSize t sz = s.newSize t sz := by
  unfold Store.newSize
  rw [(h.task t).size]

/-! ## Events -/

theorem modify (h : StoreSim x s s') (t : Nat) {f f' : Task W V E → Task W V E}
    (hf : TaskSim x t (f (s.task t)) (f' (s'.task t))) :
    StoreSim x (s.modify t f) (s'.modify t f') where
  threaded := h.threaded
  stopped := h.stopped
  world := h.world
  tasks := by
    refine ⟨?_, fun u => ?_⟩
    · have hn := h.n
      simpa [Store.modify, Store.n] using hn
    · change TaskSim x u ((s.modify t f).task u) ((s'.modify t f').task u)
      rw [Store.task_modify, Store.task_modify, h.n]
      split
      · rename_i hu
        rw [← hu.1]
        exact hf
      · exact h.task u

theorem finish (h : StoreSim x s s') (t : Nat) : StoreSim x (s.finish t) (s'.finish t) where
  threaded := by
    rw [show (s'.finish t).threaded = s'.threaded from s'.apply_threaded (.finish t),
      show (s.finish t).threaded = s.threaded from s.apply_threaded (.finish t)]
    exact h.threaded
  stopped := by
    unfold Store.finish
    split <;> split <;> exact h.stopped
  world := by
    unfold Store.finish
    split <;> split <;> exact h.world
  tasks := by
    refine ⟨?_, fun u => ?_⟩
    · have hn : (s'.finish t).n = (s.finish t).n := by rw [Store.n_finish, Store.n_finish, h.n]
      exact hn
    · change TaskSim x u ((s.finish t).task u) ((s'.finish t).task u)
      have hu := h.task u
      rw [Store.task_finish, Store.task_finish, h.n]
      by_cases htx : t = x
      · -- the branches may differ, but only in the status and the amount of `x`
        split
        · rename_i hc
          have hux : ¬ u ≠ x := fun hne => hne (hc.1.symm.trans htx)
          split
          · exact { hu with
              status := fun hne => absurd hne hux, completed := fun hne => absurd hne hux }
          · exact { hu with
              status := fun hne => absurd hne hux, completed := fun hne => absurd hne hux }
        · split
          · rename_i hc
            have hux : ¬ u ≠ x := fun hne => hne (hc.1.symm.trans htx)
            exact { hu with
              status := fun hne => absurd hne hux, completed := fun hne => absurd hne hux }
          · exact hu
      · rw [(h.task t).status htx]
        split
        · exact { hu with status := fun _ => rfl, completed := fun _ => hu.size }
        · exact hu

theorem cancel (h : StoreSim x s s') (t : Nat) : StoreSim x (s.cancel t) (s'.cancel t) := by
  have ht := h.task t
  have hmodify : StoreSim x (s.modify t fun τ => { τ with status := .cancelled })
      (s'.modify t fun τ => { τ with status := .cancelled }) :=
    h.modify t { ht with status := fun _ => rfl }
  unfold Store.cancel
  rw [h.threaded, ht.parent]
  split
  · exact { hmodify with stopped := rfl }
  · exact hmodify

theorem fail (h : StoreSim x s s') (hs : s.Tree) (hs' : s'.Tree) {t : Nat} (ht : t < s.n) (e : E) :
    StoreSim x (s.fail t e) (s'.fail t e) := by
  have hτ := h.task t
  have hmodify : StoreSim x (s.modify t fun τ => { τ with error := some e, status := .failed })
      (s'.modify t fun τ => { τ with error := some e, status := .failed }) :=
    h.modify t { hτ with status := fun _ => rfl, error := fun _ => rfl }
  unfold Store.fail
  rw [hτ.isRequired, hs.getRoot_eq_zero ht, hs'.getRoot_eq_zero (h.n ▸ ht)]
  split
  · exact (hmodify.modify 0 { hmodify.task 0 with error := fun _ => rfl }).cancel 0
  · exact hmodify.modify t { hmodify.task t with result := rfl }

/-- Where `x` raises in the one run, it returns None in the other. -/
theorem fail_self (h : StoreSim x s s') (hreq : (s.task x).isRequired = false) (e : E) :
    StoreSim x (s.fail x e) (s'.apply (.returned x none)) := by
  have hτ := h.task x
  have hfail : s.fail x e =
      s.modify x fun τ => { τ with error := some e, status := .failed, result := none } := by
    unfold Store.fail
    rw [if_neg (by simp [hreq])]
    simp only [Store.modify, List.modify_modify_eq]
    rfl
  rw [hfail]
  exact h.modify x { hτ with
    result := rfl
    status := fun hne => absurd rfl hne
    completed := fun hne => absurd rfl hne
    error := fun hne => absurd rfl hne }

theorem add (h : StoreSim x s s') {p : Nat} (hp : p < s.n) (new : NewTask W V E) :
    StoreSim x (s.apply (.add p new)) (s'.apply (.add p (new.calm x))) :=
  { h with tasks := h.tasks.alloc new hp }

theorem apply (h : StoreSim x s s') (hs : s.Tree) (hs' : s'.Tree) {ev : Ev W V E}
    (hev : ∀ t ∈ ev.target, t < s.n)
    (hreq : ∀ e, ev = .raised x e → (s.task x).isRequired = false) :
    StoreSim x (s.apply ev) (s'.apply (ev.calm x)) := by
  cases ev with
  | tau | refuse _ | stop _ => exact h
  | act f => exact { h with world := congrArg f h.world }
  | start t =>
    exact h.modify t { h.task t with status := fun _ => rfl, error := fun _ => rfl }
  | returned t v => exact h.modify t { h.task t with result := rfl }
  | progress t c sz =>
    exact h.modify t { h.task t with size := h.newSize t sz, completed := fun _ => rfl }
  | setSize t sz => exact h.modify t { h.task t with size := rfl }
  | finish t => exact h.finish t
  | cancel t => exact h.cancel t
  | add p new => exact h.add (hev p rfl) new
  | raised t e =>
    simp only [Ev.calm]
    split
    · rename_i htx
      subst htx
      exact h.fail_self (hreq e rfl) e
    · exact h.fail hs hs' (hev t rfl) e

theorem target_calm (x : Nat) (ev : Ev W V E) : (ev.calm x).target = ev.target := by
  cases ev with
  | raised t e =>
    simp only [Ev.calm]
    split <;> rfl
  | _ => rfl

/-- The two events write the same status, but where `x` raises. -/
theorem sets (h : StoreSim x s s') {ev : Ev W V E} (hraise : ∀ e, ev ≠ .raised x e) (u : Nat) :
    (ev.calm x).sets s' u = ev.sets s u := by
  cases ev with
  | raised t e =>
    have ht : t ≠ x := by
      intro heq
      subst heq
      exact hraise e rfl
    simp only [Ev.calm, if_neg ht, Ev.sets, (h.task t).isRequired]
  | _ => rfl

end StoreSim

/-! ## Steps -/

theorem map_resumeCall (x : Nat) (v : Option V) (fs : List (Frame W V E)) :
    (resumeCall v fs).map (Frame.calm x) = resumeCall v (fs.map (Frame.calm x)) := by
  cases fs with
  | nil => rfl
  | cons f fs => cases f <;> rfl

theorem map_resumeProgress (x : Nat) (fs : List (Frame W V E)) :
    (resumeProgress fs).map (Frame.calm x) = resumeProgress (fs.map (Frame.calm x)) := by
  cases fs with
  | nil => rfl
  | cons f fs => cases f <;> rfl

theorem map_tail (x t : Nat) (fs : List (Frame W V E)) :
    (tail t fs).map (Frame.calm x) = tail t (fs.map (Frame.calm x)) := rfl

/-- The function of a task that starts, in both trees. -/
theorem StoreSim.calm_body {x : Nat} {s s' : Store W V E} (h : StoreSim x s s') (t : Nat) :
    Frame.calm x (.body (some t) ((s.task t).fn t)) = .body (some t) ((s'.task t).fn t) := by
  rw [Frame.calm, (h.task t).fn]
  rfl

theorem StoreSim.move {x : Nat} {s s' : Store W V E} {f : Frame W V E} {fs fs' : List (Frame W V E)}
    {ev : Ev W V E} (h : StoreSim x s s') (hx : (s'.task x).status = (s.task x).status)
    (hreq : ∀ e, ev = .raised x e → (s.task x).isRequired = false) (hm : Move s f fs ev fs') :
    Move s' (f.calm x) (fs.map (Frame.calm x)) (ev.calm x) (fs'.map (Frame.calm x)) := by
  cases hm with
  | returned => exact .returned
  | exit => exact .exit
  | fatal hr =>
    rename_i t e
    have ht : t ≠ x := by
      intro heq
      subst heq
      rw [hreq e rfl] at hr
      cases hr
    simp only [Frame.calm, Script.calm, Ev.calm, map_resumeCall, Option.some_beq_some, beq_iff_eq,
      if_neg ht]
    exact .fatal ((h.task t).isRequired.trans hr)
  | nonFatal hr =>
    rename_i t e
    simp only [Frame.calm, Script.calm, Ev.calm, map_tail, Option.some_beq_some, beq_iff_eq]
    by_cases ht : t = x
    · rw [if_pos ht, if_pos ht]
      exact .returned
    · rw [if_neg ht, if_neg ht]
      exact .nonFatal ((h.task t).isRequired.trans hr)
  | crash => exact .crash
  | act =>
    rw [List.map_cons, ← h.world]
    exact .act
  | addSubtask hp =>
    rw [List.map_cons, ← h.n]
    exact .addSubtask (h.n ▸ hp)
  | stop ht hc =>
    rw [← h.isCancelled hx] at hc
    exact .stop (h.n ▸ ht) hc
  | progress ht hc hge =>
    rw [← h.isCancelled hx] at hc
    rw [← h.newSize] at hge
    exact .progress (h.n ▸ ht) hc hge
  | reachSize ht hc hge =>
    rw [← h.isCancelled hx] at hc
    rw [← h.newSize] at hge
    exact .reachSize (h.n ▸ ht) hc hge
  | setSize ht => exact .setSize (h.n ▸ ht)
  | finishOf ht => exact .finishOf (h.n ▸ ht)
  | cancel ht => exact .cancel (h.n ▸ ht)
  | call ht hc =>
    rw [← h.canStart hx] at hc
    rw [List.map_cons, h.calm_body]
    exact .call (h.n ▸ ht) hc
  | callRefused ht hc =>
    rw [← h.canStart hx] at hc
    exact .callRefused (h.n ▸ ht) hc
  | launch hi hc =>
    rw [← h.canStart hx] at hc
    rw [← (h.task _).subtasks] at hi
    rw [List.map_cons, h.calm_body]
    exact .launch hi hc
  | skip hi hc =>
    rw [← h.canStart hx] at hc
    rw [← (h.task _).subtasks] at hi
    exact .skip hi hc
  | loopEnd hi =>
    rw [← (h.task _).subtasks] at hi
    exact .loopEnd hi
  | finish =>
    rw [map_resumeProgress]
    exact .finish
  | result =>
    rw [map_resumeCall, ← (h.task _).result]
    exact .result

/-! ## The window -/

/-- `x` has raised and not finished: its loop runs over started subtasks. -/
def Window (x : Nat) (s : Store W V E) (stk : List (Frame W V E)) : Prop :=
  (∀ c ∈ (s.task x).subtasks, (s.task c).status ≠ .inactive) ∧
    ∃ gs, (∃ i, stk = .subtasks x i :: .finish x :: gs) ∨ stk = .finish x :: gs

/-- In the window both workers skip the subtasks of `x` and finish it. -/
theorem Window.move {x : Nat} {s s' : Store W V E} {f : Frame W V E} {fs fs' : List (Frame W V E)}
    {ev : Ev W V E} (hwin : Window x s (f :: fs)) (hs : s.Tree) (h : StoreSim x s s')
    (hm : Move s f fs ev fs') :
    Move s' (f.calm x) (fs.map (Frame.calm x)) (ev.calm x) (fs'.map (Frame.calm x)) ∧
      (ev = .finish x ∨ s.apply ev = s ∧ s'.apply (ev.calm x) = s' ∧ Window x s fs') := by
  obtain ⟨hstarted, gs, ⟨i, hstk⟩ | hstk⟩ := hwin
  · cases hstk
    cases hm with
    | launch hi hc =>
      exact absurd ((s.canStart_iff _).1 hc).1 (hstarted _ (List.mem_of_getElem? hi))
    | skip hi hc =>
      rename_i c
      have hmem := List.mem_of_getElem? hi
      have hcx : c ≠ x := by
        intro heq
        subst heq
        exact Nat.lt_irrefl _ (hs.parent_lt (hs.mem_subtasks hmem).2.2).1
      have hno : s'.canStart c = false := by
        rw [Bool.eq_false_iff]
        intro hcan
        have hin := ((s'.canStart_iff c).1 hcan).1
        rw [(h.task c).status hcx] at hin
        exact hstarted c hmem hin
      rw [← (h.task _).subtasks] at hi
      exact ⟨.skip hi hno, .inr ⟨rfl, rfl, hstarted, gs, .inl ⟨i + 1, rfl⟩⟩⟩
    | loopEnd hi =>
      rw [← (h.task _).subtasks] at hi
      exact ⟨.loopEnd hi, .inr ⟨rfl, rfl, hstarted, gs, .inr rfl⟩⟩
  · cases hstk
    cases hm
    rw [map_resumeProgress]
    exact ⟨.finish, .inl rfl⟩

/-! ## The simulation -/

structure Sim (x : Nat) (s s' : Sys W V E) (stk : List (Frame W V E)) : Prop where
  wf : s.WF
  wf' : s'.WF
  threads : s.threads = [stk]
  threads' : s'.threads = [stk.map (Frame.calm x)]
  store : StoreSim x s.store s'.store
  status : (s'.store.task x).status = (s.store.task x).status ∨ Window x s.store stk

/-- Where `x` raises, none of its subtasks is left unstarted. -/
def NoneUnstarted (x : Nat) (s : Sys W V E) (l : Nat × Ev W V E) : Prop :=
  ∀ e, l.2 = .raised x e → ∀ c ∈ (s.store.task x).subtasks, (s.store.task c).status ≠ .inactive

/-- `x` raises: the window opens. -/
theorem window_raised {x : Nat} {s : Store W V E} {f : Frame W V E} {fs fs' : List (Frame W V E)}
    {e : E} (hs : s.Tree) (hx : x < s.n) (hreq : (s.task x).isRequired = false)
    (hnone : ∀ c ∈ (s.task x).subtasks, (s.task c).status ≠ .inactive)
    (hm : Move s f fs (.raised x e) fs') : Window x (s.apply (.raised x e)) fs' := by
  have hev : ∀ t ∈ (Ev.raised x e : Ev W V E).target, t < s.n := by
    intro t ht
    cases ht
    exact hx
  have hshape := (Store.apply_shape hs hev fun p new he => by cases he).2 x
  have hsub : ((s.apply (.raised x e)).task x).subtasks = (s.task x).subtasks :=
    congrArg (fun y => y.2.1) hshape
  refine ⟨fun c hc hin => ?_, ?_⟩
  · rw [hsub] at hc
    exact hnone c hc (Store.inactive_of_apply hs hev hin).1
  · cases hm with
    | fatal hr =>
      rw [hreq] at hr
      cases hr
    | nonFatal => exact ⟨_, .inl ⟨0, rfl⟩⟩

/-- In both trees the workers do the same, and `x` has the same status or is in
its window. -/
theorem Sim.move {x : Nat} {s s' : Sys W V E} {f : Frame W V E} {fs fs' : List (Frame W V E)}
    {ev : Ev W V E} (h : Sim x s s' (f :: fs)) (hm : Move s.store f fs ev fs')
    (hev : ∀ t ∈ ev.target, t < s.store.n) (hnone : NoneUnstarted x s (0, ev))
    (hreq : ∀ e, ev = .raised x e → (s.store.task x).isRequired = false) :
    Move s'.store (f.calm x) (fs.map (Frame.calm x)) (ev.calm x) (fs'.map (Frame.calm x)) ∧
      (((s'.store.apply (ev.calm x)).task x).status = ((s.store.apply ev).task x).status ∨
        Window x (s.store.apply ev) fs') := by
  have hev' : ∀ t ∈ (ev.calm x).target, t < s'.store.n := by
    rw [StoreSim.target_calm, h.store.n]
    exact hev
  have hstatus := Store.apply_status h.wf.tree hev x
  have hstatus' := Store.apply_status h.wf'.tree hev' x
  rcases h.status with hx | hwin
  · refine ⟨h.store.move hx hreq hm, ?_⟩
    by_cases hraise : ∃ e, ev = .raised x e
    · obtain ⟨e, rfl⟩ := hraise
      exact .inr (window_raised h.wf.tree (hev x rfl) (hreq e rfl) (hnone e rfl) hm)
    · refine .inl ?_
      rw [hstatus, hstatus', h.store.sets fun e he => hraise ⟨e, he⟩, hx]
  · obtain ⟨hm', rfl | ⟨hsame, hsame', hwin'⟩⟩ := hwin.move h.wf.tree h.store hm
    · refine ⟨hm', .inl ?_⟩
      rw [hstatus, hstatus']
      simp [Ev.calm, Ev.sets]
    · refine ⟨hm', .inr ?_⟩
      rwa [hsame]

theorem Sim.step {x i : Nat} {s s' s₁ : Sys W V E} {ev : Ev W V E} {stk : List (Frame W V E)}
    (h : Sim x s s' stk) (hst : step s i = some (ev, s₁)) (hnone : NoneUnstarted x s (i, ev))
    (hreq : ∀ e, ev = .raised x e → (s.store.task x).isRequired = false) :
    ∃ s₁' stk', step s' i = some (ev.calm x, s₁') ∧ Sim x s₁ s₁' stk' := by
  have hev := h.wf.target_lt hst
  have hwf₁ := h.wf.step hst
  obtain ⟨f, fs, fs', rfl, rfl, hm, rfl⟩ := step_single hst h.threads
  have hstore := h.store.apply h.wf.tree h.wf'.tree hev hreq
  obtain ⟨hm', hx⟩ := h.move hm hev hnone hreq
  have hth' : s'.threads[0]? = some (f.calm x :: fs.map (Frame.calm x)) := by rw [h.threads']; rfl
  have hst' := step_of_move hth' hm'
  have hset : s'.threads.set 0 (fs'.map (Frame.calm x)) = [fs'.map (Frame.calm x)] := by
    rw [h.threads']; rfl
  rw [hset] at hst'
  exact ⟨_, fs', hst', hwf₁, h.wf'.step hst', rfl, rfl, hstore, hx⟩

/-! ## Runs -/

/-- A task is required or not for good. -/
theorem isRequired_run {threaded : Bool} {s s' : Sys W V E} {ls : List (Nat × Ev W V E)}
    (hw : s.WF) (hr : (taskList threaded).Run s ls s') {t : Nat} (ht : t < s.store.n) :
    (s'.store.task t).isRequired = (s.store.task t).isRequired := by
  refine (LTS.run_of_step (I := fun s₁ : Sys W V E => s₁.WF ∧ t < s₁.store.n ∧
    (s₁.store.task t).isRequired = (s.store.task t).isRequired) ?_ hr ⟨hw, ht, rfl⟩).2.2
  intro s₁ l s₂ ⟨hw₁, ht₁, hsame⟩ hst
  have hev := hw₁.target_lt hst
  have hn := Store.apply_n_le hw₁.tree hev
  have hkeep := Store.apply_isRequired hw₁.tree hev ht₁
  rw [← Sys.WF.store_eq hst] at hn hkeep
  exact ⟨hw₁.step hst, Nat.lt_of_lt_of_le ht₁ hn, hkeep.trans hsame⟩

theorem Sim.run {x : Nat} {threaded : Bool} {s s' s₁ : Sys W V E} {ls : List (Nat × Ev W V E)}
    {stk : List (Frame W V E)} (h : Sim x s s' stk)
    (hr : ((taskList threaded).restrict (NoneUnstarted x)).Run s ls s₁)
    (hreq : (s₁.store.task x).isRequired = false) :
    ∃ s₁' stk', (taskList threaded).Run s' (ls.map fun l => (l.1, l.2.calm x)) s₁' ∧
      Sim x s₁ s₁' stk' := by
  induction hr generalizing s' stk with
  | nil s => exact ⟨s', stk, .nil s', h⟩
  | cons hst hrun ih =>
    rename_i s s₂ s₁ l ls
    obtain ⟨i, ev⟩ := l
    have hst₁ : Tasks.step s i = some (ev, s₂) := hst.1
    have hreq' : ∀ e, ev = .raised x e → (s.store.task x).isRequired = false := by
      intro e he
      have hx : x < s.store.n := h.wf.target_lt hst₁ x (by rw [he]; rfl)
      rw [← isRequired_run h.wf (.cons hst.1 hrun.of_restrict) hx]
      exact hreq
    obtain ⟨s₂', stk₂, hst', h₂⟩ := h.step hst₁ hst.2 hreq'
    obtain ⟨s₁', stk', hrun', h'⟩ := ih h₂ hreq
    exact ⟨s₁', stk', .cons hst' hrun', h'⟩

theorem sim_init (x : Nat) (threaded : Bool) (w : W) (tasks : List (NewTask W V E)) :
    Sim x (initSys threaded w tasks []) (initSys threaded w (NewTask.calmAll x tasks) [])
      [.body none (.call 0 fun _ => .ret none)] where
  wf := wf_init threaded w tasks []
  wf' := wf_init threaded w (NewTask.calmAll x tasks) []
  threads := rfl
  threads' := by simp [initSys, Frame.calm, Script.calm]
  store := by
    refine ⟨rfl, rfl, rfl, ListSim.allocAll tasks ⟨rfl, fun t => ?_⟩ Nat.one_pos⟩
    have hroot : ∀ t, TaskSim x t (rootTask : Task W V E) rootTask := fun t =>
      ⟨rfl, rfl, rfl, rfl, rfl, rfl, by simp [rootTask, Task.init, Script.calm], fun _ => rfl,
        fun _ => rfl, fun _ => rfl⟩
    cases t with
    | zero => exact hroot 0
    | succ t => exact taskSim_default x (t + 1)
  status := by rw [init_inactive, init_inactive]; exact .inl rfl

/-- The call that the worker returns from in its next step, and the result. -/
def Sys.returning (s : Sys W V E) : Option (Nat × Option V) :=
  match s.threads with
  | [.result t :: _] => some (t, (s.store.task t).result)
  | _ => none

/-- Two states that differ in task `x` and its function only. -/
structure SameOutside (x : Nat) (s s' : Sys W V E) : Prop where
  threads : s'.threads = s.threads.map fun stk => stk.map (Frame.calm x)
  returning : s'.returning = s.returning
  world : s'.store.world = s.store.world
  n : s'.store.n = s.store.n
  result : ∀ t, (s'.store.task t).result = (s.store.task t).result
  task : ∀ t ≠ x, (s'.store.task t).status = (s.store.task t).status ∧
    (s'.store.task t).completed = (s.store.task t).completed ∧
    (s'.store.task t).size = (s.store.task t).size ∧
    (s'.store.task t).error = (s.store.task t).error
  rootError : (s'.store.task 0).error = (s.store.task 0).error

theorem Sim.sameOutside {x : Nat} {s s' : Sys W V E} {stk : List (Frame W V E)}
    (h : Sim x s s' stk) (hx : x ≠ 0) : SameOutside x s s' where
  threads := by rw [h.threads, h.threads']; rfl
  returning := by
    unfold Sys.returning
    rw [h.threads, h.threads']
    cases stk with
    | nil => rfl
    | cons f fs =>
      cases f with
      | result t => exact congrArg (fun v => some (t, v)) (h.store.task t).result
      | _ => rfl
  world := h.store.world
  n := h.store.n
  result t := (h.store.task t).result
  task t ht := by
    have hτ := h.store.task t
    exact ⟨hτ.status ht, hτ.completed ht, hτ.size, hτ.error ht⟩
  rootError := (h.store.task 0).error (Ne.symm hx)

/-- **A failure that is not fatal stays in its task.** Whatever a task list does
in which task `x` is not required and raises with no subtask left unstarted, it
does as well if the function of `x` returns None instead: the same tasks start
in the same order, the same results are returned, and all other tasks are in the
same state at every point. -/
theorem nonFatal_sameOutside {threaded : Bool} {w : W} {tasks : List (NewTask W V E)} {x : Nat}
    {s : Sys W V E} {ls : List (Nat × Ev W V E)}
    (hr : ((taskList threaded).restrict (NoneUnstarted x)).Run (initSys threaded w tasks []) ls s)
    (hreq : (s.store.task x).isRequired = false) :
    ∃ s', (taskList threaded).Run (initSys threaded w (NewTask.calmAll x tasks) [])
        (ls.map fun l => (l.1, l.2.calm x)) s' ∧
      starts (ls.map fun l => (l.1, l.2.calm x)) = starts ls ∧ SameOutside x s s' := by
  have hw := wf_init threaded w tasks []
  obtain ⟨s', stk, hrun, h⟩ := (sim_init x threaded w tasks).run hr hreq
  have hx : x ≠ 0 := by
    intro heq
    subst heq
    rw [isRequired_run hw hr.of_restrict hw.tree.zero_lt] at hreq
    have hroot := rootTask_keep (fun τ : Task W V E => τ.isRequired) (fun _ _ => rfl) tasks
    cases hroot.symm.trans hreq
  refine ⟨s', hrun, ?_, h.sameOutside hx⟩
  unfold starts
  rw [List.filterMap_map]
  refine List.filterMap_congr fun l _ => ?_
  obtain ⟨i, ev⟩ := l
  cases ev with
  | raised t e =>
    simp only [Function.comp, Ev.calm]
    split <;> rfl
  | _ => rfl

/-- A task that is not required, calls its subtask and then raises. -/
def failingTasks : List (NewTask Unit Unit Nat) :=
  [.mk false (.int 1) (.int 1) (fun t => .call (t + 1) fun _ => .raise 7)
    [.mk true (.int 1) (.int 1) (fun _ => .ret none) []]]

theorem nonFatal_sameOutside_failing :
    let run := exec (.replicate 17 0) (initSys true () failingTasks [])
    (run.2.store.task 1).error = some 7 ∧
      ∃ s', (taskList true).Run (initSys true () (NewTask.calmAll 1 failingTasks) [])
          (run.1.map fun l => (l.1, l.2.calm 1)) s' ∧
        starts (run.1.map fun l => (l.1, l.2.calm 1)) = starts run.1 ∧ SameOutside 1 run.2 s' := by
  have hstep : ∀ {s s' : Sys Unit Unit Nat} {ev}, step s 0 = some (ev, s') →
      (∀ e, ev ≠ .raised 1 e) →
      ((taskList true).restrict (NoneUnstarted 1)).step s (0, ev) s' :=
    fun hst hno => ⟨hst, fun e he => absurd he (hno e)⟩
  have hr : ((taskList true).restrict (NoneUnstarted 1)).Run (initSys true () failingTasks [])
      (exec (.replicate 17 0) (initSys true () failingTasks [])).1
      (exec (.replicate 17 0) (initSys true () failingTasks [])).2 :=
    .cons (hstep rfl nofun) (.cons (hstep rfl nofun) (.cons (hstep rfl nofun)
      (.cons (hstep rfl nofun) (.cons (hstep rfl nofun) (.cons (hstep rfl nofun)
        (.cons (hstep rfl nofun) (.cons (hstep rfl nofun)
          -- task 1 raises here, and its subtask is COMPLETED
          (.cons ⟨rfl, fun _ _ => by decide⟩
            (.cons (hstep rfl nofun) (.cons (hstep rfl nofun) (.cons (hstep rfl nofun)
              (.cons (hstep rfl nofun) (.cons (hstep rfl nofun) (.cons (hstep rfl nofun)
                (.cons (hstep rfl nofun) (.cons (hstep rfl nofun) (.nil _)))))))))))))))))
  exact ⟨rfl, nonFatal_sameOutside hr rfl⟩

end Wubi.Tasks
