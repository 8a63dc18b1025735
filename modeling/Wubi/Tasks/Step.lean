import Wubi.Tasks.Tree

/-!
# What one step does

`Move s f fs ev fs'`: in store `s` the top frame `f`, with `fs` below it, does
`ev` and leaves the stack `fs'`. One constructor for each operation, with its
guard; `step_move` says that a step of the system is a `Move` of one thread
and the event's effect on the store. Every invariant of the stacks is a case
analysis on `Move`.

`Sys.WF` is the invariant that the others rest on: the store is a tree, and
every frame belongs to a task that exists (`wf_reachable`).
-/
namespace Wubi.Tasks

variable {W V E : Type}

inductive Move (s : Store W V E) :
    Frame W V E → List (Frame W V E) → Ev W V E → List (Frame W V E) → Prop
  | returned {t v fs} : Move s (.body (some t) (.ret v)) fs (.returned t v) (tail t fs)
  | exit {v fs} : Move s (.body none (.ret v)) fs .tau fs
  | fatal {t e fs} : (s.task t).isRequired = true →
      Move s (.body (some t) (.raise e)) fs (.raised t e) (resumeCall none fs)
  | nonFatal {t e fs} : (s.task t).isRequired = false →
      Move s (.body (some t) (.raise e)) fs (.raised t e) (tail t fs)
  | crash {e fs} : Move s (.body none (.raise e)) fs .tau []
  | act {own f k fs} : Move s (.body own (.act f k)) fs (.act f) (.body own (k s.world) :: fs)
  | addSubtask {own p new k fs} : p < s.n →
      Move s (.body own (.addSubtask p new k)) fs (.add p new) (.body own (k s.n) :: fs)
  | stop {own t c sz k fs} : t < s.n → s.isCancelled (t + 1) t = true →
      Move s (.body own (.setProgress t c sz k)) fs (.stop t) (.body own (k true) :: fs)
  | progress {own t c sz k fs} : t < s.n → s.isCancelled (t + 1) t = false →
      c.ge (s.newSize t sz) = false →
      Move s (.body own (.setProgress t c sz k)) fs (.progress t c sz) (.body own (k false) :: fs)
  | reachSize {own t c sz k fs} : t < s.n → s.isCancelled (t + 1) t = false →
      c.ge (s.newSize t sz) = true →
      Move s (.body own (.setProgress t c sz k)) fs (.progress t c sz)
        (.subtasks t 0 :: .finish t :: .awaitProgress own k :: fs)
  | setSize {own t sz k fs} : t < s.n →
      Move s (.body own (.setSize t sz k)) fs (.setSize t sz) (.body own k :: fs)
  | finishOf {own t k fs} : t < s.n →
      Move s (.body own (.finish t k)) fs (.finish t) (.body own k :: fs)
  | cancel {own t k fs} : t < s.n →
      Move s (.body own (.cancel t k)) fs (.cancel t) (.body own k :: fs)
  | call {own t k fs} : t < s.n → s.canStart t = true →
      Move s (.body own (.call t k)) fs (.start t)
        (.body (some t) ((s.task t).fn t) :: .awaitCall own k :: fs)
  | callRefused {own t k fs} : t < s.n → s.canStart t = false →
      Move s (.body own (.call t k)) fs (.refuse t) (.body own (k none) :: fs)
  | launch {t i c fs} : (s.task t).subtasks[i]? = some c → s.canStart c = true →
      Move s (.subtasks t i) fs (.start c)
        (.body (some c) ((s.task c).fn c) :: .subtasks t (i + 1) :: fs)
  | skip {t i c fs} : (s.task t).subtasks[i]? = some c → s.canStart c = false →
      Move s (.subtasks t i) fs (.refuse c) (.subtasks t (i + 1) :: fs)
  | loopEnd {t i fs} : (s.task t).subtasks[i]? = none → Move s (.subtasks t i) fs .tau fs
  | finish {t fs} : Move s (.finish t) fs (.finish t) (resumeProgress fs)
  | result {t fs} : Move s (.result t) fs .tau (resumeCall (s.task t).result fs)

theorem stepBody_move {s : Store W V E} {own : Option Nat} {fs fs' : List (Frame W V E)}
    {p : Script W V E} {ev : Ev W V E} (h : stepBody s own fs p = some (ev, fs')) :
    Move s (.body own p) fs ev fs' := by
  cases p with
  | ret v => cases own <;> cases h <;> constructor
  | raise e =>
    cases own with
    | none => cases h; exact .crash
    | some t =>
      simp only [stepBody] at h
      split at h <;> cases h
      · exact .fatal ‹_›
      · exact .nonFatal (by simpa using ‹¬ (s.task t).isRequired = true›)
  | act f k => cases h; exact .act
  | addSubtask t new k | setSize t sz k | finish t k | cancel t k =>
    simp only [stepBody] at h
    split at h <;> cases h
    constructor; assumption
  | setProgress t c sz k =>
    simp only [stepBody] at h
    split at h
    · split at h
      · cases h; exact .stop ‹_› ‹_›
      · split at h <;> cases h
        · exact .reachSize ‹_› (by simpa using ‹¬ s.isCancelled _ _ = true›) ‹_›
        · exact .progress ‹_› (by simpa using ‹¬ s.isCancelled _ _ = true›)
            (by simpa using ‹¬ c.ge _ = true›)
    · cases h
  | call t k =>
    simp only [stepBody] at h
    split at h
    · split at h <;> cases h
      · exact .call ‹_› ‹_›
      · exact .callRefused ‹_› (by simpa using ‹¬ s.canStart t = true›)
    · cases h

theorem stepFrame_move {s : Store W V E} {f : Frame W V E} {fs fs' : List (Frame W V E)}
    {ev : Ev W V E} (h : stepFrame s fs f = some (ev, fs')) : Move s f fs ev fs' := by
  cases f with
  | body own p => exact stepBody_move h
  | awaitProgress | awaitCall => cases h
  | finish t => cases h; exact .finish
  | result t => cases h; exact .result
  | subtasks t i =>
    simp only [stepFrame] at h
    split at h
    · split at h <;> cases h
      · exact .launch ‹_› ‹_›
      · exact .skip ‹_› (by simpa using ‹¬ s.canStart _ = true›)
    · cases h; exact .loopEnd ‹_›

/-- And a `Move` is what the frame does. -/
theorem Move.stepFrame_eq {s : Store W V E} {f : Frame W V E} {fs fs' : List (Frame W V E)}
    {ev : Ev W V E} (h : Move s f fs ev fs') : stepFrame s fs f = some (ev, fs') := by
  cases h <;> simp_all [stepFrame, stepBody]

theorem step_of_move {s : Sys W V E} {i : Nat} {f : Frame W V E} {fs fs' : List (Frame W V E)}
    {ev : Ev W V E} (hth : s.threads[i]? = some (f :: fs)) (h : Move s.store f fs ev fs') :
    step s i = some (ev, ⟨s.store.apply ev, s.threads.set i fs'⟩) :=
  step_of_frame hth h.stepFrame_eq

theorem step_move {s s' : Sys W V E} {i : Nat} {ev : Ev W V E} (h : step s i = some (ev, s')) :
    ∃ f fs fs', s.threads[i]? = some (f :: fs) ∧ Move s.store f fs ev fs' ∧
      s' = ⟨s.store.apply ev, s.threads.set i fs'⟩ := by
  unfold step at h
  split at h
  · rename_i f fs hth
    obtain ⟨⟨ev', fs'⟩, hf, he⟩ := Option.map_eq_some_iff.1 h
    cases he
    exact ⟨f, fs, fs', hth, stepFrame_move hf, rfl⟩
  · cases h

/-- A system of one thread moves its only stack. -/
theorem step_single {s s' : Sys W V E} {i : Nat} {ev : Ev W V E} {stk : List (Frame W V E)}
    (h : step s i = some (ev, s')) (hth : s.threads = [stk]) :
    ∃ f fs fs', i = 0 ∧ stk = f :: fs ∧ Move s.store f fs ev fs' ∧
      s' = ⟨s.store.apply ev, [fs']⟩ := by
  obtain ⟨f, fs, fs', hi, hm, rfl⟩ := step_move h
  rw [hth] at hi
  cases i with
  | zero =>
    have hstk : stk = f :: fs := Option.some.inj hi
    exact ⟨f, fs, fs', rfl, hstk, hm, by rw [hth]; rfl⟩
  | succ i => cases hi

/-! ## Invariants of the stacks -/

/-- A property of each stack is kept if the moving thread's new stack has it
and the event does not break it for the others. -/
theorem threads_step {s s' : Sys W V E} {i : Nat} {ev : Ev W V E} {P Q : List (Frame W V E) → Prop}
    (h : step s i = some (ev, s')) (hP : ∀ stk ∈ s.threads, P stk)
    (hmove : ∀ f fs fs', Move s.store f fs ev fs' → P (f :: fs) → Q fs')
    (hother : ∀ stk ∈ s.threads, P stk → Q stk) : ∀ stk ∈ s'.threads, Q stk := by
  obtain ⟨f, fs, fs', hth, hm, rfl⟩ := step_move h
  intro stk hstk
  rcases List.mem_or_eq_of_mem_set hstk with h' | rfl
  · exact hother stk h' (hP stk h')
  · exact hmove f fs _ hm (hP _ (List.mem_of_getElem? hth))

/-- The task whose `__call__` or `set_progress` the frame belongs to. -/
def Frame.owner : Frame W V E → Option Nat
  | .body own _ | .awaitProgress own _ | .awaitCall own _ => own
  | .subtasks t _ | .finish t | .result t => some t

/-- The task whose function is running, or waiting, in the frame. -/
def Frame.runs : Frame W V E → Option Nat
  | .body own _ | .awaitProgress own _ | .awaitCall own _ => own
  | _ => none

/-- Some frame of the stack carries the task `t`. -/
def Carries (g : Frame W V E → Option Nat) (stk : List (Frame W V E)) (t : Nat) : Prop :=
  ∃ f ∈ stk, g f = some t

/-- `t` owns a frame of the stack. -/
abbrev Owns (stk : List (Frame W V E)) (t : Nat) : Prop := Carries Frame.owner stk t

/-- The function of `t` is running, or waiting, in the stack. -/
abbrev InBody (stk : List (Frame W V E)) (t : Nat) : Prop := Carries Frame.runs stk t

section
variable {g : Frame W V E → Option Nat} {f f' : Frame W V E} {fs : List (Frame W V E)} {t : Nat}

theorem carries_cons : Carries g (f :: fs) t ↔ g f = some t ∨ Carries g fs t := by simp [Carries]

theorem carries_same (ht : Carries g (f' :: fs) t) (h : g f' = g f) : Carries g (f :: fs) t := by
  rwa [carries_cons, ← h, ← carries_cons]

theorem carries_iff {stk : List (Frame W V E)} : Carries g stk t ↔ t ∈ stk.filterMap g :=
  List.mem_filterMap.symm

theorem filterMap_resumeProgress (hg : ∀ own k p, g (.awaitProgress own k) = g (.body own p)) :
    (resumeProgress fs).filterMap g = fs.filterMap g := by
  unfold resumeProgress
  split
  · rw [List.filterMap_cons, List.filterMap_cons, hg]
  · rfl

theorem filterMap_resumeCall (hg : ∀ own k p, g (.awaitCall own k) = g (.body own p))
    {v : Option V} : (resumeCall v fs).filterMap g = fs.filterMap g := by
  unfold resumeCall
  split
  · rw [List.filterMap_cons, List.filterMap_cons, hg]
  · rfl

theorem carries_resumeProgress (hg : ∀ own k p, g (.awaitProgress own k) = g (.body own p)) :
    Carries g (resumeProgress fs) t ↔ Carries g fs t := by
  rw [carries_iff, carries_iff, filterMap_resumeProgress hg]

theorem carries_resumeCall (hg : ∀ own k p, g (.awaitCall own k) = g (.body own p))
    {v : Option V} : Carries g (resumeCall v fs) t ↔ Carries g fs t := by
  rw [carries_iff, carries_iff, filterMap_resumeCall hg]

@[simp] theorem owns_resumeProgress : Owns (resumeProgress fs) t ↔ Owns fs t :=
  carries_resumeProgress fun _ _ _ => rfl

@[simp] theorem owns_resumeCall {v : Option V} : Owns (resumeCall v fs) t ↔ Owns fs t :=
  carries_resumeCall fun _ _ _ => rfl

@[simp] theorem inBody_resumeProgress : InBody (resumeProgress fs) t ↔ InBody fs t :=
  carries_resumeProgress fun _ _ _ => rfl

@[simp] theorem inBody_resumeCall {v : Option V} : InBody (resumeCall v fs) t ↔ InBody fs t :=
  carries_resumeCall fun _ _ _ => rfl

@[simp] theorem owns_tail {u : Nat} : Owns (tail t fs) u ↔ t = u ∨ Owns fs u := by
  simp [tail, carries_cons, Frame.owner]

@[simp] theorem inBody_tail {u : Nat} : InBody (tail t fs) u ↔ InBody fs u := by
  simp [tail, carries_cons, Frame.runs]

end

/-- Only a start and a `set_progress` that reaches the size give a task frames
it did not have. -/
theorem Move.owns {s : Store W V E} {f : Frame W V E} {fs fs' : List (Frame W V E)} {ev : Ev W V E}
    (h : Move s f fs ev fs') {t : Nat} (ht : Owns fs' t) :
    Owns (f :: fs) t ∨ ev = .start t ∨
      ∃ own c sz k, f = .body own (.setProgress t c sz k) ∧ ev = .progress t c sz ∧
        c.ge (s.newSize t sz) = true := by
  cases h with
  | crash => obtain ⟨f, hf, -⟩ := ht; cases hf
  | call | launch =>
    rcases carries_cons.1 ht with ht | ht
    · cases ht; exact .inr (.inl rfl)
    · exact .inl (carries_same ht rfl)
  | reachSize _ _ hge =>
    simp only [Owns, carries_cons, Frame.owner] at ht
    rcases ht with ht | ht | ht
    · cases ht; exact .inr (.inr ⟨_, _, _, _, rfl, rfl, hge⟩)
    · cases ht; exact .inr (.inr ⟨_, _, _, _, rfl, rfl, hge⟩)
    · exact .inl (carries_cons.2 ht)
  | returned | nonFatal =>
    exact .inl (carries_cons.2 ((owns_tail.1 ht).imp_left (congrArg some)))
  | exit | loopEnd => exact .inl (carries_cons.2 (.inr ht))
  | fatal | result => exact .inl (carries_cons.2 (.inr (owns_resumeCall.1 ht)))
  | finish => exact .inl (carries_cons.2 (.inr (owns_resumeProgress.1 ht)))
  | _ => exact .inl (carries_same ht rfl)

/-- Functions run only after a start. -/
theorem Move.inBody {s : Store W V E} {f : Frame W V E} {fs fs' : List (Frame W V E)}
    {ev : Ev W V E} (h : Move s f fs ev fs') {t : Nat} (ht : InBody fs' t) :
    InBody (f :: fs) t ∨ ev = .start t := by
  cases h with
  | crash => obtain ⟨f, hf, -⟩ := ht; cases hf
  | call | launch =>
    rcases carries_cons.1 ht with ht | ht
    · cases ht; exact .inr rfl
    · exact .inl (carries_same ht rfl)
  | reachSize =>
    simp only [InBody, carries_cons, Frame.runs, reduceCtorEq, false_or] at ht
    exact .inl (carries_cons.2 ht)
  | returned | nonFatal => exact .inl (carries_cons.2 (.inr (inBody_tail.1 ht)))
  | exit | loopEnd => exact .inl (carries_cons.2 (.inr ht))
  | fatal | result => exact .inl (carries_cons.2 (.inr (inBody_resumeCall.1 ht)))
  | finish => exact .inl (carries_cons.2 (.inr (inBody_resumeProgress.1 ht)))
  | _ => exact .inl (carries_same ht rfl)

theorem Move.of_raised {s : Store W V E} {f : Frame W V E} {fs fs' : List (Frame W V E)} {t : Nat}
    {e : E} (h : Move s f fs (.raised t e) fs') : InBody (f :: fs) t := by
  cases h <;> exact carries_cons.2 (.inl rfl)

theorem Move.of_start {s : Store W V E} {f : Frame W V E} {fs fs' : List (Frame W V E)} {t : Nat}
    (h : Move s f fs (.start t) fs') : s.canStart t = true := by
  cases h <;> assumption

theorem Move.target_lt {s : Store W V E} {f : Frame W V E} {fs fs' : List (Frame W V E)}
    {ev : Ev W V E} (h : Move s f fs ev fs') (hs : s.Tree) (hf : ∀ t ∈ f.owner, t < s.n) :
    ∀ t ∈ ev.target, t < s.n := by
  cases h with
  | launch hc | skip hc => rintro _ ⟨⟩; exact (hs.mem_subtasks (List.mem_of_getElem? hc)).2.1
  | returned | fatal | nonFatal | finish => rintro _ ⟨⟩; exact hf _ rfl
  | exit | crash | act | loopEnd | result => rintro _ ⟨⟩
  | _ => rintro _ ⟨⟩; assumption

/-! ## Well-formed systems -/

structure Sys.WF (s : Sys W V E) : Prop where
  tree : s.store.Tree
  owner : ∀ stk ∈ s.threads, ∀ t, Owns stk t → t < s.store.n

namespace Sys.WF

variable {s s' : Sys W V E} {i : Nat} {ev : Ev W V E}

theorem target_lt (h : s.WF) (hs : step s i = some (ev, s')) : ∀ t ∈ ev.target, t < s.store.n := by
  obtain ⟨f, fs, fs', hth, hm, rfl⟩ := step_move hs
  exact hm.target_lt h.tree fun t ht =>
    h.owner _ (List.mem_of_getElem? hth) t ⟨f, List.mem_cons_self .., ht⟩

theorem store_eq (hs : step s i = some (ev, s')) : s'.store = s.store.apply ev := by
  obtain ⟨f, fs, fs', hth, hm, rfl⟩ := step_move hs
  rfl

theorem step (h : s.WF) (hs : step s i = some (ev, s')) : s'.WF where
  tree := by rw [store_eq hs]; exact Store.apply_tree h.tree (h.target_lt hs)
  owner := by
    have hn : s.store.n ≤ s'.store.n := by
      rw [store_eq hs]; exact Store.apply_n_le h.tree (h.target_lt hs)
    refine threads_step hs h.owner ?_ fun stk _ hstk t ht => Nat.lt_of_lt_of_le (hstk t ht) hn
    intro f fs fs' hm hf t ht
    refine Nat.lt_of_lt_of_le ?_ hn
    rcases hm.owns ht with h' | rfl | ⟨_, _, _, _, -, rfl, -⟩
    · exact hf t h'
    · exact h.target_lt hs t rfl
    · exact h.target_lt hs t rfl

end Sys.WF

/-- A task starts below an active root, or is the root and starts first. -/
theorem root_of_start {s s' : Sys W V E} {i t : Nat} (hw : s.WF)
    (hst : step s i = some (.start t, s')) :
    t = 0 ∧ (s.store.task 0).status = .inactive ∨ t ≠ 0 ∧ (s.store.task 0).status = .active := by
  have ht := hw.target_lt hst t rfl
  obtain ⟨f, fs, fs', -, hm, -⟩ := step_move hst
  obtain ⟨hin, hp⟩ := (s.store.canStart_iff t).1 hm.of_start
  cases htp : (s.store.task t).parent with
  | none =>
    have h0 := hw.tree.eq_zero ht htp
    subst h0
    exact .inl ⟨rfl, hin⟩
  | some p =>
    have hpt := hw.tree.parent_lt htp
    exact .inr ⟨by omega, hw.tree.root_active (by omega) (hp p htp)⟩

theorem inactive_of_step {s s' : Sys W V E} {i : Nat} {ev : Ev W V E} (hw : s.WF)
    (hst : step s i = some (ev, s')) {t : Nat} (h : (s'.store.task t).status = .inactive) :
    (s.store.task t).status = .inactive ∧ ev.sets s.store t = none := by
  rw [Sys.WF.store_eq hst] at h
  exact Store.inactive_of_apply hw.tree (hw.target_lt hst) h

theorem active_of_step {s s' : Sys W V E} {i : Nat} {ev : Ev W V E} (hw : s.WF)
    (hst : step s i = some (ev, s')) {t : Nat} (h : (s'.store.task t).status = .active) :
    ev = .start t ∨ (s.store.task t).status = .active ∧ ev.sets s.store t = none := by
  rw [Sys.WF.store_eq hst] at h
  exact Store.active_of_apply hw.tree (hw.target_lt hst) h

theorem allocAll_tree (tasks : List (NewTask W V E)) : IsTree (allocAll [rootTask] 0 tasks) :=
  (allocAll_rule isTree_closed tasks [rootTask] 0 (NewTask.forallAll_true tasks) Nat.one_pos
    trivial).1 isTree_root

theorem wf_init (threaded : Bool) (w : W) (tasks : List (NewTask W V E))
    (others : List (Script W V E)) : (initSys threaded w tasks others).WF where
  tree := allocAll_tree tasks
  owner := by
    -- no frame belongs to a task yet
    intro stk hstk t ⟨f, hf, ho⟩
    simp only [initSys, List.mem_cons, List.mem_map] at hstk
    rcases hstk with rfl | ⟨p, -, rfl⟩
    · cases List.mem_singleton.1 hf; cases ho
    · cases List.mem_singleton.1 hf; cases ho

theorem wf_inductive (threaded : Bool) : (taskList (W := W) (V := V) (E := E) threaded).Inductive
    Sys.WF where
  init := by rintro _ ⟨w, tasks, others, rfl⟩; exact wf_init threaded w tasks others
  step _ _ _ h hs := h.step hs

theorem wf_reachable {threaded : Bool} {s : Sys W V E} (h : (taskList threaded).Reachable s) :
    s.WF := (wf_inductive threaded).reachable s h

end Wubi.Tasks
