import Wubi.Tasks.Step
import Mathlib.Data.List.Basic

/-!
# The error that a task list ends with

`run_tasks` of the frontend looks at `root.error` when the root is no longer
active. The `except` branch of `__call__` writes it each time a required
task's function raises, so it is the exception of the last such task
(`root_error`): an enclosing function that goes on after its subtask failed,
and raises in turn, replaces the error of the subtask.

The worker alone, with functions that leave the root to `__call__` (they do
not cancel it, finish it or report progress on it), takes the root out of
ACTIVE in two ways: by a failure, which writes the error in the same step, or
by the last `finish()` of its stack, below which no function is left to raise.
Hence the callback that sees the root not active sees the error as well
(`root_error_last`).
-/
namespace Wubi.Tasks

variable {W V E : Type}

/-! ## Failures of required tasks -/

def Ev.fatal (s : Store W V E) : Ev W V E → Option E
  | .raised t e => if (s.task t).isRequired = true then some e else none
  | _ => none

/-- The exceptions of required tasks in a run, in order. `is_required` does
not change, so it is read in the last state. -/
def fatals (s : Store W V E) (ls : List (Nat × Ev W V E)) : List E :=
  ls.filterMap fun l => l.2.fatal s

theorem fatals_concat (s : Store W V E) (ls : List (Nat × Ev W V E)) (l : Nat × Ev W V E) :
    (fatals s (ls ++ [l])).getLast? = (l.2.fatal s).or (fatals s ls).getLast? := by
  unfold fatals
  rw [List.filterMap_append]
  cases h : l.2.fatal s <;> simp [h]

theorem fatals_congr {s s' : Store W V E} {ls : List (Nat × Ev W V E)}
    (h : ∀ l ∈ ls, ∀ t ∈ l.2.target, (s'.task t).isRequired = (s.task t).isRequired) :
    fatals s' ls = fatals s ls := by
  unfold fatals
  refine List.filterMap_congr fun l hl => ?_
  obtain ⟨i, ev⟩ := l
  cases ev with
  | raised t e => simp only [Ev.fatal, h _ hl t rfl]
  | _ => rfl

theorem fatals_step {s s' : Sys W V E} {i : Nat} {ev : Ev W V E} {ls : List (Nat × Ev W V E)}
    (hw : s.WF) (hst : step s i = some (ev, s')) (hls : ∀ l ∈ ls, ∀ t ∈ l.2.target, t < s.store.n) :
    fatals s'.store ls = fatals s.store ls := by
  refine fatals_congr fun l hl t ht => ?_
  rw [Sys.WF.store_eq hst]
  exact Store.apply_isRequired hw.tree (hw.target_lt hst) (hls l hl t ht)

/-! ## The last failure -/

/-- Before the root starts no function of a task runs. -/
def Sys.Idle (s : Sys W V E) : Prop :=
  (s.store.task 0).status = .inactive → ∀ stk ∈ s.threads, ∀ t, ¬ InBody stk t

theorem idle_step {s s' : Sys W V E} {i : Nat} {ev : Ev W V E} (hw : s.WF) (h : s.Idle)
    (hst : step s i = some (ev, s')) : s'.Idle := by
  intro hin
  obtain ⟨hin₀, hset⟩ := inactive_of_step hw hst hin
  refine threads_step hst (h hin₀) ?_ fun _ _ hstk => hstk
  intro f fs fs' hm hno t ht
  rcases hm.inBody ht with h' | rfl
  · exact hno t h'
  · rcases root_of_start hw hst with ⟨rfl, -⟩ | ⟨-, hact⟩
    · simp [Ev.sets] at hset
    · rw [hin₀] at hact; cases hact

theorem idle_init (threaded : Bool) (w : W) (tasks : List (NewTask W V E))
    (others : List (Script W V E)) : (initSys threaded w tasks others).Idle := by
  intro _ stk hstk t ⟨f, hf, ho⟩
  simp only [initSys, List.mem_cons, List.mem_map] at hstk
  rcases hstk with rfl | ⟨p, -, rfl⟩ <;> cases List.mem_singleton.1 hf <;> cases ho

/-- Apart from the root's start, only failures touch the root's error. -/
theorem setsError_root {s : Store W V E} {ev : Ev W V E} (hreq : (s.task 0).isRequired = true)
    (hev : ev ≠ .start 0) : ev.setsError s 0 = (ev.fatal s).map some := by
  cases ev with
  | raised t e =>
    simp only [Ev.setsError, Ev.fatal, true_and]
    by_cases hr : (s.task t).isRequired = true
    · rw [if_pos (.inl hr), if_pos hr]; rfl
    · have ht : (0 : Nat) ≠ t := fun h => hr (by rw [← h]; exact hreq)
      rw [if_neg (by simp [hr, ht]), if_neg hr]; rfl
  | start t =>
    have ht : (0 : Nat) ≠ t := fun h => hev (by rw [h])
    simp only [Ev.setsError, if_neg ht, Ev.fatal]; rfl
  | _ => rfl

theorem idle_fatal {s s' : Sys W V E} {i : Nat} {ev : Ev W V E} (h : s.Idle)
    (hin : (s.store.task 0).status = .inactive) (hst : step s i = some (ev, s')) (t : Nat) (e : E) :
    ev ≠ .raised t e := by
  rintro rfl
  obtain ⟨f, fs, fs', hth, hm, -⟩ := step_move hst
  exact h hin _ (List.mem_of_getElem? hth) t hm.of_raised

theorem Ev.fatal_eq_none {s : Store W V E} {ev : Ev W V E} (h : ∀ t e, ev ≠ .raised t e) :
    ev.fatal s = none := by
  cases ev with
  | raised t e => exact absurd rfl (h t e)
  | _ => rfl

/-- What holds along a run: the root's error is the last failure, and there is
none before the root starts. -/
structure ErrorInv (ls : List (Nat × Ev W V E)) (s : Sys W V E) : Prop where
  wf : s.WF
  labels : ∀ l ∈ ls, ∀ t ∈ l.2.target, t < s.store.n
  idle : s.Idle
  required : (s.store.task 0).isRequired = true
  error : (s.store.task 0).error = (fatals s.store ls).getLast?
  fresh : (s.store.task 0).status = .inactive → (fatals s.store ls).getLast? = none

theorem errorInv_init (threaded : Bool) (w : W) (tasks : List (NewTask W V E))
    (others : List (Script W V E)) : ErrorInv [] (initSys threaded w tasks others) where
  wf := wf_init threaded w tasks others
  labels l hl := by cases hl
  idle := idle_init threaded w tasks others
  required := rootTask_keep (·.isRequired) (fun _ _ => rfl) tasks
  error := rootTask_keep (·.error) (fun _ _ => rfl) tasks
  fresh _ := rfl

theorem errorInv_step {ls : List (Nat × Ev W V E)} {s s' : Sys W V E} {i : Nat} {ev : Ev W V E}
    (h : ErrorInv ls s) (hst : step s i = some (ev, s')) : ErrorInv (ls ++ [(i, ev)]) s' := by
  have hev := h.wf.target_lt hst
  have heq := Sys.WF.store_eq hst
  have h0 := h.wf.tree.zero_lt
  have hlt : ∀ l ∈ ls ++ [(i, ev)], ∀ t ∈ l.2.target, t < s.store.n := by
    intro l hl t ht
    rcases List.mem_append.1 hl with hl | hl
    · exact h.labels l hl t ht
    · cases List.mem_singleton.1 hl; exact hev t ht
  have hn : s.store.n ≤ s'.store.n := by rw [heq]; exact Store.apply_n_le h.wf.tree hev
  have hlast : (fatals s'.store (ls ++ [(i, ev)])).getLast? =
      (ev.fatal s.store).or (fatals s.store ls).getLast? := by
    rw [fatals_step h.wf hst hlt, fatals_concat]
  refine ⟨h.wf.step hst, fun l hl t ht => Nat.lt_of_lt_of_le (hlt l hl t ht) hn,
    idle_step h.wf h.idle hst, ?_, ?_, ?_⟩
  · rw [heq, Store.apply_isRequired h.wf.tree hev h0]; exact h.required
  · rw [hlast, heq, Store.apply_error h.wf.tree hev]
    by_cases hs0 : ev = .start 0
    · subst hs0
      rcases root_of_start h.wf hst with ⟨-, hin⟩ | ⟨hne, -⟩
      · rw [h.fresh hin]; rfl
      · exact absurd rfl hne
    · rw [setsError_root h.required hs0, h.error]
      cases ev.fatal s.store <;> rfl
  · intro hin
    obtain ⟨hin₀, -⟩ := inactive_of_step h.wf hst hin
    rw [hlast, h.fresh hin₀, Ev.fatal_eq_none (idle_fatal h.idle hin₀ hst)]
    rfl

theorem errorInv (threaded : Bool) :
    (taskList (W := W) (V := V) (E := E) threaded).History ErrorInv where
  init := by rintro _ ⟨w, tasks, others, rfl⟩; exact errorInv_init threaded w tasks others
  step _ _ _ _ h hst := errorInv_step h hst

/-- The root's error is the exception of the last required task that failed. -/
theorem root_error {threaded : Bool} {s₀ s : Sys W V E} {ls : List (Nat × Ev W V E)}
    (hi : (taskList threaded).init s₀) (hr : (taskList threaded).Run s₀ ls s) :
    (s.store.task 0).error = (fatals s.store ls).getLast? :=
  ((errorInv threaded).run hi hr).error

/-! ## The worker alone -/

/-- A function calls `finish()`, `cancel()` or `set_progress()` of the root. -/
def Frame.OnRoot : Frame W V E → Prop
  | .body _ (.finish t _) | .body _ (.cancel t _) | .body _ (.setProgress t _ _ _) => t = 0
  | _ => False

/-- The step is no such call. -/
def RootUntouched (s : Sys W V E) (l : Nat × Ev W V E) : Prop :=
  ∀ f fs, s.threads[l.1]? = some (f :: fs) → ¬ f.OnRoot

/-- Below a frame of the root no function runs. -/
def RootLast : List (Frame W V E) → Prop
  | [] => True
  | f :: fs => (f.owner = some 0 → ∀ t, ¬ InBody fs t) ∧ RootLast fs

theorem rootLast_same {f f' : Frame W V E} {fs : List (Frame W V E)} (h : RootLast (f :: fs))
    (ho : f'.owner = f.owner) : RootLast (f' :: fs) :=
  ⟨fun h0 => h.1 (ho ▸ h0), h.2⟩

theorem rootLast_resumeProgress {fs : List (Frame W V E)} (h : RootLast fs) :
    RootLast (resumeProgress fs) := by
  unfold resumeProgress
  split
  · exact rootLast_same h rfl
  · exact h

theorem rootLast_resumeCall {v : Option V} {fs : List (Frame W V E)} (h : RootLast fs) :
    RootLast (resumeCall v fs) := by
  unfold resumeCall
  split
  · exact rootLast_same h rfl
  · exact h

theorem rootLast_tail {t : Nat} {fs : List (Frame W V E)}
    (h : some t = some 0 → ∀ u, ¬ InBody fs u) (hfs : RootLast fs) : RootLast (tail t fs) := by
  have hno : ∀ g : Frame W V E, g.runs = none → ∀ l, (∀ u, ¬ InBody l u) → ∀ u, ¬ InBody (g :: l) u := by
    intro g hg l hl u hu
    rcases carries_cons.1 hu with hu | hu
    · rw [hg] at hu; cases hu
    · exact hl u hu
  exact ⟨fun h0 => hno _ rfl _ (hno _ rfl _ (h h0)), fun h0 => hno _ rfl _ (h h0), h, hfs⟩

theorem Move.rootLast {s : Store W V E} {f : Frame W V E} {fs fs' : List (Frame W V E)}
    {ev : Ev W V E} (hm : Move s f fs ev fs') (hf : ¬ f.OnRoot)
    (hstart : ev = .start 0 → ∀ t, ¬ InBody (f :: fs) t) (h : RootLast (f :: fs)) :
    RootLast fs' := by
  cases hm with
  | crash => exact trivial
  | exit | loopEnd => exact h.2
  | returned | nonFatal => exact rootLast_tail h.1 h.2
  | fatal | result => exact rootLast_resumeCall h.2
  | finish => exact rootLast_resumeProgress h.2
  | call | launch =>
    refine ⟨fun h0 t ht => ?_, rootLast_same h rfl⟩
    cases h0
    exact hstart rfl t (carries_same ht rfl)
  | reachSize =>
    have hne : ∀ u : Nat, ¬ u = 0 → some u ≠ some 0 := fun u hu h => hu (Option.some.inj h)
    exact ⟨fun h0 => absurd h0 (hne _ hf), fun h0 => absurd h0 (hne _ hf), rootLast_same h rfl⟩
  | _ => exact rootLast_same h rfl

/-- What holds when the worker is the only thread and functions leave the root
to `__call__`. -/
structure Sole (s : Sys W V E) (stk : List (Frame W V E)) : Prop where
  threads : s.threads = [stk]
  first : (s.store.task 0).status = .inactive → stk = [.body none (.call 0 fun _ => .ret none)]
  last : RootLast stk
  finished : (s.store.task 0).status ≠ .inactive → (s.store.task 0).status ≠ .active →
    (s.store.task 0).error = none → ∀ t, ¬ InBody stk t

theorem Sole.no_body {s : Sys W V E} {stk : List (Frame W V E)} (h : Sole s stk)
    (hna : (s.store.task 0).status ≠ .active) (he : (s.store.task 0).error = none) (t : Nat) :
    ¬ InBody stk t := by
  by_cases hin : (s.store.task 0).status = .inactive
  · rw [h.first hin]
    intro hboth
    obtain ⟨f, hf, ho⟩ := hboth
    cases List.mem_singleton.1 hf; cases ho
  · exact h.finished hin hna he t

/-- With a sole worker, the root leaves INACTIVE in the first step. -/
theorem Sole.started {s s' : Sys W V E} {stk : List (Frame W V E)} {i : Nat} {ev : Ev W V E}
    (hw : s.WF) (h : Sole s stk) (hst : step s i = some (ev, s')) :
    (s'.store.task 0).status ≠ .inactive := by
  intro hin
  obtain ⟨hin₀, hset⟩ := inactive_of_step hw hst hin
  obtain ⟨f, fs, fs', hth, hm, -⟩ := step_move hst
  have hstk : f :: fs = stk := by
    rw [h.threads] at hth
    cases i with
    | zero => exact (Option.some.inj hth).symm
    | succ i => cases hth
  rw [h.first hin₀] at hstk
  obtain ⟨rfl, rfl⟩ := List.cons.inj hstk
  cases hm with
  | call => simp [Ev.sets] at hset
  | callRefused _ hc =>
    have : s.store.canStart 0 = true :=
      (s.store.canStart_iff 0).2 ⟨hin₀, fun p hp => by rw [hw.tree.root] at hp; cases hp⟩
    rw [hc] at this; cases this

theorem Sole.step {s s' : Sys W V E} {stk : List (Frame W V E)} {i : Nat} {ev : Ev W V E}
    (hw : s.WF) (hreq : (s.store.task 0).isRequired = true) (h : Sole s stk)
    (hst : step s i = some (ev, s')) (hroot : RootUntouched s (i, ev)) : ∃ stk', Sole s' stk' := by
  have hne := h.started hw hst
  have hev := hw.target_lt hst
  have hstart : ∀ t, ev = .start t → (s'.store.task 0).status = .active ∧
      (t = 0 → (s.store.task 0).status = .inactive) := by
    rintro t rfl
    rw [Sys.WF.store_eq hst, Store.apply_status hw.tree hev]
    rcases root_of_start hw hst with ⟨rfl, hin⟩ | ⟨ht, hact⟩
    · exact ⟨rfl, fun _ => hin⟩
    · simp [Ev.sets, Ne.symm ht, hact, ht]
  have herr := Store.apply_error hw.tree hev 0
  have hsta := Store.apply_status hw.tree hev 0
  rw [← Sys.WF.store_eq hst] at herr hsta
  obtain ⟨f, fs, fs', rfl, rfl, hm, rfl⟩ := step_single hst h.threads
  have hth : s.threads[0]? = some (f :: fs) := by rw [h.threads]; rfl
  have hf : ¬ f.OnRoot := hroot f fs hth
  refine ⟨fs', rfl, fun hin => absurd hin hne, ?_, ?_⟩
  · refine hm.rootLast hf (fun he => ?_) h.last
    rw [h.first ((hstart 0 he).2 rfl)]
    rintro t ⟨g, hg, ho⟩
    cases List.mem_singleton.1 hg; cases ho
  · intro _ hna hnone t ht
    -- the event is no start and no failure
    have hns : ∀ u, ev ≠ .start u := fun u he => hna (hstart u he).1
    rw [setsError_root hreq (hns 0)] at herr
    have hnf : ev.fatal s.store = none := by
      cases hfa : ev.fatal s.store with
      | none => rfl
      | some e => rw [hfa] at herr; rw [hnone] at herr; cases herr
    rw [hnf] at herr
    have hno := h.no_body (t := t)
    rcases hm.inBody ht with hb | hb
    · refine hno ?_ (herr.symm.trans hnone) hb
      -- the root was active until a `finish()` of its own frame
      intro hact
      cases hse : ev.sets s.store 0 with
      | none => rw [hse] at hsta; exact hna (hsta.trans hact)
      | some x =>
        rcases Ev.sets_eq hse with ⟨he, -⟩ | ⟨rfl, -⟩ | ⟨rfl, -⟩ | ⟨u, e, rfl, ⟨rfl, -⟩ | ⟨-, hr, -⟩⟩
        · exact hns 0 he
        · cases hm with
          | finishOf => exact hf rfl
          | finish => exact h.last.1 rfl t (inBody_resumeProgress.1 ht)
        · cases hm with
          | cancel => exact hf rfl
        · simp [Ev.fatal, hreq] at hnf
        · simp [Ev.fatal, hr] at hnf
    · exact hns t hb

/-- No function runs and the root takes no more starts. -/
structure Over (s : Sys W V E) : Prop where
  wf : s.WF
  root : (s.store.task 0).status ≠ .inactive ∧ (s.store.task 0).status ≠ .active
  none : ∀ stk ∈ s.threads, ∀ t, ¬ InBody stk t

theorem Over.step {s s' : Sys W V E} {i : Nat} {ev : Ev W V E} (h : Over s)
    (hst : step s i = some (ev, s')) : Over s' ∧ ∀ t e, ev ≠ .raised t e := by
  have hns : ∀ t, ev ≠ .start t := by
    rintro t rfl
    rcases root_of_start h.wf hst with ⟨-, hr⟩ | ⟨-, hr⟩
    · exact h.root.1 hr
    · exact h.root.2 hr
  refine ⟨⟨h.wf.step hst, ⟨fun hin => h.root.1 (inactive_of_step h.wf hst hin).1, ?_⟩, ?_⟩, ?_⟩
  · intro hact
    rcases active_of_step h.wf hst hact with he | ⟨hact, -⟩
    · exact hns 0 he
    · exact h.root.2 hact
  · refine threads_step hst h.none ?_ fun _ _ hstk => hstk
    intro f fs fs' hm hno t ht
    rcases hm.inBody ht with hb | hb
    · exact hno t hb
    · exact hns t hb
  · rintro t e rfl
    obtain ⟨f, fs, fs', hth, hm, -⟩ := step_move hst
    exact h.none _ (List.mem_of_getElem? hth) t hm.of_raised

theorem Over.run {threaded : Bool} {s s' : Sys W V E} {ls : List (Nat × Ev W V E)} (h : Over s)
    (hr : (taskList threaded).Run s ls s') : fatals s'.store ls = [] := by
  have hls : ∀ {a b : Sys W V E} {ls}, (taskList threaded).Run a ls b → Over a →
      ∀ l ∈ ls, ∀ t e, l.2 ≠ .raised t e := by
    intro a b ls hr
    induction hr with
    | nil => intro _ l hl; cases hl
    | cons hst _ ih =>
      intro ha l hl
      rcases List.mem_cons.1 hl with rfl | hl
      · exact (ha.step hst).2
      · exact ih (ha.step hst).1 l hl
  exact List.filterMap_eq_nil_iff.2 fun l hl => Ev.fatal_eq_none (hls hr h l hl)

/-- With a sole worker and the root left to `__call__`: if a required task
fails anywhere in the run, then the root's error is set in every state after
the first step in which the root is not active. -/
theorem root_error_set {w : W} {tasks : List (NewTask W V E)} {s s' : Sys W V E}
    {ls ms : List (Nat × Ev W V E)}
    (hr : ((taskList true).restrict RootUntouched).Run (initSys true w tasks []) ls s)
    (hls : ls ≠ []) (hr' : (taskList true).Run s ms s')
    (hfail : fatals s'.store (ls ++ ms) ≠ []) (hna : (s.store.task 0).status ≠ .active) :
    (s.store.task 0).error ≠ none := by
  intro hnone
  have hinv := (errorInv true).run ⟨w, tasks, [], rfl⟩ hr.of_restrict
  -- the invariant of the sole worker
  have hsole : ∃ stk, Sole s stk ∧ (s.store.task 0).status ≠ .inactive := by
    have hstep : ∀ {a b : Sys W V E} {l : Nat × Ev W V E},
        (a.WF ∧ (a.store.task 0).isRequired = true ∧ ∃ stk, Sole a stk) →
        ((taskList true).restrict RootUntouched).step a l b →
        (b.WF ∧ (b.store.task 0).isRequired = true ∧ ∃ stk, Sole b stk) ∧
          (b.store.task 0).status ≠ .inactive := by
      rintro a b l ⟨hw, hq, stk, hs⟩ hst
      refine ⟨⟨hw.step hst.1, ?_, hs.step hw hq hst.1 hst.2⟩, hs.started hw hst.1⟩
      rw [Sys.WF.store_eq hst.1, Store.apply_isRequired hw.tree (hw.target_lt hst.1) hw.tree.zero_lt]
      exact hq
    have h₀ := errorInv_init true w tasks ([] : List (Script W V E))
    have hs₀ : Sole (initSys true w tasks []) [.body none (.call 0 fun _ => .ret none)] :=
      ⟨rfl, fun _ => rfl, ⟨fun h => (by cases h), trivial⟩,
        fun h _ _ => absurd (rootTask_keep (·.status) (fun _ _ => rfl) tasks) h⟩
    cases hr with
    | nil => exact absurd rfl hls
    | cons hst hrest =>
      obtain ⟨hb, hs⟩ := hstep ⟨h₀.wf, h₀.required, _, hs₀⟩ hst
      obtain ⟨⟨-, -, stk, h⟩, hne⟩ := LTS.run_of_step
        (I := fun b : Sys W V E => (b.WF ∧ (b.store.task 0).isRequired = true ∧
          ∃ stk, Sole b stk) ∧ (b.store.task 0).status ≠ .inactive)
        (fun _ _ _ hI hst => hstep hI.1 hst) hrest ⟨hb, hs⟩
      exact ⟨stk, h, hne⟩
  obtain ⟨stk, hs, hne⟩ := hsole
  have hover : Over s := ⟨hinv.wf, ⟨hne, hna⟩, fun stk' hstk' => by
    rw [hs.threads] at hstk'
    cases List.mem_singleton.1 hstk'
    exact hs.finished hne hna hnone⟩
  -- nothing failed before, nothing can fail after
  have hpre : fatals s'.store ls = fatals s.store ls := by
    have hkeep : ∀ {a b : Sys W V E} {l : List (Nat × Ev W V E)}, (taskList true).Run a l b → a.WF →
        (∀ l ∈ ls, ∀ t ∈ l.2.target, t < a.store.n) → fatals b.store ls = fatals a.store ls := by
      intro a b l h
      induction h with
      | nil => intro _ _; rfl
      | @cons a₁ a₂ b l _ hst _ ih =>
        intro hw hlt
        have hn : a₁.store.n ≤ a₂.store.n := by
          rw [Sys.WF.store_eq hst]; exact Store.apply_n_le hw.tree (hw.target_lt hst)
        rw [ih (hw.step hst) fun l hl t ht => Nat.lt_of_lt_of_le (hlt l hl t ht) hn,
          fatals_step hw hst hlt]
    exact hkeep hr' hinv.wf hinv.labels
  apply hfail
  have hnil : fatals s.store ls = [] := by
    have := hinv.error
    rw [hnone] at this
    exact List.getLast?_eq_none_iff.1 this.symm
  unfold fatals at *
  rw [List.filterMap_append, hpre, hnil]
  exact hover.run hr'

/-- A function calls its subtask, which fails, and then fails itself. -/
def enclosingList : Sys Unit Unit Nat :=
  initSys true () [.mk true (.int 1) (.int 1) (fun _ => .call 2 fun _ => .raise 2)
    [.mk true (.int 1) (.int 1) (fun _ => .raise 1) []]] []

/-- A function finishes the root and then fails. -/
def finishingList : Sys Unit Unit Nat :=
  initSys true () [.mk true (.int 1) (.int 1) (fun _ => .finish 0 (.raise 1)) []] []

/-- The first error does not stay, and a callback may see the root COMPLETED
before any error is set. -/
theorem first_error_replaced :
    ((exec (.replicate 10 0) enclosingList).2.threads = [[]] ∧
      fatals (exec (.replicate 10 0) enclosingList).2.store
        (exec (.replicate 10 0) enclosingList).1 = [1, 2] ∧
      ((exec (.replicate 10 0) enclosingList).2.store.task 0).error = some 2) ∧
    ((exec [0, 0, 0] finishingList).2.store.notifies (.finish 0) = true ∧
      ((exec [0, 0, 0, 0] finishingList).2.store.task 0).status = .completed ∧
      ((exec [0, 0, 0, 0] finishingList).2.store.task 0).error = none ∧
      fatals (exec [0, 0, 0, 0, 0] finishingList).2.store
        (exec [0, 0, 0, 0, 0] finishingList).1 = [1]) :=
  ⟨⟨rfl, rfl, rfl⟩, rfl, rfl, rfl, rfl⟩

/-- **The root's error.** In every state of every run, with any other threads,
it is the exception of the last required task that failed. If the worker is
alone and so far no function finished, cancelled or reported progress on the
root, and if a required task fails anywhere in the run, then the error is set
in every state after the first step in which the root is not active; the
callback of a notification sees the state after its step. -/
theorem root_error_last (w : W) (tasks : List (NewTask W V E)) (others : List (Script W V E))
    {s s' : Sys W V E} {ls ms : List (Nat × Ev W V E)}
    (hr : (taskList true).Run (initSys true w tasks others) ls s)
    (hr' : (taskList true).Run s ms s') :
    (s.store.task 0).error = (fatals s.store ls).getLast? ∧
      (others = [] →
        ((taskList true).restrict RootUntouched).Run (initSys true w tasks others) ls s →
        ls ≠ [] → fatals s'.store (ls ++ ms) ≠ [] → (s.store.task 0).status ≠ .active →
        (s.store.task 0).error ≠ none) := by
  refine ⟨root_error ⟨w, tasks, others, rfl⟩ hr, ?_⟩
  intro hothers hrestr hls hfail hna
  subst hothers
  exact root_error_set hrestr hls hr' hfail hna

theorem root_error_last_enclosing :
    ((exec (.replicate 5 0) enclosingList).2.store.task 0).error = some 1 ∧
      ((exec (.replicate 5 0) enclosingList).2.store.task 0).error ≠ none := by
  obtain ⟨hlast, hset⟩ := root_error_last () _ [] (exec_run true (.replicate 5 0) enclosingList)
    (exec_run true [0] (exec (.replicate 5 0) enclosingList).2)
  refine ⟨hlast, hset rfl ?_ (by decide) (by decide) (by decide)⟩
  have hstep : ∀ (s s' : Sys Unit Unit Nat) (ev : Ev Unit Unit Nat) (f : Frame Unit Unit Nat)
      (fs : List (Frame Unit Unit Nat)), step s 0 = some (ev, s') → s.threads[0]? = some (f :: fs) →
      ¬ f.OnRoot → ((taskList true).restrict RootUntouched).step s (0, ev) s' := by
    intro s s' ev f fs hst hth hf
    refine ⟨hst, fun g gs hg => ?_⟩
    cases hth.symm.trans hg
    exact hf
  exact .cons (hstep _ _ _ _ _ rfl rfl id) (.cons (hstep _ _ _ _ _ rfl rfl id)
    (.cons (hstep _ _ _ _ _ rfl rfl id) (.cons (hstep _ _ _ _ _ rfl rfl id)
      (.cons (hstep _ _ _ _ _ rfl rfl id) (.nil _)))))

end Wubi.Tasks
