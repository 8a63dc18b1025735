import Wubi.Tasks.Percent

/-!
# Steady functions keep their tasks balanced

The invariant (`Steadily`) of the worker alone over tasks with steady
functions. Each function on the stack is in a `Phase` that agrees with the
amounts of its own task (`Phase.Tracks`), and nothing else writes these
amounts. All tasks are balanced, or one is `Pending`: its function has made
its only report, past the size, and `set_progress` is about to finish it.
-/
namespace Wubi.Tasks

variable {W V E : Type}

/-- The phase agrees with the amounts of the function's own task. -/
def Phase.Tracks (τ : Task W V E) : Phase → Prop
  | .sized n => τ.size = .int n ∧ τ.status ≠ .completed
  | .counting n lo => τ.size = .int n ∧ (τ.status = .completed → lo = n)
  | .idle => True

/-- The phase after a report that reached the size. -/
def Phase.Full : Phase → Prop
  | .counting n lo => lo = n
  | .idle => True
  | .sized _ => False

def FrameOk (s : Store W V E) : Frame W V E → Prop
  | .body own p => ∃ ph : Phase, p.Steady own ph ∧ ∀ t ∈ own, ph.Tracks (s.task t)
  | .awaitCall own k => ∃ ph : Phase, (∀ v, (k v).Steady own ph) ∧ ∀ t ∈ own, ph.Tracks (s.task t)
  | .awaitProgress own k =>
    ∃ ph : Phase, ph.Full ∧ (k false).Steady own ph ∧ ∀ t ∈ own, ph.Tracks (s.task t)
  | .subtasks _ _ | .finish _ | .result _ => True

/-- A `set_progress` that runs is one of the function's own task. -/
def OwnProgress : List (Frame W V E) → Prop
  | [] => True
  | .finish t :: .awaitProgress own k :: fs =>
    own = some t ∧ OwnProgress (.awaitProgress own k :: fs)
  | _ :: fs => OwnProgress fs

/-- What a task object has from its creation on. -/
structure Task.Fair (τ : Task W V E) : Prop where
  weight : 0 ≤ τ.weight.val
  size : 0 ≤ τ.size.val
  steady : ∀ me, (τ.fn me).Steady (some me) .idle

/-- The stack is inside the `set_progress` of `t`, whose report passed the size. -/
def PendingStack (t : Nat) (stk : List (Frame W V E)) : Prop :=
  ∃ own k fs, stk = .subtasks t 0 :: .finish t :: .awaitProgress own k :: fs ∨
    stk = .finish t :: .awaitProgress own k :: fs

structure Pending (s : Store W V E) (t : Nat) : Prop where
  subtasks : (s.task t).subtasks = []
  status : (s.task t).status ≠ .completed
  nonneg : 0 ≤ (s.task t).completed.val
  others : ∀ u, u ≠ t → (s.task u).Balanced

def Store.AllBalanced (s : Store W V E) : Prop := ∀ t, (s.task t).Balanced

structure Steadily (s : Sys W V E) (stk : List (Frame W V E)) : Prop where
  wf : s.WF
  threads : s.threads = [stk]
  nested : Nested stk
  own : OwnProgress stk
  started : ∀ t ∈ calls stk, (s.store.task t).status ≠ .inactive
  nodup : (calls stk).Nodup
  fair : ∀ t, (s.store.task t).Fair
  frames : ∀ f ∈ stk, FrameOk s.store f
  balance : s.store.AllBalanced ∨ ∃ t, PendingStack t stk ∧ Pending s.store t

/-- A report past the size of its task comes when the task has no subtasks, so
that no callback runs before `set_progress` has finished it. A helper sets the
size of a task that is not COMPLETED and has not come further than that. -/
def Unobserved (s : Sys W V E) (l : Nat × Ev W V E) : Prop :=
  match l.2 with
  | .progress t c sz => (s.store.newSize t sz).val < c.val → (s.store.task t).subtasks = []
  | .setSize t sz =>
    (s.store.task t).status ≠ .completed ∧ (s.store.task t).completed.val ≤ sz.val
  | _ => True

/-! ## What the events keep -/

/-- The event writes the amounts of `t`. -/
def Ev.Writes (t : Nat) : Ev W V E → Prop
  | .progress u _ _ | .setSize u _ | .finish u => u = t
  | _ => False

section
variable {s : Store W V E} {ev : Ev W V E}

theorem apply_keeps (hs : s.Tree) (hev : ∀ t ∈ ev.target, t < s.n) {u : Nat} (hu : u < s.n)
    (hw : ¬ ev.Writes u) : ((s.apply ev).task u).completed = (s.task u).completed ∧
      ((s.apply ev).task u).size = (s.task u).size ∧
      (((s.apply ev).task u).status = .completed → (s.task u).status = .completed) := by
  have hstatus : ((s.apply ev).task u).status = .completed → (s.task u).status = .completed := by
    intro hc
    rcases Store.completed_of_apply hs hev hc with rfl | ⟨hc, -⟩
    · exact absurd rfl hw
    · exact hc
  rcases Store.apply_amounts hs hev hu with ⟨hc, hsz, -⟩ | ⟨_, _, rfl, -⟩ | ⟨_, rfl, -⟩ | ⟨rfl, -⟩
  · exact ⟨hc, hsz, hstatus⟩
  all_goals exact absurd rfl hw

theorem tracks_keep (hs : s.Tree) (hev : ∀ t ∈ ev.target, t < s.n) {u : Nat} (hu : u < s.n)
    (hw : ¬ ev.Writes u) {ph : Phase} (h : ph.Tracks (s.task u)) :
    ph.Tracks ((s.apply ev).task u) := by
  obtain ⟨hc, hsz, hst⟩ := apply_keeps hs hev hu hw
  cases ph with
  | sized n => exact ⟨by rw [hsz]; exact h.1, fun h' => h.2 (hst h')⟩
  | counting n lo => exact ⟨by rw [hsz]; exact h.1, fun h' => h.2 (hst h')⟩
  | idle => trivial

/-- Frames of other tasks than the one that the event writes stay as they are. -/
theorem frame_keep (hs : s.Tree) (hev : ∀ t ∈ ev.target, t < s.n) {f : Frame W V E}
    (hlt : ∀ t ∈ f.runs, t < s.n) (hw : ∀ t ∈ f.runs, ¬ ev.Writes t) (h : FrameOk s f) :
    FrameOk (s.apply ev) f := by
  have hkeep : ∀ {ph : Phase}, (∀ t ∈ f.runs, ph.Tracks (s.task t)) →
      ∀ t ∈ f.runs, ph.Tracks ((s.apply ev).task t) := fun h t ht =>
    tracks_keep hs hev (hlt t ht) (hw t ht) (h t ht)
  cases f with
  | body own p =>
    obtain ⟨ph, hp, htr⟩ := h
    exact ⟨ph, hp, hkeep htr⟩
  | awaitCall own k =>
    obtain ⟨ph, hp, htr⟩ := h
    exact ⟨ph, hp, hkeep htr⟩
  | awaitProgress own k =>
    obtain ⟨ph, hfull, hp, htr⟩ := h
    exact ⟨ph, hfull, hp, hkeep htr⟩
  | _ => trivial

theorem balanced_keep (hs : s.Tree) (hev : ∀ t ∈ ev.target, t < s.n)
    (hno : ∀ p new, ev ≠ .add p new) {u : Nat} (hw : ¬ ev.Writes u) (h : (s.task u).Balanced) :
    ((s.apply ev).task u).Balanced := by
  rcases Nat.lt_or_ge u s.n with hlt | hge
  · obtain ⟨hc, hsz, hst⟩ := apply_keeps hs hev hlt hw
    exact ⟨by rw [hc]; exact h.nonneg, by rw [hc, hsz]; exact h.le,
      fun h' => by rw [hc, hsz]; exact h.eq (hst h')⟩
  · -- there is no such task, before and after
    have hn := (Store.apply_shape hs hev hno).1
    rw [s.task_default u hge] at h
    rw [(s.apply ev).task_default u (by rw [hn]; exact hge)]
    exact h

end

/-- What `Steady` says about every object of a new tree. -/
def SteadyNew (_ : Bool) (sz w : Num) (fn : Nat → Script W V E) : Prop :=
  0 ≤ sz.val ∧ 0 ≤ w.val ∧ ∀ t, (fn t).Steady (some t) .idle

mutual

theorem NewTask.Steady.forall : ∀ {new : NewTask W V E}, new.Steady → new.Forall SteadyNew
  | .mk _ _ _ _ _, h => ⟨⟨h.1, h.2.1, h.2.2.1⟩, NewTask.AllSteady.forall h.2.2.2⟩

theorem NewTask.AllSteady.forall : ∀ {news : List (NewTask W V E)}, NewTask.AllSteady news →
    NewTask.ForallAll SteadyNew news
  | [], _ => trivial
  | _ :: _, h => ⟨h.1.forall, NewTask.AllSteady.forall h.2⟩

end

theorem fair_closed : AllocClosed (W := W) (V := V) (E := E) SteadyNew (fun _ _ => True) fun ts ts' =>
    (∀ u, (ts.getD u default).Fair) → ∀ u, (ts'.getD u default).Fair := by
  refine closed_all (Q := Task.Fair) ?_ ?_
  · intro p r sz w fn ⟨hsz, hw, hfn⟩
    exact ⟨hw, hsz, hfn⟩
  · intro τ l h
    exact ⟨h.weight, h.size, h.steady⟩

theorem balanced_closed : AllocClosed (W := W) (V := V) (E := E) SteadyNew (fun _ _ => True)
    fun ts ts' => (∀ u, (ts.getD u default).Balanced) → ∀ u, (ts'.getD u default).Balanced := by
  refine closed_all (Q := Task.Balanced) ?_ ?_
  · intro p r sz w fn ⟨hsz, _, _⟩
    exact ⟨le_refl 0, hsz, fun h => by cases h⟩
  · intro τ l h
    exact ⟨h.nonneg, h.le, h.eq⟩

/-! ## Steps -/

/-- The part of `Steadily` that is about the store and the stack. -/
structure SteadyStack (s : Store W V E) (stk : List (Frame W V E)) : Prop where
  nested : Nested stk
  own : OwnProgress stk
  started : ∀ t ∈ calls stk, (s.task t).status ≠ .inactive
  nodup : (calls stk).Nodup
  fair : ∀ t, (s.task t).Fair
  frames : ∀ f ∈ stk, FrameOk s f

section
variable {s : Store W V E} {f : Frame W V E} {fs fs' : List (Frame W V E)} {ev : Ev W V E}

/-- The frame below the `finish()` of `t` belongs to `t`. -/
theorem SteadyStack.below_finish {t : Nat} (h : SteadyStack s (.finish t :: fs)) :
    (∃ k gs, fs = .awaitProgress (some t) k :: gs) ∨ ∃ gs, fs = .result t :: gs := by
  rcases h.nested.1 with ⟨own, k, gs, rfl⟩ | ⟨gs, rfl⟩
  · have hown : own = some t := h.own.1
    subst hown
    exact .inl ⟨k, gs, rfl⟩
  · exact .inr ⟨gs, rfl⟩

/-- Only the function of a task, and what is left of its `__call__`, write its
amounts. -/
theorem SteadyStack.writes (h : SteadyStack s (f :: fs)) (hm : Move s f fs ev fs') {u : Nat}
    (hw : ev.Writes u) :
    (∃ rest, calls (f :: fs) = u :: rest) ∧
      ((∃ i : Nat, ev = .progress u (.int i) none) ∨ (∃ n : Nat, ev = .setSize u (.int n)) ∨
        ev = .finish u) := by
  have htop := h.frames f (List.mem_cons_self ..)
  cases hm with
  | progress | reachSize =>
    obtain ⟨ph, ⟨rfl, rfl, -, i, ph', rfl, -⟩, -⟩ := htop
    cases hw
    exact ⟨⟨_, rfl⟩, .inl ⟨i, rfl⟩⟩
  | setSize =>
    obtain ⟨ph, ⟨rfl, n, rfl, -⟩, -⟩ := htop
    cases hw
    exact ⟨⟨_, rfl⟩, .inr (.inl ⟨n, rfl⟩)⟩
  | finishOf =>
    obtain ⟨ph, ⟨rfl, -⟩, -⟩ := htop
    cases hw
    exact ⟨⟨_, rfl⟩, .inr (.inr rfl)⟩
  | finish =>
    cases hw
    refine ⟨?_, .inr (.inr rfl)⟩
    rcases h.below_finish with ⟨k, gs, rfl⟩ | ⟨gs, rfl⟩
    · exact ⟨calls gs, rfl⟩
    · exact ⟨calls gs, rfl⟩
  | _ => exact hw.elim

theorem ownProgress_resumeProgress (h : OwnProgress fs) : OwnProgress (resumeProgress fs) := by
  unfold resumeProgress
  split
  · exact h
  · exact h

theorem ownProgress_resumeCall {v : Option V} (h : OwnProgress fs) :
    OwnProgress (resumeCall v fs) := by
  unfold resumeCall
  split
  · exact h
  · exact h

theorem OwnProgress.tail (h : OwnProgress (f :: fs)) : OwnProgress fs := by
  cases f with
  | finish t =>
    cases fs with
    | nil => trivial
    | cons g gs =>
      cases g with
      | awaitProgress own k => exact h.2
      | _ => exact h
  | _ => exact h

theorem SteadyStack.own_step (h : SteadyStack s (f :: fs)) (hm : Move s f fs ev fs') :
    OwnProgress fs' := by
  have hfs := h.own.tail
  cases hm with
  | crash => trivial
  | reachSize =>
    obtain ⟨ph, ⟨rfl, -⟩, -⟩ := h.frames _ (List.mem_cons_self ..)
    exact ⟨rfl, hfs⟩
  | fatal | result => exact ownProgress_resumeCall hfs
  | finish => exact ownProgress_resumeProgress hfs
  | _ => exact hfs

/-- A start opens a call; nothing else does. -/
theorem Move.calls_sublist (hm : Move s f fs ev fs') :
    (∃ t, ev = .start t ∧ Tasks.calls fs' = t :: Tasks.calls (f :: fs)) ∨
      (∀ t, ev ≠ .start t) ∧ (Tasks.calls fs').Sublist (Tasks.calls (f :: fs)) := by
  cases hm with
  | call | launch => exact .inl ⟨_, rfl, by simp [calls_cons, Frame.opens]⟩
  | crash => exact .inr ⟨fun t h => (by cases h), List.nil_sublist _⟩
  | _ =>
    refine .inr ⟨?_, ?_⟩
    · intro t h; cases h
    · simp [calls_cons, Frame.opens, tail]

theorem SteadyStack.calls_step (h : SteadyStack s (f :: fs)) (hs : s.Tree)
    (hev : ∀ t ∈ ev.target, t < s.n) (hm : Move s f fs ev fs') :
    (∀ t ∈ calls fs', ((s.apply ev).task t).status ≠ .inactive) ∧ (calls fs').Nodup := by
  have hkeep : ∀ t, (s.task t).status ≠ .inactive → ((s.apply ev).task t).status ≠ .inactive :=
    fun t ht hin => ht (Store.inactive_of_apply hs hev hin).1
  rcases hm.calls_sublist with ⟨t, rfl, hc⟩ | ⟨-, hsub⟩
  · rw [hc]
    have hin := ((s.canStart_iff t).1 hm.of_start).1
    refine ⟨fun u hu => ?_, List.nodup_cons.2 ⟨fun ht => h.started t ht hin, h.nodup⟩⟩
    rcases List.mem_cons.1 hu with rfl | hu
    · rw [Store.apply_status hs hev]; simp [Ev.sets]
    · exact hkeep u (h.started u hu)
  · exact ⟨fun u hu => hkeep u (h.started u (hsub.subset hu)), h.nodup.sublist hsub⟩

/-- What a steady function adds is steady. -/
theorem SteadyStack.new_steady {p : Nat} {new : NewTask W V E} (h : SteadyStack s (f :: fs))
    (hm : Move s f fs (.add p new) fs') : new.Steady := by
  cases hm with
  | addSubtask =>
    obtain ⟨ph, hst, -⟩ := h.frames _ (List.mem_cons_self ..)
    exact hst.1

theorem SteadyStack.fair_step (h : SteadyStack s (f :: fs)) (hs : s.Tree)
    (hev : ∀ t ∈ ev.target, t < s.n) (hm : Move s f fs ev fs') (u : Nat) :
    ((s.apply ev).task u).Fair := by
  by_cases hadd : ∃ p new, ev = .add p new
  · obtain ⟨p, new, rfl⟩ := hadd
    have hnew := h.new_steady hm
    exact (alloc_rule fair_closed new s.tasks p hnew.forall (hev p rfl) trivial).1 h.fair u
  · obtain ⟨hn, hsh⟩ := Store.apply_shape hs hev fun p new he => hadd ⟨p, new, he⟩
    have hu := h.fair u
    have hweight : ((s.apply ev).task u).weight = (s.task u).weight :=
      congrArg (fun x => x.2.2.1) (hsh u)
    have hfn : ((s.apply ev).task u).fn = (s.task u).fn := congrArg (fun x => x.2.2.2.2) (hsh u)
    rcases Nat.lt_or_ge u s.n with hlt | hge
    · refine ⟨by rw [hweight]; exact hu.weight, ?_, by rw [hfn]; exact hu.steady⟩
      by_cases hw : ev.Writes u
      · obtain ⟨-, ⟨i, rfl⟩ | ⟨n, rfl⟩ | rfl⟩ := h.writes hm hw <;>
          rcases Store.apply_amounts hs hev hlt with
            ⟨-, hsz, -⟩ | ⟨_, _, he, -, hsz⟩ | ⟨_, he, -, hsz⟩ | ⟨he, -, hsz⟩ <;> rw [hsz]
        all_goals first | exact hu.size | cases he
        · exact hu.size
        · simp [Num.val]
      · rw [(apply_keeps hs hev hlt hw).2.1]; exact hu.size
    · rw [(s.apply ev).task_default u (by rw [hn]; exact hge)]
      rw [s.task_default u hge] at hu
      exact hu

theorem frames_resumeCall {v : Option V} (h : ∀ g ∈ fs, FrameOk s g) :
    ∀ g ∈ resumeCall v fs, FrameOk s g := by
  unfold resumeCall
  split
  · intro g hg
    rcases List.mem_cons.1 hg with rfl | hg
    · obtain ⟨ph, hst, htr⟩ := h _ (List.mem_cons_self ..)
      exact ⟨ph, hst v, htr⟩
    · exact h g (List.mem_cons_of_mem _ hg)
  · exact h

theorem frames_tail {t : Nat} (h : ∀ g ∈ fs, FrameOk s g) : ∀ g ∈ tail t fs, FrameOk s g := by
  intro g hg
  simp only [tail, List.mem_cons] at hg
  rcases hg with rfl | rfl | rfl | hg
  · trivial
  · trivial
  · trivial
  · exact h g hg

/-- The report of `i` by the function of `t`, read in the store after it. -/
theorem tracks_report {t i : Nat} {ph ph' : Phase} (hs : s.Tree) (ht : t < s.n)
    (htr : ph.Tracks (s.task t)) (hr : ph.report i = some ph') :
    ph'.Tracks ((s.apply (.progress t (.int ↑i) none)).task t) := by
  have hev : ∀ u ∈ (Ev.progress t (.int ↑i) none : Ev W V E).target, u < s.n := by
    rintro _ ⟨⟩; exact ht
  have hsz : ((s.apply (.progress t (.int ↑i) none)).task t).size = (s.task t).size := by
    simp only [Store.apply, Store.task_modify, ht, and_self, if_true, Store.newSize]
  have hst : ((s.apply (.progress t (.int ↑i) none)).task t).status = (s.task t).status :=
    Store.apply_status hs hev t
  cases ph with
  | idle => cases hr
  | sized n =>
    simp only [Phase.report, Option.some.injEq] at hr
    subst hr
    split
    · exact ⟨hsz.trans htr.1, fun hc => absurd (hst.symm.trans hc) htr.2⟩
    · trivial
  | counting n lo =>
    simp only [Phase.report] at hr
    split at hr
    · rename_i hle
      cases hr
      refine ⟨hsz.trans htr.1, fun hc => ?_⟩
      have := htr.2 (hst.symm.trans hc)
      omega
    · cases hr

theorem tracks_finish {t : Nat} {ph : Phase} (hs : s.Tree)
    (hev : ∀ u ∈ (Ev.finish t : Ev W V E).target, u < s.n) (ht : t < s.n) (hfull : ph.Full)
    (htr : ph.Tracks (s.task t)) : ph.Tracks ((s.apply (.finish t)).task t) := by
  have hsz : ((s.apply (.finish t)).task t).size = (s.task t).size := by
    rcases Store.apply_amounts hs hev ht with ⟨-, h, -⟩ | ⟨_, _, h, -⟩ | ⟨_, h, -⟩ | ⟨-, -, h⟩
    · exact h
    · cases h
    · cases h
    · exact h
  cases ph with
  | sized => exact hfull.elim
  | counting n lo => exact ⟨hsz.trans htr.1, fun _ => hfull⟩
  | idle => trivial

/-- A report that reaches the size leads to a full phase. -/
theorem full_report {t i : Nat} {ph ph' : Phase} (htr : ph.Tracks (s.task t))
    (hr : ph.report i = some ph') (hge : (Num.int ↑i).ge (s.newSize t none) = true) : ph'.Full := by
  rw [Num.ge_iff] at hge
  have hsize : ∀ n : Nat, (s.task t).size = .int n → n ≤ i := by
    intro n hn
    simp only [Store.newSize, hn, Num.val] at hge
    exact_mod_cast hge
  cases ph with
  | idle => cases hr
  | sized n =>
    have hn := hsize n htr.1
    simp only [Phase.report, Option.some.injEq] at hr
    subst hr
    split
    · rename_i hle; exact Nat.le_antisymm hle hn
    · trivial
  | counting n lo =>
    have hn := hsize n htr.1
    simp only [Phase.report] at hr
    split at hr
    · rename_i hle
      cases hr
      exact Nat.le_antisymm hle.2 hn
    · cases hr

theorem SteadyStack.frames_step (h : SteadyStack s (f :: fs)) (hs : s.Tree)
    (hev : ∀ t ∈ ev.target, t < s.n) (hown : ∀ t, Owns (f :: fs) t → t < s.n)
    (hm : Move s f fs ev fs')
    (hc : ∀ t sz, ev = .setSize t sz →
      (s.task t).status ≠ .completed ∧ (s.task t).completed.val ≤ sz.val) :
    ∀ g ∈ fs', FrameOk (s.apply ev) g := by
  have hkeep : ∀ gs, gs ⊆ f :: fs → (∀ u, ev.Writes u → u ∉ calls gs) →
      ∀ g ∈ gs, FrameOk (s.apply ev) g := by
    intro gs hsub hw g hg
    refine frame_keep hs hev (fun t ht => ?_) (fun t ht hwt => ?_) (h.frames g (hsub hg))
    · exact hown t (calls_owned (bodies_calls (List.mem_filterMap.2 ⟨g, hsub hg, ht⟩)))
    · exact hw t hwt (bodies_calls (List.mem_filterMap.2 ⟨g, hg, ht⟩))
  have htop := h.frames f (List.mem_cons_self ..)
  have hfs : (∀ u, ¬ ev.Writes u) → ∀ g ∈ fs, FrameOk (s.apply ev) g := fun hw =>
    hkeep fs (List.subset_cons_self f fs) fun u hwu => absurd hwu (hw u)
  have hall : (∀ u, ¬ ev.Writes u) → FrameOk (s.apply ev) f := fun hw =>
    hkeep (f :: fs) (List.Subset.refl _) (fun u hwu => absurd hwu (hw u)) f (List.mem_cons_self ..)
  -- the frames below a function that writes the amounts of its own task
  have hwriter : ∀ t, calls (f :: fs) = t :: calls fs → (∀ u, ev.Writes u → u = t) →
      ∀ g ∈ fs, FrameOk (s.apply ev) g := by
    intro t hc hw
    have hnd := h.nodup
    rw [hc] at hnd
    refine hkeep fs (List.subset_cons_self f fs) fun u hu => ?_
    rw [hw u hu]
    exact (List.nodup_cons.1 hnd).1
  -- a function that goes on in the same phase
  have hgo : ∀ own p p', f = .body own p → (∀ u, ¬ ev.Writes u) →
      (∀ ph, p.Steady own ph → p'.Steady own ph) →
      ∀ g ∈ .body own p' :: fs, FrameOk (s.apply ev) g := by
    intro own p p' he hw hp
    subst he
    obtain ⟨ph, hst, htr⟩ := hall hw
    exact List.forall_mem_cons.2 ⟨⟨ph, hp ph hst, htr⟩, hfs hw⟩
  cases hm with
  | crash => intro g hg; cases hg
  | returned | nonFatal => exact frames_tail (hfs fun _ h => h)
  | exit | loopEnd => exact hfs fun _ h => h
  | fatal | result => exact frames_resumeCall (hfs fun _ h => h)
  | act | callRefused => exact hgo _ _ _ rfl (fun _ h => h) fun ph hst => hst _
  | addSubtask => exact hgo _ _ _ rfl (fun _ h => h) fun ph hst => hst.2 _
  | stop => exact hgo _ _ _ rfl (fun _ h => h) fun ph hst => hst.2.2.1
  | cancel => exact hgo _ _ _ rfl (fun _ h => h) fun ph hst => hst
  | skip => exact List.forall_mem_cons.2 ⟨trivial, hfs fun _ h => h⟩
  | call _ hcs =>
    rename_i t k _
    obtain ⟨ph, hst, htr⟩ := hall fun _ h => h
    refine List.forall_mem_cons.2 ⟨⟨.idle, (h.fair t).steady t, fun _ _ => trivial⟩,
      List.forall_mem_cons.2 ⟨⟨ph, hst, htr⟩, hfs fun _ h => h⟩⟩
  | launch _ hcs =>
    rename_i t i c _
    refine List.forall_mem_cons.2 ⟨⟨.idle, (h.fair c).steady c, fun _ _ => trivial⟩,
      List.forall_mem_cons.2 ⟨trivial, hfs fun _ h => h⟩⟩
  | progress =>
    obtain ⟨ph, ⟨rfl, rfl, -, i, ph', rfl, hr, hst⟩, htr⟩ := htop
    refine List.forall_mem_cons.2 ⟨⟨ph', hst, ?_⟩, hwriter _ rfl fun u hu => hu.symm⟩
    rintro _ ⟨⟩
    exact tracks_report hs (hev _ rfl) (htr _ rfl) hr
  | reachSize _ _ hge =>
    obtain ⟨ph, ⟨rfl, rfl, -, i, ph', rfl, hr, hst⟩, htr⟩ := htop
    refine List.forall_mem_cons.2 ⟨trivial, List.forall_mem_cons.2 ⟨trivial,
      List.forall_mem_cons.2 ⟨⟨ph', full_report (htr _ rfl) hr hge, hst, ?_⟩,
        hwriter _ rfl fun u hu => hu.symm⟩⟩⟩
    rintro _ ⟨⟩
    exact tracks_report hs (hev _ rfl) (htr _ rfl) hr
  | setSize ht =>
    obtain ⟨ph, ⟨rfl, n, rfl, hst⟩, -⟩ := htop
    refine List.forall_mem_cons.2 ⟨⟨.sized n, hst, ?_⟩, hwriter _ rfl fun u hu => hu.symm⟩
    rintro _ ⟨⟩
    refine ⟨?_, ?_⟩
    · simp [Store.apply, Store.task_modify, ht]
    · rw [Store.apply_status hs hev]
      exact (hc _ _ rfl).1
  | finishOf =>
    obtain ⟨ph, ⟨rfl, hst⟩, -⟩ := htop
    exact List.forall_mem_cons.2 ⟨⟨.idle, hst, fun _ _ => trivial⟩,
      hwriter _ rfl fun u hu => hu.symm⟩
  | finish =>
    rename_i t
    -- the caller of `finish`, and what is below it
    have hlow : ∀ g gs, fs = g :: gs → calls (g :: gs) = t :: calls gs →
        ∀ g ∈ gs, FrameOk (s.apply (.finish t)) g := by
      rintro g gs rfl hcalls
      have hnd : (calls (g :: gs)).Nodup := h.nodup
      rw [hcalls] at hnd
      refine hkeep gs (fun _ hg => List.mem_cons_of_mem _ (List.mem_cons_of_mem _ hg)) fun u hu => ?_
      cases hu
      exact (List.nodup_cons.1 hnd).1
    rcases h.below_finish with ⟨k, gs, rfl⟩ | ⟨gs, rfl⟩
    · obtain ⟨ph, hfull, hst, htr⟩ := h.frames (.awaitProgress (some t) k) (by simp)
      refine List.forall_mem_cons.2 ⟨⟨ph, hst, ?_⟩, hlow _ _ rfl rfl⟩
      rintro _ ⟨⟩
      exact tracks_finish hs hev (hown t (carries_cons.2 (.inl rfl))) hfull (htr t rfl)
    · exact List.forall_mem_cons.2 ⟨trivial, hlow _ _ rfl rfl⟩

/-! ### Balance -/

theorem balanced_finish {t : Nat} (hs : s.Tree)
    (hev : ∀ u ∈ (Ev.finish t : Ev W V E).target, u < s.n) (ht : t < s.n)
    (hsz : 0 ≤ (s.task t).size.val)
    (h : (s.task t).status = .completed → (s.task t).Balanced) :
    ((s.apply (.finish t)).task t).Balanced := by
  rcases Store.apply_amounts hs hev ht with ⟨hc, hz, hst⟩ | ⟨_, _, h', -⟩ | ⟨_, h', -⟩ | ⟨-, hc, hz⟩
  · have hb := h (hst rfl)
    exact ⟨by rw [hc]; exact hb.nonneg, by rw [hc, hz]; exact hb.le,
      fun _ => by rw [hc, hz]; exact hb.eq (hst rfl)⟩
  · cases h'
  · cases h'
  · exact ⟨by rw [hc]; exact hsz, by rw [hc, hz], fun _ => by rw [hc, hz]⟩

/-- A report up to the size keeps the balance; one past the size is the first
and the last. -/
theorem balanced_report {t i : Nat} {ph ph' : Phase} (hs : s.Tree) (ht : t < s.n)
    (htr : ph.Tracks (s.task t)) (hr : ph.report i = some ph') :
    ((s.apply (.progress t (.int ↑i) none)).task t).Balanced ∨
      (s.newSize t none).val < (Num.int ↑i).val ∧
        ((s.apply (.progress t (.int ↑i) none)).task t).status ≠ .completed ∧
        0 ≤ ((s.apply (.progress t (.int ↑i) none)).task t).completed.val := by
  have hev : ∀ u ∈ (Ev.progress t (.int ↑i) none : Ev W V E).target, u < s.n := by
    rintro _ ⟨⟩; exact ht
  have hsz : ((s.apply (.progress t (.int ↑i) none)).task t).size = (s.task t).size := by
    simp only [Store.apply, Store.task_modify, ht, and_self, if_true, Store.newSize]
  have hc : ((s.apply (.progress t (.int ↑i) none)).task t).completed = .int ↑i := by
    simp only [Store.apply, Store.task_modify, ht, and_self, if_true]
  have hst : ((s.apply (.progress t (.int ↑i) none)).task t).status = (s.task t).status :=
    Store.apply_status hs hev t
  have hnonneg : (0 : Rat) ≤ (Num.int ↑i).val := by
    simp only [Num.val]; exact_mod_cast Nat.zero_le i
  have hle : ∀ {n : Nat}, (s.task t).size = .int ↑n → i ≤ n →
      (Num.int ↑i).val ≤ (s.task t).size.val := by
    intro n hn hi
    rw [hn]; simp only [Num.val]; exact_mod_cast hi
  cases ph with
  | idle => cases hr
  | sized n =>
    by_cases hi : i ≤ n
    · refine .inl ⟨by rw [hc]; exact hnonneg, by rw [hc, hsz]; exact hle htr.1 hi, fun h => ?_⟩
      exact absurd (hst.symm.trans h) htr.2
    · refine .inr ⟨?_, by rw [hst]; exact htr.2, by rw [hc]; exact hnonneg⟩
      simp only [Store.newSize, htr.1, Num.val]
      exact_mod_cast Nat.lt_of_not_le hi
  | counting n lo =>
    simp only [Phase.report] at hr
    split at hr
    · rename_i hi
      refine .inl ⟨by rw [hc]; exact hnonneg, by rw [hc, hsz]; exact hle htr.1 hi.2, fun h => ?_⟩
      have hlo := htr.2 (hst.symm.trans h)
      have hin : i = n := by omega
      rw [hc, hsz, htr.1, hin]
    · cases hr

theorem SteadyStack.balanced_others (h : SteadyStack s (f :: fs)) (hs : s.Tree)
    (hev : ∀ t ∈ ev.target, t < s.n) (hm : Move s f fs ev fs') (hb : s.AllBalanced) (u : Nat)
    (hw : ¬ ev.Writes u) : ((s.apply ev).task u).Balanced := by
  by_cases hadd : ∃ p new, ev = .add p new
  · obtain ⟨p, new, rfl⟩ := hadd
    have hnew := h.new_steady hm
    exact (alloc_rule balanced_closed new s.tasks p hnew.forall (hev p rfl) trivial).1 hb u
  · exact balanced_keep hs hev (fun p new he => hadd ⟨p, new, he⟩) hw (hb u)

theorem SteadyStack.balance_step (h : SteadyStack s (f :: fs)) (hs : s.Tree)
    (hev : ∀ t ∈ ev.target, t < s.n) (hm : Move s f fs ev fs')
    (hc : ∀ t c sz, ev = .progress t c sz → (s.newSize t sz).val < c.val → (s.task t).subtasks = [])
    (hset : ∀ t sz, ev = .setSize t sz →
      (s.task t).status ≠ .completed ∧ (s.task t).completed.val ≤ sz.val) (hb : s.AllBalanced) :
    ((s.apply ev).AllBalanced ∨ ∃ t, PendingStack t fs' ∧ Pending (s.apply ev) t) ∧
      (s.notifies ev = true → (s.apply ev).AllBalanced) := by
  have hothers := h.balanced_others hs hev hm hb
  have hboth : (s.apply ev).AllBalanced →
      ((s.apply ev).AllBalanced ∨ ∃ t, PendingStack t fs' ∧ Pending (s.apply ev) t) ∧
        (s.notifies ev = true → (s.apply ev).AllBalanced) := fun ha => ⟨.inl ha, fun _ => ha⟩
  have hone : ∀ t, (∀ u, ev.Writes u → u = t) → ((s.apply ev).task t).Balanced →
      (s.apply ev).AllBalanced := by
    intro t hw ht u
    by_cases hu : ev.Writes u
    · rw [hw u hu]; exact ht
    · exact hothers u hu
  have htop := h.frames f (List.mem_cons_self ..)
  cases hm with
  | progress ht _ hlt =>
    obtain ⟨ph, ⟨rfl, rfl, -, i, ph', rfl, hr, -⟩, htr⟩ := htop
    refine hboth (hone _ (fun u hu => hu.symm) ?_)
    rcases balanced_report hs ht (htr _ rfl) hr with hbal | ⟨hgt, -⟩
    · exact hbal
    · rw [(Num.ge_iff _ _).2 hgt.le] at hlt; cases hlt
  | reachSize ht _ hge =>
    obtain ⟨ph, ⟨rfl, rfl, -, i, ph', rfl, hr, -⟩, htr⟩ := htop
    rcases balanced_report hs ht (htr _ rfl) hr with hbal | ⟨hgt, hst, hnonneg⟩
    · exact hboth (hone _ (fun u hu => hu.symm) hbal)
    · refine ⟨.inr ⟨_, ⟨_, _, _, .inl rfl⟩, ?_, hst, hnonneg, fun u hu => ?_⟩, fun hnot => ?_⟩
      · have hsh := (Store.apply_shape hs hev fun _ _ h => by cases h).2
        exact (congrArg (fun x => x.2.1) (hsh _)).trans (hc _ _ none rfl hgt)
      · exact hothers u fun hw => hu hw.symm
      · simp only [Store.notifies, hge] at hnot
        cases hnot
  | setSize ht =>
    obtain ⟨hstat, hle⟩ := hset _ _ rfl
    refine hboth (hone _ (fun u hu => hu.symm) ⟨?_, ?_, fun h => ?_⟩)
    · simpa [Store.apply, Store.task_modify, ht] using (hb _).nonneg
    · simpa [Store.apply, Store.task_modify, ht] using hle
    · rw [Store.apply_status hs hev] at h
      exact absurd h hstat
  | finishOf ht =>
    rename_i own t k
    exact hboth (hone t (fun u hu => hu.symm)
      (balanced_finish hs hev ht (h.fair t).size fun _ => hb t))
  | finish =>
    rename_i t
    refine hboth (hone t (fun u hu => hu.symm) ?_)
    rcases Nat.lt_or_ge t s.n with ht | ht
    · exact balanced_finish hs hev ht (h.fair t).size fun _ => hb t
    · exact absurd (hev t rfl) (Nat.not_lt.2 ht)
  | _ => exact hboth fun u => hothers u id

theorem SteadyStack.pending_step {t : Nat} (h : SteadyStack s (f :: fs)) (hs : s.Tree)
    (hev : ∀ t ∈ ev.target, t < s.n) (hm : Move s f fs ev fs')
    (hstk : PendingStack t (f :: fs)) (hp : Pending s t) :
    ((s.apply ev).AllBalanced ∨ ∃ t, PendingStack t fs' ∧ Pending (s.apply ev) t) ∧
      (s.notifies ev = true → (s.apply ev).AllBalanced) := by
  obtain ⟨own, k, gs, heq | heq⟩ := hstk
  · obtain ⟨rfl, rfl⟩ := List.cons.inj heq
    cases hm with
    | launch hi | skip hi => rw [hp.subtasks] at hi; cases hi
    | loopEnd => exact ⟨.inr ⟨t, ⟨own, k, gs, .inr rfl⟩, hp⟩, fun h => by cases h⟩
  · obtain ⟨rfl, rfl⟩ := List.cons.inj heq
    cases hm with
    | finish =>
      have ht := hev t rfl
      have hall : (s.apply (.finish t)).AllBalanced := by
        intro u
        by_cases hu : u = t
        · subst hu
          exact balanced_finish hs hev ht (h.fair u).size fun hc => absurd hc hp.status
        · exact balanced_keep hs hev (fun _ _ h => nomatch h) (fun hw => hu hw.symm)
            (hp.others u hu)
      exact ⟨.inl hall, fun _ => hall⟩

end

/-! ## Runs -/

theorem Steadily.stack {s : Sys W V E} {stk : List (Frame W V E)} (h : Steadily s stk) :
    SteadyStack s.store stk :=
  ⟨h.nested, h.own, h.started, h.nodup, h.fair, h.frames⟩

theorem Steadily.step {s s' : Sys W V E} {stk : List (Frame W V E)} {i : Nat} {ev : Ev W V E}
    (h : Steadily s stk) (hst : step s i = some (ev, s')) (hc : Unobserved s (i, ev)) :
    (∃ stk', Steadily s' stk') ∧ (s.store.notifies ev = true → s'.store.AllBalanced) := by
  have hev := h.wf.target_lt hst
  have hw' := h.wf.step hst
  obtain ⟨f, fs, fs', rfl, rfl, hm, rfl⟩ := step_single hst h.threads
  have hs := h.wf.tree
  have hown : ∀ t, Owns (f :: fs) t → t < s.store.n :=
    h.wf.owner _ (by rw [h.threads]; exact List.mem_cons_self ..)
  have hset : ∀ t sz, ev = .setSize t sz →
      (s.store.task t).status ≠ .completed ∧ (s.store.task t).completed.val ≤ sz.val := by
    intro t sz he
    subst he
    exact hc
  have hbal : (((s.store.apply ev).AllBalanced ∨
      ∃ t, PendingStack t fs' ∧ Pending (s.store.apply ev) t) ∧
      (s.store.notifies ev = true → (s.store.apply ev).AllBalanced)) := by
    rcases h.balance with hb | ⟨t, hstk, hp⟩
    · refine h.stack.balance_step hs hev hm (fun t c sz he => ?_) hset hb
      subst he; exact hc
    · exact h.stack.pending_step hs hev hm hstk hp
  obtain ⟨hstart, hnd⟩ := h.stack.calls_step hs hev hm
  exact ⟨⟨fs', hw', rfl, hm.nested h.nested, h.stack.own_step hm, hstart, hnd,
    h.stack.fair_step hs hev hm, h.stack.frames_step hs hev hown hm hset, hbal.1⟩, hbal.2⟩

instance {s : Sys W V E} : ∀ l, Decidable (Unobserved s l)
  | (_, .progress _ _ _) => inferInstanceAs (Decidable (_ → _))
  | (_, .setSize _ _) => inferInstanceAs (Decidable (_ ∧ _))
  | (_, .tau) | (_, .act _) | (_, .start _) | (_, .refuse _) | (_, .returned _ _)
  | (_, .raised _ _) | (_, .add _ _) | (_, .stop _) | (_, .finish _) | (_, .cancel _) =>
    inferInstanceAs (Decidable True)

end Wubi.Tasks
