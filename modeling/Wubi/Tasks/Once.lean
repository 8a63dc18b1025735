import Wubi.Tasks.Closed
import Wubi.Tasks.Stack

/-!
# Every task runs exactly once

`__call__` and `set_progress` start the subtasks of a task and then finish it.
A function may finish tasks as well, and may add subtasks at any time; a
subtask of a COMPLETED task never starts. `Careful` says what the functions
have to avoid; in a careful run of the worker alone, when the root is
COMPLETED, every task of the tree has started once and its function has
returned once (`executed_once`).

The invariant (`Once`) has three parts. The store is tidy. The stack is well
nested (`Nested`): a loop over subtasks is followed by the `finish()` of the
same task, that by the caller of `set_progress` or by the `return` of the same
task. And the open calls (`calls`) are distinct tasks, each below its parent,
among them every ACTIVE task; so when the loop of a task ends, no subtask is
ACTIVE, and its `finish()` closes no task that has not been started.
-/
namespace Wubi.Tasks

variable {W V E : Type}

/-! ## Conditions on the functions -/

/-- `t` and every task below it have been started. -/
def Store.AllStarted (s : Store W V E) (t : Nat) : Prop :=
  (s.task t).status ≠ .inactive ∧ ∀ u, Below s.tasks t u → (s.task u).status ≠ .inactive

/-- The next step of the stack is careful: nothing raises or cancels; no
function finishes the root, or a task with something below it still to start,
by `finish()` or by a `set_progress` that is not its own; no subtask is added
at or below a COMPLETED task. -/
def CarefulTop (s : Store W V E) : List (Frame W V E) → Prop
  | .body _ (.raise _) :: _ | .body _ (.cancel _ _) :: _ => False
  | .body _ (.finish t _) :: _ => t ≠ 0 ∧ s.AllStarted t
  | .body _ (.setProgress t c sz _) :: _ =>
    c.ge (s.newSize t sz) = true → (s.task t).status ≠ .inactive
  | .body _ (.addSubtask p _ _) :: _ => ¬ Closed s.tasks p
  | .finish t :: .awaitProgress own _ :: _ => t ≠ 0 ∧ (own = some t ∨ s.AllStarted t)
  | _ => True

def Careful (s : Sys W V E) (l : Nat × Ev W V E) : Prop :=
  ∀ stk, s.threads[l.1]? = some stk → CarefulTop s.store stk

/-! ## Parents of open calls -/

/-- In the list of open calls each task is followed, somewhere, by its parent. -/
def ParentsBelow (s : Store W V E) : List Nat → Prop
  | [] => True
  | c :: cs => (∀ p, (s.task c).parent = some p → p ∈ cs) ∧ ParentsBelow s cs

theorem ParentsBelow.mem {s : Store W V E} {l : List Nat} (h : ParentsBelow s l) {c p : Nat}
    (hc : c ∈ l) (hp : (s.task c).parent = some p) : p ∈ l := by
  induction l with
  | nil => cases hc
  | cons a l ih =>
    rcases List.mem_cons.1 hc with rfl | hc
    · exact List.mem_cons_of_mem _ (h.1 p hp)
    · exact List.mem_cons_of_mem _ (ih h.2 hc)

theorem ParentsBelow.congr {s s' : Store W V E} {l : List Nat} (h : ParentsBelow s l)
    (hp : ∀ c ∈ l, (s'.task c).parent = (s.task c).parent) : ParentsBelow s' l := by
  induction l with
  | nil => trivial
  | cons a l ih =>
    refine ⟨fun p hap => h.1 p ?_, ih h.2 fun c hc => hp c (List.mem_cons_of_mem _ hc)⟩
    rw [← hp a (List.mem_cons_self ..)]; exact hap

/-- Some call open means that the root's is. -/
theorem ParentsBelow.root {s : Store W V E} (hs : s.Tree) {l : List Nat} (h : ParentsBelow s l)
    {c : Nat} (hc : c ∈ l) (hlt : c < s.n) : 0 ∈ l := by
  revert hc
  refine hs.induct (P := fun c => c ∈ l → 0 ∈ l) id ?_ hlt
  intro t p hp ih ht
  exact ih (h.mem ht hp)

/-- When the loop over the subtasks of the innermost open call has ended,
everything below that task has been started. -/
theorem allStarted_of_loop {s : Store W V E} (hs : s.Tree) (ht : s.Tidy) {t : Nat} {l : List Nat}
    (hst : (s.task t).status ≠ .inactive)
    (hch : ∀ c ∈ (s.task t).subtasks, (s.task c).status ≠ .inactive)
    (hact : ∀ c, (s.task c).status = .active → c ∈ t :: l) (hnd : (t :: l).Nodup)
    (hpb : ParentsBelow s (t :: l)) : s.AllStarted t := by
  refine ⟨hst, fun u hu => ?_⟩
  obtain ⟨c, hc, hcu⟩ := below_cases hu
  have hc' := hch c (hs.mem_of_parent hc)
  rcases hcu with rfl | hcu
  · exact hc'
  · rcases ht.status c with h | h | h
    · exact absurd h hc'
    · -- an ACTIVE subtask would have its parent further out, a second time
      exfalso
      rcases List.mem_cons.1 (hact c h) with rfl | hcl
      · exact Nat.lt_irrefl _ (hs.parent_lt hc).1
      · exact (List.nodup_cons.1 hnd).1 (hpb.2.mem hcl hc)
    · exact ht.closed u (closed_below ⟨c, h, .inl rfl⟩ hcu)

/-! ## The invariant -/

/-- The loop over the subtasks of `t` is at index `i`. -/
structure LoopOk (s : Store W V E) (t i : Nat) : Prop where
  le : i ≤ (s.task t).subtasks.length
  started : ∀ c ∈ (s.task t).subtasks.take i, (s.task c).status ≠ .inactive

/-- The loop has ended before `finish()`, and `finish()` has run before `return`. -/
def TopOk (s : Store W V E) : List (Frame W V E) → Prop
  | .finish t :: _ => ∀ c ∈ (s.task t).subtasks, (s.task c).status ≠ .inactive
  | .result t :: _ => (s.task t).status = .completed
  | _ => True

/-- The part of the invariant that is about the stack. -/
structure StackOk (s : Store W V E) (stk : List (Frame W V E)) : Prop where
  nested : Nested stk
  top : TopOk s stk
  loops : ∀ t i, Frame.subtasks t i ∈ stk → LoopOk s t i
  owner : ∀ t, Owns stk t → (s.task t).status ≠ .inactive
  active : ∀ t, (s.task t).status = .active → t ∈ calls stk
  nodup : (calls stk).Nodup
  below : ParentsBelow s (calls stk)
  root : (s.task 0).status = .completed → bodies stk = []

section
variable {s : Store W V E} {f : Frame W V E} {fs fs' : List (Frame W V E)} {ev : Ev W V E}

theorem CarefulTop.not_raise (hc : CarefulTop s (f :: fs)) (own : Option Nat) (e : E) :
    f ≠ .body own (.raise e) := by
  intro h; subst h; exact hc

/-- Careful steps are clean. -/
theorem StackOk.clean (h : StackOk s (f :: fs)) (hs : s.Tree) (ht : s.Tidy)
    (hm : Move s f fs ev fs') (hc : CarefulTop s (f :: fs)) : ev.Clean s := by
  have hloop : ∀ t l, f = .finish t → calls fs = t :: l → s.AllStarted t := by
    intro t l hf hl
    subst hf
    have hcl : calls (.finish t :: fs) = t :: l := by rw [calls_cons, hl]; rfl
    refine allStarted_of_loop hs ht (h.owner t (carries_cons.2 (.inl rfl))) h.top
      (fun c hcact => hcl ▸ h.active c hcact) (hcl ▸ h.nodup) (hcl ▸ h.below)
  cases hm with
  | fatal | nonFatal | cancel => exact hc.elim
  | addSubtask => exact hc
  | finishOf => exact hc.2
  | call _ hcs | launch _ hcs => exact hcs
  | finish =>
    rename_i t
    rcases h.nested.1 with ⟨own, k, gs, rfl⟩ | ⟨gs, rfl⟩
    · rcases hc.2 with hown | hall
      · subst hown; exact hloop t (calls gs) rfl rfl
      · exact hall
    · exact hloop t (calls gs) rfl rfl
  | _ => trivial

theorem LoopOk.apply {t i : Nat} (h : LoopOk s t i) (hs : s.Tree) (ht : t < s.n)
    (hev : ∀ u ∈ ev.target, u < s.n) (hc : ev.Clean s) : LoopOk (s.apply ev) t i := by
  obtain ⟨l, hl⟩ := Store.apply_subtasks hs hev ht
  refine ⟨by rw [hl, List.length_append]; have := h.le; omega, fun c hcm => ?_⟩
  rw [hl, List.take_append_of_le_length h.le] at hcm
  exact Store.clean_started hs hev hc (h.started c hcm)

/-- One more subtask has been started. -/
theorem LoopOk.next {t i c : Nat} (h : LoopOk s t i) (hi : (s.task t).subtasks[i]? = some c)
    (hc : (s.task c).status ≠ .inactive) : LoopOk s t (i + 1) := by
  obtain ⟨hlt, hget⟩ := List.getElem?_eq_some_iff.1 hi
  refine ⟨hlt, fun d hd => ?_⟩
  rw [List.take_succ_eq_append_getElem hlt, hget] at hd
  rcases List.mem_append.1 hd with hd | hd
  · exact h.started d hd
  · rw [List.mem_singleton.1 hd]; exact hc

theorem StackOk.top_step (h : StackOk s (f :: fs)) (hs : s.Tree)
    (hev : ∀ t ∈ ev.target, t < s.n) (hm : Move s f fs ev fs')
    (hclean : ev.Clean s) : TopOk (s.apply ev) fs' := by
  cases hm with
  | exit => rw [show fs = [] from h.nested.1]; trivial
  | loopEnd hi =>
    rename_i t i
    obtain ⟨gs, rfl⟩ := h.nested.1
    have hl := h.loops t i (List.mem_cons_self ..)
    have hle := List.getElem?_eq_none_iff.1 hi
    intro c hc
    exact hl.started c (by rw [List.take_of_length_le hle]; exact hc)
  | finish =>
    rename_i t
    rcases h.nested.1 with ⟨own, k, gs, rfl⟩ | ⟨gs, rfl⟩
    · trivial
    · rw [show resumeProgress (.result t :: gs) = .result t :: gs from rfl]
      have := Store.apply_status hs hev t
      simp only [Ev.sets, if_true, Option.getD_some] at this
      exact this
  | result =>
    obtain ⟨g, gs, rfl, hg⟩ := h.nested.1
    cases g with
    | awaitCall | subtasks => trivial
    | _ => exact hg.elim
  | fatal | nonFatal => exact hclean.elim
  | _ => trivial

theorem StackOk.loops_step (h : StackOk s (f :: fs)) (hs : s.Tree) (ht : s.Tidy)
    (hev : ∀ t ∈ ev.target, t < s.n) (hown : ∀ t, Owns (f :: fs) t → t < s.n)
    (hm : Move s f fs ev fs') (hclean : ev.Clean s) (t i : Nat)
    (hmem : Frame.subtasks t i ∈ fs') : LoopOk (s.apply ev) t i := by
  have hlt : ∀ t i, Frame.subtasks t i ∈ f :: fs → t < s.n := fun t i hti => hown t ⟨_, hti, rfl⟩
  have hold : ∀ t i, Frame.subtasks t i ∈ f :: fs → LoopOk (s.apply ev) t i := fun t i hti =>
    (h.loops t i hti).apply hs (hlt t i hti) hev hclean
  have hzero : ∀ t, LoopOk (s.apply ev) t 0 := fun t => ⟨Nat.zero_le _, by simp⟩
  have hpop : Frame.subtasks t i ∈ fs → LoopOk (s.apply ev) t i := fun hti =>
    hold t i (List.mem_cons_of_mem _ hti)
  cases hm with
  | crash => cases hmem
  | exit | loopEnd => exact hpop hmem
  | fatal | nonFatal => exact hclean.elim
  | returned =>
    simp only [tail, List.mem_cons, Frame.subtasks.injEq, reduceCtorEq, false_or] at hmem
    rcases hmem with ⟨rfl, rfl⟩ | hmem
    · exact hzero _
    · exact hpop hmem
  | reachSize =>
    simp only [List.mem_cons, Frame.subtasks.injEq, reduceCtorEq, false_or] at hmem
    rcases hmem with ⟨rfl, rfl⟩ | hmem
    · exact hzero _
    · exact hpop hmem
  | launch hi hcs =>
    simp only [List.mem_cons, Frame.subtasks.injEq, reduceCtorEq, false_or] at hmem
    rcases hmem with ⟨rfl, rfl⟩ | hmem
    · rename_i i c
      have hl := hold t _ (List.mem_cons_self ..)
      obtain ⟨l, hsub⟩ := Store.apply_subtasks hs hev (hlt t _ (List.mem_cons_self ..))
      refine hl.next (c := c) ?_ ?_
      · rw [hsub, List.getElem?_append_left (List.getElem?_eq_some_iff.1 hi).1]; exact hi
      · rw [Store.apply_status hs hev]
        simp [Ev.sets]
    · exact hpop hmem
  | skip hi hcs =>
    simp only [List.mem_cons, Frame.subtasks.injEq] at hmem
    rcases hmem with ⟨rfl, rfl⟩ | hmem
    · exact (h.loops t _ (List.mem_cons_self ..)).next hi
        (ht.of_refused hs (List.mem_of_getElem? hi)
          (h.owner t (carries_cons.2 (.inl rfl))) hcs)
    · exact hpop hmem
  | finish =>
    refine hpop ?_
    unfold resumeProgress at hmem
    split at hmem
    · simp only [List.mem_cons, reduceCtorEq, false_or] at hmem
      exact List.mem_cons_of_mem _ hmem
    · exact hmem
  | result =>
    refine hpop ?_
    unfold resumeCall at hmem
    split at hmem
    · simp only [List.mem_cons, reduceCtorEq, false_or] at hmem
      exact List.mem_cons_of_mem _ hmem
    · exact hmem
  | _ =>
    simp only [List.mem_cons, reduceCtorEq, false_or] at hmem
    exact hpop hmem

theorem StackOk.owner_step (h : StackOk s (f :: fs)) (hs : s.Tree)
    (hev : ∀ t ∈ ev.target, t < s.n) (hm : Move s f fs ev fs') (hc : CarefulTop s (f :: fs))
    (hclean : ev.Clean s) (t : Nat) (ht : Owns fs' t) :
    ((s.apply ev).task t).status ≠ .inactive := by
  rcases hm.owns ht with hold | rfl | ⟨own, c, sz, k, rfl, rfl, hge⟩
  · exact Store.clean_started hs hev hclean (h.owner t hold)
  · rw [Store.apply_status hs hev]
    simp [Ev.sets]
  · exact Store.clean_started hs hev hclean (hc hge)

theorem StackOk.active_step (h : StackOk s (f :: fs)) (hs : s.Tree)
    (hev : ∀ t ∈ ev.target, t < s.n) (hm : Move s f fs ev fs') (hc : CarefulTop s (f :: fs))
    (hclean : ev.Clean s) (t : Nat) (ht : ((s.apply ev).task t).status = .active) :
    t ∈ calls fs' := by
  have hold : (s.task t).status = .active ∨ ev = .start t := by
    rcases Store.clean_status hs hev hclean t with h' | ⟨h', -⟩ | ⟨-, -, h'⟩
    · exact .inl (h'.symm.trans ht)
    · exact .inr h'
    · rw [h'] at ht; cases ht
  rcases hm.calls hc.not_raise with ⟨u, rfl, hcalls⟩ | ⟨u, rfl, hcalls⟩ | ⟨hns, hcalls⟩
  · rw [hcalls]
    rcases hold with hold | hold
    · exact List.mem_cons_of_mem _ (h.active t hold)
    · cases hold; exact List.mem_cons_self ..
  · -- the call that returns is COMPLETED
    rcases hold with hold | rfl
    · have hmem := h.active t hold
      rw [hcalls] at hmem
      rcases List.mem_cons.1 hmem with rfl | hmem
      · have htop : (s.task t).status = .completed := h.top
        rw [hold] at htop; cases htop
      · exact hmem
    · cases hm
  · rw [hcalls]
    rcases hold with hold | hold
    · exact h.active t hold
    · exact absurd hold (hns t)

theorem StackOk.calls_step (h : StackOk s (f :: fs)) (hs : s.Tree)
    (hev : ∀ t ∈ ev.target, t < s.n) (hown : ∀ t, Owns (f :: fs) t → t < s.n)
    (hm : Move s f fs ev fs') (hc : CarefulTop s (f :: fs)) :
    (calls fs').Nodup ∧ ParentsBelow (s.apply ev) (calls fs') := by
  have hkeep : ∀ c ∈ calls (f :: fs), ((s.apply ev).task c).parent = (s.task c).parent :=
    fun c hcm => Store.apply_parent hs hev (hown c (calls_owned hcm))
  rcases hm.calls hc.not_raise with ⟨u, rfl, hcalls⟩ | ⟨u, rfl, hcalls⟩ | ⟨-, hcalls⟩
  · obtain ⟨hin, hp⟩ := (s.canStart_iff u).1 hm.of_start
    rw [hcalls]
    refine ⟨List.nodup_cons.2 ⟨fun hu => h.owner u (calls_owned hu) hin, h.nodup⟩, fun p hup => ?_,
      h.below.congr hkeep⟩
    rw [Store.apply_parent hs hev (hev u rfl)] at hup
    have hact := hp p hup
    rw [hs.isActive_eq] at hact
    exact h.active p (by simp only [Bool.and_eq_true, beq_iff_eq] at hact; exact hact.1)
  · have hnd := h.nodup
    have hpb := h.below.congr hkeep
    rw [hcalls] at hnd hpb
    exact ⟨(List.nodup_cons.1 hnd).2, hpb.2⟩
  · rw [hcalls]
    exact ⟨h.nodup, h.below.congr hkeep⟩

/-- The root finishes last: no function is running then, and none starts. -/
theorem StackOk.root_step (h : StackOk s (f :: fs)) (hs : s.Tree) (ht : s.Tidy)
    (hev : ∀ t ∈ ev.target, t < s.n) (hown : ∀ t, Owns (f :: fs) t → t < s.n)
    (hm : Move s f fs ev fs') (hc : CarefulTop s (f :: fs)) (hclean : ev.Clean s)
    (hroot : ((s.apply ev).task 0).status = .completed) : bodies fs' = [] := by
  rcases Store.clean_status hs hev hclean 0 with hsame | ⟨-, -, h'⟩ | ⟨rfl, -, -⟩
  · have hnil := h.root (hsame.symm.trans hroot)
    rcases hm.bodies hc.not_raise with ⟨u, rfl, -⟩ | ⟨u, v, -, hb⟩ | ⟨-, -, hb⟩
    · -- nothing starts under a COMPLETED root
      exfalso
      obtain ⟨hin, hp⟩ := (s.canStart_iff u).1 hm.of_start
      have hclosed : Closed s.tasks u :=
        hs.induct (P := fun u => Closed s.tasks u) ⟨0, hsame.symm.trans hroot, .inl rfl⟩
          (fun _ _ hp hcl => closed_up hp hcl) (hev u rfl)
      exact ht.closed u hclosed hin
    · rw [hnil] at hb; cases hb
    · rw [hb, hnil]
  · rw [h'] at hroot; cases hroot
  · cases hm with
    | finishOf => exact absurd rfl hc.1
    | finish =>
      rcases h.nested.1 with ⟨own, k, gs, rfl⟩ | ⟨gs, rfl⟩
      · exact absurd rfl hc.1
      · have hnd : (0 :: calls gs).Nodup := h.nodup
        have hpb : ParentsBelow s (0 :: calls gs) := h.below
        rw [show resumeProgress (.result 0 :: gs) = .result 0 :: gs from rfl]
        refine List.eq_nil_iff_forall_not_mem.2 fun u hu => ?_
        have hug : u ∈ calls gs := bodies_calls hu
        refine (List.nodup_cons.1 hnd).1 (hpb.2.root hs hug (hown u ?_))
        exact calls_owned (List.mem_cons_of_mem 0 hug : u ∈ calls (.finish 0 :: .result 0 :: gs))

theorem StackOk.step (h : StackOk s (f :: fs)) (hs : s.Tree) (ht : s.Tidy)
    (hev : ∀ t ∈ ev.target, t < s.n) (hown : ∀ t, Owns (f :: fs) t → t < s.n)
    (hm : Move s f fs ev fs') (hc : CarefulTop s (f :: fs)) : StackOk (s.apply ev) fs' where
  nested := hm.nested h.nested
  top := h.top_step hs hev hm (h.clean hs ht hm hc)
  loops := h.loops_step hs ht hev hown hm (h.clean hs ht hm hc)
  owner := h.owner_step hs hev hm hc (h.clean hs ht hm hc)
  active := h.active_step hs hev hm hc (h.clean hs ht hm hc)
  nodup := (h.calls_step hs hev hown hm hc).1
  below := (h.calls_step hs hev hown hm hc).2
  root := h.root_step hs ht hev hown hm hc (h.clean hs ht hm hc)

end

/-! ## Counting executions -/

def Ev.started : Ev W V E → Option Nat
  | .start t => some t
  | _ => none

def Ev.ended : Ev W V E → Option Nat
  | .returned t _ => some t
  | _ => none

/-- The tasks whose function was entered, in order. -/
def starts (ls : List (Nat × Ev W V E)) : List Nat := ls.filterMap fun l => l.2.started

/-- The tasks whose function returned, in order. -/
def returns (ls : List (Nat × Ev W V E)) : List Nat := ls.filterMap fun l => l.2.ended

theorem starts_concat (ls : List (Nat × Ev W V E)) (i : Nat) (ev : Ev W V E) :
    starts (ls ++ [(i, ev)]) = starts ls ++ ev.started.toList := by
  unfold starts
  rw [List.filterMap_append]
  cases ev <;> rfl

theorem returns_concat (ls : List (Nat × Ev W V E)) (i : Nat) (ev : Ev W V E) :
    returns (ls ++ [(i, ev)]) = returns ls ++ ev.ended.toList := by
  unfold returns
  rw [List.filterMap_append]
  cases ev <;> rfl

structure Once (ls : List (Nat × Ev W V E)) (s : Sys W V E) (stk : List (Frame W V E)) : Prop where
  wf : s.WF
  threads : s.threads = [stk]
  tidy : s.store.Tidy
  stack : StackOk s.store stk
  entered : ∀ t, (starts ls).count t = if (s.store.task t).status = .inactive then 0 else 1
  left : ∀ t, (starts ls).count t = (returns ls).count t + (bodies stk).count t

theorem Once.step {ls : List (Nat × Ev W V E)} {s s' : Sys W V E} {stk : List (Frame W V E)}
    {i : Nat} {ev : Ev W V E} (h : Once ls s stk) (hst : step s i = some (ev, s'))
    (hc : Careful s (i, ev)) : ∃ stk', Once (ls ++ [(i, ev)]) s' stk' := by
  have hev := h.wf.target_lt hst
  have hw' := h.wf.step hst
  obtain ⟨f, fs, fs', rfl, rfl, hm, rfl⟩ := step_single hst h.threads
  have hth : s.threads[0]? = some (f :: fs) := by rw [h.threads]; rfl
  have hct : CarefulTop s.store (f :: fs) := hc _ hth
  have hown : ∀ t, Owns (f :: fs) t → t < s.store.n :=
    h.wf.owner _ (by rw [h.threads]; exact List.mem_cons_self ..)
  have hclean := h.stack.clean h.wf.tree h.tidy hm hct
  have hstarts := starts_concat ls 0 ev
  have hreturns := returns_concat ls 0 ev
  refine ⟨fs', hw', rfl, Store.tidy_apply h.tidy h.wf.tree hev hclean,
    h.stack.step h.wf.tree h.tidy hev hown hm hct, fun t => ?_, fun t => ?_⟩
  · rw [hstarts, List.count_append, h.entered]
    rcases Store.clean_status h.wf.tree hev hclean t with hsame | ⟨rfl, hin, hact⟩ | ⟨rfl, hne, hcom⟩
    · have hns : ev.started ≠ some t := by
        intro he
        cases ev with
        | start u =>
          cases he
          rw [Store.apply_status h.wf.tree hev] at hsame
          simp only [Ev.sets, if_true, Option.getD_some] at hsame
          rw [((s.store.canStart_iff t).1 hm.of_start).1] at hsame
          cases hsame
        | _ => cases he
      have hcount : ev.started.toList.count t = 0 := by
        cases hst : ev.started with
        | none => rfl
        | some u =>
          rw [hst] at hns
          simp only [Option.toList_some, List.count_singleton, beq_iff_eq]
          exact if_neg fun hut => hns (by rw [hut])
      rw [hcount, hsame]; rfl
    · rw [hin, hact]; simp [Ev.started]
    · rw [hcom]; simp [Ev.started, hne]
  · rw [hstarts, hreturns, List.count_append, List.count_append, h.left]
    rcases hm.bodies hct.not_raise with ⟨u, rfl, hb⟩ | ⟨u, v, rfl, hb⟩ | ⟨hns, hnr, hb⟩
    · rw [hb]
      simp only [Ev.started, Ev.ended, Option.toList_some, Option.toList_none, List.count_nil,
        List.count_cons]
      omega
    · rw [hb]
      simp only [Ev.started, Ev.ended, Option.toList_some, Option.toList_none, List.count_nil,
        List.count_cons]
      omega
    · have h₁ : ev.started = none := by
        cases ev with
        | start u => exact absurd rfl (hns u)
        | _ => rfl
      have h₂ : ev.ended = none := by
        cases ev with
        | returned u v => exact absurd rfl (hnr u v)
        | _ => rfl
      rw [hb, h₁, h₂]
      simp

theorem once_init (threaded : Bool) (w : W) (tasks : List (NewTask W V E)) :
    Once [] (initSys threaded w tasks []) [.body none (.call 0 fun _ => .ret none)] := by
  have hw := wf_init threaded w tasks ([] : List (Script W V E))
  have hin : ∀ t, ((initSys threaded w tasks []).store.task t).status = .inactive := by
    intro t; exact init_inactive threaded w tasks [] t
  refine ⟨hw, rfl, tidy_init threaded w tasks [], ?_, fun t => by rw [hin]; rfl, fun t => rfl⟩
  refine ⟨⟨rfl, trivial⟩, trivial, ?_, ?_, ?_, List.nodup_nil, trivial, fun _ => rfl⟩
  · intro t i h; cases List.mem_singleton.1 h
  · intro t ⟨f, hf, ho⟩; cases List.mem_singleton.1 hf; cases ho
  · intro t h; rw [hin] at h; cases h

/-- **Exactly one execution.** In a careful run of the worker alone, when the
root is COMPLETED, every task of the tree has started exactly once and its
function has returned exactly once. -/
theorem executed_once {threaded : Bool} {w : W} {tasks : List (NewTask W V E)} {s : Sys W V E}
    {ls : List (Nat × Ev W V E)}
    (hr : ((taskList threaded).restrict Careful).Run (initSys threaded w tasks []) ls s)
    (hroot : (s.store.task 0).status = .completed) {t : Nat} (ht : t < s.store.n) :
    (starts ls).count t = 1 ∧ (returns ls).count t = 1 := by
  have hstep : ∀ (ls : List (Nat × Ev W V E)) (s₁ : Sys W V E) (l : Nat × Ev W V E)
      (s₂ : Sys W V E), (∃ stk, Once ls s₁ stk) →
      ((taskList threaded).restrict Careful).step s₁ l s₂ →
      ∃ stk, Once (ls ++ [l]) s₂ stk := by
    intro ls s₁ l s₂ ⟨stk, h⟩ hst
    exact h.step hst.1 hst.2
  obtain ⟨stk, h⟩ : ∃ stk, Once ([] ++ ls) s stk :=
    LTS.history_of_step hstep hr ⟨_, once_init threaded w tasks⟩
  rw [List.nil_append] at h
  have hclosed : Closed s.store.tasks t :=
    h.wf.tree.induct (P := fun u => Closed s.store.tasks u) ⟨0, hroot, .inl rfl⟩
      (fun _ _ hp hcl => closed_up hp hcl) ht
  have hone : (starts ls).count t = 1 := by
    rw [h.entered, if_neg (h.tidy.closed t hclosed)]
  have hret := h.left t
  rw [h.stack.root hroot, hone] at hret
  exact ⟨hone, by simpa using hret.symm⟩

theorem careful_of_top {s : Sys W V E} {i : Nat} {ev : Ev W V E} {stk : List (Frame W V E)}
    (hth : s.threads[i]? = some stk) (hc : CarefulTop s.store stk) : Careful s (i, ev) := by
  intro stk' hth'
  cases hth.symm.trans hth'
  exact hc

theorem not_closed {ts : List (Task W V E)} {p : Nat} (h : ∀ t ∈ ts, t.status ≠ .completed) :
    ¬ Closed ts p := by
  intro hclosed
  obtain ⟨t, hcompleted, -⟩ := hclosed
  by_cases ht : t < ts.length
  · rw [List.getD_eq_getElem _ _ ht] at hcompleted
    exact h _ (List.getElem_mem ht) hcompleted
  · rw [List.getD_eq_default _ _ (Nat.le_of_not_lt ht)] at hcompleted
    exact nomatch hcompleted

/-- A task that adds a subtask, and one that reports all its progress. -/
def progressList : Sys Unit Unit Nat :=
  initSys true () [
    .mk true (.int 1) (.int 1)
      (fun t => .addSubtask t (.mk true (.int 1) (.int 1) (fun _ => .ret none) []) fun _ => .ret none) [],
    .mk true (.int 1) (.int 1) (fun t => .setProgress t (.int 1) none fun _ => .ret none) []] []

theorem executed_once_progress : (exec (.replicate 25 0) progressList).2.store.n = 4 ∧
    ∀ t < 4, (starts (exec (.replicate 25 0) progressList).1).count t = 1 ∧
      (returns (exec (.replicate 25 0) progressList).1).count t = 1 := by
  have hmeets : Meets Careful (.replicate 25 0) progressList := by
    repeat' refine And.intro (careful_of_top rfl ?_) ?_
    all_goals try trivial
    · exact not_closed (by decide)
    · exact fun _ => by decide
    · exact ⟨by decide, .inl rfl⟩
  exact ⟨rfl, fun t ht => executed_once (exec_restrict hmeets) rfl ht⟩

/-- A task that adds a subtask after it has reported all its progress. -/
def lateList : Sys Unit Unit Nat :=
  initSys true () [.mk true (.int 1) (.int 1)
    (fun t => .setProgress t (.int 1) none fun _ =>
      .addSubtask t (.mk true (.int 1) (.int 1) (fun _ => .ret none) []) fun _ => .ret none) []] []

/-- The root is COMPLETED at the end of the run, and task 2 never ran. -/
theorem late_subtask_skipped : (exec (.replicate 20 0) lateList).2.threads = [[]] ∧
    ((exec (.replicate 20 0) lateList).2.store.task 0).status = .completed ∧
    (exec (.replicate 20 0) lateList).2.store.n = 3 ∧
    (starts (exec (.replicate 20 0) lateList).1).count 2 = 0 :=
  ⟨rfl, rfl, rfl, by decide⟩

end Wubi.Tasks
