import Wubi.Tasks.Step

/-!
# Tasks below a COMPLETED task

A COMPLETED task is not active, so no task below it can start any more. A
task that is COMPLETED, or below one that is, is `Closed`. A store is `Tidy`
when every closed task has been started: nothing was closed too early.

`Ev.Clean` says which events keep a store tidy (`tidy_apply`): a start that
passed the guard, a `finish()` of a started task below which every task has
been started, a new subtask of a task that is not closed.
-/
namespace Wubi.Tasks

variable {W V E : Type}

/-- `u` is below `t`. -/
inductive Below (ts : List (Task W V E)) (t : Nat) : Nat → Prop
  | child {u} : (ts.getD u default).parent = some t → Below ts t u
  | step {u p} : (ts.getD u default).parent = some p → Below ts t p → Below ts t u

def Closed (ts : List (Task W V E)) (u : Nat) : Prop :=
  ∃ t, (ts.getD t default).status = .completed ∧ (u = t ∨ Below ts t u)

section
variable {ts ts' : List (Task W V E)} {t u p : Nat}

theorem below_congr (h : ∀ u, (ts'.getD u default).parent = (ts.getD u default).parent)
    (hb : Below ts' t u) : Below ts t u := by
  induction hb with
  | child hp => exact .child (by rw [← h]; exact hp)
  | step hp _ ih => exact .step (by rw [← h]; exact hp) ih

/-- What is below `t` is one of its subtasks or below one. -/
theorem below_cases (h : Below ts t u) :
    ∃ c, (ts.getD c default).parent = some t ∧ (u = c ∨ Below ts c u) := by
  induction h with
  | child hp => exact ⟨_, hp, .inl rfl⟩
  | step hp _ ih =>
    obtain ⟨c, hc, rfl | hb⟩ := ih
    · exact ⟨_, hc, .inr (.child hp)⟩
    · exact ⟨c, hc, .inr (.step hp hb)⟩

theorem closed_up (hp : (ts.getD u default).parent = some p) (h : Closed ts p) : Closed ts u := by
  obtain ⟨t, ht, rfl | hb⟩ := h
  · exact ⟨p, ht, .inr (.child hp)⟩
  · exact ⟨t, ht, .inr (.step hp hb)⟩

theorem closed_below (h : Closed ts t) (hb : Below ts t u) : Closed ts u := by
  induction hb with
  | child hp => exact closed_up hp h
  | step hp _ ih => exact closed_up hp ih

/-- A task that does not exist is not closed. -/
theorem Closed.lt (hs : IsTree ts) (h : Closed ts u) : u < ts.length := by
  obtain ⟨t, ht, rfl | hb⟩ := h
  · rcases Nat.lt_or_ge u ts.length with hu | hu
    · exact hu
    · rw [List.getD_eq_default _ _ hu] at ht; cases ht
  · cases hb with
    | child hp => exact (hs.parent_lt' hp).2
    | step hp _ => exact (hs.parent_lt' hp).2

/-- After one creation: an old task is closed only if it was, and the new one
only if its parent was. -/
theorem closed_push (hs : IsTree ts) (hp : p < ts.length) (r : Bool) (sz w : Num)
    (fn : Nat → Script W V E)
    (h : Closed (link (ts ++ [Task.init (some p) r sz w fn]) p ts.length) u) :
    Closed ts u ∨ u = ts.length ∧ Closed ts p := by
  have hpar := parent_push ts hp r sz w fn
  have hsta : ∀ u, ((link (ts ++ [Task.init (some p) r sz w fn]) p ts.length).getD u
      default).status = (ts.getD u default).status := by
    intro u; rw [getD_push _ _ _ _ hp]
    split
    · rename_i hu; rw [List.getD_eq_default _ _ (by omega)]; rfl
    · split <;> rfl
  have hold : ∀ {t u}, Below (link (ts ++ [Task.init (some p) r sz w fn]) p ts.length) t u →
      u ≠ ts.length → Below ts t u := by
    intro t u hb
    induction hb with
    | child hq =>
      intro hu; rw [hpar, if_neg hu] at hq; exact .child hq
    | step hq _ ih =>
      intro hu
      rw [hpar, if_neg hu] at hq
      have := hs.parent_lt' hq
      exact .step hq (ih (by omega))
  obtain ⟨t, ht, hb⟩ := h
  rw [hsta] at ht
  by_cases hu : u = ts.length
  · right
    refine ⟨hu, t, ht, ?_⟩
    rcases hb with h' | hb
    · rw [← h', hu, List.getD_eq_default _ _ (Nat.le_refl _)] at ht; cases ht
    · cases hb with
      | child hq =>
        rw [hpar, if_pos hu] at hq; cases hq; exact .inl rfl
      | step hq hb =>
        rw [hpar, if_pos hu] at hq; cases hq; exact .inr (hold hb (by omega))
  · left
    refine ⟨t, ht, hb.imp_right fun hb => hold hb hu⟩

/-- New subtasks of a task that is not closed close nothing. -/
theorem closed_closed : AllocClosed (fun _ _ _ _ => True)
    (fun ts p => IsTree ts ∧ ¬ Closed ts p) fun ts ts' : List (Task W V E) =>
      IsTree ts → IsTree ts' ∧ ∀ u, Closed ts' u → Closed ts u where
  refl _ h := ⟨h, fun _ hu => hu⟩
  trans _ _ _ h k hs := ⟨(k (h hs).1).1, fun u hu => (h hs).2 u ((k (h hs).1).2 u hu)⟩
  keep _ _ p _ h hG := ⟨(h hG.1).1, fun hc => hG.2 ((h hG.1).2 p hc)⟩
  push ts p r sz w fn hp hG _ := by
    have htree := isTree_push ts p r sz w fn hp hG.1
    have hpush : ∀ u, Closed (link (ts ++ [Task.init (some p) r sz w fn]) p ts.length) u →
        Closed ts u := by
      intro u hu
      rcases closed_push hG.1 hp r sz w fn hu with h | ⟨-, h⟩
      · exact h
      · exact absurd h hG.2
    exact ⟨fun _ => ⟨htree, hpush⟩, htree, fun hc => absurd ((hpush _ hc).lt hG.1) (Nat.lt_irrefl _)⟩

end

/-! ## Tidy stores -/

namespace Store

structure Tidy (s : Store W V E) : Prop where
  status : ∀ t, (s.task t).status = .inactive ∨ (s.task t).status = .active ∨
    (s.task t).status = .completed
  parent : ∀ t p, (s.task t).parent = some p → (s.task t).status ≠ .inactive →
    (s.task p).status ≠ .inactive
  closed : ∀ t, Closed s.tasks t → (s.task t).status ≠ .inactive

variable {s : Store W V E}

/-- A started task that is not active any more is closed. -/
theorem Tidy.closed_of_not_active (h : s.Tidy) (hs : s.Tree) {t : Nat} (ht : t < s.n)
    (hst : (s.task t).status ≠ .inactive) (hna : s.isActive (t + 1) t = false) :
    Closed s.tasks t := by
  revert hst hna
  refine hs.induct (P := fun t => (s.task t).status ≠ .inactive →
    s.isActive (t + 1) t = false → Closed s.tasks t) ?_ ?_ ht
  · intro hst hna
    rw [hs.isActive_eq, hs.root] at hna
    rcases h.status 0 with h' | h' | h'
    · exact absurd h' hst
    · rw [h'] at hna; cases hna
    · exact ⟨0, h', .inl rfl⟩
  · intro t p hp ih hst hna
    rcases h.status t with h' | h' | h'
    · exact absurd h' hst
    · rw [hs.isActive_eq, hp, h'] at hna
      exact closed_up hp (ih (h.parent t p hp hst) (by simpa using hna))
    · exact ⟨t, h', .inl rfl⟩

/-- The loop over a started task's subtasks skips none that was not started. -/
theorem Tidy.of_refused (h : s.Tidy) (hs : s.Tree) {t c : Nat} (hc : c ∈ (s.task t).subtasks)
    (hst : (s.task t).status ≠ .inactive) (hno : s.canStart c = false) :
    (s.task c).status ≠ .inactive := by
  obtain ⟨ht, -, hp⟩ := hs.mem_subtasks hc
  intro hin
  cases hact : s.isActive (t + 1) t with
  | true =>
    have : s.canStart c = true := (s.canStart_iff c).2 ⟨hin, fun p hp' => by
      rw [hp] at hp'; cases hp'; exact hact⟩
    rw [hno] at this; cases this
  | false => exact h.closed c (closed_up hp (h.closed_of_not_active hs ht hst hact)) hin

end Store

/-- The events that keep a store tidy. -/
def Ev.Clean (s : Store W V E) : Ev W V E → Prop
  | .start t => s.canStart t = true
  | .finish t => (s.task t).status ≠ .inactive ∧
      ∀ u, Below s.tasks t u → (s.task u).status ≠ .inactive
  | .add p _ => ¬ Closed s.tasks p
  | .raised _ _ | .cancel _ => False
  | _ => True

namespace Store

variable {s : Store W V E} {ev : Ev W V E}

/-- A clean event changes the status of the task that starts, to ACTIVE, and
of the task that finishes, to COMPLETED. -/
theorem clean_status (hs : s.Tree) (hev : ∀ t ∈ ev.target, t < s.n) (hc : ev.Clean s) (u : Nat) :
    ((s.apply ev).task u).status = (s.task u).status ∨
      (ev = .start u ∧ (s.task u).status = .inactive ∧
        ((s.apply ev).task u).status = .active) ∨
      (ev = .finish u ∧ (s.task u).status ≠ .inactive ∧
        ((s.apply ev).task u).status = .completed) := by
  rw [apply_status hs hev]
  cases he : ev.sets s u with
  | none => exact .inl rfl
  | some x =>
    rcases Ev.sets_eq he with ⟨rfl, rfl⟩ | ⟨rfl, rfl⟩ | ⟨rfl, -⟩ | ⟨_, _, rfl, -⟩
    · exact .inr (.inl ⟨rfl, ((s.canStart_iff u).1 hc).1, rfl⟩)
    · exact .inr (.inr ⟨rfl, hc.1, rfl⟩)
    · exact hc.elim
    · exact hc.elim

theorem clean_started (hs : s.Tree) (hev : ∀ t ∈ ev.target, t < s.n) (hc : ev.Clean s) {u : Nat}
    (hu : (s.task u).status ≠ .inactive) : ((s.apply ev).task u).status ≠ .inactive := by
  rcases clean_status hs hev hc u with h | ⟨-, -, h⟩ | ⟨-, -, h⟩ <;> rw [h]
  · exact hu
  · decide
  · decide

theorem apply_parent_eq (hs : s.Tree) (hev : ∀ t ∈ ev.target, t < s.n) {u p : Nat}
    (hu : (s.task u).status ≠ .inactive) :
    ((s.apply ev).task u).parent = some p ↔ (s.task u).parent = some p := by
  have hlt : u < s.n := by
    rcases Nat.lt_or_ge u s.n with h | h
    · exact h
    · rw [s.task_default u h] at hu; exact absurd rfl hu
  rw [apply_parent hs hev hlt]

/-- A clean event closes only what it finishes and what is below. -/
theorem clean_closed (hs : s.Tree) (hev : ∀ t ∈ ev.target, t < s.n) (hc : ev.Clean s) {u : Nat}
    (hu : Closed (s.apply ev).tasks u) :
    Closed s.tasks u ∨ ∃ t, ev = .finish t ∧ (u = t ∨ Below s.tasks t u) := by
  by_cases hadd : ∃ p new, ev = .add p new
  · obtain ⟨p, new, rfl⟩ := hadd
    exact .inl (((alloc_rule closed_closed new s.tasks p new.forall_true (hev p rfl)
      ⟨hs, hc⟩).1 hs).2 u hu)
  · obtain ⟨-, hsh⟩ := apply_shape hs hev fun p new he => hadd ⟨p, new, he⟩
    obtain ⟨t, ht, hb⟩ := hu
    have hb' : u = t ∨ Below s.tasks t u :=
      hb.imp_right (below_congr fun v => congrArg Prod.fst (hsh v))
    rcases clean_status hs hev hc t with h | ⟨-, -, h⟩ | ⟨h, -, -⟩
    · exact .inl ⟨t, h.symm.trans ht, hb'⟩
    · exact absurd (h.symm.trans ht) (by decide)
    · exact .inr ⟨t, h, hb'⟩

theorem tidy_apply (h : s.Tidy) (hs : s.Tree) (hev : ∀ t ∈ ev.target, t < s.n)
    (hc : ev.Clean s) : (s.apply ev).Tidy where
  status u := by
    rcases clean_status hs hev hc u with h' | ⟨-, -, h'⟩ | ⟨-, -, h'⟩ <;> rw [h']
    · exact h.status u
    · exact .inr (.inl rfl)
    · exact .inr (.inr rfl)
  parent u p hp hu := by
    by_cases hin : (s.task u).status = .inactive
    · rcases clean_status hs hev hc u with h' | ⟨rfl, -, -⟩ | ⟨-, h', -⟩
      · exact absurd (h'.trans hin) hu
      · -- the task starts: its parent is active
        rw [apply_parent hs hev (hev u rfl)] at hp
        have hact := ((s.canStart_iff u).1 hc).2 p hp
        rw [hs.isActive_eq] at hact
        refine clean_started hs hev hc fun hpi => ?_
        rw [hpi] at hact; cases hact
      · exact absurd hin h'
    · rw [apply_parent_eq hs hev hin] at hp
      exact clean_started hs hev hc (h.parent u p hp hin)
  closed u hu := by
    refine clean_started hs hev hc ?_
    rcases clean_closed hs hev hc hu with hcl | ⟨t, rfl, rfl | hb⟩
    · exact h.closed u hcl
    · exact hc.1
    · exact hc.2 u hb

end Store

theorem init_inactive (threaded : Bool) (w : W) (tasks : List (NewTask W V E))
    (others : List (Script W V E)) (t : Nat) :
    ((initSys threaded w tasks others).store.task t).status = .inactive := by
  have hR : AllocClosed (fun _ _ _ _ => True) (fun _ _ => True)
      fun ts ts' : List (Task W V E) => (ts.getD t default).status = .inactive →
        (ts'.getD t default).status = .inactive := by
    refine ⟨fun _ h => h, fun _ _ _ h k hi => k (h hi), fun _ _ _ _ _ _ => trivial, ?_⟩
    intro ts p r sz w fn hp _ _
    refine ⟨fun hi => ?_, trivial⟩
    rw [getD_push _ _ _ _ hp]
    split
    · rfl
    · split <;> exact hi
  refine (allocAll_rule hR tasks [rootTask] 0 (NewTask.forallAll_true tasks) Nat.one_pos
    trivial).1 ?_
  cases t <;> rfl

theorem tidy_init (threaded : Bool) (w : W) (tasks : List (NewTask W V E))
    (others : List (Script W V E)) : (initSys threaded w tasks others).store.Tidy := by
  have hin := init_inactive threaded w tasks others
  refine ⟨fun t => .inl (hin t), fun t p _ h => absurd (hin t) h, fun t ⟨u, hu, _⟩ => ?_⟩
  have := (hin u).symm.trans hu
  cases this

end Wubi.Tasks
