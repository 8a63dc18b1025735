import Wubi.Tasks.Model
import Mathlib.Data.List.GetD

/-!
# The task tree

`Tree s`: the root is task 0, every other task's parent is an older task, and
a task's `subtasks` are exactly the tasks whose parent it is. Every event
keeps it (`apply_tree`): only `alloc` touches these fields (`apply_shape`).

On a tree the recursions to the root do not depend on the number of levels
they may climb (`Tree.levels`), so each is given by one equation about a task
and its parent (`isActive_eq`, `isCancelled_eq`, `getRoot_eq_zero`).

The last part says once what an event does to each field of each task
(`apply_status`, `apply_error`, `apply_stopped`); later proofs use these and
never unfold `apply`.
-/
namespace Wubi.Tasks

variable {W V E : Type}

/-! ## Updates of the store -/

theorem getD_modify {α : Type} (l : List α) (i j : Nat) (f : α → α) (d : α) :
    (l.modify i f).getD j d = if i = j ∧ j < l.length then f (l.getD j d) else l.getD j d := by
  simp only [List.getD_eq_getElem?_getD, List.getElem?_modify]
  by_cases hj : j < l.length
  · rw [List.getElem?_eq_getElem hj]
    by_cases hi : i = j <;> simp [hi, hj]
  · rw [List.getElem?_eq_none (by omega)]
    simp [hj]

theorem getD_concat {α : Type} (l : List α) (a d : α) (j : Nat) :
    (l ++ [a]).getD j d = if j = l.length then a else l.getD j d := by
  rcases Nat.lt_trichotomy j l.length with h | h | h
  · rw [List.getD_append _ _ _ _ h, if_neg (by omega)]
  · subst h; simp
  · rw [List.getD_eq_default _ _ (by simp; omega), List.getD_eq_default _ _ (by omega),
      if_neg (by omega)]

namespace Store

variable (s : Store W V E) (t u : Nat) (f : Task W V E → Task W V E)

theorem task_modify :
    (s.modify t f).task u = if t = u ∧ u < s.n then f (s.task u) else s.task u :=
  getD_modify _ _ _ _ _

/-- A field that `f` keeps is kept by `modify t f`, for every task. -/
theorem modify_keep {α : Type} (g : Task W V E → α) (h : ∀ τ, g (f τ) = g τ) :
    g ((s.modify t f).task u) = g (s.task u) := by
  rw [task_modify]; split
  · exact h _
  · rfl

@[simp] theorem n_modify : (s.modify t f).n = s.n := by simp [n, modify]

@[simp] theorem stopped_modify : (s.modify t f).stopped = s.stopped := rfl

@[simp] theorem threaded_modify : (s.modify t f).threaded = s.threaded := rfl

/-- A task that does not exist reads as the default task. -/
theorem task_default (h : s.n ≤ t) : s.task t = default := List.getD_eq_default _ _ h

end Store

/-! ## Creation -/

mutual

/-- Every task object of a new tree satisfies `P`. -/
def NewTask.Forall (P : Bool → Num → Num → (Nat → Script W V E) → Prop) : NewTask W V E → Prop
  | .mk r sz w fn subtasks => P r sz w fn ∧ NewTask.ForallAll P subtasks

def NewTask.ForallAll (P : Bool → Num → Num → (Nat → Script W V E) → Prop) :
    List (NewTask W V E) → Prop
  | [] => True
  | new :: news => new.Forall P ∧ NewTask.ForallAll P news

end

mutual

theorem NewTask.forall_true : ∀ new : NewTask W V E, new.Forall fun _ _ _ _ => True
  | .mk _ _ _ _ subtasks => ⟨trivial, NewTask.forallAll_true subtasks⟩

theorem NewTask.forallAll_true :
    ∀ news : List (NewTask W V E), NewTask.ForallAll (fun _ _ _ _ => True) news
  | [] => trivial
  | new :: news => ⟨new.forall_true, NewTask.forallAll_true news⟩

end

/-- `R` is a preorder that contains the creation of one task object below an
existing one that satisfies `G`; the new object satisfies `G` as well. -/
structure AllocClosed (P : Bool → Num → Num → (Nat → Script W V E) → Prop)
    (G : List (Task W V E) → Nat → Prop)
    (R : List (Task W V E) → List (Task W V E) → Prop) : Prop where
  refl : ∀ ts, R ts ts
  trans : ∀ a b c, R a b → R b c → R a c
  keep : ∀ ts ts' p, p < ts.length → R ts ts' → G ts p → G ts' p
  push : ∀ ts p r sz w fn, p < ts.length → G ts p → P r sz w fn →
    R ts (link (ts ++ [Task.init (some p) r sz w fn]) p ts.length) ∧
      G (link (ts ++ [Task.init (some p) r sz w fn]) p ts.length) ts.length

@[simp] theorem length_link (ts : List (Task W V E)) (p t : Nat) :
    (link ts p t).length = ts.length := by
  unfold link; simp

section
variable {P : Bool → Num → Num → (Nat → Script W V E) → Prop}
  {G : List (Task W V E) → Nat → Prop} {R : List (Task W V E) → List (Task W V E) → Prop}

mutual

/-- The induction rule for `alloc`. -/
theorem alloc_rule (hR : AllocClosed P G R) :
    ∀ (new : NewTask W V E) (ts : List (Task W V E)) (p : Nat), new.Forall P → p < ts.length →
      G ts p → R ts (alloc ts p new) ∧ ts.length < (alloc ts p new).length
  | .mk r sz w fn subtasks, ts, p, hP, hp, hG => by
    simp only [NewTask.Forall] at hP
    obtain ⟨hpush, hG'⟩ := hR.push ts p r sz w fn hp hG hP.1
    obtain ⟨h, hlen⟩ := allocAll_rule hR subtasks
      (link (ts ++ [Task.init (some p) r sz w fn]) p ts.length) ts.length hP.2 (by simp) hG'
    simp only [alloc]
    refine ⟨hR.trans _ _ _ hpush h, ?_⟩
    simp only [length_link, List.length_append, List.length_cons, List.length_nil] at hlen
    omega

theorem allocAll_rule (hR : AllocClosed P G R) :
    ∀ (news : List (NewTask W V E)) (ts : List (Task W V E)) (p : Nat),
      NewTask.ForallAll P news → p < ts.length → G ts p →
        R ts (allocAll ts p news) ∧ ts.length ≤ (allocAll ts p news).length
  | [], ts, p, _, _, _ => by simp only [allocAll]; exact ⟨hR.refl ts, Nat.le_refl _⟩
  | new :: news, ts, p, hP, hp, hG => by
    simp only [NewTask.ForallAll] at hP
    obtain ⟨h₁, hlt⟩ := alloc_rule hR new ts p hP.1 hp hG
    obtain ⟨h₂, hle⟩ := allocAll_rule hR news (alloc ts p new) p hP.2 (by omega)
      (hR.keep _ _ _ hp h₁ hG)
    simp only [allocAll]
    exact ⟨hR.trans _ _ _ h₁ h₂, by omega⟩

end

end

theorem getD_link (ts : List (Task W V E)) (p t u : Nat) :
    (link ts p t).getD u default =
      if p = u ∧ u < ts.length then
        { ts.getD u default with subtasks := (ts.getD u default).subtasks ++ [t] }
      else ts.getD u default :=
  getD_modify _ _ _ _ _

/-- One creation, read at task `u`. -/
theorem getD_push (ts : List (Task W V E)) (p u : Nat) (τ : Task W V E) (hp : p < ts.length) :
    (link (ts ++ [τ]) p ts.length).getD u default =
      if u = ts.length then τ
      else if u = p then
        { ts.getD u default with subtasks := (ts.getD u default).subtasks ++ [ts.length] }
      else ts.getD u default := by
  rw [getD_link, getD_concat]
  by_cases hu : u = ts.length
  · rw [if_pos hu, if_pos hu, if_neg (by omega)]
  · by_cases hpu : u = p
    · subst hpu; rw [if_pos ⟨rfl, by simp; omega⟩]; simp [hu]
    · rw [if_neg (fun h => hpu h.1.symm)]; simp [hu, hpu]

/-- A field that creation sets to its default and linking keeps has, for every
task, the value it had: a new task reads like one that does not exist. -/
theorem alloc_keep {α : Type} (g : Task W V E → α)
    (hnew : ∀ p r sz w fn, g (Task.init p r sz w fn) = g default)
    (hlink : ∀ (τ : Task W V E) l, g { τ with subtasks := l } = g τ) (ts : List (Task W V E))
    (p : Nat) (new : NewTask W V E) (hp : p < ts.length) (u : Nat) :
    g ((alloc ts p new).getD u default) = g (ts.getD u default) := by
  refine (alloc_rule (G := fun _ _ => True)
    (R := fun ts ts' => g (ts'.getD u default) = g (ts.getD u default))
    ⟨?_, ?_, ?_, ?_⟩ new ts p new.forall_true hp trivial).1
  · intro ts; rfl
  · intro a b c h k; exact k.trans h
  · intro _ _ _ _ _ _; trivial
  · intro ts p r sz w fn hp _ _
    refine ⟨?_, trivial⟩
    rw [getD_push _ _ _ _ hp]
    split
    · rename_i hu; rw [hnew, List.getD_eq_default _ _ (by omega)]
    · split
      · exact hlink _ _
      · rfl

/-- A field that linking keeps has, for every task that existed, the value it
had. -/
theorem closed_old {α : Type} (g : Task W V E → α)
    (hlink : ∀ (τ : Task W V E) l, g { τ with subtasks := l } = g τ) (u : Nat) :
    AllocClosed (fun _ _ _ _ => True) (fun _ _ => True) fun ts ts' : List (Task W V E) =>
      ts.length ≤ ts'.length ∧
        (u < ts.length → g (ts'.getD u default) = g (ts.getD u default)) where
  refl ts := ⟨Nat.le_refl _, fun _ => rfl⟩
  trans := by
    intro a b c ⟨hab, h⟩ ⟨hbc, k⟩
    exact ⟨Nat.le_trans hab hbc, fun hu => (k (by omega)).trans (h hu)⟩
  keep _ _ _ _ _ _ := trivial
  push ts p r sz w fn hp _ _ := by
    refine ⟨⟨by simp, fun hu => ?_⟩, trivial⟩
    rw [getD_push _ _ _ _ hp, if_neg (by omega)]
    split
    · exact hlink _ _
    · rfl

theorem alloc_old {α : Type} (g : Task W V E → α)
    (hlink : ∀ (τ : Task W V E) l, g { τ with subtasks := l } = g τ) (ts : List (Task W V E))
    (p : Nat) (new : NewTask W V E) (hp : p < ts.length) (u : Nat) (hu : u < ts.length) :
    g ((alloc ts p new).getD u default) = g (ts.getD u default) :=
  (alloc_rule (closed_old g hlink u) new ts p new.forall_true hp trivial).1.2 hu

theorem rootTask_keep {α : Type} (g : Task W V E → α)
    (hlink : ∀ (τ : Task W V E) l, g { τ with subtasks := l } = g τ)
    (tasks : List (NewTask W V E)) :
    g ((allocAll [rootTask] 0 tasks).getD 0 default) = g rootTask :=
  (allocAll_rule (closed_old g hlink 0) tasks [rootTask] 0 (NewTask.forallAll_true tasks)
    Nat.one_pos trivial).1.2 Nat.one_pos

/-- A property of task objects that creation gives and linking keeps: if all
objects have it, all have it after `alloc`. -/
theorem closed_all {P : Bool → Num → Num → (Nat → Script W V E) → Prop}
    {Q : Task W V E → Prop} (hnew : ∀ p r sz w fn, P r sz w fn → Q (Task.init p r sz w fn))
    (hlink : ∀ (τ : Task W V E) l, Q τ → Q { τ with subtasks := l }) :
    AllocClosed P (fun _ _ => True) fun ts ts' : List (Task W V E) =>
      (∀ u, Q (ts.getD u default)) → ∀ u, Q (ts'.getD u default) where
  refl _ h := h
  trans _ _ _ h k hq := k (h hq)
  keep _ _ _ _ _ _ := trivial
  push ts p r sz w fn hp _ hP := by
    refine ⟨fun hq u => ?_, trivial⟩
    rw [getD_push _ _ _ _ hp]
    split
    · exact hnew _ _ _ _ _ hP
    · split
      · exact hlink _ _ (hq u)
      · exact hq u

/-! ## The tree invariant -/

/-- `Tree` on the list of task objects. -/
structure IsTree (ts : List (Task W V E)) : Prop where
  root_lt : 0 < ts.length
  root : (ts.getD 0 default).parent = none
  parent_lt : ∀ t, 0 < t → t < ts.length → ∃ p, p < t ∧ (ts.getD t default).parent = some p
  child : ∀ p c, p < ts.length → (c ∈ (ts.getD p default).subtasks ↔
    c < ts.length ∧ (ts.getD c default).parent = some p)

theorem IsTree.parent_lt' {ts : List (Task W V E)} {u p : Nat} (h : IsTree ts)
    (hp : (ts.getD u default).parent = some p) :
    p < u ∧ u < ts.length := by
  rcases Nat.lt_or_ge u ts.length with hu | hu
  · rcases Nat.eq_zero_or_pos u with h0 | h0
    · subst h0; rw [h.root] at hp; cases hp
    · obtain ⟨q, hq, hq'⟩ := h.parent_lt u h0 hu
      have : some q = some p := hq'.symm.trans hp
      cases this
      exact ⟨hq, hu⟩
  · rw [List.getD_eq_default _ _ hu] at hp; cases hp

theorem isTree_root : IsTree [(rootTask : Task W V E)] where
  root_lt := Nat.one_pos
  root := rfl
  parent_lt t h₀ h := by simp at h; omega
  child p c hp := by
    have hp0 : p = 0 := by simpa using hp
    subst hp0
    constructor
    · intro h; cases h
    · intro hboth
      obtain ⟨hc, h⟩ := hboth
      have hc0 : c = 0 := by simpa using hc
      subst hc0; cases h

/-- The parent of an old task is as before, that of the new one is `p`. -/
theorem parent_push (ts : List (Task W V E)) {p : Nat} (hp : p < ts.length) (r : Bool) (sz w : Num)
    (fn : Nat → Script W V E) (u : Nat) :
    ((link (ts ++ [Task.init (some p) r sz w fn]) p ts.length).getD u default).parent =
      if u = ts.length then some p else (ts.getD u default).parent := by
  rw [getD_push _ _ _ _ hp]
  split
  · rfl
  · split <;> rfl

theorem isTree_push (ts : List (Task W V E)) (p : Nat) (r : Bool) (sz w : Num)
    (fn : Nat → Script W V E) (hp : p < ts.length) (h : IsTree ts) :
    IsTree (link (ts ++ [Task.init (some p) r sz w fn]) p ts.length) := by
  have hlt := h.root_lt
  have hpar := parent_push ts hp r sz w fn
  refine ⟨by simp, ?_, ?_, ?_⟩
  · rw [hpar, if_neg (by omega)]; exact h.root
  · intro t h₀ ht
    simp only [length_link, List.length_append, List.length_cons, List.length_nil] at ht
    rw [hpar]
    by_cases hu : t = ts.length
    · rw [if_pos hu]; exact ⟨p, by omega, rfl⟩
    · rw [if_neg hu]; exact h.parent_lt t h₀ (by omega)
  · intro q c hq
    simp only [length_link, List.length_append, List.length_cons, List.length_nil] at hq ⊢
    rw [hpar, getD_push _ _ _ _ hp]
    by_cases hqn : q = ts.length
    · -- the new task has no subtasks, and no task has it as its parent
      rw [if_pos hqn]
      constructor
      · intro hc; cases hc
      · intro hboth
        obtain ⟨hc, hcp⟩ := hboth
        exfalso
        split at hcp
        · simp only [Option.some.injEq] at hcp; omega
        · rcases Nat.eq_zero_or_pos c with h0 | h0
          · subst h0; rw [h.root] at hcp; cases hcp
          · obtain ⟨p', hp', hp''⟩ := h.parent_lt c h0 (by omega)
            rw [hp''] at hcp; simp only [Option.some.injEq] at hcp; omega
    · rw [if_neg hqn]
      have hold := h.child q c (by omega)
      have hsub : c ∈ (if q = p then ({ ts.getD q default with
            subtasks := (ts.getD q default).subtasks ++ [ts.length] } : Task W V E)
          else ts.getD q default).subtasks ↔
          c ∈ (ts.getD q default).subtasks ∨ (q = p ∧ c = ts.length) := by
        split <;> rename_i hqp
        · simp [hqp]
        · simp [hqp]
      rw [hsub, hold]
      by_cases hcn : c = ts.length
      · simp only [hcn, Nat.lt_irrefl, false_and, if_true, Option.some.injEq, false_or, and_true]
        exact ⟨fun e => ⟨by omega, e.symm⟩, fun e => e.2.symm⟩
      · simp only [hcn, and_false, or_false, if_false]
        exact ⟨fun e => ⟨by omega, e.2⟩, fun e => ⟨by omega, e.2⟩⟩

theorem isTree_closed :
    AllocClosed (fun _ _ _ _ => True) (fun _ _ => True)
      fun ts ts' : List (Task W V E) => IsTree ts → IsTree ts' where
  refl _ h := h
  trans _ _ _ h k hi := k (h hi)
  keep _ _ _ _ _ _ := trivial
  push ts p r sz w fn hp _ _ := ⟨isTree_push ts p r sz w fn hp, trivial⟩

/-! ## The recursions to the root -/

namespace Store

/-- The tree invariant of a store (see the module doc). -/
def Tree (s : Store W V E) : Prop := IsTree s.tasks

namespace Tree

variable {s : Store W V E}

theorem zero_lt (h : s.Tree) : 0 < s.n := h.root_lt

theorem root (h : s.Tree) : (s.task 0).parent = none := IsTree.root h

theorem parent_lt (h : s.Tree) {t p : Nat} (hp : (s.task t).parent = some p) : p < t ∧ t < s.n :=
  IsTree.parent_lt' h hp

theorem eq_zero (h : s.Tree) {t : Nat} (ht : t < s.n) (hp : (s.task t).parent = none) : t = 0 := by
  rcases Nat.eq_zero_or_pos t with h0 | h0
  · exact h0
  · obtain ⟨q, -, hq⟩ := IsTree.parent_lt h t h0 ht
    exact absurd (hq.symm.trans hp) (by simp)

theorem mem_subtasks (h : s.Tree) {p c : Nat} (hc : c ∈ (s.task p).subtasks) :
    p < s.n ∧ c < s.n ∧ (s.task c).parent = some p := by
  rcases Nat.lt_or_ge p s.n with hp | hp
  · exact ⟨hp, (h.child p c hp).1 hc⟩
  · rw [s.task_default p hp] at hc; cases hc

theorem mem_of_parent (h : s.Tree) {p c : Nat} (hc : (s.task c).parent = some p) :
    c ∈ (s.task p).subtasks := by
  have := h.parent_lt hc
  exact (h.child p c (by have h2 : c < s.tasks.length := this.2; omega)).2 ⟨this.2, hc⟩

/-- Induction from the root to the leaves. -/
theorem induct (h : s.Tree) {P : Nat → Prop} (h₀ : P 0)
    (hs : ∀ t p, (s.task t).parent = some p → P p → P t) {t : Nat} (ht : t < s.n) : P t := by
  induction t using Nat.strongRecOn with
  | _ t ih =>
    cases hp : (s.task t).parent with
    | none => rw [h.eq_zero ht hp]; exact h₀
    | some p =>
      have := h.parent_lt hp
      exact hs t p hp (ih p this.1 (by omega))

/-- A recursion to the root gives the same result for any `k > t` levels. -/
theorem levels (h : s.Tree) {α : Type} (F : Nat → Nat → α) (G : Nat → Option α → α)
    (hF : ∀ k t, F (k + 1) t = G t ((s.task t).parent.map (F k))) :
    ∀ t k, t < k → F k t = F (t + 1) t := by
  intro t
  induction t using Nat.strongRecOn with
  | _ t ih =>
    intro k hk
    obtain ⟨k, rfl⟩ : ∃ k', k = k' + 1 := ⟨k - 1, by omega⟩
    rw [hF, hF]
    cases hp : (s.task t).parent with
    | none => rfl
    | some p =>
      have := (h.parent_lt hp).1
      rw [Option.map_some, Option.map_some, ih p this k (by omega), ih p this t this]

/-- A recursion over the subtasks gives the same result for any two numbers of
levels that are enough; a subtask is younger than its parent. -/
theorem levels_below (h : s.Tree) {α : Type} (F : Nat → Nat → α) (G : Nat → List α → α)
    (hF : ∀ k t, F (k + 1) t = G t ((s.task t).subtasks.map (F k))) :
    ∀ k m t, t < s.n → s.n ≤ k + t → s.n ≤ m + t → F k t = F m t := by
  intro k
  induction k with
  | zero => intro m t ht hk; omega
  | succ k ih =>
    intro m t ht hk hm
    obtain ⟨m, rfl⟩ : ∃ m', m = m' + 1 := ⟨m - 1, by omega⟩
    rw [hF, hF]
    congr 1
    refine List.map_congr_left fun c hc => ?_
    obtain ⟨-, hcn, hcp⟩ := h.mem_subtasks hc
    have hlt := (h.parent_lt hcp).1
    exact ih m c hcn (by omega) (by omega)

theorem isActive_eq (h : s.Tree) (t : Nat) :
    s.isActive (t + 1) t = ((s.task t).status == .active &&
      match (s.task t).parent with
      | none => true
      | some p => s.isActive (p + 1) p) := by
  rw [isActive]
  cases hp : (s.task t).parent with
  | none => rfl
  | some p =>
    have := h.levels s.isActive (fun t o => (s.task t).status == .active && o.getD true)
      (by intro k t; rw [isActive]; cases (s.task t).parent <;> rfl) p t (h.parent_lt hp).1
    simp only [this]

theorem isCancelled_eq (h : s.Tree) (t : Nat) :
    s.isCancelled (t + 1) t = ((s.task t).status == .cancelled ||
      match (s.task t).parent with
      | none => s.stopped
      | some p => s.isCancelled (p + 1) p) := by
  rw [isCancelled]
  cases hp : (s.task t).parent with
  | none => rfl
  | some p =>
    have := h.levels s.isCancelled (fun t o => (s.task t).status == .cancelled || o.getD s.stopped)
      (by intro k t; rw [isCancelled]; cases (s.task t).parent <;> rfl) p t (h.parent_lt hp).1
    simp only [this]

theorem getRoot_eq_zero (h : s.Tree) {t : Nat} (ht : t < s.n) : s.getRoot (t + 1) t = 0 := by
  refine h.induct (P := fun t => s.getRoot (t + 1) t = 0) ?_ ?_ ht
  · rw [getRoot, h.root]
  · intro t p hp ih
    rw [getRoot, hp]
    have := h.levels s.getRoot (fun t o => o.getD t)
      (by intro k t; rw [getRoot]; cases (s.task t).parent <;> rfl) p t (h.parent_lt hp).1
    simp only [this, ih]

/-- A task is active only below an active root. -/
theorem root_active (h : s.Tree) {t : Nat} (ht : t < s.n) (ha : s.isActive (t + 1) t = true) :
    (s.task 0).status = .active := by
  revert ha
  refine h.induct (P := fun t => s.isActive (t + 1) t = true → _) ?_ ?_ ht
  · intro ha; rw [h.isActive_eq, h.root] at ha; simpa using ha
  · intro t p hp ih ha
    rw [h.isActive_eq, hp] at ha
    exact ih (by simp only [Bool.and_eq_true] at ha; exact ha.2)

/-- The event of a `ThreadedTaskList` cancels every task. -/
theorem isCancelled_of_stopped (h : s.Tree) (hs : s.stopped = true) {t : Nat} (ht : t < s.n) :
    s.isCancelled (t + 1) t = true := by
  refine h.induct (P := fun t => s.isCancelled (t + 1) t = true) ?_ ?_ ht
  · rw [h.isCancelled_eq, h.root]; simp [hs]
  · intro t p hp ih; rw [h.isCancelled_eq, hp]; simp [ih]

end Tree

theorem canStart_iff (s : Store W V E) (t : Nat) : s.canStart t = true ↔
    (s.task t).status = .inactive ∧ ∀ p, (s.task t).parent = some p → s.isActive (p + 1) p = true := by
  unfold canStart
  cases (s.task t).parent with
  | none => simp
  | some p => simp

end Store

/-! ## What an event changes -/

/-- The fields that only `add_subtask` touches. -/
def Task.shape (τ : Task W V E) : Option Nat × List Nat × Num × Bool × (Nat → Script W V E) :=
  (τ.parent, τ.subtasks, τ.weight, τ.isRequired, τ.fn)

theorem IsTree.of_shape {ts ts' : List (Task W V E)} (h : IsTree ts)
    (hn : ts'.length = ts.length)
    (hs : ∀ t, (ts'.getD t default).shape = (ts.getD t default).shape) : IsTree ts' := by
  have hpar : ∀ t, (ts'.getD t default).parent = (ts.getD t default).parent :=
    fun t => congrArg Prod.fst (hs t)
  have hsub : ∀ t, (ts'.getD t default).subtasks = (ts.getD t default).subtasks :=
    fun t => congrArg (fun x => x.2.1) (hs t)
  refine ⟨by have := h.root_lt; omega, by rw [hpar]; exact h.root, ?_, ?_⟩
  · intro t h₀ ht; rw [hpar]; exact h.parent_lt t h₀ (by omega)
  · intro p c hp; rw [hsub, hpar, hn]; exact h.child p c (by omega)

namespace Store

variable (s : Store W V E)

@[simp] theorem n_finish (t : Nat) : (s.finish t).n = s.n := by
  unfold finish; split <;> simp

@[simp] theorem n_cancel (t : Nat) : (s.cancel t).n = s.n := by
  unfold cancel; split
  · exact s.n_modify t _
  · exact s.n_modify t _

@[simp] theorem n_fail (t : Nat) (e : E) : (s.fail t e).n = s.n := by
  unfold fail; split <;> simp

theorem task_finish (t u : Nat) : (s.finish t).task u =
    if t = u ∧ u < s.n ∧ (s.task t).status ≠ .completed then
      { s.task u with completed := (s.task u).size, status := .completed }
    else s.task u := by
  unfold finish
  by_cases hc : (s.task t).status = .completed
  · rw [if_pos hc, if_neg (fun h => h.2.2 hc)]
  · rw [if_neg hc, task_modify]
    simp only [ne_eq, hc, not_false_eq_true, and_true]

theorem task_cancel (t u : Nat) : (s.cancel t).task u =
    if t = u ∧ u < s.n then { s.task u with status := .cancelled } else s.task u := by
  unfold cancel; split
  · exact s.task_modify t u _
  · exact s.task_modify t u _

theorem stopped_cancel (t : Nat) : (s.cancel t).stopped =
    (s.stopped || (s.threaded && (s.task t).parent.isNone)) := by
  unfold cancel
  cases ht : s.threaded <;> cases hp : (s.task t).parent <;> simp

variable {s}

theorem task_fail (h : s.Tree) {t : Nat} (ht : t < s.n) (e : E) (u : Nat) :
    (s.fail t e).task u =
      if u = 0 ∧ (s.task t).isRequired = true then
        { s.task u with error := some e, status := .cancelled }
      else if u = t then
        { s.task u with
          error := some e, status := .failed
          result := if (s.task t).isRequired = true then (s.task u).result else none }
      else s.task u := by
  have h0 := h.zero_lt
  unfold fail
  cases hr : (s.task t).isRequired with
  | true =>
    simp only [if_true, h.getRoot_eq_zero ht, task_cancel, n_modify]
    by_cases hu : u = 0
    · subst hu
      simp only [task_modify, n_modify, h0, and_true, if_true]
      split <;> rfl
    · rw [if_neg (by omega), if_neg (by simp [hu]), task_modify, if_neg (by omega), task_modify]
      by_cases hut : u = t
      · subst hut; simp [ht]
      · rw [if_neg (by omega), if_neg hut]
  | false =>
    simp only [Bool.false_eq_true, if_false, and_false, task_modify, n_modify]
    by_cases hut : u = t
    · subst hut; simp [ht]
    · rw [if_neg (by omega), if_neg (by omega), if_neg hut]

theorem stopped_fail (h : s.Tree) {t : Nat} (ht : t < s.n) (e : E) :
    (s.fail t e).stopped = (s.stopped || (s.threaded && (s.task t).isRequired)) := by
  unfold fail
  cases hr : (s.task t).isRequired with
  | true =>
    simp only [if_true, h.getRoot_eq_zero ht, stopped_cancel, stopped_modify, threaded_modify,
      task_modify, n_modify, h.zero_lt, and_true]
    split <;> simp [h.root]
  | false => simp

end Store

/-- The existing tasks that an event names. -/
def Ev.target : Ev W V E → Option Nat
  | .tau | .act _ => none
  | .start t | .refuse t | .returned t _ | .raised t _ | .add t _ | .stop t | .progress t _ _
  | .setSize t _ | .finish t | .cancel t => some t

/-- The status that an event writes to task `u`. -/
def Ev.sets (s : Store W V E) : Ev W V E → Nat → Option Status
  | .start t, u => if u = t then some .active else none
  | .raised t _, u =>
    if u = 0 ∧ (s.task t).isRequired = true then some .cancelled
    else if u = t then some .failed else none
  | .finish t, u => if u = t then some .completed else none
  | .cancel t, u => if u = t then some .cancelled else none
  | _, _ => none

theorem Ev.sets_eq {s : Store W V E} {ev : Ev W V E} {u : Nat} {x : Status}
    (h : ev.sets s u = some x) :
    (ev = .start u ∧ x = .active) ∨ (ev = .finish u ∧ x = .completed) ∨
      (ev = .cancel u ∧ x = .cancelled) ∨ ∃ t e, ev = .raised t e ∧
        (u = t ∧ x = .failed ∨ u = 0 ∧ (s.task t).isRequired = true ∧ x = .cancelled) := by
  unfold Ev.sets at h
  split at h
  · split at h <;> cases h
    rename_i hu; subst hu; exact .inl ⟨rfl, rfl⟩
  · rename_i t e
    split at h
    · rename_i hu; cases h
      exact .inr (.inr (.inr ⟨t, e, rfl, .inr ⟨hu.1, hu.2, rfl⟩⟩))
    · split at h <;> cases h
      rename_i hu; exact .inr (.inr (.inr ⟨t, e, rfl, .inl ⟨hu, rfl⟩⟩))
  · split at h <;> cases h
    rename_i hu; subst hu; exact .inr (.inl ⟨rfl, rfl⟩)
  · split at h <;> cases h
    rename_i hu; subst hu; exact .inr (.inr (.inl ⟨rfl, rfl⟩))
  · cases h

/-- The error that an event writes to task `u`. -/
def Ev.setsError (s : Store W V E) : Ev W V E → Nat → Option (Option E)
  | .start t, u => if u = t then some none else none
  | .raised t e, u =>
    if (u = 0 ∧ (s.task t).isRequired = true) ∨ u = t then some (some e) else none
  | _, _ => none

namespace Store

variable {s : Store W V E} {ev : Ev W V E}

theorem apply_shape (h : s.Tree) (hev : ∀ t ∈ ev.target, t < s.n)
    (hadd : ∀ p new, ev ≠ .add p new) :
    (s.apply ev).n = s.n ∧ ∀ u, ((s.apply ev).task u).shape = (s.task u).shape := by
  cases ev with
  | tau | refuse _ | stop _ | act _ => exact ⟨rfl, fun _ => rfl⟩
  | add p new => exact absurd rfl (hadd p new)
  | start t | returned t v | progress t c sz | setSize t sz =>
    exact ⟨s.n_modify t _, fun u => s.modify_keep t u _ Task.shape fun _ => rfl⟩
  | finish t =>
    refine ⟨s.n_finish t, fun u => ?_⟩
    simp only [apply, task_finish]; split <;> rfl
  | cancel t =>
    refine ⟨s.n_cancel t, fun u => ?_⟩
    simp only [apply, task_cancel]; split <;> rfl
  | raised t e =>
    refine ⟨s.n_fail t e, fun u => ?_⟩
    simp only [apply]
    rw [task_fail h (hev t rfl)]
    split
    · rfl
    · split <;> rfl

theorem apply_tree (h : s.Tree) (hev : ∀ t ∈ ev.target, t < s.n) : (s.apply ev).Tree := by
  by_cases hadd : ∃ p new, ev = .add p new
  · obtain ⟨p, new, rfl⟩ := hadd
    exact (alloc_rule isTree_closed new s.tasks p new.forall_true (hev p rfl) trivial).1 h
  · obtain ⟨hn, hs⟩ := apply_shape h hev fun p new he => hadd ⟨p, new, he⟩
    exact IsTree.of_shape h hn hs

theorem apply_n_le (h : s.Tree) (hev : ∀ t ∈ ev.target, t < s.n) : s.n ≤ (s.apply ev).n := by
  by_cases hadd : ∃ p new, ev = .add p new
  · obtain ⟨p, new, rfl⟩ := hadd
    exact Nat.le_of_lt (alloc_rule isTree_closed new s.tasks p new.forall_true (hev p rfl) trivial).2
  · exact Nat.le_of_eq (apply_shape h hev fun p new he => hadd ⟨p, new, he⟩).1.symm

/-- The shape of an old task, its subtasks apart. -/
theorem apply_keep {α : Type} (g : Task W V E → α)
    (hlink : ∀ (τ : Task W V E) l, g { τ with subtasks := l } = g τ)
    (hshape : ∀ τ τ' : Task W V E, τ.shape = τ'.shape → g τ = g τ') (h : s.Tree)
    (hev : ∀ t ∈ ev.target, t < s.n) {u : Nat} (hu : u < s.n) :
    g ((s.apply ev).task u) = g (s.task u) := by
  by_cases hadd : ∃ p new, ev = .add p new
  · obtain ⟨p, new, rfl⟩ := hadd
    exact alloc_old g hlink s.tasks p new (hev p rfl) u hu
  · exact hshape _ _ ((apply_shape h hev fun p new he => hadd ⟨p, new, he⟩).2 u)

theorem apply_isRequired (h : s.Tree) (hev : ∀ t ∈ ev.target, t < s.n) {u : Nat} (hu : u < s.n) :
    ((s.apply ev).task u).isRequired = (s.task u).isRequired :=
  apply_keep (·.isRequired) (fun _ _ => rfl) (fun _ _ e => congrArg (fun x => x.2.2.2.1) e) h hev hu

theorem apply_parent (h : s.Tree) (hev : ∀ t ∈ ev.target, t < s.n) {u : Nat} (hu : u < s.n) :
    ((s.apply ev).task u).parent = (s.task u).parent :=
  apply_keep (·.parent) (fun _ _ => rfl) (fun _ _ e => congrArg Prod.fst e) h hev hu

/-- A list of subtasks only grows, at its end. -/
theorem apply_subtasks (h : s.Tree) (hev : ∀ t ∈ ev.target, t < s.n) {u : Nat} (hu : u < s.n) :
    ∃ l, ((s.apply ev).task u).subtasks = (s.task u).subtasks ++ l := by
  by_cases hadd : ∃ p new, ev = .add p new
  · obtain ⟨p, new, rfl⟩ := hadd
    have hR : AllocClosed (fun _ _ _ _ => True) (fun _ _ => True)
        fun ts ts' : List (Task W V E) => ts.length ≤ ts'.length ∧ (u < ts.length →
          ∃ l, (ts'.getD u default).subtasks = (ts.getD u default).subtasks ++ l) := by
      refine ⟨fun ts => ⟨Nat.le_refl _, fun _ => ⟨[], (List.append_nil _).symm⟩⟩, ?_,
        fun _ _ _ _ _ _ => trivial, ?_⟩
      · intro a b c ⟨hab, h⟩ ⟨hbc, k⟩
        refine ⟨Nat.le_trans hab hbc, fun hu => ?_⟩
        obtain ⟨l, hl⟩ := h hu
        obtain ⟨m, hm⟩ := k (by omega)
        exact ⟨l ++ m, by rw [hm, hl, List.append_assoc]⟩
      · intro ts q r sz w fn hq _ _
        refine ⟨⟨by simp, fun hu => ?_⟩, trivial⟩
        rw [getD_push _ _ _ _ hq, if_neg (by omega)]
        split
        · exact ⟨[ts.length], rfl⟩
        · exact ⟨[], (List.append_nil _).symm⟩
    exact (alloc_rule hR new s.tasks p new.forall_true (hev p rfl) trivial).1.2 hu
  · have hs := (apply_shape h hev fun p new he => hadd ⟨p, new, he⟩).2 u
    exact ⟨[], by rw [List.append_nil]; exact congrArg (fun x => x.2.1) hs⟩

theorem apply_status (h : s.Tree) (hev : ∀ t ∈ ev.target, t < s.n) (u : Nat) :
    ((s.apply ev).task u).status = (ev.sets s u).getD (s.task u).status := by
  cases ev with
  | tau | refuse _ | stop _ | act _ => rfl
  | add p new =>
    exact alloc_keep (·.status) (fun _ _ _ _ _ => rfl) (fun _ _ => rfl) s.tasks p new (hev p rfl) u
  | returned t v | progress t c sz | setSize t sz =>
    exact s.modify_keep t u _ (·.status) fun _ => rfl
  | start t =>
    have ht : t < s.n := hev t rfl
    simp only [apply, task_modify, Ev.sets]
    by_cases hu : u = t
    · subst hu; simp [ht]
    · rw [if_neg (by omega), if_neg hu]; rfl
  | finish t =>
    have ht : t < s.n := hev t rfl
    simp only [apply, task_finish, Ev.sets]
    by_cases hu : u = t
    · subst hu
      by_cases hc : (s.task u).status = .completed <;> simp [ht, hc]
    · rw [if_neg (by omega), if_neg hu]; rfl
  | cancel t =>
    have ht : t < s.n := hev t rfl
    simp only [apply, task_cancel, Ev.sets]
    by_cases hu : u = t
    · subst hu; simp [ht]
    · rw [if_neg (by omega), if_neg hu]; rfl
  | raised t e =>
    simp only [apply, Ev.sets]
    rw [task_fail h (hev t rfl)]
    split
    · rfl
    · split <;> rfl

/-- No event writes INACTIVE. -/
theorem inactive_of_apply (h : s.Tree) (hev : ∀ t ∈ ev.target, t < s.n) {u : Nat}
    (hin : ((s.apply ev).task u).status = .inactive) :
    (s.task u).status = .inactive ∧ ev.sets s u = none := by
  rw [apply_status h hev] at hin
  cases he : ev.sets s u with
  | none => rw [he] at hin; exact ⟨hin, rfl⟩
  | some x =>
    rw [he] at hin
    rcases Ev.sets_eq he with ⟨-, rfl⟩ | ⟨-, rfl⟩ | ⟨-, rfl⟩ | ⟨_, _, -, ⟨-, rfl⟩ | ⟨-, -, rfl⟩⟩ <;>
      cases hin

/-- Only a start writes ACTIVE. -/
theorem active_of_apply (h : s.Tree) (hev : ∀ t ∈ ev.target, t < s.n) {u : Nat}
    (hact : ((s.apply ev).task u).status = .active) :
    ev = .start u ∨ (s.task u).status = .active ∧ ev.sets s u = none := by
  rw [apply_status h hev] at hact
  cases he : ev.sets s u with
  | none => rw [he] at hact; exact .inr ⟨hact, rfl⟩
  | some x =>
    rw [he] at hact
    rcases Ev.sets_eq he with ⟨he', -⟩ | ⟨-, rfl⟩ | ⟨-, rfl⟩ | ⟨_, _, -, ⟨-, rfl⟩ | ⟨-, -, rfl⟩⟩
    · exact .inl he'
    all_goals cases hact

/-- Only `finish()` writes COMPLETED. -/
theorem completed_of_apply (h : s.Tree) (hev : ∀ t ∈ ev.target, t < s.n) {u : Nat}
    (hcom : ((s.apply ev).task u).status = .completed) :
    ev = .finish u ∨ (s.task u).status = .completed ∧ ev.sets s u = none := by
  rw [apply_status h hev] at hcom
  cases he : ev.sets s u with
  | none => rw [he] at hcom; exact .inr ⟨hcom, rfl⟩
  | some x =>
    rw [he] at hcom
    rcases Ev.sets_eq he with ⟨-, rfl⟩ | ⟨he', -⟩ | ⟨-, rfl⟩ | ⟨_, _, -, ⟨-, rfl⟩ | ⟨-, -, rfl⟩⟩
    · cases hcom
    · exact .inl he'
    all_goals cases hcom

theorem apply_error (h : s.Tree) (hev : ∀ t ∈ ev.target, t < s.n) (u : Nat) :
    ((s.apply ev).task u).error = (ev.setsError s u).getD (s.task u).error := by
  cases ev with
  | tau | refuse _ | stop _ | act _ => rfl
  | add p new =>
    exact alloc_keep (·.error) (fun _ _ _ _ _ => rfl) (fun _ _ => rfl) s.tasks p new (hev p rfl) u
  | returned t v | progress t c sz | setSize t sz =>
    exact s.modify_keep t u _ (·.error) fun _ => rfl
  | start t =>
    have ht : t < s.n := hev t rfl
    simp only [apply, task_modify, Ev.setsError]
    by_cases hu : u = t
    · subst hu; simp [ht]
    · rw [if_neg (by omega), if_neg hu]; rfl
  | finish t => simp only [apply, task_finish, Ev.setsError]; split <;> rfl
  | cancel t => simp only [apply, task_cancel, Ev.setsError]; split <;> rfl
  | raised t e =>
    simp only [apply, Ev.setsError]
    rw [task_fail h (hev t rfl)]
    by_cases h0 : u = 0 ∧ (s.task t).isRequired = true
    · rw [if_pos h0, if_pos (Or.inl h0)]; rfl
    · rw [if_neg h0]
      by_cases hu : u = t
      · rw [if_pos hu, if_pos (Or.inr hu)]; rfl
      · rw [if_neg hu, if_neg (by rintro (k | k) <;> contradiction)]; rfl

/-- What an event does to the amounts of a task that exists. -/
theorem apply_amounts (h : s.Tree) (hev : ∀ t ∈ ev.target, t < s.n) {u : Nat} (hu : u < s.n) :
    (((s.apply ev).task u).completed = (s.task u).completed ∧
        ((s.apply ev).task u).size = (s.task u).size ∧
        (ev = .finish u → (s.task u).status = .completed)) ∨
      (∃ c sz, ev = .progress u c sz ∧ ((s.apply ev).task u).completed = c ∧
        ((s.apply ev).task u).size = s.newSize u sz) ∨
      (∃ sz, ev = .setSize u sz ∧ ((s.apply ev).task u).completed = (s.task u).completed ∧
        ((s.apply ev).task u).size = sz) ∨
      (ev = .finish u ∧ ((s.apply ev).task u).completed = (s.task u).size ∧
        ((s.apply ev).task u).size = (s.task u).size) := by
  cases ev with
  | tau | refuse _ | stop _ | act _ => exact .inl ⟨rfl, rfl, fun h => by cases h⟩
  | add p new =>
    exact .inl ⟨alloc_old (·.completed) (fun _ _ => rfl) s.tasks p new (hev p rfl) u hu,
      alloc_old (·.size) (fun _ _ => rfl) s.tasks p new (hev p rfl) u hu, fun h => by cases h⟩
  | start t | returned t v =>
    exact .inl ⟨s.modify_keep t u _ (·.completed) fun _ => rfl,
      s.modify_keep t u _ (·.size) fun _ => rfl, fun h => by cases h⟩
  | cancel t =>
    refine .inl ?_
    simp only [apply, task_cancel]
    split <;> exact ⟨rfl, rfl, fun h => by cases h⟩
  | raised t e =>
    refine .inl ?_
    simp only [apply]
    rw [task_fail h (hev t rfl)]
    split
    · exact ⟨rfl, rfl, fun h => by cases h⟩
    · split <;> exact ⟨rfl, rfl, fun h => by cases h⟩
  | progress t c sz =>
    simp only [apply, task_modify]
    by_cases htu : t = u
    · subst htu
      exact .inr (.inl ⟨c, sz, rfl, by simp [hu], by simp [hu]⟩)
    · rw [if_neg (fun h => htu h.1)]
      exact .inl ⟨rfl, rfl, fun h => by cases h⟩
  | setSize t sz =>
    simp only [apply, task_modify]
    by_cases htu : t = u
    · subst htu
      exact .inr (.inr (.inl ⟨sz, rfl, by simp [hu], by simp [hu]⟩))
    · rw [if_neg (fun h => htu h.1)]
      exact .inl ⟨rfl, rfl, fun h => by cases h⟩
  | finish t =>
    simp only [apply, task_finish]
    by_cases htu : t = u
    · subst htu
      by_cases hc : (s.task t).status = .completed
      · rw [if_neg (fun h => h.2.2 hc)]
        exact .inl ⟨rfl, rfl, fun _ => hc⟩
      · rw [if_pos ⟨rfl, hu, hc⟩]
        exact .inr (.inr (.inr ⟨rfl, rfl, rfl⟩))
    · rw [if_neg (fun h => htu h.1)]
      exact .inl ⟨rfl, rfl, fun h => absurd (by cases h; rfl) htu⟩

theorem apply_threaded (s : Store W V E) (ev : Ev W V E) :
    (s.apply ev).threaded = s.threaded := by
  have hcancel : ∀ (s : Store W V E) t, (s.cancel t).threaded = s.threaded := by
    intro s t; unfold cancel; split <;> rfl
  cases ev with
  | finish t => simp only [apply, finish]; split <;> rfl
  | cancel t => exact hcancel s t
  | raised t e =>
    simp only [apply, fail]
    split
    · exact hcancel _ _
    · rfl
  | _ => rfl

theorem apply_stopped (h : s.Tree) (hev : ∀ t ∈ ev.target, t < s.n) :
    (s.apply ev).stopped = (s.stopped || (s.threaded && match ev with
      | .raised t _ => (s.task t).isRequired
      | .cancel t => (s.task t).parent.isNone
      | _ => false)) := by
  cases ev with
  | cancel t => exact s.stopped_cancel t
  | raised t e => exact stopped_fail h (hev t rfl) e
  | finish t => simp only [apply, finish]; split <;> simp
  | _ => simp [apply]

end Store

end Wubi.Tasks
