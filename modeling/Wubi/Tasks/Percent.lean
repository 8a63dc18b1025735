import Wubi.Tasks.Report
import Wubi.Tasks.Stack
import Mathlib.Algebra.Order.BigOperators.Group.List

/-!
# The percentages of a task list

`get_percent_completed` and `get_percent_of_tasks_completed` are quotients of
two sums over a task and everything below it. Both lie between 0 and 1 as soon
as every task is `Balanced`: what it has completed lies between 0 and its
size, and is its size once it is COMPLETED.

A function that reports through `copy_file`, `get_file_md5` or
`DownloadProgress` keeps its task balanced if the file lengths are good. There
is one exception: a file shorter than one chunk has size 0, its only report is
1, and the task stays out of balance until `set_progress` has finished it. No
callback runs in between if the task has no subtasks.
-/
namespace Wubi.Tasks

variable {W V E : Type}

/-! ## Sums over the tree -/

/-- `float(self.completed/self.size)`, or `float(self.completed)` for size 0. -/
def Task.quotient (τ : Task W V E) : Rat :=
  if τ.size.truthy then (τ.completed.div τ.size).val else τ.completed.val

namespace Store

/-- The sum of `f` over a task and the tasks below it, `k` levels deep; every
subtask is younger than its parent, so `n` levels are enough (`sumTree_eq`). -/
def sumTree (s : Store W V E) (f : Task W V E → Rat) : Nat → Nat → Rat
  | 0, _ => 0
  | k + 1, t => f (s.task t) + ((s.task t).subtasks.map (s.sumTree f k)).sum

/-- mirrors src/wubi/backends/common/tasklist.py:306-308 -/
def countSubtasks (s : Store W V E) : Nat → Rat := s.sumTree (fun _ => 1) s.n

/-- mirrors src/wubi/backends/common/tasklist.py:310-315 -/
def countCompletedSubtasks (s : Store W V E) : Nat → Rat :=
  s.sumTree Task.quotient s.n

/-- mirrors src/wubi/backends/common/tasklist.py:337-342 -/
def getCompleted (s : Store W V E) : Nat → Rat :=
  s.sumTree (fun τ => (τ.completed.mul τ.weight).val) s.n

/-- mirrors src/wubi/backends/common/tasklist.py:344-349 -/
def getWeight (s : Store W V E) : Nat → Rat := s.sumTree (fun τ => (τ.size.mul τ.weight).val) s.n

/-- mirrors src/wubi/backends/common/tasklist.py:299-304 -/
def getPercentOfTasksCompleted (s : Store W V E) (t : Nat) : Rat :=
  if s.countSubtasks t ≠ 0 then s.countCompletedSubtasks t / s.countSubtasks t else 0

/-- mirrors src/wubi/backends/common/tasklist.py:317-322 -/
def getPercentCompleted (s : Store W V E) (t : Nat) : Rat :=
  if s.getWeight t ≠ 0 then s.getCompleted t / s.getWeight t else 0

variable {s : Store W V E}

/-- The recursion of the source. -/
theorem sumTree_eq (hs : s.Tree) (f : Task W V E → Rat) {t : Nat} (ht : t < s.n) :
    s.sumTree f s.n t = f (s.task t) + ((s.task t).subtasks.map (s.sumTree f s.n)).sum := by
  rw [hs.levels_below (s.sumTree f) (fun t l => f (s.task t) + l.sum) (fun _ _ => rfl) s.n (s.n + 1)
    t ht (by omega) (by omega)]
  rfl

theorem sumTree_nonneg {f : Task W V E → Rat} (hf : ∀ t, 0 ≤ f (s.task t)) (k t : Nat) :
    0 ≤ s.sumTree f k t := by
  induction k generalizing t with
  | zero => exact le_refl 0
  | succ k ih =>
    refine add_nonneg (hf t) (List.sum_nonneg fun x hx => ?_)
    obtain ⟨c, -, rfl⟩ := List.mem_map.1 hx
    exact ih c

/-- The sum grows with its terms, also from one store to another with the same
tree; only the tasks in `P` matter, where `P` has all subtasks of its tasks. -/
theorem sumTree_mono {s' : Store W V E} {f g : Task W V E → Rat} {P : Nat → Prop}
    (hsub : ∀ t, (s'.task t).subtasks = (s.task t).subtasks)
    (hP : ∀ t, P t → ∀ c ∈ (s.task t).subtasks, P c)
    (hfg : ∀ t, P t → f (s.task t) ≤ g (s'.task t)) (k : Nat) {t : Nat} (ht : P t) :
    s.sumTree f k t ≤ s'.sumTree g k t := by
  induction k generalizing t with
  | zero => exact le_refl 0
  | succ k ih =>
    rw [sumTree, sumTree, hsub]
    exact add_le_add (hfg t ht) (List.sum_le_sum fun c hc => ih (hP t ht c hc))

theorem sumTree_le {f g : Task W V E → Rat} (hfg : ∀ t, f (s.task t) ≤ g (s.task t)) (k t : Nat) :
    s.sumTree f k t ≤ s.sumTree g k t :=
  sumTree_mono (P := fun _ => True) (fun _ => rfl) (fun _ _ _ _ => trivial) (fun t _ => hfg t) k trivial

end Store

/-! ## Balanced tasks -/

/-- What a task reports fits its size. -/
structure Task.Balanced (τ : Task W V E) : Prop where
  nonneg : 0 ≤ τ.completed.val
  le : τ.completed.val ≤ τ.size.val
  eq : τ.status = .completed → τ.completed.val = τ.size.val

/-- Both percentages of every task lie between 0 and 1, and a COMPLETED task
has completed its size. -/
structure Store.InRange (s : Store W V E) (t : Nat) : Prop where
  percent : 0 ≤ s.getPercentCompleted t ∧ s.getPercentCompleted t ≤ 1
  tasks : 0 ≤ s.getPercentOfTasksCompleted t ∧ s.getPercentOfTasksCompleted t ≤ 1
  full : (s.task t).status = .completed → (s.task t).completed.val = (s.task t).size.val

/-- The quotient of two `int`s is floored, of two numbers exact; in both cases
it stays between 0 and 1. -/
theorem Num.div_unit {a b : Num} (h0 : 0 ≤ a.val) (hle : a.val ≤ b.val) (hb : b.val ≠ 0) :
    0 ≤ (a.div b).val ∧ (a.div b).val ≤ 1 := by
  have hb0 : 0 < b.val := lt_of_le_of_ne (le_trans h0 hle) (Ne.symm hb)
  have hrat : 0 ≤ a.val / b.val ∧ a.val / b.val ≤ 1 :=
    ⟨div_nonneg h0 hb0.le, div_le_one_of_le₀ hle hb0.le⟩
  cases a with
  | float q => cases b <;> exact hrat
  | int i =>
    cases b with
    | float q => exact hrat
    | int j =>
      simp only [Num.val] at h0 hb0 hle
      have hi : 0 ≤ i := by exact_mod_cast h0
      have hj : 0 < j := by exact_mod_cast hb0
      have hij : i ≤ j := by exact_mod_cast hle
      have hfl : 0 ≤ i.fdiv j ∧ i.fdiv j ≤ 1 := by
        rw [Int.fdiv_eq_ediv_of_nonneg i hj.le]
        refine ⟨Int.ediv_nonneg hi hj.le, ?_⟩
        calc i / j ≤ j / j := Int.ediv_le_ediv hj hij
          _ = 1 := Int.ediv_self hj.ne'
      simp only [Num.div, Num.val]
      exact ⟨by exact_mod_cast hfl.1, by exact_mod_cast hfl.2⟩

theorem Task.Balanced.quotient_unit {τ : Task W V E} (h : τ.Balanced) :
    0 ≤ τ.quotient ∧ τ.quotient ≤ 1 := by
  unfold Task.quotient
  split
  · rename_i hsz
    exact Num.div_unit h.nonneg h.le ((Num.truthy_iff _).1 hsz)
  · rename_i hsz
    have h0 : τ.size.val = 0 := by
      by_contra hne; exact hsz ((Num.truthy_iff _).2 hne)
    exact ⟨h.nonneg, le_trans h.le (by rw [h0]; exact zero_le_one)⟩

theorem quotient_unit {c w : Rat} (h0 : 0 ≤ c) (hle : c ≤ w) :
    0 ≤ (if w ≠ 0 then c / w else 0) ∧ (if w ≠ 0 then c / w else 0) ≤ 1 := by
  split
  · exact ⟨div_nonneg h0 (le_trans h0 hle), div_le_one_of_le₀ hle (le_trans h0 hle)⟩
  · exact ⟨le_refl 0, zero_le_one⟩

theorem Store.inRange {s : Store W V E} (hb : ∀ t, (s.task t).Balanced)
    (hw : ∀ t, 0 ≤ (s.task t).weight.val) (t : Nat) : s.InRange t where
  percent := by
    refine quotient_unit (sumTree_nonneg (fun u => ?_) _ t) (sumTree_le (fun u => ?_) _ t)
    · rw [Num.val_mul]; exact mul_nonneg (hb u).nonneg (hw u)
    · rw [Num.val_mul, Num.val_mul]; exact mul_le_mul_of_nonneg_right (hb u).le (hw u)
  tasks := quotient_unit (sumTree_nonneg (fun u => ((hb u).quotient_unit).1) _ t)
    (sumTree_le (fun u => ((hb u).quotient_unit).2) _ t)
  full := (hb t).eq

end Wubi.Tasks
