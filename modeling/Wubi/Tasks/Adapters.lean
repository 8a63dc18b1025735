import Mathlib.Algebra.Order.Field.Basic
import Mathlib.Tactic.Linarith
import Wubi.Core.Text
import Wubi.Tasks.Tree

/-!
# Progress adapters of the downloads

`DownloadProgress` is told a length by urlgrabber and then the bytes read so
far; `on_progress` is given bittorrent's dictionaries. Both turn what they are
told into a size and a progress of their task, and `set_progress` ends the task
as soon as the one reaches the other.

**Parameters.** `cancelled k` is what `is_cancelled()` answers in the `k`-th
call of an adapter, and `runSubtasks` what `_run_subtasks` does to the task's
own attributes; both are arbitrary. Amounts are exact rationals.

**Result.** An adapter is `Quiet` if no call raises and none completes the task.
The http adapter is, where the server sent a length and every call falls short
of it in whole KiB; the bittorrent adapter where something was downloaded in
every call that tells a fraction. The file name and the URL are only logged,
and are left out.
-/
namespace Wubi.Tasks

variable {W V E : Type}

/-! ## One task -/

/-- `finish()` on the attributes of the task.
mirrors src/wubi/backends/common/tasklist.py:149-157 -/
def Task.finish (τ : Task W V E) : Task W V E :=
  if τ.status = .completed then τ else { τ with completed := τ.size, status := .completed }

/-- `set_progress(completed)` on the attributes of the task, and what it
returns.
mirrors src/wubi/backends/common/tasklist.py:126-147 -/
def Task.setProgress (runSubtasks : Task W V E → Task W V E) (cancelled : Bool) (completed : Num)
    (τ : Task W V E) : Bool × Task W V E :=
  if cancelled then (true, τ)
  else if completed.ge τ.size then (false, (runSubtasks { τ with completed := completed }).finish)
  else (false, { τ with completed := completed })

theorem Task.finish_status (τ : Task W V E) : τ.finish.status = .completed := by
  unfold Task.finish
  split
  · assumption
  · rfl

section
variable (runSubtasks : Task W V E → Task W V E) {cancelled : Bool} {c : Num} (τ : Task W V E)

/-- A report that falls short of the size, or is refused, completes nothing. -/
theorem Task.setProgress_short (h : cancelled = true ∨ c.val < τ.size.val) :
    (τ.setProgress runSubtasks cancelled c).2.status = τ.status ∧
    (τ.setProgress runSubtasks cancelled c).2.size = τ.size := by
  unfold Task.setProgress
  split
  · exact ⟨rfl, rfl⟩
  · rename_i hc
    have hge : ¬ c.ge τ.size = true := by
      rw [Num.ge_iff]
      exact not_le.2 (h.resolve_left hc)
    rw [if_neg hge]
    exact ⟨rfl, rfl⟩

theorem Task.setProgress_completed (h : ¬ (cancelled = true ∨ c.val < τ.size.val)) :
    (τ.setProgress runSubtasks cancelled c).2.status = .completed := by
  obtain ⟨hc, hlt⟩ := not_or.1 h
  unfold Task.setProgress
  rw [if_neg hc, if_pos (Num.ge_iff _ _ |>.2 (not_lt.1 hlt))]
  exact Task.finish_status _

end

/-! ## Calls in a row -/

section
variable {S A X : Type}

/-- `call (answers k) a` for the elements `a` of the list in order, the first of
them the `k`-th call. -/
def runCalls (call : Bool → A → S → Except X S) (answers : Nat → Bool) :
    Nat → List A → S → Except X S
  | _, [], s => .ok s
  | k, a :: as, s =>
    match call (answers k) a s with
    | .ok s' => runCalls call answers (k + 1) as s'
    | .error x => .error x

/-- No call raises, and `P` holds before them and after each of them. -/
def Throughout (call : Bool → A → S → Except X S) (answers : Nat → Bool) (P : S → Prop) (k : Nat)
    (as : List A) (s : S) : Prop :=
  ∀ n, ∃ s', runCalls call answers k (as.take n) s = .ok s' ∧ P s'

variable {call : Bool → A → S → Except X S} {answers : Nat → Bool} {P : S → Prop} {k : Nat} {a : A}
  {as : List A} {s : S}

theorem throughout_nil : Throughout call answers P k [] s ↔ P s := by
  simp [Throughout, runCalls]

theorem Throughout.now (h : Throughout call answers P k as s) : P s := by
  obtain ⟨s', hs', hP⟩ := h 0
  cases hs'
  exact hP

theorem throughout_cons_ok {s' : S} (h : call (answers k) a s = .ok s') :
    Throughout call answers P k (a :: as) s ↔ P s ∧ Throughout call answers P (k + 1) as s' := by
  constructor
  · intro hall
    refine ⟨hall.now, fun n => ?_⟩
    simpa [runCalls, h] using hall (n + 1)
  · intro ⟨hP, hall⟩ n
    cases n with
    | zero => exact ⟨s, rfl, hP⟩
    | succ n => simpa [runCalls, h] using hall n

theorem not_throughout_error {x : X} (h : call (answers k) a s = .error x) :
    ¬ Throughout call answers P k (a :: as) s := by
  intro hall
  obtain ⟨s', hs', -⟩ := hall 1
  simp [runCalls, h] at hs'

theorem runCalls_map {B : Type} (f : B → A) (bs : List B) :
    runCalls call answers k (bs.map f) s = runCalls (fun b x => call b (f x)) answers k bs s := by
  induction bs generalizing k s with
  | nil => rfl
  | cons b bs ih =>
    simp only [List.map_cons, runCalls]
    split
    · exact ih
    · rfl

theorem throughout_map {B : Type} (f : B → A) (bs : List B) :
    Throughout call answers P k (bs.map f) s ↔
      Throughout (fun b x => call b (f x)) answers P k bs s := by
  simp only [Throughout, ← List.map_take, runCalls_map]

theorem forall_getElem?_cons (Q : Nat → A → Prop) (k : Nat) (a : A) (as : List A) :
    (∀ j x, (a :: as)[j]? = some x → Q (k + j) x) ↔
      Q k a ∧ ∀ j x, as[j]? = some x → Q (k + 1 + j) x := by
  constructor
  · intro h
    refine ⟨h 0 a rfl, fun j x hx => ?_⟩
    have := h (j + 1) x hx
    rwa [show k + (j + 1) = k + 1 + j by omega] at this
  · intro ⟨h₀, h⟩ j x hx
    cases j with
    | zero => cases hx; exact h₀
    | succ j =>
      rw [show k + (j + 1) = k + 1 + j by omega]
      exact h j x hx

/-- Where a call keeps `I` if it is `Fine` and ends outside `P` if it is not, all
goes well exactly if every call is fine. -/
theorem throughout_iff (I : S → Prop) (Fine : Bool → A → Prop) (hP : ∀ s, I s → P s)
    (hfine : ∀ b a s, I s → Fine b a → ∃ s', call b a s = .ok s' ∧ I s')
    (hnot : ∀ b a s s', I s → ¬ Fine b a → call b a s = .ok s' → ¬ P s') (hI : I s) :
    Throughout call answers P k as s ↔ ∀ j a, as[j]? = some a → Fine (answers (k + j)) a := by
  induction as generalizing k s with
  | nil => simp [throughout_nil, hP s hI]
  | cons a as ih =>
    rw [forall_getElem?_cons fun k a => Fine (answers k) a]
    by_cases hok : Fine (answers k) a
    · obtain ⟨s', hs', hI'⟩ := hfine _ a s hI hok
      rw [throughout_cons_ok hs', ih hI']
      simp [hok, hP s hI]
    · simp only [hok, false_and, iff_false]
      cases hcall : call (answers k) a s with
      | error x => exact not_throughout_error hcall
      | ok s' =>
        rw [throughout_cons_ok hcall]
        intro h
        exact hnot _ a s s' hI hok hcall h.2.now

end

/-! ## `DownloadProgress` -/

/-- `n/1024` of an int -/
def kib (n : Nat) : Num := .int ↑(n / 1024)

/-- What Python raises on the way: `None / 1024` and `None + 1`. -/
inductive PyError | typeError
  deriving DecidableEq, Repr

structure DownloadProgress (W V E : Type) where
  associatedTask : Option (Task W V E)
  length : Option Nat

/-- mirrors src/wubi/backends/common/downloader.py:39-50 -/
def DownloadProgress.start (runSubtasks : Task W V E → Task W V E) (cancelled : Bool)
    (length : Option Nat) (p : DownloadProgress W V E) : Except PyError (DownloadProgress W V E) :=
  match p.associatedTask, length with
  | none, _ => .ok { p with length := length }
  | some _, none => .error .typeError
  | some τ, some n =>
    let sized := { τ with size := kib n }
    .ok ⟨some (sized.setProgress runSubtasks cancelled (.int 0)).2, some n⟩

/-- What `update` returns, and the object after it. It divides by the length
first, whether or not there is a task.
mirrors src/wubi/backends/common/downloader.py:52-56 -/
def DownloadProgress.update (runSubtasks : Task W V E → Task W V E) (cancelled : Bool)
    (amountRead : Nat) (p : DownloadProgress W V E) :
    Except PyError (Bool × DownloadProgress W V E) :=
  match p.length, p.associatedTask with
  | none, _ => .error .typeError
  | some _, none => .ok (false, p)
  | some n, some τ =>
    let r := τ.setProgress runSubtasks cancelled (kib amountRead)
    .ok (r.1, ⟨some r.2, some n⟩)

/-- What a server sends: the length that it announces, if it does, and the
cumulative amounts up to it. -/
structure Response where
  contentLength : Option Nat
  amounts : List Nat
  sorted : amounts.Pairwise (· ≤ ·)
  le : ∀ n ∈ contentLength, ∀ a ∈ amounts, a ≤ n

inductive HttpCall
  | start (length : Option Nat)
  | update (amountRead : Nat)
  deriving DecidableEq, Repr

def HttpCall.run (runSubtasks : Task W V E → Task W V E) (cancelled : Bool) :
    HttpCall → DownloadProgress W V E → Except PyError (DownloadProgress W V E)
  | .start length, p => p.start runSubtasks cancelled length
  | .update amountRead, p => (p.update runSubtasks cancelled amountRead).map (·.2)

/-- The calls before `end`; urlgrabber says `update(0)` right after `start`.
mirrors src/urlgrabber/grabber.py:1104-1115,1266-1268 -/
def Response.calls (r : Response) : List HttpCall :=
  .start r.contentLength :: .update 0 :: r.amounts.map .update

/-! ## `on_progress` -/

/-- The keys of bittorrent's status dictionary that `on_progress` reads. -/
structure Kargs where
  downTotal : Option Rat
  fractionDone : Option Rat
  downRate : Option Rat
  downTotal_nonneg : ∀ x ∈ downTotal, 0 ≤ x
  fraction : ∀ x ∈ fractionDone, 0 ≤ x ∧ x ≤ 1
  downRate_nonneg : ∀ x ∈ downRate, 0 ≤ x

/-- Computed and not used.
mirrors src/wubi/backends/common/btdownloader.py:58 -/
def Kargs.currentSpeed (kargs : Kargs) : Str :=
  Nat.toDigits 10 (kargs.downRate.getD 0 / 1024).floor.toNat ++ "KBps".toList

structure BtDownload (W V E : Type) where
  associatedTask : Option (Task W V E)
  stopSignal : Bool

/-- The size and the progress that `on_progress` reports.
mirrors src/wubi/backends/common/btdownloader.py:51-57 -/
def Kargs.report (kargs : Kargs) : Num × Num :=
  let totalDownload := kargs.downTotal.getD 0 * 1024
  let percentCompleted := min (99 / 100) (kargs.fractionDone.getD 0)
  if percentCompleted ≠ 0 then
    (.float (totalDownload / percentCompleted),
      .float (totalDownload / percentCompleted * percentCompleted))
  else (.int 1, .float percentCompleted)

/-- mirrors src/wubi/backends/common/btdownloader.py:50-62 -/
def onProgress (runSubtasks : Task W V E → Task W V E) (cancelled : Bool) (kargs : Kargs)
    (d : BtDownload W V E) : Except PyError (BtDownload W V E) :=
  match d.associatedTask with
  | none => .ok d
  | some τ =>
    let sized := { τ with size := kargs.report.1 }
    let r := sized.setProgress runSubtasks cancelled kargs.report.2
    .ok ⟨some r.2, d.stopSignal || r.1⟩

/-! ## Both adapters -/

/-- Where a download comes from, and what its adapter is told. -/
inductive Source
  | http (response : Response)
  | bittorrent (statuses : List Kargs)

def NotCompleted (task : Option (Task W V E)) : Prop := ∀ τ ∈ task, τ.status ≠ .completed

/-- Up to the call of `end` or `finish_callback`, the adapter never raises and
never completes its task. -/
def Quiet (runSubtasks : Task W V E → Task W V E) (cancelled : Nat → Bool)
    (task : Option (Task W V E)) : Source → Prop
  | .http r => Throughout (HttpCall.run runSubtasks) cancelled
      (fun p => NotCompleted p.associatedTask) 0 r.calls ⟨task, none⟩
  | .bittorrent l => Throughout (onProgress runSubtasks) cancelled
      (fun d => NotCompleted d.associatedTask) 0 l ⟨task, false⟩

/-- The server sends a length, and every report to a task that is not cancelled
falls short of it in whole KiB; or every dictionary for such a task that has a
fraction has a total. -/
def Source.Short (cancelled : Nat → Bool) (withTask : Bool) : Source → Prop
  | .http r => ∃ n, r.contentLength = some n ∧ (withTask = true →
      ∀ k a, (0 :: 0 :: r.amounts)[k]? = some a → cancelled k = true ∨ a / 1024 < n / 1024)
  | .bittorrent l => withTask = true →
      ∀ k kargs, l[k]? = some kargs → cancelled k = true ∨
        kargs.fractionDone.getD 0 = 0 ∨ 0 < kargs.downTotal.getD 0

/-- A report that is refused or falls short leaves the task as it is; another
completes it. -/
theorem notCompleted_setProgress (runSubtasks : Task W V E → Task W V E) (cancelled : Bool)
    (c : Num) (τ : Task W V E) (hτ : τ.status ≠ .completed) :
    NotCompleted (some (τ.setProgress runSubtasks cancelled c).2) ↔
      (cancelled = true ∨ c.val < τ.size.val) := by
  unfold NotCompleted
  simp only [Option.mem_def, Option.some.injEq, forall_eq']
  constructor
  · intro h
    by_contra hshort
    exact h (τ.setProgress_completed runSubtasks hshort)
  · intro h
    rw [(τ.setProgress_short runSubtasks h).1]
    exact hτ

/-! ## In the task list -/

/-- A step of thread `i`, by the frame on its stack. -/
theorem exec_cons {s : Sys W V E} {i : Nat} {is : List Nat} {f : Frame W V E}
    {fs fs' : List (Frame W V E)} {ev : Ev W V E} (hth : s.threads[i]? = some (f :: fs))
    (h : stepFrame s.store fs f = some (ev, fs')) :
    (exec (i :: is) s).2 = (exec is ⟨s.store.apply ev, s.threads.set i fs'⟩).2 := by
  simp only [exec, step_of_frame hth h]

theorem task_progress (s : Store W V E) {t : Nat} (ht : t < s.n) (c : Num) (u : Nat) :
    (s.apply (.progress t c none)).task u =
      if u = t then { s.task t with completed := c } else s.task u := by
  simp only [Store.apply, Store.task_modify, Store.newSize]
  by_cases hu : t = u
  · subst hu
    simp [ht]
  · simp [hu, Ne.symm hu]

theorem task_reachSize (s : Store W V E) {t : Nat} (ht : t < s.n) (c : Num) (u : Nat) :
    ((s.apply (.progress t c none)).apply (.finish t)).task u =
      if u = t then Task.finish { s.task t with completed := c } else s.task u := by
  have hn : (s.apply (.progress t c none)).n = s.n := by simp [Store.apply]
  change ((s.apply (.progress t c none)).finish t).task u = _
  rw [Store.task_finish, hn, task_progress s ht, task_progress s ht, if_pos rfl]
  by_cases hu : t = u
  · subst hu
    unfold Task.finish
    by_cases hstatus : (s.task t).status = .completed <;> simp [ht, hstatus]
  · simp [hu, Ne.symm hu]

/-- A function's call of `set_progress` on a task without subtasks does this to
that task, and nothing to the others. -/
theorem setProgress_exec {s : Sys W V E} {i t : Nat} {own : Option Nat} {c : Num}
    {k : Bool → Script W V E} {fs : List (Frame W V E)}
    (hth : s.threads[i]? = some (.body own (.setProgress t c none k) :: fs)) (ht : t < s.store.n)
    (hsub : (s.store.task t).subtasks = []) {r : Bool × Task W V E}
    (hr : r = (s.store.task t).setProgress id (s.store.isCancelled (t + 1) t) c) :
    ∃ n, (exec (.replicate n i) s).2.threads = s.threads.set i (.body own (k r.1) :: fs) ∧
      ∀ u, (exec (.replicate n i) s).2.store.task u = if u = t then r.2 else s.store.task u := by
  have hi : i < s.threads.length := (List.getElem?_eq_some_iff.1 hth).1
  unfold Task.setProgress at hr
  split at hr
  · -- refused: one step, and the store as it was
    rename_i hc
    have hstep : stepFrame s.store fs (.body own (.setProgress t c none k)) =
        some (.stop t, .body own (k true) :: fs) := by simp [stepFrame, stepBody, ht, hc]
    refine ⟨1, ?_⟩
    rw [List.replicate_one, exec_cons hth hstep, hr]
    refine ⟨rfl, fun u => ?_⟩
    split
    · rename_i hu
      rw [hu]
      rfl
    · rfl
  · rename_i hc
    split at hr
    · -- the report, the empty loop over the subtasks, and `finish()`
      rename_i hge
      let stk : List (Frame W V E) := .finish t :: .awaitProgress own k :: fs
      have hreport : stepFrame s.store fs (.body own (.setProgress t c none k)) =
          some (.progress t c none, .subtasks t 0 :: stk) := by
        simp [stepFrame, stepBody, ht, hc, Store.newSize, hge, stk]
      have hloop : stepFrame (s.store.apply (.progress t c none)) stk (.subtasks t 0) =
          some (.tau, stk) := by simp [stepFrame, task_progress s.store ht, hsub]
      refine ⟨3, ?_⟩
      rw [show List.replicate 3 i = [i, i, i] from rfl, exec_cons hth hreport,
        exec_cons (List.getElem?_set_self hi) hloop,
        exec_cons (List.getElem?_set_self (by simpa using hi)) rfl, hr]
      refine ⟨by simp [exec, resumeProgress], fun u => ?_⟩
      exact task_reachSize s.store ht c u
    · rename_i hge
      have hstep : stepFrame s.store fs (.body own (.setProgress t c none k)) =
          some (.progress t c none, .body own (k false) :: fs) := by
        simp [stepFrame, stepBody, ht, hc, Store.newSize, hge]
      refine ⟨1, ?_⟩
      rw [List.replicate_one, exec_cons hth hstep, hr]
      exact ⟨rfl, task_progress s.store ht c⟩

/-! ## http -/

theorem kib_lt_kib (a n : Nat) : (kib a).val < (kib n).val ↔ a / 1024 < n / 1024 := by
  simp only [kib, Num.val]
  norm_cast

section
variable {runSubtasks : Task W V E → Task W V E}

theorem run_start {cancelled : Bool} {n : Nat} {τ : Task W V E} {l : Option Nat} :
    HttpCall.run runSubtasks cancelled (.start (some n)) ⟨some τ, l⟩ =
      .ok ⟨some (Task.setProgress runSubtasks cancelled (kib 0) { τ with size := kib n }).2, some n⟩ :=
  rfl

theorem run_update {cancelled : Bool} {a n : Nat} {τ : Task W V E} :
    HttpCall.run runSubtasks cancelled (.update a) ⟨some τ, some n⟩ =
      .ok ⟨some (τ.setProgress runSubtasks cancelled (kib a)).2, some n⟩ := rfl

theorem updates_iff {cancelled : Nat → Bool} {n k : Nat} {amounts : List Nat} {τ : Task W V E}
    (hτ : τ.status ≠ .completed) (hsize : τ.size = kib n) :
    Throughout (HttpCall.run runSubtasks) cancelled (fun p => NotCompleted p.associatedTask) k
        (amounts.map .update) ⟨some τ, some n⟩ ↔
      ∀ j a, amounts[j]? = some a → cancelled (k + j) = true ∨ a / 1024 < n / 1024 := by
  rw [throughout_map]
  refine throughout_iff
    (fun p => ∃ τ : Task W V E, p = ⟨some τ, some n⟩ ∧ τ.status ≠ .completed ∧ τ.size = kib n)
    (fun b a => b = true ∨ a / 1024 < n / 1024) ?_ ?_ ?_ ⟨τ, rfl, hτ, hsize⟩
  · intro p ⟨τ, hp, hτ, _⟩
    rw [hp]
    intro σ hσ
    cases hσ
    exact hτ
  · intro b a p ⟨τ, hp, hτ, hsize⟩ hok
    have hshort : b = true ∨ (kib a).val < τ.size.val := by rwa [hsize, kib_lt_kib]
    obtain ⟨hstatus, hsize'⟩ := τ.setProgress_short runSubtasks hshort
    exact ⟨_, hp ▸ run_update, _, rfl, hstatus ▸ hτ, hsize'.trans hsize⟩
  · intro b a p p' ⟨τ, hp, hτ, hsize⟩ hok hcall
    rw [hp, run_update] at hcall
    cases hcall
    rw [notCompleted_setProgress runSubtasks b _ τ hτ, hsize, kib_lt_kib]
    exact hok

/-- Without a task only the division by the length can fail. -/
theorem http_noTask_iff (cancelled : Nat → Bool) (contentLength : Option Nat)
    (amounts : List Nat) :
    Throughout (HttpCall.run runSubtasks) cancelled (fun p => NotCompleted p.associatedTask) 0
        (.start contentLength :: (0 :: amounts).map .update) ⟨none, none⟩ ↔
      contentLength.isSome := by
  have hnone : NotCompleted (none : Option (Task W V E)) := by simp [NotCompleted]
  have hstart : HttpCall.run runSubtasks (cancelled 0) (.start contentLength) ⟨none, none⟩ =
      .ok ⟨none, contentLength⟩ := rfl
  rw [throughout_cons_ok hstart]
  cases contentLength with
  | none =>
    simp only [Option.isSome_none, Bool.false_eq_true, iff_false]
    intro h
    exact not_throughout_error (x := PyError.typeError) rfl h.2
  | some n =>
    simp only [Option.isSome_some, iff_true]
    refine ⟨hnone, ?_⟩
    rw [throughout_map, throughout_iff (fun p => p = ⟨none, some n⟩) fun _ _ => True]
    · exact fun _ _ _ => trivial
    · intro p hp
      rw [hp]
      exact hnone
    · intro b a p hp _
      exact ⟨p, by rw [hp]; rfl, hp⟩
    · intro b a p p' _ hok
      exact absurd trivial hok
    · rfl

theorem http_task_iff (cancelled : Nat → Bool) {τ : Task W V E} (hτ : τ.status ≠ .completed)
    (n : Nat) (amounts : List Nat) :
    Throughout (HttpCall.run runSubtasks) cancelled (fun p => NotCompleted p.associatedTask) 0
        (.start (some n) :: (0 :: amounts).map .update) ⟨some τ, none⟩ ↔
      ∀ k a, (0 :: 0 :: amounts)[k]? = some a → cancelled k = true ∨ a / 1024 < n / 1024 := by
  have hreports := forall_getElem?_cons (fun k a => cancelled k = true ∨ a / 1024 < n / 1024) 0 0
    (0 :: amounts)
  simp only [Nat.zero_add] at hreports
  have hτ' : NotCompleted (some τ) := by simpa [NotCompleted] using hτ
  let sized : Task W V E := { τ with size := kib n }
  have hkib : (kib 0).val < sized.size.val ↔ 0 / 1024 < n / 1024 := kib_lt_kib 0 n
  rw [throughout_cons_ok run_start, hreports]
  by_cases hshort : cancelled 0 = true ∨ 0 / 1024 < n / 1024
  · obtain ⟨hstatus, hsize⟩ := sized.setProgress_short runSubtasks (by rwa [← hkib] at hshort)
    rw [updates_iff (by rwa [hstatus]) hsize]
    exact and_congr_left' (iff_of_true hτ' hshort)
  · have hnot := notCompleted_setProgress runSubtasks (cancelled 0) (kib 0) sized hτ
    rw [hkib] at hnot
    constructor
    · intro h
      exact absurd (hnot.1 h.2.now) hshort
    · intro h
      exact absurd h.1 hshort

end

/-! ## bittorrent -/

/-- The report of a dictionary falls short of its size unless it has a fraction
and no total. -/
theorem Kargs.report_lt (kargs : Kargs) : kargs.report.2.val < kargs.report.1.val ↔
    kargs.fractionDone.getD 0 = 0 ∨ 0 < kargs.downTotal.getD 0 := by
  have htotal : 0 ≤ kargs.downTotal.getD 0 := by
    cases h : kargs.downTotal with
    | none => exact le_refl 0
    | some x => exact kargs.downTotal_nonneg x h
  have hfraction : 0 ≤ kargs.fractionDone.getD 0 := by
    cases h : kargs.fractionDone with
    | none => exact le_refl 0
    | some x => exact (kargs.fraction x h).1
  unfold Kargs.report
  generalize kargs.downTotal.getD 0 = d at htotal
  generalize kargs.fractionDone.getD 0 = f at hfraction
  by_cases hf : f = 0
  · norm_num [hf, Num.val]
  · have hpos : 0 < min (99 / 100) f := lt_min (by norm_num) (lt_of_le_of_ne hfraction (Ne.symm hf))
    have hlt : min (99 / 100) f < 1 := lt_of_le_of_lt (min_le_left _ _) (by norm_num)
    simp only [ne_eq, ne_of_gt hpos, not_false_eq_true, if_true, Num.val, hf, false_or]
    rw [div_mul_cancel₀ _ (ne_of_gt hpos), lt_div_iff₀ hpos]
    constructor
    · intro h
      by_contra hd
      rw [le_antisymm (not_lt.1 hd) htotal] at h
      norm_num at h
    · intro hd
      exact mul_lt_of_lt_one_right (by linarith) hlt

section
variable {runSubtasks : Task W V E → Task W V E}

theorem bittorrent_noTask (cancelled : Nat → Bool) (l : List Kargs) :
    Throughout (onProgress runSubtasks) cancelled (fun d => NotCompleted d.associatedTask) 0 l
      ⟨none, false⟩ := by
  rw [throughout_iff (fun d => d = ⟨none, false⟩) fun _ _ => True]
  · exact fun _ _ _ => trivial
  · intro d hd
    simp [hd, NotCompleted]
  · intro b a d hd _
    exact ⟨d, by rw [hd]; rfl, hd⟩
  · intro b a d d' _ hok
    exact absurd trivial hok
  · rfl

theorem bittorrent_task_iff (cancelled : Nat → Bool) {τ : Task W V E} (hτ : τ.status ≠ .completed)
    (l : List Kargs) :
    Throughout (onProgress runSubtasks) cancelled (fun d => NotCompleted d.associatedTask) 0 l
        ⟨some τ, false⟩ ↔
      ∀ k kargs, l[k]? = some kargs → cancelled k = true ∨
        kargs.fractionDone.getD 0 = 0 ∨ 0 < kargs.downTotal.getD 0 := by
  rw [throughout_iff (fun d => ∃ τ : Task W V E, d.associatedTask = some τ ∧ τ.status ≠ .completed)
    fun b kargs => b = true ∨ kargs.fractionDone.getD 0 = 0 ∨ 0 < kargs.downTotal.getD 0]
  · simp only [Nat.zero_add]
  · intro d ⟨τ, hd, hτ⟩
    simpa [NotCompleted, hd] using hτ
  · intro b kargs d ⟨τ, hd, hτ⟩ hok
    let sized : Task W V E := { τ with size := kargs.report.1 }
    have hshort : b = true ∨ kargs.report.2.val < sized.size.val := hok.imp_right kargs.report_lt.2
    refine ⟨_, by rw [onProgress, hd], _, rfl, ?_⟩
    rwa [(sized.setProgress_short runSubtasks hshort).1]
  · intro b kargs d d' ⟨τ, hd, hτ⟩ hok hcall
    let sized : Task W V E := { τ with size := kargs.report.1 }
    rw [onProgress, hd] at hcall
    cases hcall
    rw [notCompleted_setProgress runSubtasks b kargs.report.2 sized hτ]
    exact fun h => hok (h.imp_right kargs.report_lt.1)
  · exact ⟨τ, rfl, hτ⟩

end

/-- The adapters do what they should for exactly the downloads that fall short
in every report. -/
theorem adapters_quiet_iff (runSubtasks : Task W V E → Task W V E) (cancelled : Nat → Bool)
    (task : Option (Task W V E)) (hactive : ∀ τ ∈ task, τ.status = .active) (source : Source) :
    Quiet runSubtasks cancelled task source ↔ source.Short cancelled task.isSome := by
  cases source with
  | http r =>
    obtain ⟨contentLength, amounts, _, _⟩ := r
    cases task with
    | none =>
      refine (http_noTask_iff cancelled contentLength amounts).trans ?_
      simp [Source.Short, Option.isSome_iff_exists]
    | some τ =>
      have hτ : τ.status ≠ .completed := by simp [hactive τ rfl]
      cases contentLength with
      | none =>
        refine iff_of_false (not_throughout_error (x := PyError.typeError) rfl) ?_
        simp [Source.Short]
      | some n =>
        refine (http_task_iff cancelled hτ n amounts).trans ?_
        simp [Source.Short]
  | bittorrent l =>
    cases task with
    | none => exact iff_of_true (bittorrent_noTask cancelled l) (by simp [Source.Short])
    | some τ =>
      have hτ : τ.status ≠ .completed := by simp [hactive τ rfl]
      refine (bittorrent_task_iff cancelled hτ l).trans ?_
      simp [Source.Short]

/-- A task whose function runs. -/
def activeTask : Task Unit Unit Nat := { (default : Task Unit Unit Nat) with status := .active }

/-- A transfer that is halfway. -/
def halfway : Response where
  contentLength := some 4096
  amounts := [1024, 2048]
  sorted := by decide
  le := by simp

theorem adapters_quiet_iff_halfway : Quiet id (fun _ => false) (some activeTask) (.http halfway) := by
  refine (adapters_quiet_iff id (fun _ => false) (some activeTask) (by simp [activeTask])
    (.http halfway)).2 ⟨4096, rfl, fun _ k a hk => ?_⟩
  have ha := List.mem_of_getElem? hk
  simp [halfway] at ha
  omega

/-- A server that does not announce the length of what it sends. -/
def noLength : Response where
  contentLength := none
  amounts := [1024]
  sorted := by decide
  le := by simp

/-- `None / 1024` in `start` -/
theorem noLength_raises : ¬ ∀ (runSubtasks : Task Unit Unit Nat → Task Unit Unit Nat)
    (cancelled : Nat → Bool) (task : Option (Task Unit Unit Nat)) (source : Source),
    (∀ τ ∈ task, τ.status = .active) → Quiet runSubtasks cancelled task source := by
  intro h
  have hquiet := h id (fun _ => false) (some activeTask) (.http noLength) (by simp [activeTask])
  exact not_throughout_error (x := PyError.typeError) rfl hquiet

end Wubi.Tasks
