import Wubi.Core.LTS
import Wubi.Core.Num

/-!
# `Task` and `ThreadedTaskList` as a labelled transition system

Model of `src/wubi/backends/common/tasklist.py`. A task runs its associated
function and then its subtasks; functions call back into the task objects
while they run (`set_progress`, `finish`, `add_subtask`, a call of another
task), so one `__call__` is not one step.

**Functions.** An associated function is a `Script`: a finite tree of the
operations it performs on tasks, branching on what each of them returns, with
`act` for everything else it does (an effect on the world `W`, the state that
functions share). It ends by `ret` or `raise`. A function receives its own
task (`associated_task`) as an argument.

**Store.** Task objects are numbered in the order of their creation; the root
is number 0. The initial tree and every tree passed to `add_subtask` are
entered by `alloc`.

**Threads.** A thread is a stack of frames, the innermost first: a running
function, a function that waits for `set_progress` or for a call, the loop of
`_run_subtasks`, a pending `finish()`, a pending `return`. One step of the
system is one step of the top frame of one thread: the segment of a `Task`
method between two points where foreign code runs. In particular the guard of
`__call__` with its switch to ACTIVE is one step, and so is the `except`
branch up to `root.cancel()`.

Left out: names, descriptions, units, speeds, time stamps and
`current_subtask`, which none of the methods modelled here reads; the
arguments of a call, which a script passes through the world.
-/
namespace Wubi.Tasks

/-- mirrors src/wubi/backends/common/tasklist.py:53-57 -/
inductive Status where
  | inactive | active | completed | failed | cancelled
  deriving DecidableEq, Repr

mutual

/-- What an associated function does, from some point on. `act f k` replaces
the world `w` by `f w` and goes on with `k w`. -/
inductive Script (W V E : Type) where
  | ret (v : Option V)
  | raise (e : E)
  | act (f : W → W) (k : W → Script W V E)
  | addSubtask (t : Nat) (new : NewTask W V E) (k : Nat → Script W V E)
  | setProgress (t : Nat) (completed : Num) (size : Option Num) (k : Bool → Script W V E)
  | setSize (t : Nat) (size : Num) (k : Script W V E)
  | finish (t : Nat) (k : Script W V E)
  | cancel (t : Nat) (k : Script W V E)
  | call (t : Nat) (k : Option V → Script W V E)

/-- A task object that is not in the tree yet, with its subtasks. -/
inductive NewTask (W V E : Type) where
  | mk (isRequired : Bool) (size weight : Num) (fn : Nat → Script W V E)
      (subtasks : List (NewTask W V E))

end

/-- The attributes of a `Task` that its methods read.
mirrors src/wubi/backends/common/tasklist.py:59-112 -/
structure Task (W V E : Type) where
  parent : Option Nat
  subtasks : List Nat
  status : Status
  completed : Num
  size : Num
  weight : Num
  isRequired : Bool
  error : Option E
  result : Option V
  fn : Nat → Script W V E

instance {W V E : Type} : Inhabited (Task W V E) :=
  ⟨none, [], .inactive, .int 0, .int 1, .int 1, true, none, none, fun _ => .ret none⟩

/-- The task objects and the root's `_stopped_event`. `threaded` is the class
of the root: `ThreadedTaskList` or plain `TaskList`. -/
structure Store (W V E : Type) where
  threaded : Bool
  stopped : Bool
  tasks : List (Task W V E)
  world : W

inductive Frame (W V E : Type) where
  /-- the function of task `own`, or (`none`) the thread's own code -/
  | body (own : Option Nat) (p : Script W V E)
  /-- a function waiting for `set_progress` to return -/
  | awaitProgress (own : Option Nat) (k : Bool → Script W V E)
  /-- a function waiting for a called task to return -/
  | awaitCall (own : Option Nat) (k : Option V → Script W V E)
  /-- the loop of `_run_subtasks`, before index `i` -/
  | subtasks (t : Nat) (i : Nat)
  /-- `self.finish()` is next -/
  | finish (t : Nat)
  /-- `return self.associated_function_result` is next -/
  | result (t : Nat)

structure Sys (W V E : Type) where
  store : Store W V E
  threads : List (List (Frame W V E))

variable {W V E : Type}

/-! ## Reading the tree -/

namespace Store

def n (s : Store W V E) : Nat := s.tasks.length

def task (s : Store W V E) (t : Nat) : Task W V E := s.tasks.getD t default

def modify (s : Store W V E) (t : Nat) (f : Task W V E → Task W V E) : Store W V E :=
  { s with tasks := s.tasks.modify t f }

/-- The recursions to the root take the number of levels they may climb; a
parent is older than its children, so `t + 1` levels reach the root.
mirrors src/wubi/backends/common/tasklist.py:174-176 -/
def isActive (s : Store W V E) : Nat → Nat → Bool
  | 0, _ => false
  | k + 1, t => (s.task t).status == .active &&
      match (s.task t).parent with
      | none => true
      | some p => isActive s k p

/-- mirrors src/wubi/backends/common/tasklist.py:170-172,395-396 -/
def isCancelled (s : Store W V E) : Nat → Nat → Bool
  | 0, _ => false
  | k + 1, t => (s.task t).status == .cancelled ||
      match (s.task t).parent with
      | none => s.stopped
      | some p => isCancelled s k p

/-- mirrors src/wubi/backends/common/tasklist.py:216-219 -/
def getRoot (s : Store W V E) : Nat → Nat → Nat
  | 0, t => t
  | k + 1, t =>
      match (s.task t).parent with
      | none => t
      | some p => getRoot s k p

/-- The guard of `__call__` lets task `t` run.
mirrors src/wubi/backends/common/tasklist.py:179-181 -/
def canStart (s : Store W V E) (t : Nat) : Bool :=
  (s.task t).status == .inactive &&
    match (s.task t).parent with
    | none => true
    | some p => s.isActive (p + 1) p

/-- `self.size` after `if size: self.size = size`. -/
def newSize (s : Store W V E) (t : Nat) : Option Num → Num
  | some sz => if sz.truthy then sz else (s.task t).size
  | none => (s.task t).size

end Store

/-! ## Creating tasks -/

/-- A task object as `__init__` leaves it, with its parent.
mirrors src/wubi/backends/common/tasklist.py:59-112,119,373 -/
def Task.init (parent : Option Nat) (isRequired : Bool) (size weight : Num)
    (fn : Nat → Script W V E) : Task W V E :=
  ⟨parent, [], .inactive, .int 0, size, weight, isRequired, none, none, fn⟩

/-- `self.subtasks.append(task)`. -/
def link (ts : List (Task W V E)) (p t : Nat) : List (Task W V E) :=
  ts.modify p fun τ => { τ with subtasks := τ.subtasks ++ [t] }

mutual

/-- Enter a task object and its subtasks below `p`.
mirrors src/wubi/backends/common/tasklist.py:114-124,371-374 -/
def alloc (ts : List (Task W V E)) (p : Nat) : NewTask W V E → List (Task W V E)
  | .mk isRequired size weight fn subtasks =>
    allocAll (link (ts ++ [Task.init (some p) isRequired size weight fn]) p ts.length)
      ts.length subtasks

def allocAll (ts : List (Task W V E)) (p : Nat) : List (NewTask W V E) → List (Task W V E)
  | [] => ts
  | new :: news => allocAll (alloc ts p new) p news

end

/-! ## Operations -/

/-- One step's effect on the task objects. -/
inductive Ev (W V E : Type) where
  | tau
  | act (f : W → W)
  /-- `__call__` passed its guard -/
  | start (t : Nat)
  /-- `__call__` returned at its guard -/
  | refuse (t : Nat)
  | returned (t : Nat) (v : Option V)
  | raised (t : Nat) (e : E)
  | add (p : Nat) (new : NewTask W V E)
  /-- `set_progress` returned True -/
  | stop (t : Nat)
  /-- `set_progress` recorded its arguments -/
  | progress (t : Nat) (completed : Num) (size : Option Num)
  | setSize (t : Nat) (size : Num)
  | finish (t : Nat)
  | cancel (t : Nat)

namespace Store

/-- mirrors src/wubi/backends/common/tasklist.py:149-157 -/
def finish (s : Store W V E) (t : Nat) : Store W V E :=
  if (s.task t).status = .completed then s
  else s.modify t fun τ => { τ with completed := τ.size, status := .completed }

/-- `cancel()`; a `ThreadedTaskList` also sets its event.
mirrors src/wubi/backends/common/tasklist.py:164-168,388-390 -/
def cancel (s : Store W V E) (t : Nat) : Store W V E :=
  let s' := s.modify t fun τ => { τ with status := .cancelled }
  if s.threaded = true ∧ (s.task t).parent = none then { s' with stopped := true } else s'

/-- The `except` branch of `__call__`.
mirrors src/wubi/backends/common/tasklist.py:198-211 -/
def fail (s : Store W V E) (t : Nat) (e : E) : Store W V E :=
  let s' := s.modify t fun τ => { τ with error := some e, status := .failed }
  if (s.task t).isRequired then
    let root := s.getRoot (t + 1) t
    (s'.modify root fun τ => { τ with error := some e }).cancel root
  else s'.modify t fun τ => { τ with result := none }

def apply (s : Store W V E) : Ev W V E → Store W V E
  | .tau | .refuse _ | .stop _ => s
  | .act f => { s with world := f s.world }
  | .start t => s.modify t fun τ => { τ with error := none, status := .active }
  | .returned t v => s.modify t fun τ => { τ with result := v }
  | .raised t e => s.fail t e
  | .add p new => { s with tasks := alloc s.tasks p new }
  | .progress t c sz => s.modify t fun τ => { τ with completed := c, size := s.newSize t sz }
  | .setSize t sz => s.modify t fun τ => { τ with size := sz }
  | .finish t => s.finish t
  | .cancel t => s.cancel t

/-- `_notify_listeners` runs at the end of the step, so the callback sees the
state after it.
mirrors src/wubi/backends/common/tasklist.py:123,141-147,150-157,168,187,210 -/
def notifies (s : Store W V E) : Ev W V E → Bool
  | .start _ | .raised _ _ | .add _ _ | .cancel _ => true
  | .progress t c sz => !c.ge (s.newSize t sz)
  | .finish t => (s.task t).status != .completed
  | _ => false

end Store

/-! ## Steps -/

/-- `set_progress` returns None to the frame below. -/
def resumeProgress : List (Frame W V E) → List (Frame W V E)
  | .awaitProgress own k :: fs => .body own (k false) :: fs
  | fs => fs

/-- A call returns `v` to the frame below; the loop of `_run_subtasks` and the
end of a thread ignore it. -/
def resumeCall (v : Option V) : List (Frame W V E) → List (Frame W V E)
  | .awaitCall own k :: fs => .body own (k v) :: fs
  | fs => fs

/-- What `__call__` still does after its function. -/
def tail (t : Nat) (fs : List (Frame W V E)) : List (Frame W V E) :=
  .subtasks t 0 :: .finish t :: .result t :: fs

/-- The next operation of a function, its event and the new stack. `none`: the
script names a task that does not exist.
mirrors src/wubi/backends/common/tasklist.py:114-214 -/
def stepBody (s : Store W V E) (own : Option Nat) (fs : List (Frame W V E)) :
    Script W V E → Option (Ev W V E × List (Frame W V E))
  | .ret v =>
    match own with
    | some t => some (.returned t v, tail t fs)
    | none => some (.tau, fs)
  | .raise e =>
    match own with
    | some t =>
      some (.raised t e, if (s.task t).isRequired then resumeCall none fs else tail t fs)
    | none => some (.tau, [])
  | .act f k => some (.act f, .body own (k s.world) :: fs)
  | .addSubtask p new k => if p < s.n then some (.add p new, .body own (k s.n) :: fs) else none
  | .setProgress t c sz k =>
    if t < s.n then
      if s.isCancelled (t + 1) t then some (.stop t, .body own (k true) :: fs)
      else if c.ge (s.newSize t sz) then
        some (.progress t c sz, .subtasks t 0 :: .finish t :: .awaitProgress own k :: fs)
      else some (.progress t c sz, .body own (k false) :: fs)
    else none
  | .setSize t sz k => if t < s.n then some (.setSize t sz, .body own k :: fs) else none
  | .finish t k => if t < s.n then some (.finish t, .body own k :: fs) else none
  | .cancel t k => if t < s.n then some (.cancel t, .body own k :: fs) else none
  | .call t k =>
    if t < s.n then
      if s.canStart t then
        some (.start t, .body (some t) ((s.task t).fn t) :: .awaitCall own k :: fs)
      else some (.refuse t, .body own (k none) :: fs)
    else none

/-- mirrors src/wubi/backends/common/tasklist.py:141-143,212-214,332-335 -/
def stepFrame (s : Store W V E) (fs : List (Frame W V E)) :
    Frame W V E → Option (Ev W V E × List (Frame W V E))
  | .body own p => stepBody s own fs p
  | .subtasks t i =>
    match (s.task t).subtasks[i]? with
    | some c =>
      if s.canStart c then
        some (.start c, .body (some c) ((s.task c).fn c) :: .subtasks t (i + 1) :: fs)
      else some (.refuse c, .subtasks t (i + 1) :: fs)
    | none => some (.tau, fs)
  | .finish t => some (.finish t, resumeProgress fs)
  | .result t => some (.tau, resumeCall (s.task t).result fs)
  | .awaitProgress _ _ | .awaitCall _ _ => none

/-- Thread `i` takes a step. -/
def step (s : Sys W V E) (i : Nat) : Option (Ev W V E × Sys W V E) :=
  match s.threads[i]? with
  | some (f :: fs) =>
    (stepFrame s.store fs f).map fun (ev, fs') => (ev, ⟨s.store.apply ev, s.threads.set i fs'⟩)
  | _ => none

theorem step_of_frame {s : Sys W V E} {i : Nat} {f : Frame W V E} {fs fs' : List (Frame W V E)}
    {ev : Ev W V E} (hth : s.threads[i]? = some (f :: fs))
    (h : stepFrame s.store fs f = some (ev, fs')) :
    step s i = some (ev, ⟨s.store.apply ev, s.threads.set i fs'⟩) := by
  unfold step
  rw [hth]
  simp only [h, Option.map_some]

/-- The root of a task list: its function does nothing.
mirrors src/wubi/backends/common/tasklist.py:366-370,382-386 -/
def rootTask : Task W V E := Task.init none true (.int 1) (.float (1 / 100)) fun _ => .ret none

/-- The task list before `start()`: the worker thread is about to call the
root (`run`), the other threads have code of their own.
mirrors src/wubi/backends/common/tasklist.py:366-374,382-386,392-393 -/
def initSys (threaded : Bool) (w : W) (tasks : List (NewTask W V E))
    (others : List (Script W V E)) : Sys W V E :=
  ⟨⟨threaded, false, allocAll [rootTask] 0 tasks, w⟩,
    [.body none (.call 0 fun _ => .ret none)] :: others.map fun p => [.body none p]⟩

/-- The runs of a task list over any tree, in any interleaving of its threads. -/
def taskList (threaded : Bool) : LTS (Sys W V E) (Nat × Ev W V E) where
  init s := ∃ w tasks others, s = initSys threaded w tasks others
  step s l s' := step s l.1 = some (l.2, s')

/-- Run the threads in the order `is`, up to the first that cannot step. -/
def exec : List Nat → Sys W V E → List (Nat × Ev W V E) × Sys W V E
  | [], s => ([], s)
  | i :: is, s =>
    match step s i with
    | none => ([], s)
    | some (ev, s') => ((i, ev) :: (exec is s').1, (exec is s').2)

theorem exec_run (threaded : Bool) (is : List Nat) (s : Sys W V E) :
    (taskList threaded).Run s (exec is s).1 (exec is s).2 := by
  induction is generalizing s with
  | nil => exact .nil s
  | cons i is ih =>
    unfold exec
    cases h : step s i with
    | none => exact .nil s
    | some r => exact .cons h (ih r.2)

/-- Every step that `exec` takes in the order `is` meets the condition. -/
def Meets (C : Sys W V E → Nat × Ev W V E → Prop) : List Nat → Sys W V E → Prop
  | [], _ => True
  | i :: is, s =>
    match step s i with
    | none => True
    | some (ev, s') => C s (i, ev) ∧ Meets C is s'

theorem exec_restrict {C : Sys W V E → Nat × Ev W V E → Prop} {threaded : Bool} {is : List Nat}
    {s : Sys W V E} (h : Meets C is s) :
    ((taskList threaded).restrict C).Run s (exec is s).1 (exec is s).2 := by
  induction is generalizing s with
  | nil => exact .nil s
  | cons i is ih =>
    unfold Meets at h
    unfold exec
    cases hstep : step s i with
    | none => exact .nil s
    | some r =>
      rw [hstep] at h
      exact .cons ⟨hstep, h.1⟩ (ih h.2)

instance instDecidableMeets {C : Sys W V E → Nat × Ev W V E → Prop} [∀ s l, Decidable (C s l)] :
    ∀ is s, Decidable (Meets C is s)
  | [], _ => inferInstanceAs (Decidable True)
  | i :: is, s =>
    match hstep : step s i with
    | none => isTrue (by rw [Meets, hstep]; trivial)
    | some (ev, s') =>
      have := instDecidableMeets (C := C) is s'
      decidable_of_iff (C s (i, ev) ∧ Meets C is s') (by rw [Meets, hstep])

end Wubi.Tasks
