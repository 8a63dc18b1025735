import Mathlib.Logic.Function.Basic
import Mathlib.Order.Defs.Unbundled

/-!
# Functions of one worker

`Prog W V E α` is what a task's function does, seen from the worker that runs
it: it reads and writes the world `W`, raises and handles exceptions `E`,
reports progress on its own task, and creates subtasks that it calls at once.
It returns an `α`; a function that is run as a task returns an `Option V`
(`none` is None).

**Meaning.** `Prog.run user p s` runs `p` in state `s`. The root is cancelled
by a required subtask that raises, or by the user, who may do so at any point
where a task notices it: `user n` says whether the user has cancelled by the
`n`-th of these points.

**Calling a task.** A call on a cancelled list returns None at once. Otherwise
the subtask's function runs; its exception is not raised again: the call
returns None, and the root is cancelled if the subtask was required.

**Reasoning.** `wp user p Q R s`: `p` started in `s` ends in `Q` when it
returns and in `R` when it raises. One rule for each construct, all of them
equivalences, so a function is run symbolically by rewriting.
-/
namespace Wubi.Tasks

inductive Prog (W V E : Type) : Type → Type 1
  | ret {α : Type} (a : α) : Prog W V E α
  | andThen {α β : Type} (p : Prog W V E β) (k : β → Prog W V E α) : Prog W V E α
  | raise {α : Type} (e : E) : Prog W V E α
  | tryCatch {α : Type} (p : Prog W V E α) (h : E → Prog W V E α) : Prog W V E α
  | act {α : Type} (f : W → α × W) : Prog W V E α
  /-- `associated_task.size = size` -/
  | setSize (size : Nat) : Prog W V E Unit
  /-- `associated_task.set_progress(completed)`; True asks the function to stop -/
  | setProgress (completed : Nat) : Prog W V E Bool
  /-- `associated_task.finish()` -/
  | finish : Prog W V E Unit
  /-- `associated_task.add_subtask(p, is_required=..)` and a call of the new task -/
  | sub (isRequired : Bool) (p : Prog W V E (Option V)) : Prog W V E (Option V)

instance {W V E : Type} : Monad (Prog W V E) where
  pure := .ret
  bind := .andThen

/-- What a worker sees: the world and whether the root is cancelled. -/
structure St (W : Type) where
  world : W
  cancelled : Bool
  /-- the points at which a cancellation was noticed or could have been -/
  polls : Nat

variable {W V E α β : Type}

/-- A change of the world only. -/
def St.map (f : W → W) (s : St W) : St W := { s with world := f s.world }

/-- A point at which the user's cancellation shows. -/
def St.poll (user : Nat → Bool) (s : St W) : St W :=
  { s with cancelled := s.cancelled || user s.polls, polls := s.polls + 1 }

/-- `root.cancel()` if the task is required. -/
def St.fail (isRequired : Bool) (s : St W) : St W :=
  { s with cancelled := s.cancelled || isRequired }

@[simp] theorem St.map_world {f : W → W} {s : St W} : (s.map f).world = f s.world := rfl

@[simp] theorem St.map_cancelled {f : W → W} {s : St W} : (s.map f).cancelled = s.cancelled := rfl

@[simp] theorem St.map_map {f g : W → W} {s : St W} : (s.map f).map g = s.map (g ∘ f) := rfl

@[simp] theorem St.poll_world {user : Nat → Bool} {s : St W} : (s.poll user).world = s.world := rfl

@[simp] theorem St.fail_world {r : Bool} {s : St W} : (s.fail r).world = s.world := rfl

namespace Prog

/-- mirrors src/wubi/backends/common/tasklist.py:126-147,178-214 -/
def run (user : Nat → Bool) : {α : Type} → Prog W V E α → St W → Except E α × St W
  | _, .ret a, s => (.ok a, s)
  | _, .andThen p k, s =>
    match p.run user s with
    | (.ok b, s') => (k b).run user s'
    | (.error e, s') => (.error e, s')
  | _, .raise e, s => (.error e, s)
  | _, .tryCatch p h, s =>
    match p.run user s with
    | (.ok a, s') => (.ok a, s')
    | (.error e, s') => (h e).run user s'
  | _, .act f, s => (.ok (f s.world).1, { s with world := (f s.world).2 })
  | _, .setSize _, s => (.ok (), s)
  | _, .setProgress _, s => (.ok (s.poll user).cancelled, s.poll user)
  | _, .finish, s => (.ok (), s)
  | _, .sub isRequired p, s =>
    if (s.poll user).cancelled then (.ok none, s.poll user)
    else
      match p.run user (s.poll user) with
      | (.ok v, s') => (.ok v, s')
      | (.error _, s') => (.ok none, s'.fail isRequired)

/-- The world, for reading. -/
def get : Prog W V E W := .act fun w => (w, w)

def modify (f : W → W) : Prog W V E Unit := .act fun w => ((), f w)

/-- Raise the error of `x`, or return its value. -/
def lift : Except E α → Prog W V E α
  | .ok a => .ret a
  | .error e => .raise e

/-- `if c: p` -/
def when (c : Bool) (p : Prog W V E Unit) : Prog W V E Unit := if c then p else Pure.pure ()

/-- `p` as the function of a task. -/
def asTask (p : Prog W V E α) (toVal : α → Option V) : Prog W V E (Option V) :=
  p.andThen fun a => .ret (toVal a)

/-! ## Pre- and postconditions -/

def wp (user : Nat → Bool) (p : Prog W V E α) (Q : α → St W → Prop) (R : E → St W → Prop)
    (s : St W) : Prop :=
  match p.run user s with
  | (.ok a, s') => Q a s'
  | (.error e, s') => R e s'

section
variable {user : Nat → Bool} {Q : α → St W → Prop} {R : E → St W → Prop} {s : St W}

@[simp] theorem wp_pure {a : α} : wp (V := V) user (Pure.pure a) Q R s ↔ Q a s := Iff.rfl

@[simp] theorem wp_bind {p : Prog W V E β} {k : β → Prog W V E α} :
    wp user (p >>= k) Q R s ↔ wp user p (fun b s' => wp user (k b) Q R s') R s := by
  simp only [wp, Bind.bind, run]
  cases p.run user s with | mk r s' => cases r <;> rfl

@[simp] theorem wp_raise {e : E} : wp (V := V) user (.raise e) Q R s ↔ R e s := Iff.rfl

@[simp] theorem wp_tryCatch {p : Prog W V E α} {h : E → Prog W V E α} :
    wp user (.tryCatch p h) Q R s ↔ wp user p Q (fun e s' => wp user (h e) Q R s') s := by
  simp only [wp, run]
  cases p.run user s with | mk r s' => cases r <;> rfl

@[simp] theorem wp_act {f : W → α × W} :
    wp (V := V) user (.act f) Q R s ↔ Q (f s.world).1 (s.map fun w => (f w).2) := Iff.rfl

@[simp] theorem wp_get {Q : W → St W → Prop} :
    wp (V := V) user get Q R s ↔ Q s.world s := Iff.rfl

@[simp] theorem wp_modify {f : W → W} {Q : Unit → St W → Prop} :
    wp (V := V) user (modify f) Q R s ↔ Q () (s.map f) := Iff.rfl

@[simp] theorem wp_lift_ok {a : α} : wp (V := V) user (lift (.ok a)) Q R s ↔ Q a s := Iff.rfl

@[simp] theorem wp_lift_error {e : E} : wp (V := V) user (lift (.error e)) Q R s ↔ R e s := Iff.rfl

@[simp] theorem wp_setSize {n : Nat} {Q : Unit → St W → Prop} :
    wp (V := V) user (.setSize n) Q R s ↔ Q () s := Iff.rfl

@[simp] theorem wp_setProgress {n : Nat} {Q : Bool → St W → Prop} :
    wp (V := V) user (.setProgress n) Q R s ↔ Q (s.poll user).cancelled (s.poll user) := Iff.rfl

@[simp] theorem wp_finish {Q : Unit → St W → Prop} :
    wp (V := V) user .finish Q R s ↔ Q () s := Iff.rfl

theorem wp_sub {isRequired : Bool} {p : Prog W V E (Option V)} {Q : Option V → St W → Prop} :
    wp user (.sub isRequired p) Q R s ↔
      ((s.poll user).cancelled = true → Q none (s.poll user)) ∧
      ((s.poll user).cancelled = false →
        wp user p Q (fun _ s' => Q none (s'.fail isRequired)) (s.poll user)) := by
  simp only [wp, run]
  cases (s.poll user).cancelled with
  | true => simp
  | false =>
    simp only [Bool.false_eq_true, if_false, false_implies, forall_const, true_and]
    cases p.run user (s.poll user) with | mk r s' => cases r <;> rfl

@[simp] theorem wp_asTask {p : Prog W V E β} {toVal : β → Option V}
    {Q : Option V → St W → Prop} :
    wp user (p.asTask toVal) Q R s ↔ wp user p (fun b s' => Q (toVal b) s') R s :=
  wp_bind (k := fun b => .ret (toVal b))

theorem wp_ite {c : Prop} [Decidable c] {p q : Prog W V E α} :
    wp user (if c then p else q) Q R s ↔ (c → wp user p Q R s) ∧ (¬ c → wp user q Q R s) := by
  by_cases h : c <;> simp [h]

@[simp] theorem wp_when_true {p : Prog W V E Unit} {Q : Unit → St W → Prop} :
    wp user (when true p) Q R s ↔ wp user p Q R s := Iff.rfl

@[simp] theorem wp_when_false {p : Prog W V E Unit} {Q : Unit → St W → Prop} :
    wp user (when false p) Q R s ↔ Q () s := Iff.rfl

/-- The rule of consequence. -/
theorem wp_mono {p : Prog W V E α} {Q' : α → St W → Prop} {R' : E → St W → Prop}
    (h : wp user p Q R s) (hQ : ∀ a s', Q a s' → Q' a s') (hR : ∀ e s', R e s' → R' e s') :
    wp user p Q' R' s := by
  unfold wp at h ⊢
  split
  · rename_i he; rw [he] at h; exact hQ _ _ h
  · rename_i he; rw [he] at h; exact hR _ _ h

theorem wp_and {p : Prog W V E α} {Q' : α → St W → Prop} {R' : E → St W → Prop}
    (h : wp user p Q R s) (h' : wp user p Q' R' s) :
    wp user p (fun a s' => Q a s' ∧ Q' a s') (fun e s' => R e s' ∧ R' e s') s := by
  unfold wp at h h' ⊢
  split
  · rename_i he; rw [he] at h h'; exact ⟨h, h'⟩
  · rename_i he; rw [he] at h h'; exact ⟨h, h'⟩

theorem wp_true {p : Prog W V E α} : wp user p (fun _ _ => True) (fun _ _ => True) s := by
  unfold wp
  split <;> trivial

@[simp] theorem wp_const {p : Prog W V E α} {P : Prop} :
    wp user p (fun _ _ => P) (fun _ _ => P) s ↔ P := by
  unfold wp
  split <;> exact Iff.rfl

theorem wp_of_ok {p : Prog W V E α} {s' : St W} {a : α} (h : p.run user s = (.ok a, s')) :
    wp user p Q R s ↔ Q a s' := by
  unfold wp
  rw [h]

theorem wp_of_error {p : Prog W V E α} {s' : St W} {e : E} (h : p.run user s = (.error e, s')) :
    wp user p Q R s ↔ R e s' := by
  unfold wp
  rw [h]

theorem exists_run {p : Prog W V E α} (h : wp user p Q (fun _ _ => False) s) :
    ∃ a s', p.run user s = (.ok a, s') ∧ Q a s' := by
  unfold wp at h
  split at h
  · exact ⟨_, _, by assumption, h⟩
  · exact h.elim

end

/-! ## Relations kept by every step -/

/-- Whatever `p` does, and however it ends, the world before and after it are
related by `ρ`. -/
def Steps (user : Nat → Bool) (ρ : W → W → Prop) (p : Prog W V E α) : Prop :=
  ∀ s, wp user p (fun _ s' => ρ s.world s'.world) (fun _ s' => ρ s.world s'.world) s

namespace Steps

variable {user : Nat → Bool} {ρ : W → W → Prop}

theorem mono {ρ' : W → W → Prop} {p : Prog W V E α} (h : Steps user ρ p)
    (hρ : ∀ w w', ρ w w' → ρ' w w') : Steps user ρ' p :=
  fun s => wp_mono (h s) (fun _ _ => hρ _ _) fun _ _ => hρ _ _

theorem act {f : W → α × W} (h : ∀ w, ρ w (f w).2) : Steps (V := V) (E := E) user ρ (.act f) :=
  fun s => h s.world

theorem modify {f : W → W} (h : ∀ w, ρ w (f w)) : Steps (V := V) (E := E) user ρ (.modify f) :=
  fun s => h s.world

theorem asTask {p : Prog W V E β} {toVal : β → Option V} (h : Steps user ρ p) :
    Steps user ρ (p.asTask toVal) := by
  intro s
  rw [wp_asTask]
  exact h s

theorem ite {c : Prop} [Decidable c] {p q : Prog W V E α} (hp : c → Steps user ρ p)
    (hq : ¬ c → Steps user ρ q) : Steps user ρ (if c then p else q) := by
  split
  · exact hp ‹_›
  · exact hq ‹_›

variable [IsPreorder W ρ]

theorem pure {a : α} : Steps (V := V) (E := E) user ρ (Pure.pure a) := fun _ => refl _

theorem raise {e : E} : Steps (V := V) (α := α) user ρ (.raise e) := fun _ => refl _

theorem get : Steps (V := V) (E := E) user ρ Prog.get := fun _ => refl _

theorem finish : Steps (V := V) (E := E) user ρ Prog.finish := fun _ => refl _

theorem setSize {n : Nat} : Steps (V := V) (E := E) user ρ (.setSize n) := fun _ => refl _

theorem setProgress {n : Nat} : Steps (V := V) (E := E) user ρ (.setProgress n) := fun _ => refl _

theorem lift {x : Except E α} : Steps (V := V) user ρ (Prog.lift x) := by
  cases x with
  | ok a => exact fun _ => refl _
  | error e => exact fun _ => refl _

theorem when {c : Bool} {p : Prog W V E Unit} (h : Steps user ρ p) :
    Steps user ρ (Prog.when c p) := by
  cases c with
  | true => exact h
  | false => exact fun _ => refl _

theorem sub {isRequired : Bool} {p : Prog W V E (Option V)} (h : Steps user ρ p) :
    Steps user ρ (.sub isRequired p) := by
  intro s
  rw [wp_sub]
  exact ⟨fun _ => refl _, fun _ => wp_mono (h (s.poll user)) (fun _ _ h => h) fun _ _ h => h⟩

theorem bind {p : Prog W V E β} {k : β → Prog W V E α} (hp : Steps user ρ p)
    (hk : ∀ b, Steps user ρ (k b)) : Steps user ρ (p >>= k) := by
  intro s
  rw [wp_bind]
  exact wp_mono (hp s) (fun b s' h => wp_mono (hk b s') (fun _ _ h' => IsTrans.trans _ _ _ h h') fun _ _ h' =>
    IsTrans.trans _ _ _ h h') fun _ _ h => h

theorem tryCatch {p : Prog W V E α} {k : E → Prog W V E α} (hp : Steps user ρ p)
    (hk : ∀ e, Steps user ρ (k e)) : Steps user ρ (.tryCatch p k) := by
  intro s
  rw [wp_tryCatch]
  exact wp_mono (hp s) (fun _ _ h => h) fun e s' h =>
    wp_mono (hk e s') (fun _ _ h' => IsTrans.trans _ _ _ h h') fun _ _ h' => IsTrans.trans _ _ _ h h'

end Steps

end Prog

end Wubi.Tasks
