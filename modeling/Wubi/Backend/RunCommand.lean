import Wubi.Core.LTS
import Wubi.Core.Pipe
import Wubi.Core.Text

/-!
# `run_command` and its child process

The child writes to its stdout and its stderr in any order and exits; both are
pipes of the same capacity. `run_command` reads all of stdout, then all of
stderr, and then waits for the exit status. Its child's stdin is closed at once
and is not modelled, nor is the window that `STARTUPINFO` hides.

**Blocking.** A write enters its pipe byte by byte as there is room. A read of
an empty pipe waits until the child has written or exited, and the exit closes
the child's end of both pipes. `childStep` and `parentStep` are none where the
process is blocked or has ended.

**Result.** Nothing takes bytes out of the stderr pipe before stdout is closed,
so the two processes block each other for ever exactly if the child writes more
to stderr than that pipe holds.
-/
namespace Wubi.Backend.RunCommand

inductive Fd | stdout | stderr
  deriving DecidableEq, Repr

/-- What the child does: its writes in order, and its exit status. -/
structure Child where
  writes : List (Fd × Str)
  status : Nat
  deriving DecidableEq, Repr

/-- The bytes for `fd` among writes of single bytes. -/
def bytesFor (fd : Fd) (todo : List (Fd × Char)) : Str :=
  (todo.filter fun w => w.1 = fd).map (·.2)

def Child.bytes (c : Child) : List (Fd × Char) :=
  c.writes.flatMap fun w => w.2.map fun b => (w.1, b)

/-- All that the child writes to `fd`. -/
def Child.written (c : Child) (fd : Fd) : Str := (c.writes.filter fun w => w.1 = fd).flatMap (·.2)

/-- The statement of `run_command` that is executed. -/
inductive Line
  | readStdout
  | readStderr
  | wait
  | left (result : Except Str Str)

structure State (cap : Nat) where
  /-- The writes of the child that are not in a pipe yet. -/
  todo : List (Fd × Char)
  /-- The exit status, once the child has exited. -/
  exited : Option Nat
  stdout : Pipe cap Char
  stderr : Pipe cap Char
  line : Line
  output : Str
  errormsg : Str

variable {cap : Nat}

def start (cap : Nat) (c : Child) : State cap where
  todo := c.bytes
  exited := none
  stdout := .empty
  stderr := .empty
  line := .readStdout
  output := []
  errormsg := []

def childStep (c : Child) (s : State cap) : Option (State cap) :=
  match s.exited, s.todo with
  | some _, _ => none
  | none, [] => some { s with exited := some c.status }
  | none, (.stdout, b) :: todo => (s.stdout.push b).map fun p => { s with stdout := p, todo := todo }
  | none, (.stderr, b) :: todo => (s.stderr.push b).map fun p => { s with stderr := p, todo := todo }

/-- The text of the exception. Its last two arguments stand in each other's
place.
mirrors src/wubi/backends/common/utils.py:62-64 -/
def errorText (command : List Str) (retval : Nat) (output errormsg : Str) : Str :=
  "Error executing command\n>>command=".toList ++ [' '].intercalate command ++
    "\n>>retval=".toList ++ (Nat.toDigits 10 retval) ++ "\n>>stderr=".toList ++ output ++
    "\n>>stdout=".toList ++ errormsg

/-- mirrors src/wubi/backends/common/utils.py:56-64 -/
def parentStep (command : List Str) (s : State cap) : Option (State cap) :=
  match s.line with
  | .readStdout => match s.stdout.pop with
    | some (b, p) => some { s with stdout := p, output := s.output ++ [b] }
    | none => if s.exited.isSome then some { s with line := .readStderr } else none
  | .readStderr => match s.stderr.pop with
    | some (b, p) => some { s with stderr := p, errormsg := s.errormsg ++ [b] }
    | none => if s.exited.isSome then some { s with line := .wait } else none
  | .wait => s.exited.map fun retval =>
      { s with
        line := .left (if retval = 0 then .ok s.output
          else .error (errorText command retval s.output s.errormsg)) }
  | .left _ => none

inductive Process | child | parent
  deriving DecidableEq, Repr

/-- `run_command(command)` and its child, one step of either at a time.
mirrors src/wubi/backends/common/utils.py:38-64 -/
def runCommand (cap : Nat) (command : List Str) (c : Child) : LTS (State cap) Process where
  init s := s = start cap c
  step s l s' := match l with
    | .child => childStep c s = some s'
    | .parent => parentStep command s = some s'

/-- `run_command` has returned or raised. -/
def State.Left (s : State cap) : Prop := ∃ result, s.line = .left result

/-- The two processes never block each other for ever, every run comes to an
end, and a child that exits with 0 has its stdout returned. -/
structure Right (cap : Nat) (command : List Str) (c : Child) : Prop where
  unblocked : ∀ s, (runCommand cap command c).Reachable s → (runCommand cap command c).Ended s → s.Left
  bounded : ∃ n, ∀ ls s, (runCommand cap command c).Run (start cap c) ls s → ls.length ≤ n
  output : c.status = 0 → ∀ s result, (runCommand cap command c).Reachable s →
    s.line = .left result → result = .ok (c.written .stdout)

/-! ## The steps -/

/-- What a step does. -/
inductive Move (command : List Str) (c : Child) (s : State cap) : State cap → Prop
  | exit : s.exited = none → s.todo = [] → Move command c s { s with exited := some c.status }
  | writeStdout (b : Char) (todo : List (Fd × Char)) (p : Pipe cap Char) :
      s.exited = none → s.todo = (.stdout, b) :: todo → p.data = s.stdout.data ++ [b] →
      Move command c s { s with stdout := p, todo := todo }
  | writeStderr (b : Char) (todo : List (Fd × Char)) (p : Pipe cap Char) :
      s.exited = none → s.todo = (.stderr, b) :: todo → p.data = s.stderr.data ++ [b] →
      Move command c s { s with stderr := p, todo := todo }
  | readStdout (b : Char) (p : Pipe cap Char) :
      s.line = .readStdout → s.stdout.data = b :: p.data →
      Move command c s { s with stdout := p, output := s.output ++ [b] }
  | closeStdout : s.line = .readStdout → s.stdout.data = [] → s.exited.isSome →
      Move command c s { s with line := .readStderr }
  | readStderr (b : Char) (p : Pipe cap Char) :
      s.line = .readStderr → s.stderr.data = b :: p.data →
      Move command c s { s with stderr := p, errormsg := s.errormsg ++ [b] }
  | closeStderr : s.line = .readStderr → s.stderr.data = [] → s.exited.isSome →
      Move command c s { s with line := .wait }
  | leave (retval : Nat) : s.line = .wait → s.exited = some retval →
      Move command c s { s with
        line := .left (if retval = 0 then .ok s.output
          else .error (errorText command retval s.output s.errormsg)) }

theorem childStep_move {command : List Str} {c : Child} {s s' : State cap}
    (h : childStep c s = some s') : Move command c s s' := by
  unfold childStep at h
  split at h
  · cases h
  · rename_i hex htodo
    cases h
    exact .exit hex htodo
  · rename_i b todo hex htodo
    obtain ⟨p, hp, rfl⟩ := Option.map_eq_some_iff.1 h
    exact .writeStdout b todo p hex htodo (Pipe.push_eq_some hp)
  · rename_i b todo hex htodo
    obtain ⟨p, hp, rfl⟩ := Option.map_eq_some_iff.1 h
    exact .writeStderr b todo p hex htodo (Pipe.push_eq_some hp)

theorem parentStep_move {command : List Str} {c : Child} {s s' : State cap}
    (h : parentStep command s = some s') : Move command c s s' := by
  unfold parentStep at h
  split at h
  · rename_i hline
    split at h
    · rename_i b p hpop
      cases h
      exact .readStdout b p hline (Pipe.pop_eq_some hpop)
    · rename_i hpop
      split at h
      · rename_i hex
        cases h
        exact .closeStdout hline (Pipe.pop_eq_none hpop) hex
      · cases h
  · rename_i hline
    split at h
    · rename_i b p hpop
      cases h
      exact .readStderr b p hline (Pipe.pop_eq_some hpop)
    · rename_i hpop
      split at h
      · rename_i hex
        cases h
        exact .closeStderr hline (Pipe.pop_eq_none hpop) hex
      · cases h
  · rename_i hline
    obtain ⟨retval, hex, rfl⟩ := Option.map_eq_some_iff.1 h
    exact .leave retval hline hex
  · cases h

theorem step_move {command : List Str} {c : Child} {s s' : State cap} {l : Process}
    (h : (runCommand cap command c).step s l s') : Move command c s s' := by
  cases l with
  | child => exact childStep_move h
  | parent => exact parentStep_move h

/-! ## Bytes -/

@[simp] theorem bytesFor_nil (fd : Fd) : bytesFor fd [] = [] := rfl

@[simp] theorem bytesFor_cons (fd fd' : Fd) (b : Char) (todo : List (Fd × Char)) :
    bytesFor fd ((fd', b) :: todo) = if fd' = fd then b :: bytesFor fd todo else bytesFor fd todo := by
  unfold bytesFor
  by_cases h : fd' = fd <;> simp [h]

theorem bytesFor_append (fd : Fd) (todo todo' : List (Fd × Char)) :
    bytesFor fd (todo ++ todo') = bytesFor fd todo ++ bytesFor fd todo' := by simp [bytesFor]

theorem bytesFor_write (fd fd' : Fd) (text : Str) :
    bytesFor fd (text.map fun b => (fd', b)) = if fd' = fd then text else [] := by
  induction text with
  | nil => simp
  | cons b text ih =>
    rw [List.map_cons, bytesFor_cons, ih]
    split <;> rfl

theorem bytesFor_bytes (fd : Fd) (c : Child) : bytesFor fd c.bytes = c.written fd := by
  unfold Child.bytes Child.written
  induction c.writes with
  | nil => rfl
  | cons w writes ih =>
    rw [List.flatMap_cons, bytesFor_append, bytesFor_write, ih]
    by_cases h : w.1 = fd <;> simp [h]

/-! ## What holds in every state -/

/-- No byte is lost or moved, and `run_command` leaves the read of stdout only
when the child has exited, with all that it wrote to stderr in the pipe. -/
structure Inv (c : Child) (s : State cap) : Prop where
  out : s.output ++ s.stdout.data ++ bytesFor .stdout s.todo = c.written .stdout
  err : s.errormsg ++ s.stderr.data ++ bytesFor .stderr s.todo = c.written .stderr
  exited : ∀ retval, s.exited = some retval → retval = c.status ∧ s.todo = []
  first : s.line = .readStdout → s.errormsg = []
  later : s.line ≠ .readStdout →
    s.exited.isSome ∧ s.stdout.data = [] ∧ (c.written .stderr).length ≤ cap
  result : ∀ result, s.line = .left result → c.status = 0 → result = .ok (c.written .stdout)

theorem inv_start (c : Child) : Inv c (start cap c) where
  out := by simp [start, bytesFor_bytes]
  err := by simp [start, bytesFor_bytes]
  exited retval h := by cases h
  first _ := rfl
  later h := absurd rfl h
  result _ h := by cases h

theorem Inv.todo {c : Child} {s : State cap} (h : Inv c s) (hex : s.exited.isSome) : s.todo = [] := by
  obtain ⟨retval, hr⟩ := Option.isSome_iff_exists.1 hex
  exact (h.exited retval hr).2

theorem Inv.move {command : List Str} {c : Child} {s s' : State cap} (h : Inv c s)
    (hm : Move command c s s') : Inv c s' := by
  cases hm with
  | exit hex htodo =>
    refine { h with exited := ?_, later := ?_ }
    · intro retval hr
      exact ⟨(Option.some.inj hr).symm, htodo⟩
    · intro hl
      exact ⟨rfl, (h.later hl).2⟩
  | writeStdout b todo p hex htodo hp =>
    have hfirst : s.line = .readStdout := by
      by_contra hl
      simpa [hex] using (h.later hl).1
    have hout := h.out
    have herr := h.err
    simp only [htodo, bytesFor_cons] at hout herr
    refine { h with out := ?_, err := ?_, exited := ?_, later := ?_ }
    · simpa [hp] using hout
    · simpa using herr
    · intro retval hr
      cases hex.symm.trans hr
    · intro hl
      exact absurd hfirst hl
  | writeStderr b todo p hex htodo hp =>
    have hout := h.out
    have herr := h.err
    simp only [htodo, bytesFor_cons] at hout herr
    refine { h with out := ?_, err := ?_, exited := ?_ }
    · simpa using hout
    · simpa [hp] using herr
    · intro retval hr
      cases hex.symm.trans hr
  | readStdout b p hl hp =>
    refine { h with out := ?_, later := ?_ }
    · simpa [hp] using h.out
    · intro hl'
      exact absurd hl hl'
  | closeStdout hl hempty hex =>
    -- all of stderr is in its pipe, so it fits
    have herr := h.err
    have hle := s.stderr.le
    rw [h.first hl, h.todo hex, bytesFor_nil, List.nil_append, List.append_nil] at herr
    refine { h with first := ?_, later := ?_, result := ?_ }
    · intro hl'
      cases hl'
    · intro _
      exact ⟨hex, hempty, herr ▸ hle⟩
    · intro _ hl'
      cases hl'
  | readStderr b p hl hp =>
    refine { h with err := ?_, first := ?_ }
    · simpa [hp] using h.err
    · intro hl'
      cases hl.symm.trans hl'
  | closeStderr hl hempty hex =>
    refine { h with first := ?_, later := ?_, result := ?_ }
    · intro hl'
      cases hl'
    · intro _
      exact h.later (by simp [hl])
    · intro _ hl'
      cases hl'
  | leave retval hl hex =>
    obtain ⟨hsome, hempty, hle⟩ := h.later (by simp [hl])
    have hout := h.out
    rw [h.todo hsome, hempty, bytesFor_nil, List.append_nil, List.append_nil] at hout
    refine { h with first := ?_, later := ?_, result := ?_ }
    · intro hl'
      cases hl'
    · intro _
      exact ⟨hsome, hempty, hle⟩
    · intro result hr hstatus
      have hretval : retval = 0 := (h.exited retval hex).1.trans hstatus
      cases hr
      rw [if_pos hretval, hout]

theorem inductive_inv (command : List Str) (c : Child) :
    (runCommand cap command c).Inductive (Inv c) where
  init _ hs := hs ▸ inv_start c
  step _ _ _ h hst := h.move (step_move hst)

/-! ## The end of a run -/

def Line.rank : Line → Nat
  | .readStdout => 3
  | .readStderr => 2
  | .wait => 1
  | .left _ => 0

/-- A byte of the child counts twice until it is in its pipe, so every step
lowers this. -/
def State.rest (s : State cap) : Nat :=
  2 * s.todo.length + s.stdout.data.length + s.stderr.data.length +
    (if s.exited.isSome then 0 else 1) + s.line.rank

theorem Move.rest_lt {command : List Str} {c : Child} {s s' : State cap}
    (hm : Move command c s s') : s'.rest < s.rest := by
  unfold State.rest
  cases hm with
  | exit hex htodo => simp [hex]
  | writeStdout b todo p hex htodo hp => simp [htodo, hp]; omega
  | writeStderr b todo p hex htodo hp => simp [htodo, hp]; omega
  | readStdout b p hl hp => simp [hp]
  | closeStdout hl hempty hex => simp [hl, Line.rank]
  | readStderr b p hl hp => simp [hp]
  | closeStderr hl hempty hex => simp [hl, Line.rank]
  | leave retval hl hex => simp [hl, Line.rank]

theorem step_rest_lt {command : List Str} {c : Child} (s : State cap) (l : Process) (s' : State cap)
    (h : (runCommand cap command c).step s l s') : s'.rest < s.rest := (step_move h).rest_lt

/-! ## Where a run can end -/

theorem childStep_none {c : Child} {s : State cap} (h : childStep c s = none)
    (hex : s.exited = none) :
    (∃ b todo, s.todo = (.stdout, b) :: todo ∧ s.stdout.data.length = cap) ∨
    (∃ b todo, s.todo = (.stderr, b) :: todo ∧ s.stderr.data.length = cap) := by
  unfold childStep at h
  rw [hex] at h
  match htodo : s.todo with
  | [] => simp [htodo] at h
  | (.stdout, b) :: todo =>
    simp only [htodo, Option.map_eq_none_iff] at h
    exact .inl ⟨b, todo, rfl, Pipe.push_eq_none h⟩
  | (.stderr, b) :: todo =>
    simp only [htodo, Option.map_eq_none_iff] at h
    exact .inr ⟨b, todo, rfl, Pipe.push_eq_none h⟩

/-- `run_command` is blocked only where the child has not exited. -/
theorem parentStep_none {command : List Str} {s : State cap} (h : parentStep command s = none)
    (hleft : ¬ s.Left) : s.exited = none ∧ (s.line = .readStdout → s.stdout.data = []) := by
  unfold parentStep at h
  split at h
  · split at h
    · cases h
    · rename_i hpop
      split at h
      · cases h
      · rename_i hex
        exact ⟨by simpa using hex, fun _ => Pipe.pop_eq_none hpop⟩
  · rename_i hline
    split at h
    · cases h
    · split at h
      · cases h
      · rename_i hex
        exact ⟨by simpa using hex, fun hl => by cases hline.symm.trans hl⟩
  · rename_i hline
    exact ⟨Option.map_eq_none_iff.1 h, fun hl => by cases hline.symm.trans hl⟩
  · rename_i result hline
    exact absurd ⟨result, hline⟩ hleft

/-- A run that ends before `run_command` has left stands at the read of
stdout, with the stderr pipe full and the child about to write to it. -/
theorem Inv.lt_of_blocked {command : List Str} {c : Child} {s : State cap} (hcap : 0 < cap)
    (h : Inv c s) (hend : (runCommand cap command c).Ended s) (hleft : ¬ s.Left) :
    cap < (c.written .stderr).length := by
  have hparent : parentStep command s = none :=
    Option.eq_none_iff_forall_not_mem.2 fun s' hs => hend .parent s' hs
  have hchild : childStep c s = none :=
    Option.eq_none_iff_forall_not_mem.2 fun s' hs => hend .child s' hs
  obtain ⟨hex, hempty⟩ := parentStep_none hparent hleft
  have hline : s.line = .readStdout := by
    by_contra hl
    simpa [hex] using (h.later hl).1
  rcases childStep_none hchild hex with ⟨b, todo, htodo, hfull⟩ | ⟨b, todo, htodo, hfull⟩
  · rw [hempty hline, List.length_nil] at hfull
    omega
  · have herr := h.err
    rw [h.first hline, htodo, bytesFor_cons, if_pos rfl] at herr
    rw [← herr, List.length_append, List.length_append, List.length_cons, hfull]
    omega

theorem Inv.le_of_left {c : Child} {s : State cap} (h : Inv c s) (hleft : s.Left) :
    (c.written .stderr).length ≤ cap := by
  obtain ⟨result, hline⟩ := hleft
  exact (h.later (by simp [hline])).2.2

/-- `run_command` works with exactly the children that write at most as much
to stderr as its pipe holds. -/
theorem runCommand_right_iff (cap : Nat) (hcap : 0 < cap) (command : List Str) (c : Child) :
    Right cap command c ↔ (c.written .stderr).length ≤ cap := by
  have hinv : ∀ s : State cap, (runCommand cap command c).Reachable s → Inv c s :=
    (inductive_inv command c).reachable
  constructor
  · intro h
    obtain ⟨ls, s, hrun, hend⟩ := LTS.exists_ended step_rest_lt (start cap c)
    have hr : (runCommand cap command c).Reachable s := ⟨start cap c, ls, rfl, hrun⟩
    exact (hinv s hr).le_of_left (h.unblocked s hr hend)
  · intro hle
    refine ⟨?_, ⟨(start cap c).rest, ?_⟩, ?_⟩
    · intro s hr hend
      by_contra hleft
      have := (hinv s hr).lt_of_blocked hcap hend hleft
      omega
    · intro ls s hrun
      have := hrun.length_le step_rest_lt
      omega
    · intro hstatus s result hr hline
      exact (hinv s hr).result result hline hstatus

/-- A child that writes to both and fills neither pipe. -/
theorem runCommand_right_attrib :
    Right 2 ["attrib".toList] ⟨[(.stdout, ['o', 'k']), (.stderr, ['!']), (.stdout, ['\n'])], 0⟩ :=
  (runCommand_right_iff 2 (by decide) ["attrib".toList]
    ⟨[(.stdout, ['o', 'k']), (.stderr, ['!']), (.stdout, ['\n'])], 0⟩).2 (by decide)

/-- With room for one byte, the second byte of stderr waits for a reader that
waits for stdout. -/
theorem second_byte_blocks :
    ¬ ∀ (cap : Nat) (command : List Str) (c : Child), 0 < cap → Right cap command c := by
  intro h
  let c : Child := ⟨[(.stderr, ['e', 'e'])], 0⟩
  let s : State 1 := { start 1 c with todo := [(.stderr, 'e')], stderr := ⟨['e'], by decide⟩ }
  have hr : (runCommand 1 [] c).Reachable s :=
    ⟨start 1 c, [.child], rfl, .cons rfl (.nil s)⟩
  have hend : (runCommand 1 [] c).Ended s := by
    intro l s' hs
    cases l with
    | child => cases hs
    | parent => cases hs
  obtain ⟨result, hline⟩ := (h 1 [] c (by decide)).unblocked s hr hend
  cases hline

end Wubi.Backend.RunCommand
