import Wubi.Backend.Model

/-!
# File operations

`get_file_md5` and `copy_file` of `src/wubi/backends/common/utils.py` with
their loops over chunks of one MiB, the two downloaders, `shutil.move` and
`os.unlink`, each with the rule that says what it does.
-/
namespace Wubi.Backend

open Wubi.Tasks Wubi.Tasks.Prog

variable (env : Env)

/-- The time of the next operation. -/
def tick : Fn Nat := .act fun w => (w.clock, w.advance 1)

/-- An operation on a file that may fail. -/
def io : Fn Unit := do
  let k ← tick
  .lift (match env.ioError k with
    | none => .ok ()
    | some e => .error e)

/-- The next `n` operations on files do not fail. -/
def Env.Quiet (k n : Nat) : Prop := ∀ j < n, env.ioError (k + j) = none

section
variable {env} {user : Nat → Bool} {s : St World}

@[simp] theorem wp_tick {Q : Nat → St World → Prop} {R : PyErr → St World → Prop} :
    wp user tick Q R s ↔ Q s.world.clock (s.map (World.advance 1)) := Iff.rfl

@[simp] theorem wp_io {Q : Unit → St World → Prop} {R : PyErr → St World → Prop} :
    wp user (io env) Q R s ↔
      (env.ioError s.world.clock = none → Q () (s.map (World.advance 1))) ∧
      ∀ e, env.ioError s.world.clock = some e → R e (s.map (World.advance 1)) := by
  unfold io
  simp only [wp_bind, wp_tick]
  cases env.ioError s.world.clock with
  | none => simp
  | some e => simp

theorem Env.quiet_succ {k n : Nat} :
    env.Quiet k (n + 1) ↔ env.ioError k = none ∧ env.Quiet (k + 1) n := by
  constructor
  · intro h
    exact ⟨h 0 (Nat.succ_pos _), fun j hj => by
      rw [Nat.add_assoc, Nat.add_comm 1]; exact h (j + 1) (Nat.succ_lt_succ hj)⟩
  · intro ⟨h0, h⟩ j hj
    cases j with
    | zero => exact h0
    | succ j =>
      rw [Nat.add_comm j, ← Nat.add_assoc]; exact h j (Nat.lt_of_succ_lt_succ hj)

theorem Env.quiet_of_no_failure {k n : Nat}
    (h : ∀ j < n, ∀ e, env.Quiet k j → env.ioError (k + j) = some e → False) :
    env.Quiet k n := by
  induction n with
  | zero => intro j hj; cases hj
  | succ n ih =>
    have hn := ih fun j hj => h j (Nat.lt_succ_of_lt hj)
    intro j hj
    rcases Nat.lt_succ_iff_lt_or_eq.1 hj with hlt | rfl
    · exact hn j hlt
    · cases he : env.ioError (k + j) with
      | none => rfl
      | some e => exact (h j (Nat.lt_succ_self j) e hn he).elim

/-- The first failure among `n + 1` operations is the first or a later one. -/
theorem Env.first_failure {k n : Nat} {P : Nat → PyErr → Prop} :
    (∀ j < n + 1, ∀ e, env.Quiet k j → env.ioError (k + j) = some e → P j e) ↔
      (∀ e, env.ioError k = some e → P 0 e) ∧
      (env.ioError k = none → ∀ j < n, ∀ e, env.Quiet (k + 1) j →
        env.ioError (k + 1 + j) = some e → P (j + 1) e) := by
  have hadd : ∀ j, k + (j + 1) = k + 1 + j := fun j => by omega
  constructor
  · intro h
    refine ⟨fun e he => h 0 (Nat.succ_pos _) e (fun j hj => absurd hj (Nat.not_lt_zero _)) he, ?_⟩
    intro h0 j hj e hq he
    exact h (j + 1) (Nat.succ_lt_succ hj) e (Env.quiet_succ.2 ⟨h0, hq⟩) (by rw [hadd]; exact he)
  · intro ⟨h0, h⟩ j hj e hq he
    cases j with
    | zero => exact h0 e he
    | succ j =>
      obtain ⟨hk, hq⟩ := Env.quiet_succ.1 hq
      exact h hk j (Nat.lt_of_succ_lt_succ hj) e hq (by rw [← hadd]; exact he)

/-- One operation, and `n` others behind it. -/
theorem Env.first_operation {k n : Nat} {A : Prop} {P : Nat → PyErr → Prop} :
    ((env.Quiet k (n + 1) → A) ∧
      ∀ j < n + 1, ∀ e, env.Quiet k j → env.ioError (k + j) = some e → P j e) ↔
    (env.ioError k = none → (env.Quiet (k + 1) n → A) ∧
      ∀ j < n, ∀ e, env.Quiet (k + 1) j → env.ioError (k + 1 + j) = some e → P (j + 1) e) ∧
    ∀ e, env.ioError k = some e → P 0 e := by
  rw [Env.quiet_succ, Env.first_failure]
  constructor
  · intro hboth
    obtain ⟨hall, hfirst, hlater⟩ := hboth
    exact ⟨fun hk => ⟨fun hq => hall ⟨hk, hq⟩, hlater hk⟩, hfirst⟩
  · intro hboth
    obtain ⟨hlater, hfirst⟩ := hboth
    exact ⟨fun hall => (hlater hall.1).1 hall.2, hfirst, fun hk => (hlater hk).2⟩

end

def put (p : Str) (content : Option Str) : Fn Unit := .modify fun w => w.write env p content

/-- `os.unlink(p)` -/
def unlink (p : Str) : Fn Unit := do
  io env
  let w ← .get
  match w.read env p with
  | none => .raise (.osError 2)
  | some _ => put env p none

/-! ## Reading, copying and moving files -/

/-- `1024**2` -/
def mib : Nat := 1048576

/-- `set_progress`, if there is a task; True asks to stop. -/
def report (withTask : Bool) (completed : Nat) : Fn Bool :=
  if withTask then .setProgress completed else return false

/-- The loop of `get_file_md5`: `i` rounds are left, `data` is still to be
read, `md5hash` has been fed already.
mirrors src/wubi/backends/common/utils.py:162-177 -/
def md5Loop (withTask : Bool) : Nat → List Str → Nat → Str → Fn (Option Str)
  | 0, _, _, md5hash => do
    .when withTask .finish
    return some (env.md5 md5hash)
  | _ + 1, [], _, md5hash => do
    io env
    .when withTask .finish
    return some (env.md5 md5hash)
  | i + 1, c :: cs, dataRead, md5hash => do
    io env
    let stop ← report withTask (dataRead + 1)
    if stop then return none
    else md5Loop withTask i cs (dataRead + 1) (md5hash ++ c)

/-- mirrors src/wubi/backends/common/utils.py:153-177 -/
def getFileMd5 (filePath : Str) (withTask : Bool) : Fn (Option Str) := do
  let w ← .get
  match if filePath = [] then none else w.read env filePath with
  | none => return none
  | some content =>
    .when withTask (.setSize (content.length / mib))
    io env
    md5Loop env withTask (content.length / mib + 1) (content.chunks mib) 0 []

/-- The loop of `copy_file`. `fileSize` is in bytes, `dataRead` in chunks.
mirrors src/wubi/backends/common/utils.py:206-223 -/
def copyLoop (withTask : Bool) (target : Str) (fileSize : Nat) : List Str → Nat → Fn Unit
  | [], _ => do
    io env
    .when withTask .finish
  | c :: cs, dataRead => do
    io env
    let stop ← report withTask (dataRead + 1)
    if stop then return ()
    else
      io env
      .modify fun w => w.write env target (some ((w.read env target).getD [] ++ c))
      if fileSize ≤ dataRead + 1 then .when withTask .finish
      else copyLoop withTask target fileSize cs (dataRead + 1)

/-- Without a task: every round reads once, and the first failure ends it. -/
theorem wp_md5Loop {env : Env} {user : Nat → Bool} {Q : Option Str → St World → Prop}
    {R : PyErr → St World → Prop} {i : Nat} {data : List Str} {n : Nat} {acc : Str}
    (hle : data.length ≤ i) (hge : i ≤ data.length + 1) {s : St World} :
    wp user (md5Loop env false i data n acc) Q R s ↔
      (env.Quiet s.world.clock i →
        Q (some (env.md5 (acc ++ data.flatten))) (s.map (World.advance i))) ∧
      ∀ j < i, ∀ e, env.Quiet s.world.clock j → env.ioError (s.world.clock + j) = some e →
        R e (s.map (World.advance (j + 1))) := by
  induction data generalizing i n acc s with
  | nil =>
    have hi : i = 0 ∨ i = 1 := by
      have : i ≤ 1 := hge
      omega
    rcases hi with rfl | rfl
    · simp [md5Loop, Env.Quiet]
    · simp [md5Loop, Env.Quiet]
  | cons c cs ih =>
    obtain ⟨i, rfl⟩ : ∃ k, i = k + 1 := ⟨i - 1, by simp at hle; omega⟩
    have hrec : wp user (md5Loop env false i cs (n + 1) (acc ++ c)) Q R
        (s.map (World.advance 1)) ↔ _ := ih (by simpa using hle) (by simpa using hge)
    simp only [md5Loop, report, wp_bind, wp_io, Env.first_operation, List.flatten_cons,
      Bool.false_eq_true, if_false, wp_pure, hrec, St.map_world, World.clock_advance,
      World.map_advance, List.append_assoc]

theorem wp_getFileMd5 {env : Env} {user : Nat → Bool} {Q : Option Str → St World → Prop}
    {R : PyErr → St World → Prop} {s : St World} {p content : Str} (hp : p ≠ [])
    (hread : s.world.read env p = some content) :
    wp user (getFileMd5 env p false) Q R s ↔
      (env.Quiet s.world.clock (content.length / mib + 2) →
        Q (some (env.md5 content)) (s.map (World.advance (content.length / mib + 2)))) ∧
      ∀ j < content.length / mib + 2, ∀ e, env.Quiet s.world.clock j →
        env.ioError (s.world.clock + j) = some e → R e (s.map (World.advance (j + 1))) := by
  have hmib : 0 < mib := by decide
  have hloop : wp user (md5Loop env false (content.length / mib + 1) (content.chunks mib) 0 []) Q R
      (s.map (World.advance 1)) ↔ _ :=
    wp_md5Loop (by rw [Str.length_chunks hmib]; unfold mib; omega)
      (by rw [Str.length_chunks hmib]; unfold mib; omega)
  simp only [getFileMd5, wp_bind, wp_get, hp, if_false, hread, wp_when_false, wp_io,
    Env.first_operation, hloop, St.map_world, World.clock_advance,
    World.map_advance, List.nil_append, Str.flatten_chunks hmib]

/-- The size that `copy_file` finds; none: `file_size` is never assigned.
mirrors src/wubi/backends/common/utils.py:195-200 -/
def World.sourceSize (w : World) (source : Str) : Option Nat :=
  match w.read env source with
  | some content => some content.length
  | none => (env.mount source).map Prod.fst

/-- What reading the source yields. -/
def World.sourceData (w : World) (source : Str) : Str :=
  match w.read env source with
  | some content => content
  | none => ((env.mount source).map Prod.snd).getD []

/-- Opening the target empties it, also when it is the source. A source that
is neither a file nor mounted has no size. With a task the size is read unbound,
as here; without one the source is opened first, which raises an IOError.
mirrors src/wubi/backends/common/utils.py:191-223 -/
def copyFile (source target : Str) (withTask : Bool) : Fn Unit := do
  let w ← .get
  match w.sourceSize env source with
  | none => .raise .unboundLocalError
  | some fileSize =>
    .when withTask (.setSize (fileSize / mib))
    io env
    io env
    put env target (some [])
    let w ← .get
    copyLoop env withTask target fileSize ((w.sourceData env source).chunks mib) 0

/-- `real_dst`: a directory receives the file under its own name. -/
def Env.moveTarget (source target : Str) : Str :=
  if env.isDir target then target.join source.basename else target

/-- `shutil.move` -/
def move (source target : Str) : Fn Unit := do
  let k ← tick
  let w ← .get
  match env.moveError k, w.read env source with
  | some (e, left), _ => do
    .modify fun w => w.leave env (env.moveTarget source target) left
    .raise e
  | none, none => .raise (.osError 2)
  | none, some content => do
    put env source none
    put env (env.moveTarget source target) (some content)

/-- Where `downloader.download` saves: `filename` may be a directory. -/
def Env.target (filename url : Str) : Str :=
  if env.isDir filename then filename.join url.basename else filename

/-- What one transfer to `filename` does. -/
def transfer (filename : Str) : Fetch → Fn Str
  | .saved content => do
    put env filename (some content)
    return filename
  | .raised e left => do
    .modify fun w => w.leave env filename left
    .raise e

/-- mirrors src/wubi/backends/common/downloader.py:63-79 -/
def download (url filename : Str) : Fn Str := do
  let k ← tick
  transfer env (env.target filename url) (env.download k url)

theorem Env.target_ne {env : Env} {filename url : Str} (h : filename ≠ []) :
    env.target filename url ≠ [] := by
  unfold Env.target
  split
  · exact Str.join_ne h
  · exact h

theorem wp_download {env : Env} {user : Nat → Bool} {Q : Str → St World → Prop}
    {R : PyErr → St World → Prop} {s : St World} {url filename : Str} :
    wp user (download env url filename) Q R s ↔
      match env.download s.world.clock url with
      | .saved c => Q (env.target filename url)
          (s.map fun w => (w.advance 1).write env (env.target filename url) (some c))
      | .raised e left =>
        R e (s.map fun w => (w.advance 1).leave env (env.target filename url) left) := by
  unfold download
  simp only [wp_bind, wp_tick]
  cases env.download s.world.clock url <;> exact Iff.rfl

/-- mirrors src/wubi/backends/common/btdownloader.py:33-84 -/
def btdownload (url filename : Str) : Fn Str := do
  let k ← tick
  transfer env filename (env.btdownload k url)

/-! ## What the operations touch -/

/-- Between `w` and `w'` only the clock and the files in `S` have changed. -/
structure Touches (S : Str → Prop) (w w' : World) : Prop where
  same : ∃ f k, w' = { w with file := f, clock := k }
  read : ∀ q, ¬ S q → w'.read env q = w.read env q

/-- `S` contains the file `p`, under every spelling. -/
def Hits (S : Str → Prop) (p : Str) : Prop := ∀ q, env.abspath q = env.abspath p → S q

section
variable {env} {user : Nat → Bool} {S : Str → Prop}

instance : IsPreorder World (Touches env S) where
  refl w := ⟨⟨w.file, w.clock, rfl⟩, fun _ _ => rfl⟩
  trans a b c := by
    rintro ⟨⟨f, k, rfl⟩, hr⟩ ⟨⟨f', k', rfl⟩, hr'⟩
    exact ⟨⟨f', k', rfl⟩, fun q hq => (hr' q hq).trans (hr q hq)⟩

theorem touches_advance {w : World} {n : Nat} : Touches env S w (w.advance n) :=
  ⟨⟨_, _, rfl⟩, fun _ _ => rfl⟩

theorem touches_write {w : World} {p : Str} {c : Option Str} (h : Hits env S p) :
    Touches env S w (w.write env p c) :=
  ⟨⟨_, _, rfl⟩, fun q hq => World.read_write_of_ne fun hp => hq (h q hp)⟩

theorem touches_leave {w : World} {p : Str} {left : Option Str} (h : Hits env S p) :
    Touches env S w (w.leave env p left) := by
  cases left with
  | none => exact refl w
  | some c => exact touches_write h

theorem steps_tick : Steps user (Touches env S) tick := .act fun _ => touches_advance

theorem steps_io : Steps user (Touches env S) (io env) := steps_tick.bind fun _ => .lift

theorem steps_put {p : Str} {c : Option Str} (h : Hits env S p) :
    Steps user (Touches env S) (put env p c) := .modify fun _ => touches_write h

theorem steps_unlink {p : Str} (h : Hits env S p) : Steps user (Touches env S) (unlink env p) := by
  refine steps_io.bind fun _ => Steps.get.bind fun w => ?_
  split
  · exact .raise
  · exact steps_put h

theorem steps_transfer {p : Str} {fetch : Fetch} (h : Hits env S p) :
    Steps user (Touches env S) (transfer env p fetch) := by
  cases fetch with
  | saved c => exact (steps_put h).bind fun _ => .pure
  | raised e left => exact (Steps.modify fun _ => touches_leave h).bind fun _ => .raise

theorem steps_download {url filename : Str} (h : Hits env S (env.target filename url)) :
    Steps user (Touches env S) (download env url filename) :=
  steps_tick.bind fun _ => steps_transfer h

theorem steps_btdownload {url filename : Str} (h : Hits env S filename) :
    Steps user (Touches env S) (btdownload env url filename) :=
  steps_tick.bind fun _ => steps_transfer h

theorem steps_report {withTask : Bool} {n : Nat} :
    Steps user (Touches env S) (report withTask n) := .ite (fun _ => .setProgress) fun _ => .pure

theorem steps_md5Loop {withTask : Bool} {i : Nat} {data : List Str} {n : Nat} {acc : Str} :
    Steps user (Touches env S) (md5Loop env withTask i data n acc) := by
  fun_induction md5Loop env withTask i data n acc with
  | case1 => exact (Steps.when .finish).bind fun _ => .pure
  | case2 => exact steps_io.bind fun _ => (Steps.when .finish).bind fun _ => .pure
  | case3 i c cs n acc ih =>
    exact steps_io.bind fun _ => steps_report.bind fun _ => .ite (fun _ => .pure) fun _ => ih

theorem steps_getFileMd5 {p : Str} {withTask : Bool} :
    Steps user (Touches env S) (getFileMd5 env p withTask) := by
  refine Steps.get.bind fun w => ?_
  split
  · exact .pure
  · exact (Steps.when .setSize).bind fun _ => steps_io.bind fun _ => steps_md5Loop

theorem steps_copyLoop {withTask : Bool} {target : Str} {fileSize : Nat} {data : List Str} {n : Nat}
    (h : Hits env S target) :
    Steps user (Touches env S) (copyLoop env withTask target fileSize data n) := by
  fun_induction copyLoop env withTask target fileSize data n with
  | case1 => exact steps_io.bind fun _ => .when .finish
  | case2 c cs n ih =>
    refine steps_io.bind fun _ => steps_report.bind fun _ => .ite (fun _ => .pure) fun _ => ?_
    exact steps_io.bind fun _ => (Steps.modify fun _ => touches_write h).bind fun _ =>
      .ite (fun _ => .when .finish) fun _ => ih

theorem steps_copyFile {withTask : Bool} {source target : Str} (h : Hits env S target) :
    Steps user (Touches env S) (copyFile env source target withTask) := by
  refine Steps.get.bind fun w => ?_
  split
  · exact .raise
  · exact (Steps.when .setSize).bind fun _ => steps_io.bind fun _ => steps_io.bind fun _ =>
      (steps_put h).bind fun _ => Steps.get.bind fun _ => steps_copyLoop h

theorem steps_move {source target : Str} (hs : Hits env S source)
    (ht : Hits env S (env.moveTarget source target)) :
    Steps user (Touches env S) (move env source target) := by
  refine steps_tick.bind fun k => Steps.get.bind fun w => ?_
  split
  · exact (Steps.modify fun _ => touches_leave ht).bind fun _ => .raise
  · exact .raise
  · exact (steps_put hs).bind fun _ => steps_put ht

theorem move_value {source target content : Str} {s : St World}
    (hread : s.world.read env source = some content) (hdir : env.isDir target = false) :
    wp user (move env source target)
      (fun _ s' => s'.world.read env target = some content) (fun _ _ => True) s := by
  have htarget : env.moveTarget source target = target := by simp [Env.moveTarget, hdir]
  unfold move
  simp only [wp_bind, wp_tick, wp_get, St.map_world, World.read_advance, hread, htarget]
  cases env.moveError s.world.clock with
  | none => simp [put]
  | some e => simp

end

end Wubi.Backend
