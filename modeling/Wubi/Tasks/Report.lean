import Wubi.Tasks.Model

/-!
# Functions that report progress

`copy_file`, `get_file_md5` and `DownloadProgress` as scripts: each sets the
size of its own task to a floored quotient and then reports whole chunks, or
whole kilobytes, until the data ends. `Report` is the type of functions that
report in no other way: they add subtasks, call tasks, cancel, and use the three
helpers, each as often as they like, on their own task.

`Script.Steady` is what the helpers have in common when the lengths are good:
a size is set first, and the reports after it do not decrease and do not pass
it, unless the first report is the last (`Phase`).
-/
namespace Wubi.Tasks

variable {W V E : Type}

/-! ## The helpers -/

/-- `1024**2` -/
def mib : Nat := 1048576

/-- The loop of `copy_file` with `n` chunks left to read; `k` is the caller.
mirrors src/wubi/backends/common/utils.py:206-223 -/
def copyLoop (me length : Nat) (write : Nat → W → W) (k : Script W V E) : Nat → Nat → Script W V E
  | 0, _ => .finish me k
  | n + 1, dataRead => .setProgress me (.int ↑(dataRead + 1)) none fun stop =>
    if stop then k
    else .act (write (dataRead + 1)) fun _ =>
      if length ≤ dataRead + 1 then .finish me k else copyLoop me length write k n (dataRead + 1)

/-- mirrors src/wubi/backends/common/utils.py:191-223 -/
def copyFile (me length : Nat) (write : Nat → W → W) (k : Script W V E) : Script W V E :=
  .setSize me (.int ↑(length / mib)) (copyLoop me length write k ((length + mib - 1) / mib) 0)

/-- The loop of `get_file_md5` with `i` rounds of the `for` and `n` chunks left.
mirrors src/wubi/backends/common/utils.py:162-177 -/
def md5Loop (me : Nat) (digest : V) (k : Option V → Script W V E) : Nat → Nat → Nat → Script W V E
  | 0, _, _ | _ + 1, 0, _ => .finish me (k (some digest))
  | i + 1, n + 1, dataRead => .setProgress me (.int ↑(dataRead + 1)) none fun stop =>
    if stop then k none else md5Loop me digest k i n (dataRead + 1)

/-- mirrors src/wubi/backends/common/utils.py:153-177 -/
def getFileMd5 (me length : Nat) (digest : V) (k : Option V → Script W V E) : Script W V E :=
  .setSize me (.int ↑(length / mib))
    (md5Loop me digest k (length / mib + 1) ((length + mib - 1) / mib) 0)

/-- What one transfer reports: the amounts read so far, never more than the
length that the server announced. -/
structure Transfer where
  length : Nat
  amounts : List Nat
  sorted : amounts.Pairwise (· ≤ ·)
  le : ∀ a ∈ amounts, a ≤ length

/-- The calls of `update` and the last of `end`, unless the transfer fails; an
`update` that returns True ends the transfer. `k` is the caller, which may catch
the exception of a transfer that failed.
mirrors src/wubi/backends/common/downloader.py:52-61 -/
def downloadLoop (me : Nat) (error : Option E) (k : Option E → Script W V E) :
    List Nat → Script W V E
  | [] => match error with
    | none => .finish me (k none)
    | some e => k (some e)
  | a :: as => .setProgress me (.int ↑(a / 1024)) none fun stop =>
    if stop then .finish me (k none) else downloadLoop me error k as

/-- `start`, the `update(0)` with which urlgrabber begins, and the transfer.
mirrors src/wubi/backends/common/downloader.py:39-61 -/
def download (me : Nat) (tr : Transfer) (error : Option E) (k : Option E → Script W V E) :
    Script W V E :=
  .setSize me (.int ↑(tr.length / 1024)) <| .setProgress me (.int 0) none fun _ =>
    .setProgress me (.int 0) none fun _ => downloadLoop me error k tr.amounts

/-! ## Functions and tasks that report through the helpers -/

mutual

inductive Report (W V E : Type) where
  | ret (v : Option V)
  | raise (e : E)
  | act (f : W → W) (k : W → Report W V E)
  | addSubtask (t : Nat) (new : ReportTask W V E) (k : Nat → Report W V E)
  | call (t : Nat) (k : Option V → Report W V E)
  | cancel (t : Nat) (k : Report W V E)
  | finish (k : Report W V E)
  | copyFile (length : Nat) (write : Nat → W → W) (k : Report W V E)
  | getFileMd5 (length : Nat) (digest : V) (k : Option V → Report W V E)
  | download (tr : Transfer) (error : Option E) (k : Option E → Report W V E)

inductive ReportTask (W V E : Type) where
  | mk (isRequired : Bool) (size weight : { x : Num // 0 ≤ x.val }) (fn : Nat → Report W V E)
      (subtasks : List (ReportTask W V E))

end

mutual

def Report.toScript (me : Nat) : Report W V E → Script W V E
  | .ret v => .ret v
  | .raise e => .raise e
  | .act f k => .act f fun w => (k w).toScript me
  | .addSubtask t new k => .addSubtask t new.toNew fun u => (k u).toScript me
  | .call t k => .call t fun v => (k v).toScript me
  | .cancel t k => .cancel t (k.toScript me)
  | .finish k => .finish me (k.toScript me)
  | .copyFile length write k => Tasks.copyFile me length write (k.toScript me)
  | .getFileMd5 length digest k => Tasks.getFileMd5 me length digest fun v => (k v).toScript me
  | .download tr error k => Tasks.download me tr error fun e => (k e).toScript me

def ReportTask.toNew : ReportTask W V E → NewTask W V E
  | .mk isRequired size weight fn subtasks =>
    .mk isRequired size.1 weight.1 (fun t => (fn t).toScript t) (ReportTask.toNews subtasks)

def ReportTask.toNews : List (ReportTask W V E) → List (NewTask W V E)
  | [] => []
  | new :: news => new.toNew :: ReportTask.toNews news

end

/-- A length in whole chunks, or less than one chunk. -/
def GoodLength (length : Nat) : Prop := mib ∣ length ∨ length < mib

mutual

/-- Every file that the function copies or hashes has a good length. -/
def Report.Good : Report W V E → Prop
  | .ret _ | .raise _ => True
  | .act _ k => ∀ w, (k w).Good
  | .addSubtask _ new k => new.Good ∧ ∀ u, (k u).Good
  | .call _ k => ∀ v, (k v).Good
  | .cancel _ k | .finish k => k.Good
  | .copyFile length _ k => GoodLength length ∧ k.Good
  | .getFileMd5 length _ k => GoodLength length ∧ ∀ v, (k v).Good
  | .download _ _ k => ∀ e, (k e).Good

def ReportTask.Good : ReportTask W V E → Prop
  | .mk _ _ _ fn subtasks => (∀ t, (fn t).Good) ∧ ReportTask.AllGood subtasks

def ReportTask.AllGood : List (ReportTask W V E) → Prop
  | [] => True
  | new :: news => new.Good ∧ ReportTask.AllGood news

end

/-! ## Steady scripts -/

/-- How far a function is with its reports: it makes none before it sets a size; it
has set `n`; its last report was `lo`. -/
inductive Phase where
  | idle
  | sized (n : Nat)
  | counting (n lo : Nat)

/-- The phase after the report of `i`, where that is steady. -/
def Phase.report : Phase → Nat → Option Phase
  | .sized n, i => some (if i ≤ n then .counting n i else .idle)
  | .counting n lo, i => if lo ≤ i ∧ i ≤ n then some (.counting n i) else none
  | .idle, _ => none

mutual

/-- `me` is the function's own task, `none` for the thread's own code. -/
def Script.Steady (me : Option Nat) : Script W V E → Phase → Prop
  | .ret _, _ | .raise _, _ => True
  | .act _ k, ph => ∀ w, (k w).Steady me ph
  | .addSubtask _ new k, ph => new.Steady ∧ ∀ u, (k u).Steady me ph
  | .setProgress t c sz k, ph => me = some t ∧ sz = none ∧ (k true).Steady me ph ∧
      ∃ (i : Nat) (ph' : Phase), c = .int i ∧ ph.report i = some ph' ∧ (k false).Steady me ph'
  | .setSize t sz k, _ => me = some t ∧ ∃ n : Nat, sz = .int n ∧ k.Steady me (.sized n)
  | .finish t k, _ => me = some t ∧ k.Steady me .idle
  | .cancel _ k, ph => k.Steady me ph
  | .call _ k, ph => ∀ v, (k v).Steady me ph

def NewTask.Steady : NewTask W V E → Prop
  | .mk _ sz w fn subtasks =>
    0 ≤ sz.val ∧ 0 ≤ w.val ∧ (∀ t, (fn t).Steady (some t) .idle) ∧ NewTask.AllSteady subtasks

def NewTask.AllSteady : List (NewTask W V E) → Prop
  | [] => True
  | new :: news => new.Steady ∧ NewTask.AllSteady news

end

/-- In phase `ph` every report from `lo` to `n` is steady. -/
def Phase.Accepts (ph : Phase) (lo n : Nat) : Prop :=
  ∀ i, lo ≤ i → i ≤ n → ph.report i = some (.counting n i)

theorem accepts_sized (n : Nat) : (Phase.sized n).Accepts 0 n := by
  intro i _ hi
  simp only [Phase.report]
  rw [if_pos hi]

theorem accepts_counting (n lo : Nat) : (Phase.counting n lo).Accepts lo n := by
  intro i hlo hi
  exact if_pos ⟨hlo, hi⟩

theorem copyLoop_steady {me length m : Nat} {write : Nat → W → W} {k : Script W V E}
    (hk : ∀ ph, k.Steady (some me) ph) : ∀ (n dataRead : Nat) (ph : Phase), dataRead + n = m →
      ph.Accepts dataRead m → (copyLoop me length write k n dataRead).Steady (some me) ph
  | 0, _, _, _, _ => ⟨rfl, hk _⟩
  | n + 1, dataRead, ph, hm, hph => by
    refine ⟨rfl, rfl, hk ph, dataRead + 1, _, rfl, hph _ (by omega) (by omega), fun w => ?_⟩
    dsimp only
    split
    · exact ⟨rfl, hk _⟩
    · exact copyLoop_steady hk n (dataRead + 1) _ (by omega) (accepts_counting m _)

/-- A good length: whole chunks, or one chunk that the floored size misses. -/
theorem chunks_of_good {length : Nat} (h : GoodLength length) :
    (length + mib - 1) / mib = length / mib ∨
      length / mib = 0 ∧ (length + mib - 1) / mib = 1 := by
  unfold GoodLength mib at *
  omega

theorem setSize_steady {me n : Nat} {k : Script W V E} (h : k.Steady (some me) (.sized n))
    (ph : Phase) : (Script.setSize me (.int ↑n) k).Steady (some me) ph :=
  ⟨rfl, n, rfl, h⟩

theorem copyFile_steady {me length : Nat} {write : Nat → W → W} {k : Script W V E}
    (hk : ∀ ph, k.Steady (some me) ph) (hlen : GoodLength length) (ph : Phase) :
    (copyFile me length write k).Steady (some me) ph := by
  unfold copyFile
  refine setSize_steady ?_ ph
  rcases chunks_of_good hlen with h | ⟨h0, h1⟩
  · rw [h]
    generalize length / mib = n
    exact copyLoop_steady hk n 0 _ (Nat.zero_add n) (accepts_sized n)
  · -- one chunk, reported past the size 0
    rw [h0, h1]
    refine ⟨rfl, rfl, hk _, 1, .idle, rfl, rfl, fun w => ?_⟩
    dsimp only
    split
    · exact ⟨rfl, hk _⟩
    · exact ⟨rfl, hk _⟩

theorem md5Loop_steady {me m : Nat} {digest : V} {k : Option V → Script W V E}
    (hk : ∀ v ph, (k v).Steady (some me) ph) : ∀ (i n dataRead : Nat) (ph : Phase),
      dataRead + n = m → ph.Accepts dataRead m →
      (md5Loop me digest k i n dataRead).Steady (some me) ph
  | 0, _, _, _, _, _ => ⟨rfl, hk _ _⟩
  | _ + 1, 0, _, _, _, _ => ⟨rfl, hk _ _⟩
  | i + 1, n + 1, dataRead, ph, hm, hph =>
    ⟨rfl, rfl, hk _ ph, dataRead + 1, _, rfl, hph _ (by omega) (by omega),
      md5Loop_steady hk i n (dataRead + 1) _ (by omega) (accepts_counting m _)⟩

theorem getFileMd5_steady {me length : Nat} {digest : V} {k : Option V → Script W V E}
    (hk : ∀ v ph, (k v).Steady (some me) ph) (hlen : GoodLength length) (ph : Phase) :
    (getFileMd5 me length digest k).Steady (some me) ph := by
  unfold getFileMd5
  refine setSize_steady ?_ ph
  rcases chunks_of_good hlen with h | ⟨h0, h1⟩
  · rw [h]
    generalize length / mib = n
    exact md5Loop_steady hk (n + 1) n 0 _ (Nat.zero_add n) (accepts_sized n)
  · rw [h0, h1]
    exact ⟨rfl, rfl, hk _ _, 1, .idle, rfl, rfl, rfl, hk _ _⟩

theorem downloadLoop_steady {me n : Nat} {error : Option E} {k : Option E → Script W V E}
    (hk : ∀ e ph, (k e).Steady (some me) ph) : ∀ (amounts : List Nat) (lo : Nat) (ph : Phase),
      ph.Accepts lo n → amounts.Pairwise (· ≤ ·) →
      (∀ a ∈ amounts, lo ≤ a / 1024 ∧ a / 1024 ≤ n) →
      (downloadLoop me error k amounts).Steady (some me) ph
  | [], lo, ph, _, _, _ => by
    unfold downloadLoop
    split
    · exact ⟨rfl, hk _ _⟩
    · exact hk _ ph
  | a :: as, lo, ph, hph, hsort, hle => by
    obtain ⟨ha, hsort'⟩ := List.pairwise_cons.1 hsort
    obtain ⟨hlo, hn⟩ := hle a (List.mem_cons_self ..)
    refine ⟨rfl, rfl, ⟨rfl, hk _ _⟩, a / 1024, _, rfl, hph _ hlo hn, ?_⟩
    refine downloadLoop_steady hk as (a / 1024) _ (accepts_counting n _) hsort' fun b hb => ?_
    exact ⟨Nat.div_le_div_right (ha b hb), (hle b (List.mem_cons_of_mem _ hb)).2⟩

theorem download_steady {me : Nat} {tr : Transfer} {error : Option E} {k : Option E → Script W V E}
    (hk : ∀ e ph, (k e).Steady (some me) ph) (ph : Phase) :
    (download me tr error k).Steady (some me) ph := by
  have hloop : ∀ ph : Phase, ph.Accepts 0 (tr.length / 1024) →
      (downloadLoop me error k tr.amounts).Steady (some me) ph := fun ph hph =>
    downloadLoop_steady hk tr.amounts 0 ph hph tr.sorted fun a ha =>
      ⟨Nat.zero_le _, Nat.div_le_div_right (tr.le a ha)⟩
  -- `update(0)`, whatever `start` was told
  have hupdate : ∀ ph : Phase, ph.Accepts 0 (tr.length / 1024) →
      (Script.setProgress me (.int 0) none fun _ =>
        downloadLoop me error k tr.amounts).Steady (some me) ph := fun ph hph =>
    ⟨rfl, rfl, hloop ph hph, 0, _, rfl, hph 0 (Nat.le_refl 0) (Nat.zero_le _),
      hloop _ (accepts_counting _ 0)⟩
  exact ⟨rfl, tr.length / 1024, rfl, rfl, rfl, hupdate _ (accepts_sized _), 0, _, rfl,
    accepts_sized _ 0 (Nat.le_refl 0) (Nat.zero_le _), hupdate _ (accepts_counting _ 0)⟩

mutual

theorem Report.steady {me : Nat} : ∀ (p : Report W V E), p.Good → ∀ ph,
    (p.toScript me).Steady (some me) ph
  | .ret _, _, _ => trivial
  | .raise _, _, _ => trivial
  | .act _ k, h, ph => fun w => (k w).steady (h w) ph
  | .addSubtask _ new k, h, ph => ⟨new.steady h.1, fun u => (k u).steady (h.2 u) ph⟩
  | .call _ k, h, ph => fun v => (k v).steady (h v) ph
  | .cancel _ k, h, ph => k.steady h ph
  | .finish k, h, _ => ⟨rfl, k.steady h .idle⟩
  | .copyFile _ _ k, h, ph => copyFile_steady (fun ph => k.steady h.2 ph) h.1 ph
  | .getFileMd5 _ _ k, h, ph => getFileMd5_steady (fun v ph => (k v).steady (h.2 v) ph) h.1 ph
  | .download _ _ k, h, ph => download_steady (fun e ph => (k e).steady (h e) ph) ph

theorem ReportTask.steady : ∀ new : ReportTask W V E, new.Good → new.toNew.Steady
  | .mk _ sz w fn subtasks, h =>
    ⟨sz.2, w.2, fun t => (fn t).steady (h.1 t) .idle, ReportTask.allSteady subtasks h.2⟩

theorem ReportTask.allSteady : ∀ news : List (ReportTask W V E), ReportTask.AllGood news →
    NewTask.AllSteady (ReportTask.toNews news)
  | [], _ => trivial
  | new :: news, h => ⟨new.steady h.1, ReportTask.allSteady news h.2⟩

end

end Wubi.Tasks
