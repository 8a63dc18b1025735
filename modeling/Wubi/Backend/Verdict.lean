import Mathlib.Algebra.Ring.Nat
import Wubi.Backend.Arch

/-!
# What `check_iso` says about a file by itself

`Env.verdict` is the verdict of `check_iso` on the file at a path that no cache
knows, as a function of the content. It is the measure for the checks that read
the caches.

**Setting.** `Env.Calm`: nothing fails on the disk, and the mirrors, 7-Zip and
the extraction do not change from one call to the next.
-/
namespace Wubi.Backend

open Wubi.Tasks Wubi.Tasks.Prog

/-- The disk works, and what is outside answers the same every time. -/
structure Env.Calm (env : Env) : Prop where
  ioError : ∀ k, env.ioError k = none
  download : ∀ k url, env.download k url = env.download 0 url
  btdownload : ∀ k url, env.btdownload k url = env.btdownload 0 url
  list : ∀ k p c, env.list k p c = env.list 0 p c
  extract : ∀ k p f c, env.extract k p f c = env.extract 0 p f c
  abspath_ne : ∀ p, env.abspath p ≠ []
  md5_ne : ∀ c, env.md5 c ≠ []

/-- 7-Zip lists and extracts the same every time. -/
structure Env.Steady (env : Env) : Prop where
  list : ∀ k p c, env.list k p c = env.list 0 p c
  extract : ∀ k p f c, env.extract k p f c = env.extract 0 p f c

theorem Env.Calm.steady {env : Env} (h : env.Calm) : env.Steady := ⟨h.list, h.extract⟩

/-! ## The verdict on a file by itself -/

/-- The names that `get_iso_file_names` finds; none when 7z fails or prints
nothing. -/
def Env.listing (env : Env) (p content : Str) : Except PyErr (Option (List Str)) :=
  match env.list 0 p (some content) with
  | .error _ => .ok none
  | .ok [] => .ok none
  | .ok output => (parseListing env output).map some

/-- What `get_info` finds. -/
def Env.infoLine (env : Env) (d : Distro) (p content : Str) : Except PyErr (Option DiskInfo) :=
  (env.extract 0 p d.infoFile (some content)).map fun text => text.bind (parseIsoinfo env)

/-- The md5 is not asked for, or it is the one of the metalink. -/
def Env.sumOk (env : Env) (md5sum : Option Str) (content : Str) : Bool :=
  env.skipMd5Check || match md5sum with
    | none => true
    | some md5sum => md5sum == env.md5 content

inductive Verdict where
  | wrongSize | unlisted | raised | unfit | wrongSum | good
  deriving DecidableEq

/-- What `check_iso` finds about a file when no cache knows its path. -/
def Env.verdict (env : Env) (d : Distro) (md5sum : Option Str) (p content : Str) : Verdict :=
  if d.wrongSize content.length then .wrongSize
  else match env.listing p content with
    | .error _ => .raised
    | .ok none => .unlisted
    | .ok (some names) =>
      if d.hasRequired names then
        match env.infoLine d p content with
        | .error _ => .raised
        | .ok info =>
          if d.checkInfo info false then if env.sumOk md5sum content then .good else .wrongSum
          else .unfit
      else .unfit

variable {env : Env} {user : Nat → Bool} {s : St World} {d : Distro} {md5sum : Option Str}
  {p content : Str}

theorem Env.verdict_good_sumOk (h : env.verdict d md5sum p content = .good) :
    env.sumOk md5sum content = true := by
  unfold Env.verdict at h
  split at h
  · cases h
  · split at h
    · cases h
    · cases h
    · split at h
      · split at h
        · cases h
        · split at h
          · split at h
            · assumption
            · cases h
          · cases h
      · cases h

theorem Env.verdict_ne_wrongSize (h : d.wrongSize content.length = false) :
    env.verdict d md5sum p content ≠ .wrongSize := by
  unfold Env.verdict
  rw [if_neg (by simp [h])]
  split
  · simp
  · simp
  · split
    · split
      · simp
      · split
        · split <;> simp
        · simp
    · simp

/-! ## The md5 of a file -/

/-- The list of tasks goes on, and of the world only the clock has changed. -/
def Passed (s s' : St World) : Prop := s'.cancelled = false ∧ ∃ k, s'.world = s.world.advance k

theorem Passed.trans {s₁ s₂ s₃ : St World} (h : Passed s₁ s₂) (h' : Passed s₂ s₃) :
    Passed s₁ s₃ := by
  obtain ⟨-, k, hk⟩ := h
  obtain ⟨hlive, k', hk'⟩ := h'
  exact ⟨hlive, k' + k, by rw [hk', hk, World.advance_advance]⟩

theorem poll_live (hsilent : ∀ n, user n = false) (hlive : s.cancelled = false) :
    (s.poll user).cancelled = false := by
  simp [St.poll, hlive, hsilent]

theorem io_calm (hcalm : env.Calm) {Q : Unit → St World → Prop} {R : PyErr → St World → Prop} :
    wp user (io env) Q R s ↔ Q () (s.map (World.advance 1)) := by
  simp [hcalm.ioError]

section
variable (hcalm : env.Calm) (hsilent : ∀ n, user n = false)
include hcalm hsilent

theorem md5Loop_calm {i : Nat} {data : List Str} {n : Nat} {acc : Str} (hle : data.length ≤ i)
    (hlive : s.cancelled = false) :
    wp user (md5Loop env true i data n acc)
      (fun r s' => r = some (env.md5 (acc ++ data.flatten)) ∧ Passed s s') (fun _ _ => False) s := by
  induction data generalizing i n acc s with
  | nil =>
    cases i with
    | zero => exact ⟨by simp, hlive, 0, rfl⟩
    | succ i =>
      simp only [md5Loop, wp_bind, io_calm hcalm, wp_when_true, wp_finish, wp_pure]
      exact ⟨by simp, hlive, 1, rfl⟩
  | cons c cs ih =>
    cases i with
    | zero => cases hle
    | succ i =>
      have hpoll : ((s.map (World.advance 1)).poll user).cancelled = false := poll_live hsilent hlive
      simp only [md5Loop, report, wp_bind, io_calm hcalm, if_true, wp_setProgress, hpoll,
        Bool.false_eq_true, if_false]
      refine wp_mono (ih (Nat.le_of_succ_le_succ hle) hpoll) (fun r s' h => ?_) fun _ _ h => h
      rw [List.flatten_cons, ← List.append_assoc]
      exact ⟨h.1, Passed.trans ⟨hpoll, 1, rfl⟩ h.2⟩

/-- The subtask that computes the md5. -/
theorem md5Task_calm (hp : p ≠ []) (hread : s.world.read env p = some content)
    (hlive : s.cancelled = false) :
    wp user (.sub true ((getFileMd5 env p true).asTask fun h => h.map .str))
      (fun v s' => Val.str? v = some (env.md5 content) ∧ Passed s s') (fun _ _ => False) s := by
  have hmib : 0 < mib := by decide
  have hpoll := poll_live hsilent hlive
  have hlen : (content.chunks mib).length ≤ content.length / mib + 1 := by
    rw [Str.length_chunks hmib]
    unfold mib
    omega
  rw [wp_sub, wp_asTask]
  refine ⟨fun h => absurd (h.symm.trans hpoll) (by simp), fun _ => ?_⟩
  simp only [getFileMd5, wp_bind, wp_get, St.poll_world, hp, if_false, hread, wp_when_true,
    wp_setSize, io_calm hcalm]
  have hloop : wp user
      (md5Loop env true (content.length / mib + 1) (content.chunks mib) 0 [])
      (fun r s' => r = some (env.md5 ([] ++ (content.chunks mib).flatten)) ∧
        Passed ((s.poll user).map (World.advance 1)) s') (fun _ _ => False)
      ((s.poll user).map (World.advance 1)) := md5Loop_calm hcalm hsilent hlen hpoll
  refine wp_mono hloop (fun r s' h => ?_) fun _ _ h => h.elim
  obtain ⟨rfl, hpassed⟩ := h
  have hopened : Passed s ((s.poll user).map (World.advance 1)) := ⟨hpoll, 1, rfl⟩
  rw [Str.flatten_chunks hmib, List.nil_append]
  exact ⟨rfl, hopened.trans hpassed⟩

end

/-! ## Reading the caches -/

/-- The info line of the medium, where `set_distro_from_arch` looks at it, names
the architecture of the distro. -/
def Env.Kept (env : Env) (d : Distro) (info : DiskInfo) : Prop :=
  env.checkArch = true ∨ info.arch = d.arch

/-- The same about the file at `p`, if its info line is accepted. -/
def Env.KeepsArch (env : Env) (d : Distro) (p content : Str) : Prop :=
  ∀ info, env.infoLine d p content = .ok (some info) → d.checkInfo (some info) false = true →
    env.Kept d info

section
variable {R : PyErr → St World → Prop}

theorem wp_getIsoFileNames_cached {Q : Option (List Str) → St World → Prop}
    {names : Option (List Str)} (habs : env.abspath p = p)
    (h : s.world.fileNames p = some names) :
    wp user (getIsoFileNames env p) Q R s ↔ Q names s := by
  simp only [getIsoFileNames, wp_bind, wp_get, habs, h, wp_pure]

/-- The cache holds None until the list is there. -/
theorem wp_getIsoFileNames_fresh {Q : Option (List Str) → St World → Prop} (hsteady : env.Steady)
    (habs : env.abspath p = p) (h : s.world.fileNames p = none)
    (hread : s.world.read env p = some content) :
    wp user (getIsoFileNames env p) Q R s ↔
      match env.listing p content with
      | .error e => R e ((s.map (cacheNames p none)).map (World.advance 1))
      | .ok none => Q (some []) ((s.map (cacheNames p none)).map (World.advance 1))
      | .ok (some names) => Q (some names)
          (((s.map (cacheNames p none)).map (World.advance 1)).map (cacheNames p (some names))) := by
  simp only [getIsoFileNames, wp_bind, wp_get, habs, h, wp_modify, wp_tick, hsteady.list, hread,
    Env.listing]
  cases env.list 0 p (some content) with
  | error e => exact Iff.rfl
  | ok output =>
    cases output with
    | nil => exact Iff.rfl
    | cons c cs =>
      simp only [wp_bind]
      cases parseListing env (c :: cs) with
      | error e => exact Iff.rfl
      | ok names => exact Iff.rfl

theorem wp_getInfo_cached {Q : Option DiskInfo → St World → Prop} {info : Option DiskInfo}
    (h : s.world.diskInfo (p, d.infoFile) = some info) :
    wp user (d.getInfo env p) Q R s ↔ Q info s := by
  simp only [Distro.getInfo, wp_bind, wp_get, h, wp_pure]

theorem wp_getInfo_fresh {Q : Option DiskInfo → St World → Prop} (hsteady : env.Steady)
    (h : s.world.diskInfo (p, d.infoFile) = none) (hread : s.world.read env p = some content) :
    wp user (d.getInfo env p) Q R s ↔
      match env.infoLine d p content with
      | .error e => R e ((s.map (cacheInfo (p, d.infoFile) none)).map (World.advance 1))
      | .ok info => Q info (((s.map (cacheInfo (p, d.infoFile) none)).map (World.advance 1)).map
          (cacheInfo (p, d.infoFile) info)) := by
  have hread' : (cacheInfo (p, d.infoFile) none s.world).read env p = some content := hread
  simp only [Distro.getInfo, Distro.infoText, wp_bind, wp_get, h, wp_modify, St.map_world, hread',
    wp_tick, hsteady.extract, Env.infoLine]
  cases env.extract 0 p d.infoFile (some content) with
  | error e => exact Iff.rfl
  | ok text => exact Iff.rfl

theorem wp_isValidIso {checkArch : Bool} {Q : Bool → St World → Prop} (habs : env.abspath p = p)
    (hread : s.world.read env p = some content) (hsize : d.wrongSize content.length = false) :
    wp user (d.isValidIso env p checkArch) Q R s ↔
      wp user (getIsoFileNames env p)
        (fun files s' => match files with
          | none => R .typeError s'
          | some names =>
            if d.hasRequired names then
              wp user (d.getInfo env p) (fun info s₂ => Q (d.checkInfo info checkArch) s₂) R s'
            else Q false s') R s := by
  simp only [Distro.isValidIso, wp_bind, wp_get, habs, hread, hsize, Bool.false_eq_true, if_false]
  have hrest : ∀ (files : Option (List Str)) (s' : St World),
      (wp user (match files with
        | none => (Prog.raise .typeError : Fn Bool)
        | some files =>
          if d.hasRequired files then do
            let info ← d.getInfo env p
            return d.checkInfo info checkArch
          else return false) Q R s' ↔
      match files with
      | none => R .typeError s'
      | some names =>
        if d.hasRequired names then
          wp user (d.getInfo env p) (fun info s₂ => Q (d.checkInfo info checkArch) s₂) R s'
        else Q false s') := by
    intro files s'
    cases files with
    | none => exact Iff.rfl
    | some names =>
      by_cases hreq : d.hasRequired names = true
      · simp [hreq]
      · simp [hreq]
  constructor
  · intro h
    exact wp_mono h (fun files s' => (hrest files s').1) fun _ _ h => h
  · intro h
    exact wp_mono h (fun files s' => (hrest files s').2) fun _ _ h => h

theorem wp_setDistroFromArch_kept {Q : Unit → St World → Prop} {info : DiskInfo}
    (hd : s.world.distro = some d) (hinfo : s.world.diskInfo (p, d.infoFile) = some (some info))
    (hkept : env.Kept d info) :
    wp user (setDistroFromArch env p) Q R s ↔ Q () s := by
  unfold setDistroFromArch
  rcases hkept with harch | harch
  · simp [harch]
  · cases env.checkArch with
    | true => simp
    | false => simp [hd, wp_getInfo_cached hinfo, harch]

end

end Wubi.Backend
