import Wubi.Backend.Cached

/-!
# One mirror after the other

All mirrors of a download save to one path. A plain download is a required
subtask, so one that fails cancels the whole list of tasks; a torrent is not.
A file that is rejected stays in the caches of the checks behind it.

`downloadIso_iff`: every mirror is tried and judged by its own file exactly
where `undisturbed` holds of the deliveries.
-/
namespace Wubi.Backend

open Wubi.Tasks Wubi.Tasks.Prog

/-- `join_path(self.info.install_dir, file.name)` -/
def Env.savePath (env : Env) (file : MetalinkFile) : Str := env.joinPath env.installDir file.name

inductive Delivery where
  | file (content : Str)
  | failed (isRequired : Bool)
  deriving DecidableEq

def Fetch.delivery (isRequired : Bool) : Fetch → Delivery
  | .saved content => .file content
  | .raised _ _ => .failed isRequired

/-- What the mirror does when it is tried. -/
def Env.delivery (env : Env) (url : MetalinkUrl) : Delivery :=
  if url.isBittorrent then (env.btdownload 0 url.url).delivery false
  else (env.download 0 url.url).delivery true

/-- The mirrors that `download_iso` may use, in its order. -/
def Env.permitted (env : Env) (file : MetalinkFile) : List MetalinkUrl :=
  ((selectMirrors env file.urls).take 5).filter fun url => !(url.isBittorrent && env.noBittorrent)

/-- The file passes `check_iso`. -/
def Env.Good (env : Env) (d : Distro) (file : MetalinkFile) : Delivery → Bool
  | .file content => env.verdict d file.md5sum (env.savePath file) content = .good
  | .failed _ => false

/-- No mirror disturbs the ones behind it, up to the first good file.

A required download that fails is the last one. The first file of an admissible
size is good; or its check raises and it is the last one; or it has no list of
files, and behind it at most the last file has an admissible size and is not
good; or its list or info line is not accepted, and no file behind it is good;
or only its md5 is wrong, and what follows up to the first good file has either
a wrong size or a wrong md5. -/
def undisturbed (env : Env) (d : Distro) (file : MetalinkFile) : Mode → List Delivery → Bool
  | _, [] => true
  | μ, .failed isRequired :: rest =>
    (!isRequired || rest.isEmpty) && undisturbed env d file μ rest
  | μ, .file content :: rest =>
    match env.verdict d file.md5sum (env.savePath file) content with
    | .wrongSize => undisturbed env d file μ rest
    | v =>
      match μ with
      | .fresh =>
        match v with
        | .good => true
        | .unlisted => undisturbed env d file .unlisted rest
        | .wrongSum => undisturbed env d file (env.afterWrongSum (env.savePath file)) rest
        | .raised => rest.isEmpty
        | _ => undisturbed env d file .unfit rest
      | .unlisted => v ≠ .good && rest.isEmpty
      | .unfit => v ≠ .good && undisturbed env d file .unfit rest
      | .trusted =>
        v = .good || !env.sumOk file.md5sum content && undisturbed env d file .trusted rest

variable {env : Env} {user : Nat → Bool} {s : St World} {d : Distro} {file : MetalinkFile}
  {μ : Mode} {content : Str}

/-- Undisturbed is: judged as if the file were the first one. -/
theorem undisturbed_file {rest : List Delivery} :
    undisturbed env d file μ (.file content :: rest) =
      match env.judge d file.md5sum (env.savePath file) μ content with
      | .accepted => env.Good d file (.file content)
      | .rejected next => !env.Good d file (.file content) && undisturbed env d file next rest
      | .stopped => !env.Good d file (.file content) && rest.isEmpty := by
  have hsum : env.verdict d file.md5sum (env.savePath file) content = .good →
      env.sumOk file.md5sum content = true := Env.verdict_good_sumOk
  rw [undisturbed, Env.judge, Env.Good]
  generalize env.verdict d file.md5sum (env.savePath file) content = v at hsum
  cases v with
  | wrongSize => simp
  | good => cases μ <;> simp [hsum rfl]
  | unlisted => cases μ <;> cases env.sumOk file.md5sum content <;> simp
  | raised => cases μ <;> cases env.sumOk file.md5sum content <;> simp
  | unfit => cases μ <;> cases env.sumOk file.md5sum content <;> simp
  | wrongSum => cases μ <;> cases env.sumOk file.md5sum content <;> simp

/-! ## One mirror -/

/-- The body of the loop of `download_iso`, for a mirror that it may use.
mirrors src/wubi/backends/common/backend.py:338-362 -/
def tryMirror (env : Env) (saveAs : Str) (url : MetalinkUrl) : Fn Bool := do
  let isoPath ← fetchMirror env saveAs url
  match isoPath with
  | none => return false
  | some isoPath =>
    let ok ← checkIsoTask env isoPath
    if ok then
      .modify fun w => { w with isoPath := some isoPath }
      return true
    else
      unlink env isoPath
      return false

/-- What trying a mirror leads to. -/
def Tried (env : Env) (d : Distro) (file : MetalinkFile) (μ : Mode) :
    Delivery → Bool → St World → Prop
  | .failed isRequired, ok, s' =>
    ok = false ∧ s'.cancelled = isRequired ∧ At env d file.md5sum (env.savePath file) μ s'.world
  | .file content, ok, s' =>
    match env.judge d file.md5sum (env.savePath file) μ content with
    | .accepted => ok = true ∧ s'.cancelled = false ∧
        s'.world.isoPath = some (env.savePath file) ∧
        s'.world.read env (env.savePath file) = some content
    | .rejected next => ok = false ∧ s'.cancelled = false ∧
        s'.world.read env (env.savePath file) = none ∧
        At env d file.md5sum (env.savePath file) next s'.world
    | .stopped => ok = false ∧ s'.cancelled = true ∧
        s'.world.read env (env.savePath file) = none

theorem unlink_calm {p : Str} {Q : Unit → St World → Prop} {R : PyErr → St World → Prop}
    (hcalm : env.Calm) (hread : s.world.read env p = some content) :
    wp user (unlink env p) Q R s ↔
      Q () ((s.map (World.advance 1)).map fun w => w.write env p none) := by
  have hread' : (s.world.advance 1).read env p = some content := hread
  simp only [unlink, put, wp_bind, io_calm hcalm, wp_get, St.map_world, hread', wp_modify]

theorem unlinkIfFile_calm {p : Str} (hcalm : env.Calm) :
    wp user (unlinkIfFile env p)
      (fun _ s' => s'.cancelled = s.cancelled ∧ Touches env (fun _ => True) s.world s'.world)
      (fun _ _ => False) s := by
  simp only [unlinkIfFile, wp_bind, wp_get]
  cases hread : s.world.read env p with
  | none => exact ⟨rfl, refl _⟩
  | some content =>
    simp only [Option.isSome_some, if_true]
    rw [unlink_calm hcalm hread]
    exact ⟨rfl, IsTrans.trans _ _ _ touches_advance (touches_write fun _ _ => trivial)⟩

/-- A transfer as a subtask. -/
theorem transferTask_calm {isRequired : Bool} {p : Str} {act : Fn Str} {fetch : Fetch}
    (hsilent : ∀ n, user n = false) (hlive : s.cancelled = false)
    (hact : ∀ {Q : Str → St World → Prop} {R : PyErr → St World → Prop} {s : St World},
      wp user act Q R s ↔ wp user (transfer env p fetch) Q R (s.map (World.advance 1))) :
    wp user (.sub isRequired (act.asTask fun p => some (.str p)))
      (fun v s' => Touches env (fun _ => True) s.world s'.world ∧
        match fetch.delivery isRequired with
        | .file content => v = some (.str p) ∧ s'.cancelled = false ∧
            s'.world.read env p = some content
        | .failed r => v = none ∧ s'.cancelled = r)
      (fun _ _ => False) s := by
  have hpoll := poll_live hsilent hlive
  rw [wp_sub, wp_asTask, hact]
  refine ⟨fun h => absurd (h.symm.trans hpoll) (by simp), fun _ => ?_⟩
  cases fetch with
  | saved content =>
    simp only [transfer, put, wp_bind, wp_modify, wp_pure]
    refine ⟨IsTrans.trans _ _ _ touches_advance (touches_write fun _ _ => trivial), trivial, hpoll, ?_⟩
    simp
  | raised e left =>
    simp only [transfer, wp_bind, wp_modify, wp_raise]
    refine ⟨IsTrans.trans _ _ _ touches_advance (touches_leave fun _ _ => trivial), trivial, ?_⟩
    have hend : ((s.poll user).cancelled || isRequired) = isRequired := by simp [hpoll]
    exact hend

theorem runDownload_calm {url : MetalinkUrl} (hcalm : env.Calm) (hsilent : ∀ n, user n = false)
    (hdir : env.isDir (env.savePath file) = false) (hlive : s.cancelled = false) :
    wp user (runDownload env (env.savePath file) url)
      (fun v s' => Touches env (fun _ => True) s.world s'.world ∧
        match env.delivery url with
        | .file content => v = some (.str (env.savePath file)) ∧ s'.cancelled = false ∧
            s'.world.read env (env.savePath file) = some content
        | .failed r => v = none ∧ s'.cancelled = r)
      (fun _ _ => False) s := by
  have htarget : env.target (env.savePath file) url.url = env.savePath file := by
    simp [Env.target, hdir]
  unfold runDownload Env.delivery
  cases url.isBittorrent with
  | true =>
    refine transferTask_calm hsilent hlive fun {Q R s} => ?_
    simp only [btdownload, wp_bind, wp_tick, hcalm.btdownload s.world.clock]
  | false =>
    refine transferTask_calm hsilent hlive fun {Q R s} => ?_
    simp only [download, wp_bind, wp_tick, hcalm.download s.world.clock, htarget]

/-- The check as a subtask: a check that raises is a rejection, and cancels. -/
theorem checkIsoTask_at (hcalm : env.Calm) (hsilent : ∀ n, user n = false)
    (hat : At env d file.md5sum (env.savePath file) μ s.world) (hlive : s.cancelled = false)
    (hread : s.world.read env (env.savePath file) = some content)
    (hkept : env.KeepsArch d (env.savePath file) content) :
    wp user (checkIsoTask env (env.savePath file))
      (fun ok s' => s'.world.read env (env.savePath file) = some content ∧
        match env.judge d file.md5sum (env.savePath file) μ content with
        | .accepted => ok = true ∧ s'.cancelled = false
        | .rejected next => ok = false ∧ s'.cancelled = false ∧
            At env d file.md5sum (env.savePath file) next s'.world
        | .stopped => ok = false ∧ s'.cancelled = true)
      (fun _ _ => False) s := by
  have hpoll := poll_live hsilent hlive
  have hkeep : ∀ {s' : St World}, s'.world.file = s.world.file →
      s'.world.read env (env.savePath file) = some content := by
    intro s' h
    rw [World.read, h]
    exact hread
  simp only [checkIsoTask, wp_bind, wp_pure, wp_sub, wp_asTask]
  refine ⟨fun h => absurd (h.symm.trans hpoll) (by simp), fun _ => ?_⟩
  refine wp_mono (checkIso_at (s := s.poll user) hcalm hsilent (env.abspath_abspath _) hat hpoll
    hread hkept) ?_ ?_
  · intro ok s' hpost
    obtain ⟨hlive', hfile, hjudged⟩ := hpost
    refine ⟨hkeep hfile, ?_⟩
    cases hj : env.judge d file.md5sum (env.savePath file) μ content with
    | accepted =>
      rw [hj] at hjudged
      cases ok with
      | true => exact ⟨rfl, hlive'⟩
      | false => cases hjudged
    | rejected next =>
      rw [hj] at hjudged
      obtain ⟨rfl, hat'⟩ := hjudged
      exact ⟨rfl, hlive', hat'⟩
    | stopped =>
      rw [hj] at hjudged
      exact hjudged.elim
  · intro e s' hpost
    obtain ⟨hfile, hj⟩ := hpost
    refine ⟨hkeep hfile, ?_⟩
    rw [hj]
    exact ⟨rfl, by simp [St.fail]⟩

theorem tryMirror_at {url : MetalinkUrl} (hcalm : env.Calm) (hsilent : ∀ n, user n = false)
    (hdir : env.isDir (env.savePath file) = false)
    (hat : At env d file.md5sum (env.savePath file) μ s.world) (hlive : s.cancelled = false)
    (hkept : ∀ c, env.delivery url = .file c → env.KeepsArch d (env.savePath file) c) :
    wp user (tryMirror env (env.savePath file) url) (Tried env d file μ (env.delivery url))
      (fun _ _ => False) s := by
  simp only [tryMirror, fetchMirror, wp_bind, wp_pure]
  refine wp_mono (unlinkIfFile_calm hcalm) ?_ fun _ _ h => h
  intro _ s₁ hpost
  obtain ⟨hlive₁, ht₁⟩ := hpost
  refine wp_mono (runDownload_calm hcalm hsilent hdir (hlive₁.trans hlive)) ?_
    fun _ _ h => h
  intro v s₂ hpost
  obtain ⟨ht₂, hdelivered⟩ := hpost
  have hat₂ : At env d file.md5sum (env.savePath file) μ s₂.world := (hat.touches ht₁).touches ht₂
  cases hdel : env.delivery url with
  | failed isRequired =>
    rw [hdel] at hdelivered
    obtain ⟨rfl, hcancelled⟩ := hdelivered
    exact ⟨rfl, hcancelled, hat₂⟩
  | file content =>
    rw [hdel] at hdelivered
    obtain ⟨rfl, hlive₂, hread₂⟩ := hdelivered
    have hpath : nonempty (Val.str? (some (.str (env.savePath file)))) = some (env.savePath file) := by
      simp [nonempty, Val.str?, Env.savePath, Env.joinPath, hcalm.abspath_ne]
    simp only [hpath, wp_bind]
    refine wp_mono (checkIsoTask_at hcalm hsilent hat₂ hlive₂ hread₂ (hkept content hdel)) ?_
      fun _ _ h => h
    intro ok s₃ hpost
    obtain ⟨hread₃, hjudged⟩ := hpost
    unfold Tried
    cases hj : env.judge d file.md5sum (env.savePath file) μ content with
    | accepted =>
      rw [hj] at hjudged
      obtain ⟨rfl, hlive₃⟩ := hjudged
      simp only [if_true, wp_bind, wp_modify, wp_pure, hj]
      exact ⟨trivial, hlive₃, rfl, hread₃⟩
    | rejected next =>
      rw [hj] at hjudged
      obtain ⟨rfl, hlive₃, hat₃⟩ := hjudged
      simp only [Bool.false_eq_true, if_false, wp_bind]
      rw [unlink_calm hcalm hread₃]
      simp only [wp_pure, hj]
      refine ⟨trivial, hlive₃, World.read_write, ?_⟩
      exact hat₃.touches (IsTrans.trans _ _ _ touches_advance
        (touches_write (S := fun _ => True) fun _ _ => trivial))
    | stopped =>
      rw [hj] at hjudged
      obtain ⟨rfl, hcancelled₃⟩ := hjudged
      simp only [Bool.false_eq_true, if_false, wp_bind]
      rw [unlink_calm hcalm hread₃]
      simp only [wp_pure, hj]
      exact ⟨trivial, hcancelled₃, World.read_write⟩

/-! ## The loop -/

/-- Mirrors that are left out leave no trace. -/
theorem tryMirrors_permitted {p : Str} {urls : List MetalinkUrl} :
    tryMirrors env p (urls.filter fun url => !(url.isBittorrent && env.noBittorrent)) =
      tryMirrors env p urls := by
  induction urls with
  | nil => rfl
  | cons url urls ih =>
    cases hperm : (url.isBittorrent && env.noBittorrent) with
    | true =>
      simp only [List.filter_cons, hperm, Bool.not_true, Bool.false_eq_true, if_false, ih]
      rw [tryMirrors, if_pos (by simpa using hperm)]
    | false =>
      have hskip : ¬ (url.isBittorrent = true ∧ env.noBittorrent = true) := by simpa using hperm
      simp only [List.filter_cons, hperm, Bool.not_false, if_true]
      rw [tryMirrors, tryMirrors, if_neg hskip, if_neg hskip, ih]

theorem wp_tryMirrors_cons {p : Str} {url : MetalinkUrl} {urls : List MetalinkUrl}
    {Q : Bool → St World → Prop} {R : PyErr → St World → Prop}
    (hperm : ¬ (url.isBittorrent = true ∧ env.noBittorrent = true)) :
    wp user (tryMirrors env p (url :: urls)) Q R s ↔
      wp user (tryMirror env p url)
        (fun ok s' => if ok then Q true s' else wp user (tryMirrors env p urls) Q R s') R s := by
  rw [tryMirrors, if_neg hperm]
  simp only [tryMirror, wp_bind]
  have hrest : ∀ (r : Option Str) (s' : St World),
      (wp user (match r with
        | none => tryMirrors env p urls
        | some isoPath => do
          let ok ← checkIsoTask env isoPath
          if ok then
            .modify fun w => { w with isoPath := some isoPath }
            return true
          else
            unlink env isoPath
            tryMirrors env p urls) Q R s' ↔
      wp user (match r with
        | none => (return false : Fn Bool)
        | some isoPath => do
          let ok ← checkIsoTask env isoPath
          if ok then
            .modify fun w => { w with isoPath := some isoPath }
            return true
          else
            unlink env isoPath
            return false)
        (fun ok s' => if ok then Q true s' else wp user (tryMirrors env p urls) Q R s') R s') := by
    intro r s'
    cases r with
    | none => simp
    | some isoPath =>
      have hend : ∀ (ok : Bool) (s₁ : St World),
          (wp user (if ok then do
              Prog.modify fun w => { w with isoPath := some isoPath }
              return true
            else do
              unlink env isoPath
              tryMirrors env p urls) Q R s₁ ↔
          wp user (if ok then do
              Prog.modify fun w => { w with isoPath := some isoPath }
              return true
            else do
              unlink env isoPath
              return false)
            (fun ok s' => if ok then Q true s' else wp user (tryMirrors env p urls) Q R s') R s₁) := by
        intro ok s₁
        cases ok <;> simp
      simp only [wp_bind]
      exact ⟨fun h => wp_mono h (fun ok s₁ => (hend ok s₁).1) fun _ _ h => h,
        fun h => wp_mono h (fun ok s₁ => (hend ok s₁).2) fun _ _ h => h⟩
  exact ⟨fun h => wp_mono h (fun r s' => (hrest r s').1) fun _ _ h => h,
    fun h => wp_mono h (fun r s' => (hrest r s').2) fun _ _ h => h⟩

/-- How the loop stands behind `url`, with the mirrors `later` left. -/
structure Fair (env : Env) (d : Distro) (file : MetalinkFile) (url : MetalinkUrl)
    (later : List MetalinkUrl) (ok : Bool) (s' : St World) : Prop where
  verdict : ok = env.Good d file (env.delivery url)
  removed : ∀ content, env.delivery url = .file content → ok = false →
    s'.world.read env (env.savePath file) = none
  goesOn : ok = false → later ≠ [] → s'.cancelled = false

/-- Every mirror up to the first good one is tried, its verdict is that of its
own file, and a file that is rejected is removed. -/
def EachFair (env : Env) (user : Nat → Bool) (d : Distro) (file : MetalinkFile)
    (urls : List MetalinkUrl) (s : St World) : Prop :=
  ∀ before url later, urls = before ++ url :: later →
    (∀ u ∈ before, env.Good d file (env.delivery u) = false) →
      wp user (tryMirrors env (env.savePath file) (before ++ [url])) (Fair env d file url later)
        (fun _ _ => False) s

theorem eachFair_nil : EachFair env user d file [] s := by
  intro before url later h
  cases before <;> cases h

theorem eachFair_cons {url : MetalinkUrl} {urls : List MetalinkUrl} {ok : Bool} {s₁ : St World}
    (hperm : ¬ (url.isBittorrent = true ∧ env.noBittorrent = true))
    (hrun : (tryMirror env (env.savePath file) url).run user s = (.ok ok, s₁)) :
    EachFair env user d file (url :: urls) s ↔
      Fair env d file url urls ok s₁ ∧ (ok = false → EachFair env user d file urls s₁) := by
  have hloop : ∀ {rest : List MetalinkUrl} {Q : Bool → St World → Prop},
      wp user (tryMirrors env (env.savePath file) (url :: rest)) Q (fun _ _ => False) s ↔
        if ok then Q true s₁
        else wp user (tryMirrors env (env.savePath file) rest) Q (fun _ _ => False) s₁ := by
    intro rest Q
    rw [wp_tryMirrors_cons hperm, wp_of_ok hrun]
  constructor
  · intro h
    have hfair : Fair env d file url urls ok s₁ := by
      have := hloop.1 (h [] url urls rfl fun _ hu => by cases hu)
      cases ok with
      | true => exact this
      | false => exact this
    refine ⟨hfair, ?_⟩
    rintro rfl before u later rfl hbad
    refine hloop.1 (h (url :: before) u later rfl fun v hv => ?_)
    rcases List.mem_cons.1 hv with rfl | hv
    · exact hfair.verdict.symm
    · exact hbad v hv
  · intro hboth before u later heq hbad
    obtain ⟨hfair, hrest⟩ := hboth
    cases before with
    | nil =>
      obtain ⟨rfl, rfl⟩ := List.cons.inj heq
      refine hloop.2 ?_
      cases ok with
      | true => exact hfair
      | false => exact hfair
    | cons v before =>
      obtain ⟨rfl, htail⟩ := List.cons.inj heq
      have hok : ok = false := hfair.verdict.trans (hbad url (List.mem_cons_self ..))
      refine hloop.2 ?_
      rw [if_neg (by simp [hok])]
      exact hrest hok before u later htail fun v hv => hbad v (List.mem_cons_of_mem _ hv)

theorem eachFair_iff {urls : List MetalinkUrl} (hcalm : env.Calm) (hsilent : ∀ n, user n = false)
    (hdir : env.isDir (env.savePath file) = false)
    (hat : At env d file.md5sum (env.savePath file) μ s.world) (hlive : s.cancelled = false)
    (hperm : ∀ url ∈ urls, ¬ (url.isBittorrent = true ∧ env.noBittorrent = true))
    (hkept : ∀ url ∈ urls, ∀ c, env.delivery url = .file c →
      env.KeepsArch d (env.savePath file) c) :
    EachFair env user d file urls s ↔ undisturbed env d file μ (urls.map env.delivery) = true := by
  induction urls generalizing s μ with
  | nil => exact ⟨fun _ => rfl, fun _ => eachFair_nil⟩
  | cons url urls ih =>
    have hperm' : ∀ u ∈ urls, ¬ (u.isBittorrent = true ∧ env.noBittorrent = true) :=
      fun u hu => hperm u (List.mem_cons_of_mem _ hu)
    have ih := fun {s₁ : St World} {next : Mode}
      (hat : At env d file.md5sum (env.savePath file) next s₁.world) (hlive : s₁.cancelled = false) =>
        ih hat hlive hperm' fun u hu => hkept u (List.mem_cons_of_mem _ hu)
    have hurl : url ∈ url :: urls := List.mem_cons_self ..
    obtain ⟨ok, s₁, hrun, htried⟩ := exists_run
      (tryMirror_at hcalm hsilent hdir hat hlive (hkept url hurl))
    rw [eachFair_cons (hperm url hurl) hrun, List.map_cons]
    cases hdel : env.delivery url with
    | failed isRequired =>
      rw [hdel] at htried
      obtain ⟨rfl, hcancelled, hat₁⟩ := htried
      have hfair : Fair env d file url urls false s₁ ↔ (urls ≠ [] → s₁.cancelled = false) := by
        refine ⟨fun h => h.goesOn rfl, fun h => ⟨?_, ?_, fun _ => h⟩⟩
        · rw [hdel]; rfl
        · intro c hc
          rw [hdel] at hc
          cases hc
      rw [hfair, undisturbed]
      cases isRequired with
      | false => simp [hcancelled, ih hat₁ hcancelled]
      | true =>
        cases urls with
        | nil => simp [eachFair_nil, undisturbed]
        | cons u urls => simp [hcancelled]
    | file content =>
      rw [hdel] at htried
      have hverdict : ∀ b, Fair env d file url urls b s₁ → b = env.Good d file (.file content) := by
        intro b h
        rw [← hdel]
        exact h.verdict
      rw [undisturbed_file]
      simp only [Tried] at htried
      cases hj : env.judge d file.md5sum (env.savePath file) μ content with
      | accepted =>
        rw [hj] at htried
        obtain ⟨rfl, -⟩ := htried
        refine ⟨fun h => (hverdict true h.1).symm, fun h => ⟨⟨?_, ?_, ?_⟩, ?_⟩⟩
        · rw [hdel]
          exact h.symm
        · intro _ _ h
          cases h
        · intro h
          cases h
        · intro h
          cases h
      | rejected next =>
        rw [hj] at htried
        obtain ⟨rfl, hlive₁, hread₁, hat₁⟩ := htried
        have hfair : Fair env d file url urls false s₁ ↔ env.Good d file (.file content) = false :=
          ⟨fun h => (hverdict false h).symm, fun h => ⟨by rw [hdel, h], fun _ _ _ => hread₁,
            fun _ _ => hlive₁⟩⟩
        simp [hfair, ih hat₁ hlive₁]
      | stopped =>
        rw [hj] at htried
        obtain ⟨rfl, hcancelled, hread₁⟩ := htried
        have hfair : Fair env d file url urls false s₁ ↔
            env.Good d file (.file content) = false ∧ urls = [] := by
          refine ⟨fun h => ⟨(hverdict false h).symm, ?_⟩, fun h => ⟨by rw [hdel, h.1],
            fun _ _ _ => hread₁, fun _ hne => absurd h.2 hne⟩⟩
          by_contra hne
          exact absurd (hcancelled.symm.trans (h.goesOn rfl hne)) (by simp)
        rw [hfair]
        cases urls with
        | nil => simp [eachFair_nil]
        | cons u urls => simp

/-- How the loop ends. -/
def FirstGood (env : Env) (d : Distro) (file : MetalinkFile) (deliveries : List Delivery) (ok : Bool)
    (s' : St World) : Prop :=
  match deliveries.find? (env.Good d file) with
  | some (.file content) => ok = true ∧ s'.world.isoPath = some (env.savePath file) ∧
      s'.world.read env (env.savePath file) = some content
  | _ => ok = false

theorem tryMirrors_firstGood {urls : List MetalinkUrl} (hcalm : env.Calm)
    (hsilent : ∀ n, user n = false) (hdir : env.isDir (env.savePath file) = false)
    (hat : At env d file.md5sum (env.savePath file) μ s.world)
    (hlive : s.cancelled = false)
    (hperm : ∀ url ∈ urls, ¬ (url.isBittorrent = true ∧ env.noBittorrent = true))
    (hkept : ∀ url ∈ urls, ∀ c, env.delivery url = .file c →
      env.KeepsArch d (env.savePath file) c)
    (h : undisturbed env d file μ (urls.map env.delivery) = true) :
    wp user (tryMirrors env (env.savePath file) urls)
      (FirstGood env d file (urls.map env.delivery)) (fun _ _ => False) s := by
  induction urls generalizing s μ with
  | nil => exact rfl
  | cons url urls ih =>
    have hurl : url ∈ url :: urls := List.mem_cons_self ..
    have ih := fun {s₁ : St World} {next : Mode}
      (hat : At env d file.md5sum (env.savePath file) next s₁.world) (hlive : s₁.cancelled = false) =>
        ih hat hlive (fun u hu => hperm u (List.mem_cons_of_mem _ hu))
          fun u hu => hkept u (List.mem_cons_of_mem _ hu)
    rw [wp_tryMirrors_cons (hperm url hurl)]
    refine wp_mono (tryMirror_at hcalm hsilent hdir hat hlive (hkept url hurl)) ?_
      fun _ _ h => h
    intro ok s₁ htried
    rw [List.map_cons] at h ⊢
    cases hdel : env.delivery url with
    | failed isRequired =>
      rw [hdel] at htried h
      obtain ⟨rfl, hcancelled, hat₁⟩ := htried
      have hskip : ∀ l ok s', FirstGood env d file (.failed isRequired :: l) ok s' ↔
          FirstGood env d file l ok s' := fun _ _ _ => Iff.rfl
      simp only [undisturbed, Bool.and_eq_true] at h
      simp only [hskip, Bool.false_eq_true, if_false]
      cases isRequired with
      | false => exact ih hat₁ hcancelled h.2
      | true =>
        cases urls with
        | nil => exact rfl
        | cons u urls => simp at h
    | file content =>
      rw [hdel, undisturbed_file] at h
      rw [hdel] at htried
      simp only [Tried] at htried
      cases hj : env.judge d file.md5sum (env.savePath file) μ content with
      | accepted =>
        rw [hj] at htried h
        obtain ⟨rfl, -, hpath, hread⟩ := htried
        simp only [if_true, FirstGood, List.find?_cons, h]
        exact ⟨trivial, hpath, hread⟩
      | rejected next =>
        rw [hj] at htried h
        obtain ⟨rfl, hlive₁, -, hat₁⟩ := htried
        simp only [Bool.and_eq_true, Bool.not_eq_true'] at h
        have hskip : ∀ l ok s', FirstGood env d file (.file content :: l) ok s' ↔
            FirstGood env d file l ok s' := by
          intro l ok s'
          simp only [FirstGood, List.find?_cons, h.1]
        simp only [Bool.false_eq_true, if_false]
        exact wp_mono (ih hat₁ hlive₁ h.2) (fun ok s' => (hskip _ ok s').2) fun _ _ h => h
      | stopped =>
        rw [hj] at htried h
        obtain ⟨rfl, -, -⟩ := htried
        simp only [Bool.and_eq_true, Bool.not_eq_true', List.isEmpty_iff, List.map_eq_nil_iff] at h
        obtain ⟨hbad, rfl⟩ := h
        simp [FirstGood, hbad, tryMirrors]

/-- `download_iso` as it is meant to be: the mirrors are tried by their scores,
each is judged by its own file, and the first good file is used. -/
structure UsesFirstGood (env : Env) (user : Nat → Bool) (d : Distro) (file : MetalinkFile)
    (s : St World) : Prop where
  order : (selectMirrors env file.urls).Pairwise fun x y => env.score y ≤ env.score x
  each : EachFair env user d file (env.permitted file)
    (s.map fun w => { w with cdPath := none })
  result : wp user (downloadIso env)
    (FirstGood env d file ((env.permitted file).map env.delivery)) (fun _ _ => False) s

/-- The first good mirror is used, and every one before it is tried and judged
by its own file, exactly where no delivery disturbs the ones behind it. -/
theorem downloadIso_iff {m : Metalink} {rest : List MetalinkFile} (hcalm : env.Calm)
    (hsilent : ∀ n, user n = false)
    (hdir : env.isDir (env.savePath file) = false) (hd : s.world.distro = some d)
    (hm : s.world.metalink d = some m) (hfiles : m.files = file :: rest)
    (hlive : s.cancelled = false) (hnames : s.world.fileNames (env.savePath file) = none)
    (hinfo : s.world.diskInfo (env.savePath file, d.infoFile) = none)
    (hhash : s.world.isoMd5Hashes (env.savePath file) = none)
    (hkept : ∀ url ∈ env.permitted file, ∀ c, env.delivery url = .file c →
      env.KeepsArch d (env.savePath file) c) :
    UsesFirstGood env user d file s ↔
      undisturbed env d file .fresh ((env.permitted file).map env.delivery) = true := by
  have hat : At env d file.md5sum (env.savePath file) .fresh
      (s.map fun w => { w with cdPath := none }).world :=
    ⟨hd, ⟨m, file, rest, hm, hfiles, rfl⟩, hnames, hinfo, hhash⟩
  have hperm : ∀ url ∈ env.permitted file, ¬ (url.isBittorrent = true ∧ env.noBittorrent = true) := by
    intro url hurl hboth
    have hkeep := (List.mem_filter.1 hurl).2
    simp [hboth] at hkeep
  have heach := eachFair_iff hcalm hsilent hdir hat hlive hperm hkept
  refine ⟨fun h => heach.1 h.each, fun h => ⟨?_, heach.2 h, ?_⟩⟩
  · exact List.pairwise_insertionSort _ _
  · have hloop := tryMirrors_firstGood hcalm hsilent hdir hat hlive hperm hkept h
    rw [Env.permitted, tryMirrors_permitted] at hloop
    simp only [downloadIso, ensureMetalink, wp_bind, wp_modify, wp_theDistro, wp_get, St.map_world,
      hd, hm, hfiles, wp_pure]
    exact hloop

/-! ## A mirror that fails before one that delivers -/

def pathOrRoot (p : Str) : Str := if p = [] then "C:\\".toList else p

theorem pathOrRoot_ne (p : Str) : pathOrRoot p ≠ [] := by
  unfold pathOrRoot
  split
  · decide
  · assumption

/-- One ISO, `x`, that only the server `two` has. -/
def twoServers : Env :=
  { i686Medium with
    checkArch := true
    skipMd5Check := false
    md5 := fun content => '#' :: content
    abspath := pathOrRoot
    abspath_abspath := fun p => if_neg (pathOrRoot_ne p)
    download := fun _ url =>
      if url = "http://two/a".toList then .saved ['x'] else .raised (.osError 2) none }

/-- The first mirror is of the given type and has the better score. -/
def twoServersFile (type : String) : MetalinkFile :=
  ⟨"a.iso".toList, [⟨"md5".toList, ['#', 'x']⟩],
    [⟨"http://two/a".toList, "http".toList, [], 80⟩, ⟨"http://one/a".toList, type.toList, [], 90⟩]⟩

def twoServersState (type : String) : St World :=
  ⟨{ (default : World) with
      distro := some onlyX86, metalink := fun _ => some ⟨[twoServersFile type]⟩ }, false, 0⟩

theorem twoServers_calm : twoServers.Calm :=
  ⟨fun _ => rfl, fun _ _ => rfl, fun _ _ => rfl, fun _ _ _ => rfl, fun _ _ _ _ => rfl,
    pathOrRoot_ne, fun _ h => nomatch h⟩

/-- A torrent that fails is not required, and the next mirror is used. -/
theorem downloadIso_iff_torrent :
    UsesFirstGood twoServers (fun _ => false) onlyX86 (twoServersFile "bittorrent")
      (twoServersState "bittorrent") :=
  (downloadIso_iff twoServers_calm (fun _ => rfl) (by decide) rfl rfl rfl rfl rfl rfl rfl
    fun _ _ _ _ _ _ _ => .inl rfl).2 (by decide)

/-- A plain download that fails cancels the list, and the next mirror is not tried. -/
theorem failed_download_stops :
    (twoServers.permitted (twoServersFile "http")).map twoServers.delivery =
      [.failed true, .file ['x']] ∧
    twoServers.Good onlyX86 (twoServersFile "http") (.file ['x']) = true ∧
    ((downloadIso twoServers).run (fun _ => false) (twoServersState "http")).1 = .ok false ∧
    ((downloadIso twoServers).run (fun _ => false) (twoServersState "http")).2.cancelled = true ∧
    ¬ UsesFirstGood twoServers (fun _ => false) onlyX86 (twoServersFile "http")
      (twoServersState "http") := by
  have hrun : (twoServers.permitted (twoServersFile "http")).map twoServers.delivery =
        [.failed true, .file ['x']] ∧
      twoServers.Good onlyX86 (twoServersFile "http") (.file ['x']) = true ∧
      ((downloadIso twoServers).run (fun _ => false) (twoServersState "http")).1 = .ok false ∧
      ((downloadIso twoServers).run (fun _ => false) (twoServersState "http")).2.cancelled = true := by
    decide
  obtain ⟨hdel, hgood, hok, hcancelled⟩ := hrun
  refine ⟨hdel, hgood, hok, hcancelled, fun h => ?_⟩
  obtain ⟨ok, s', hrun', hend⟩ := exists_run h.result
  rw [hrun'] at hok
  rw [FirstGood, hdel] at hend
  have hfind : [Delivery.failed true, .file ['x']].find?
      (twoServers.Good onlyX86 (twoServersFile "http")) = some (.file ['x']) := by
    rw [List.find?_cons_of_neg (by simp [Env.Good]), List.find?_cons_of_pos hgood]
  rw [hfind] at hend
  cases hok
  exact absurd hend.1 (by simp)

end Wubi.Backend