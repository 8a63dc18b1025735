import Wubi.Backend.Verdict

/-!
# The check behind other files

The list of files and the info line of an ISO are cached by path, and the md5
too for a path that is not below the installation directory. `Mode` says what
the caches hold for a path: the first file of an admissible size settles how
every later one is judged. `checkIso_at` is `check_iso` in every mode.
-/
namespace Wubi.Backend

open Wubi.Tasks Wubi.Tasks.Prog

/-- What the caches hold for the path: nothing; no list of files; a list or an
info line that no ISO of the distro has, or an md5 that is not the metalink's;
or a list and an info line that are accepted. -/
inductive Mode where
  | fresh | unlisted | unfit | trusted
  deriving DecidableEq

inductive Judgement where
  | accepted
  | rejected (next : Mode)
  /-- the check raises, which cancels the list of tasks -/
  | stopped
  deriving DecidableEq

/-- The mode behind the first file that was read. -/
def Env.afterWrongSum (env : Env) (p : Str) : Mode :=
  if env.installDir.isPrefixOf p then .trusted else .unfit

/-- What `check_iso` does in each mode. -/
def Env.judge (env : Env) (d : Distro) (md5sum : Option Str) (p : Str) (μ : Mode) (content : Str) :
    Judgement :=
  match env.verdict d md5sum p content with
  | .wrongSize => .rejected μ
  | v =>
    match μ with
    | .fresh =>
      match v with
      | .good => .accepted
      | .unlisted => .rejected .unlisted
      | .wrongSum => .rejected (env.afterWrongSum p)
      | .raised => .stopped
      | _ => .rejected .unfit
    | .unlisted => .stopped
    | .unfit => .rejected .unfit
    | .trusted => if env.sumOk md5sum content then .accepted else .rejected .trusted

variable {env : Env} {user : Nat → Bool} {s : St World} {d : Distro} {md5sum : Option Str}
  {p content : Str} {μ : Mode}

/-- The table of md5 sums has another md5 than the metalink for the path. -/
def World.Stale (env : Env) (md5sum : Option Str) (p : Str) (w : World) : Prop :=
  env.skipMd5Check = false ∧ ∃ hash listed, w.isoMd5Hashes p = some (some hash) ∧
    hash ≠ [] ∧ md5sum = some listed ∧ listed ≠ hash

/-- The first file of the metalink of `d` has this md5. -/
def World.Lists (w : World) (d : Distro) (md5sum : Option Str) : Prop :=
  ∃ m file rest, w.metalink d = some m ∧ m.files = file :: rest ∧ file.md5sum = md5sum

def Caches (env : Env) (d : Distro) (md5sum : Option Str) (p : Str) : Mode → World → Prop
  | .fresh, w => w.fileNames p = none ∧
      w.diskInfo (p, d.infoFile) = none ∧
      w.isoMd5Hashes p = none
  | .unlisted, w => w.fileNames p = some none
  | .unfit, w => ∃ names, w.fileNames p = some (some names) ∧
      (d.hasRequired names = true →
        ∃ info, w.diskInfo (p, d.infoFile) = some info ∧
          (d.checkInfo info false = true → (∀ i, info = some i → env.Kept d i) ∧ w.Stale env md5sum p))
  | .trusted, w => ∃ names info, w.fileNames p = some (some names) ∧
      d.hasRequired names = true ∧
      w.diskInfo (p, d.infoFile) = some (some info) ∧
      d.checkInfo (some info) false = true ∧ env.Kept d info ∧
      w.isoMd5Hashes p = none ∧ env.installDir.isPrefixOf p = true

/-- The state in which the next file at the path is checked. -/
structure At (env : Env) (d : Distro) (md5sum : Option Str) (p : Str) (μ : Mode) (w : World) :
    Prop where
  distro : w.distro = some d
  lists : w.Lists d md5sum
  caches : Caches env d md5sum p μ w

/-- Files and the clock do not matter. -/
theorem At.touches {S : Str → Prop} {w w' : World} (h : At env d md5sum p μ w)
    (ht : Touches env S w w') :
    At env d md5sum p μ w' := by
  obtain ⟨⟨f, k, rfl⟩, -⟩ := ht
  refine ⟨h.distro, h.lists, ?_⟩
  have hcaches := h.caches
  cases μ <;> exact hcaches

/-! ## The md5 of the metalink -/

/-- A comparison with the md5 in the table. -/
theorem checkMd5_stale {Q : Bool → St World → Prop} {R : PyErr → St World → Prop}
    (hd : s.world.distro = some d) (hlists : s.world.Lists d md5sum)
    (hstale : s.world.Stale env md5sum p) :
    wp user (checkMd5 env p) Q R s ↔ Q false s := by
  obtain ⟨m, file, rest, hm, hfiles, rfl⟩ := hlists
  obtain ⟨hskip, hash, listed, hentry, hne, hsum, hother⟩ := hstale
  have hcached : nonempty (s.world.isoMd5Hashes p).join = some hash := by
    rw [hentry]
    simp [nonempty, hne]
  have hcmp : (some listed == some hash) = false := by simp [hother]
  simp only [checkMd5, hskip, ensureMetalink, isoMd5, wp_bind, wp_theDistro, hd, wp_get, hm, hfiles,
    hsum, hcached, wp_pure, hcmp, Bool.false_eq_true, if_false]

/-- What a comparison changes: the clock, and the table for a path that is not
below the installation directory. -/
structure Compared (env : Env) (md5sum : Option Str) (p content : Str) (s s' : St World) :
    Prop where
  live : s'.cancelled = false
  same : ∃ t k, s'.world = { s.world with isoMd5Hashes := t, clock := k }
  below : env.installDir.isPrefixOf p = true →
    s'.world.isoMd5Hashes = s.world.isoMd5Hashes
  stale : env.installDir.isPrefixOf p = false →
    env.sumOk md5sum content = false → s'.world.Stale env md5sum p

section
variable (hcalm : env.Calm) (hsilent : ∀ n, user n = false) (habs : env.abspath p = p)
include hcalm hsilent habs

theorem checkMd5_calm (hlive : s.cancelled = false) (hd : s.world.distro = some d)
    (hlists : s.world.Lists d md5sum) (hread : s.world.read env p = some content)
    (hnone : s.world.isoMd5Hashes p = none) :
    wp user (checkMd5 env p)
      (fun ok s' => ok = env.sumOk md5sum content ∧ Compared env md5sum p content s s')
      (fun _ _ => False) s := by
  obtain ⟨m, file, rest, hm, hfiles, hfile⟩ := hlists
  have hsame : env.sumOk md5sum content = true → Compared env md5sum p content s s := fun h =>
    ⟨hlive, ⟨_, _, rfl⟩, fun _ => rfl, fun _ h' => absurd (h.symm.trans h') (by simp)⟩
  unfold checkMd5
  cases hskip : env.skipMd5Check with
  | true =>
    have hok : env.sumOk md5sum content = true := by simp [Env.sumOk, hskip]
    simp only [if_true, wp_pure]
    exact ⟨hok.symm, hsame hok⟩
  | false =>
    simp only [Bool.false_eq_true, if_false, wp_bind, ensureMetalink, wp_theDistro, hd, wp_get, hm,
      wp_pure, hfiles, hfile]
    cases md5sum with
    | none =>
      have hok : env.sumOk none content = true := by simp [Env.sumOk]
      exact ⟨hok.symm, hsame hok⟩
    | some listed =>
      have hok : env.sumOk (some listed) content = (some listed == some (env.md5 content)) := by
        simp [Env.sumOk, hskip]
      have hcached : nonempty (s.world.isoMd5Hashes p).join = none := by
        rw [hnone]
        rfl
      simp only [wp_bind, isoMd5, wp_get, hcached]
      refine wp_mono (md5Task_calm hcalm hsilent (habs ▸ hcalm.abspath_ne p) hread hlive) ?_
        fun _ _ h => h
      intro v s₁ hpost
      obtain ⟨hv, hlive₁, k, hk⟩ := hpost
      have hentered : cacheHash p (some (env.md5 content)) s₁.world =
          { s.world with
            isoMd5Hashes := Function.update s.world.isoMd5Hashes p
              (some (some (env.md5 content)))
            clock := s.world.clock + k } := by
        rw [hk]
        rfl
      simp only [hv]
      rw [wp_ite]
      refine ⟨fun hbelow => ⟨hok.symm, hlive₁, ⟨_, _, hk⟩, fun _ => by rw [hk]; rfl, fun h => ?_⟩,
        fun hout => ⟨hok.symm, hlive₁, ⟨_, _, hentered⟩, fun h => absurd h hout, fun _ hbad => ?_⟩⟩
      · exact absurd (h.symm.trans hbelow) (by simp)
      · refine ⟨hskip, env.md5 content, listed, by simp [cacheHash], hcalm.md5_ne content, rfl, ?_⟩
        rw [hok] at hbad
        simpa using hbad

end

/-! ## The check in each mode -/

theorem hasRequired_nil : d.hasRequired [] = false := by
  simp [Distro.hasRequired, Distro.requiredFiles]

theorem Env.judge_wrongSize (h : d.wrongSize content.length = true) :
    env.judge d md5sum p μ content = .rejected μ := by
  have hverdict : env.verdict d md5sum p content = .wrongSize := by
    unfold Env.verdict
    rw [if_pos h]
  rw [Env.judge, hverdict]

/-- Behind a file of an admissible size only the mode and the md5 count. -/
theorem Env.judge_settled (h : d.wrongSize content.length = false) :
    env.judge d md5sum p .unlisted content = .stopped ∧
    env.judge d md5sum p .unfit content = .rejected .unfit ∧
    env.judge d md5sum p .trusted content =
      if env.sumOk md5sum content then .accepted else .rejected .trusted := by
  have hverdict : env.verdict d md5sum p content ≠ .wrongSize := Env.verdict_ne_wrongSize h
  unfold Env.judge
  cases hv : env.verdict d md5sum p content with
  | wrongSize => exact absurd hv hverdict
  | unlisted | raised | unfit | wrongSum | good => exact ⟨rfl, rfl, rfl⟩

/-- The end of a check that returns. -/
def Checked (env : Env) (d : Distro) (md5sum : Option Str) (p : Str) (μ : Mode) (content : Str)
    (files : Str → Option Str) (ok : Bool) (s' : St World) : Prop :=
  s'.cancelled = false ∧ s'.world.file = files ∧
    match env.judge d md5sum p μ content with
    | .accepted => ok = true
    | .rejected next => ok = false ∧ At env d md5sum p next s'.world
    | .stopped => False

/-- The end of a check that raises. -/
def CheckRaised (env : Env) (d : Distro) (md5sum : Option Str) (p : Str) (μ : Mode) (content : Str)
    (files : Str → Option Str) (s' : St World) : Prop :=
  s'.world.file = files ∧ env.judge d md5sum p μ content = .stopped

/-- `check_iso` on a file of an admissible size. -/
theorem wp_checkIso {Q : Bool → St World → Prop} {R : PyErr → St World → Prop}
    (habs : env.abspath p = p) (hd : s.world.distro = some d)
    (hread : s.world.read env p = some content) (hsize : d.wrongSize content.length = false) :
    wp user (checkIso env p) Q R s ↔
      wp user (getIsoFileNames env p)
        (fun files s' => match files with
          | none => R .typeError s'
          | some names =>
            if d.hasRequired names then
              wp user (d.getInfo env p)
                (fun info s₂ => wp user
                  (if d.checkInfo info false then do
                      setDistroFromArch env p
                      checkMd5 env p
                    else return false) Q R s₂) R s'
            else Q false s') R s := by
  rw [checkIso_eq]
  simp only [wp_bind, wp_theDistro, hd]
  exact wp_isValidIso habs hread hsize

theorem checkIso_wrongSize (habs : env.abspath p = p) (hat : At env d md5sum p μ s.world)
    (hlive : s.cancelled = false) (hread : s.world.read env p = some content)
    (hsize : d.wrongSize content.length = true) :
    wp user (checkIso env p) (Checked env d md5sum p μ content s.world.file)
      (fun _ s' => CheckRaised env d md5sum p μ content s.world.file s') s := by
  rw [checkIso_eq]
  simp only [wp_bind, wp_theDistro, hat.distro, Distro.isValidIso, wp_get, habs, hread, hsize,
    if_true, wp_pure, Bool.false_eq_true, if_false]
  refine ⟨hlive, rfl, ?_⟩
  rw [Env.judge_wrongSize hsize]
  exact ⟨rfl, hat⟩

/-- Once a file has been rejected for what the caches hold, every other one is. -/
theorem checkIso_unfit (habs : env.abspath p = p) (hat : At env d md5sum p .unfit s.world)
    (hlive : s.cancelled = false) (hread : s.world.read env p = some content)
    (hsize : d.wrongSize content.length = false) :
    wp user (checkIso env p) (Checked env d md5sum p .unfit content s.world.file)
      (fun _ s' => CheckRaised env d md5sum p .unfit content s.world.file s') s := by
  obtain ⟨names, hnames, hreject⟩ := hat.caches
  have hend : Checked env d md5sum p .unfit content s.world.file false s := by
    refine ⟨hlive, rfl, ?_⟩
    rw [(Env.judge_settled hsize).2.1]
    exact ⟨rfl, hat⟩
  rw [wp_checkIso habs hat.distro hread hsize, wp_getIsoFileNames_cached habs hnames]
  cases hreq : d.hasRequired names with
  | false =>
    simp only [hreq, Bool.false_eq_true, if_false]
    exact hend
  | true =>
    obtain ⟨info, hinfo, hstale⟩ := hreject hreq
    simp only [hreq, if_true]
    rw [wp_getInfo_cached hinfo]
    cases info with
    | none => exact hend
    | some i =>
      cases hline : d.checkInfo (some i) false with
      | false =>
        simp only [Bool.false_eq_true, if_false, wp_pure]
        exact hend
      | true =>
        obtain ⟨hk, hstale⟩ := hstale hline
        simp only [if_true, wp_bind]
        rw [wp_setDistroFromArch_kept hat.distro hinfo (hk i rfl),
          checkMd5_stale hat.distro hat.lists hstale]
        exact hend

section
variable (hcalm : env.Calm) (hsilent : ∀ n, user n = false) (habs : env.abspath p = p)
include hcalm hsilent habs

/-- The check behind `is_valid_iso`, on a file whose info line is accepted. -/
theorem checkIso_rest {info : DiskInfo} (hlive : s.cancelled = false)
    (hd : s.world.distro = some d) (hlists : s.world.Lists d md5sum)
    (hread : s.world.read env p = some content)
    (hinfo : s.world.diskInfo (p, d.infoFile) = some (some info))
    (hkept : env.Kept d info) (hnone : s.world.isoMd5Hashes p = none) :
    wp user (setDistroFromArch env p >>= fun _ => checkMd5 env p)
      (fun ok s' => ok = env.sumOk md5sum content ∧ Compared env md5sum p content s s')
      (fun _ _ => False) s := by
  rw [wp_bind, wp_setDistroFromArch_kept hd hinfo hkept]
  exact checkMd5_calm hcalm hsilent habs hlive hd hlists hread hnone

/-- The check of the first file of an admissible size, once its list of files
is in the cache. -/
theorem checkIso_listed {names : List Str} (hlive : s.cancelled = false)
    (hd : s.world.distro = some d) (hlists : s.world.Lists d md5sum)
    (hread : s.world.read env p = some content)
    (hsize : d.wrongSize content.length = false)
    (hlist : env.listing p content = .ok (some names))
    (hnames : s.world.fileNames p = some (some names))
    (hreq : d.hasRequired names = true)
    (hnoinfo : s.world.diskInfo (p, d.infoFile) = none)
    (hnone : s.world.isoMd5Hashes p = none)
    (hkept : env.KeepsArch d p content) :
    wp user (d.getInfo env p)
      (fun info s₂ => wp user
        (if d.checkInfo info false then do
            setDistroFromArch env p
            checkMd5 env p
          else return false)
        (Checked env d md5sum p .fresh content s.world.file)
        (fun _ s' => CheckRaised env d md5sum p .fresh content s.world.file s') s₂)
      (fun _ s' => CheckRaised env d md5sum p .fresh content s.world.file s') s := by
  rw [wp_getInfo_fresh hcalm.steady hnoinfo hread]
  cases hx : env.infoLine d p content with
  | error e =>
    have hv : env.verdict d md5sum p content = .raised := by simp [Env.verdict, hsize, hlist, hreq, hx]
    exact ⟨rfl, by rw [Env.judge, hv]⟩
  | ok info =>
    have hinfo : (cacheInfo (p, d.infoFile) info ((cacheInfo (p,
        d.infoFile) none s.world).advance 1)).diskInfo (p, d.infoFile) =
          some info := by
      simp [cacheInfo]
    cases hline : d.checkInfo info false with
    | false =>
      have hv : env.verdict d md5sum p content = .unfit := by
        simp [Env.verdict, hsize, hlist, hreq, hx, hline]
      simp only [hline, Bool.false_eq_true, if_false, wp_pure]
      refine ⟨hlive, rfl, ?_⟩
      rw [Env.judge, hv]
      exact ⟨rfl, hd, hlists, names, hnames, fun _ => ⟨info, hinfo, by simp [hline]⟩⟩
    | true =>
      cases info with
      | none => cases hline
      | some i =>
        have hk := hkept i hx hline
        have hv : env.verdict d md5sum p content =
            if env.sumOk md5sum content then .good else .wrongSum := by
          simp [Env.verdict, hsize, hlist, hreq, hx, hline]
        simp only [hline, if_true]
        refine wp_mono (checkIso_rest hcalm hsilent habs hlive hd hlists hread hinfo hk hnone) ?_
          fun _ _ h => h.elim
        intro ok s' hpost
        obtain ⟨rfl, hcmp⟩ := hpost
        obtain ⟨t, k, hw⟩ := hcmp.same
        refine ⟨hcmp.live, by rw [hw]; rfl, ?_⟩
        rw [Env.judge, hv]
        cases hsum : env.sumOk md5sum content with
        | true => rfl
        | false =>
          refine ⟨rfl, by rw [hw]; exact hd, by rw [hw]; exact hlists, ?_⟩
          rw [Env.afterWrongSum]
          cases hbelow : env.installDir.isPrefixOf p with
          | true =>
            refine ⟨names, i, by rw [hw]; exact hnames, hreq, by rw [hw]; exact hinfo, hline, hk, ?_,
              hbelow⟩
            rw [hcmp.below hbelow]
            exact hnone
          | false =>
            exact ⟨names, by rw [hw]; exact hnames, fun _ => ⟨some i, by rw [hw]; exact hinfo,
              fun _ => ⟨fun _ h => by cases h; exact hk, hcmp.stale hbelow hsum⟩⟩⟩

/-- Every file is compared with the md5 of the metalink. -/
theorem checkIso_trusted (hat : At env d md5sum p .trusted s.world) (hlive : s.cancelled = false)
    (hread : s.world.read env p = some content) (hsize : d.wrongSize content.length = false) :
    wp user (checkIso env p) (Checked env d md5sum p .trusted content s.world.file)
      (fun _ s' => CheckRaised env d md5sum p .trusted content s.world.file s') s := by
  obtain ⟨names, info, hnames, hreq, hinfo, hline, hk, hnone, hbelow⟩ := hat.caches
  rw [wp_checkIso habs hat.distro hread hsize, wp_getIsoFileNames_cached habs hnames]
  simp only [hreq, if_true]
  rw [wp_getInfo_cached hinfo]
  simp only [hline, if_true]
  refine wp_mono (checkIso_rest hcalm hsilent habs hlive hat.distro hat.lists hread hinfo hk hnone) ?_
    fun _ _ h => h.elim
  intro ok s' hpost
  obtain ⟨rfl, hcmp⟩ := hpost
  obtain ⟨t, k, hw⟩ := hcmp.same
  have ht : s'.world.isoMd5Hashes = s.world.isoMd5Hashes := hcmp.below hbelow
  refine ⟨hcmp.live, by rw [hw], ?_⟩
  rw [(Env.judge_settled hsize).2.2]
  cases hsum : env.sumOk md5sum content with
  | true => rfl
  | false =>
    refine ⟨rfl, by rw [hw]; exact hat.distro, by rw [hw]; exact hat.lists, names, info,
      by rw [hw]; exact hnames, hreq, by rw [hw]; exact hinfo, hline, hk, by rw [ht]; exact hnone, hbelow⟩

/-- The first file is read, and the caches keep what was found. -/
theorem checkIso_fresh (hat : At env d md5sum p .fresh s.world) (hlive : s.cancelled = false)
    (hread : s.world.read env p = some content) (hsize : d.wrongSize content.length = false)
    (hkept : env.KeepsArch d p content) :
    wp user (checkIso env p) (Checked env d md5sum p .fresh content s.world.file)
      (fun _ s' => CheckRaised env d md5sum p .fresh content s.world.file s') s := by
  have hd := hat.distro
  have hlists := hat.lists
  obtain ⟨hnonames, hnoinfo, hnone⟩ := hat.caches
  rw [wp_checkIso habs hd hread hsize, wp_getIsoFileNames_fresh hcalm.steady habs hnonames hread]
  cases hlist : env.listing p content with
  | error e =>
    have hv : env.verdict d md5sum p content = .raised := by simp [Env.verdict, hsize, hlist]
    exact ⟨rfl, by rw [Env.judge, hv]⟩
  | ok names =>
    cases names with
    | none =>
      have hv : env.verdict d md5sum p content = .unlisted := by simp [Env.verdict, hsize, hlist]
      simp only [hasRequired_nil, Bool.false_eq_true, if_false]
      refine ⟨hlive, rfl, ?_⟩
      rw [Env.judge, hv]
      exact ⟨rfl, hd, hlists, by simp [Caches, cacheNames, World.advance]⟩
    | some names =>
      have hnames : (cacheNames p (some names) ((cacheNames p
          none s.world).advance 1)).fileNames p = some (some names) := by
        simp [cacheNames]
      cases hreq : d.hasRequired names with
      | false =>
        have hv : env.verdict d md5sum p content = .unfit := by
          simp [Env.verdict, hsize, hlist, hreq]
        simp only [hreq, Bool.false_eq_true, if_false]
        refine ⟨hlive, rfl, ?_⟩
        rw [Env.judge, hv]
        exact ⟨rfl, hd, hlists, names, hnames, by simp [hreq]⟩
      | true =>
        simp only [hreq, if_true]
        exact checkIso_listed hcalm hsilent habs hlive hd hlists hread hsize hlist hnames hreq
          hnoinfo hnone hkept

theorem checkIso_at (hat : At env d md5sum p μ s.world) (hlive : s.cancelled = false)
    (hread : s.world.read env p = some content)
    (hkept : env.KeepsArch d p content) :
    wp user (checkIso env p) (Checked env d md5sum p μ content s.world.file)
      (fun _ s' => CheckRaised env d md5sum p μ content s.world.file s') s := by
  cases hsize : d.wrongSize content.length with
  | true => exact checkIso_wrongSize habs hat hlive hread hsize
  | false =>
    cases μ with
    | fresh => exact checkIso_fresh hcalm hsilent habs hat hlive hread hsize hkept
    | unlisted =>
      rw [wp_checkIso habs hat.distro hread hsize, wp_getIsoFileNames_cached habs hat.caches]
      exact ⟨rfl, (Env.judge_settled hsize).1⟩
    | unfit => exact checkIso_unfit habs hat hlive hread hsize
    | trusted => exact checkIso_trusted hcalm hsilent habs hat hlive hread hsize

end

end Wubi.Backend
