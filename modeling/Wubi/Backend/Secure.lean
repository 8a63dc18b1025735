import Wubi.Backend.Verified

/-!
# Every source ends on a verified ISO

The pre-specified ISO, the CD, a local ISO and the download, each followed to
the end. A source that does not deliver leaves `Ready` for the next one; one
that delivers leaves `Good`.
-/
namespace Wubi.Backend

open Wubi.Tasks Wubi.Tasks.Prog

/-- `info.iso_path` names a file that has been compared with the metalink. -/
def World.Verified (env : Env) (w : World) : Prop :=
  ∃ p, w.isoPath = some p ∧ w.Checked env p

/-- `info.iso_path` was copied from a CD that declares a pre-release. -/
def World.FromPreRelease (env : Env) (w : World) : Prop :=
  w.isoPath = some env.dest ∧ ∃ cdPath d info, w.cdPath = some cdPath ∧ w.cdDistro = some d ∧
    w.Declares env cdPath d.infoFile info ∧ info.subversion.lower ∈ ignoredSubversions

def World.Good (env : Env) (w : World) : Prop := w.Verified env ∨ w.FromPreRelease env

/-- What `get_iso` starts from: the invariant, and sources that the installer
does not write. -/
structure Ready (env : Env) (w : World) : Prop where
  inv : Inv env w
  isoPath : ∀ p, w.isoPath = some p → ¬ env.Written p
  cdPath : ∀ p, w.cdPath = some p → env.Media p

/-- What a source leaves behind, by its result. -/
def Outcome (env : Env) (b : Bool) (s : St World) : Prop :=
  (b = false → Ready env s.world) ∧ (b = true → s.cancelled = false → s.world.Good env)

variable {env : Env} {user : Nat → Bool} {s : St World} {p : Str}

theorem Ready.keep {w w' : World} (h : Ready env w) (hk : Keeps env w w') : Ready env w' :=
  ⟨hk.inv h.inv, fun p hp => h.isoPath p (hk.isoPath ▸ hp), fun p hp => h.cdPath p (hk.cdPath ▸ hp)⟩

theorem Ready.no_cd {w : World} (h : Ready env w) : Ready env { w with cdPath := none } :=
  ⟨⟨h.inv.hash, h.inv.parsed, h.inv.declared⟩, h.isoPath, fun _ hp => nomatch hp⟩

theorem Ready.no_iso {w : World} (h : Inv env w) : Ready env { w with cdPath := none, isoPath := none } :=
  ⟨⟨h.hash, h.parsed, h.declared⟩, (fun _ hp => nomatch hp), fun _ hp => nomatch hp⟩

theorem outcome_false (h : Ready env s.world) : Outcome env false s :=
  ⟨fun _ => h, fun hb => nomatch hb⟩

theorem outcome_true (h : s.cancelled = false → s.world.Good env) : Outcome env true s :=
  ⟨(fun hb => nomatch hb), fun _ => h⟩

/-! ## Copying an ISO -/

theorem checkIsoTask_value (hskip : env.skipMd5Check = false) (hkey : env.Key p)
    (hinv : Inv env s.world) :
    wp user (checkIsoTask env p)
      (fun b s' => Keeps env s.world s'.world ∧ (b = true → s'.world.Checked env p))
      (fun _ _ => False) s := by
  simp only [checkIsoTask, wp_bind, wp_pure, wp_sub, wp_asTask]
  refine ⟨fun _ => ⟨refl _, fun hb => by cases hb⟩, fun _ => ?_⟩
  refine wp_mono (checkIso_value hskip hkey hinv) (fun b s' h => ?_)
    fun e s' h => ⟨h, fun hb => by cases hb⟩
  cases b with
  | true => exact h
  | false => exact h

/-- An ISO that is not cancelled on its way arrives complete. -/
theorem bringIso_value (hplaced : env.Placed) (hp : ¬ env.Written p) :
    wp user (bringIso env p)
      (fun _ s' => Touches env (fun _ => True) s.world s'.world ∧
        (s'.cancelled = false → ∀ content, s.world.read env p = some content →
          s'.world.read env env.dest = some content))
      (fun _ _ => False) s := by
  have hne : env.abspath p ≠ env.abspath env.dest := fun h => hp (.inl h)
  have hhit : ∀ q, Hits env (fun _ => True) q := fun _ _ _ => trivial
  have hsub : ∀ {q : Fn Unit}, Steps user (Touches env fun _ => True) q →
      (∀ content, s.world.read env p = some content → ∀ s', s'.world = s.world →
        wp user q (fun _ s' => s'.cancelled = false → s'.world.read env env.dest = some content)
          (fun _ _ => True) s') →
      wp user (.sub true (q.asTask fun _ => none))
        (fun _ s' => Touches env (fun _ => True) s.world s'.world ∧
          (s'.cancelled = false → ∀ content, s.world.read env p = some content →
            s'.world.read env env.dest = some content))
        (fun _ _ => False) s := by
    intro q hsteps hval
    rw [wp_sub, wp_asTask]
    refine ⟨fun hc => ⟨refl _, fun hlive => ?_⟩, fun _ => ?_⟩
    · rw [hc] at hlive; cases hlive
    · have hval' : wp user q (fun _ s' => s'.cancelled = false → ∀ content,
          s.world.read env p = some content → s'.world.read env env.dest = some content)
          (fun _ _ => True) (s.poll user) := by
        cases hread : s.world.read env p with
        | none => exact wp_mono wp_true (fun _ _ _ _ _ h => by cases h) fun _ _ h => h
        | some content =>
          refine wp_mono (hval content hread (s.poll user) rfl) (fun _ _ h hlive c hc => ?_)
            fun _ _ h => h
          cases hc
          exact h hlive
      refine wp_mono (wp_and (hsteps (s.poll user)) hval') (fun _ _ h => h) fun _ s' h => ?_
      refine ⟨h.1, fun hlive => ?_⟩
      simp [St.fail] at hlive
  unfold bringIso
  rw [wp_ite]
  refine ⟨fun _ => hsub (steps_move (hhit _) (hhit _)) fun content hread s' hs' => ?_,
    fun _ => hsub (steps_copyFile (hhit _)) fun content hread s' hs' => ?_⟩
  · refine wp_mono (move_value ?_ hplaced.destFile) (fun _ _ h _ => h) fun _ _ h => h
    rw [hs']; exact hread
  · refine copyFile_value ?_ hne
    rw [hs']; exact hread

theorem copyIso_outcome (hskip : env.skipMd5Check = false) (hplaced : env.Placed)
    (hready : Ready env s.world) (hp : ¬ env.Written p) :
    wp user (copyIso env p) (Outcome env) (fun _ _ => True) s := by
  unfold copyIso
  rw [wp_ite]
  refine ⟨fun _ => outcome_false hready, fun _ => ?_⟩
  rw [wp_bind]
  refine wp_mono (checkIsoTask_value hskip (.inr hp) hready.inv) ?_
    fun _ _ h => h.elim
  intro ok s₁ hpost
  obtain ⟨h₁, hok⟩ := hpost
  cases ok with
  | false => exact outcome_false (hready.keep h₁)
  | true =>
    simp only [if_true, wp_bind, wp_modify, wp_pure]
    refine wp_mono (bringIso_value hplaced hp) ?_ fun _ _ h => h.elim
    intro _ s₂ hpost
    obtain ⟨h₂, hcopy⟩ := hpost
    refine outcome_true fun hlive => .inl ⟨env.dest, rfl, ?_⟩
    intro d m file rest h hd hm hfiles hsum
    obtain ⟨_, _, hw⟩ := h₂.same
    simp only [St.map_world, hw] at hd hm
    obtain ⟨content, hread, hmd5⟩ := hok rfl d m file rest h hd hm hfiles hsum
    exact ⟨content, hcopy hlive content hread, hmd5⟩

theorem getPrespecifiedIso_outcome (hskip : env.skipMd5Check = false) (hplaced : env.Placed)
    (hready : Ready env s.world) :
    wp user (getPrespecifiedIso env) (Outcome env) (fun _ _ => True) s := by
  simp only [getPrespecifiedIso, wp_bind, wp_get]
  cases hpath : nonempty s.world.isoPath with
  | none => exact outcome_false hready
  | some p =>
    have hp : ¬ env.Written p :=
      hready.isoPath p (Option.filter_eq_some_iff.1 hpath).1
    simp only [wp_ite, wp_bind]
    refine ⟨fun _ => ?_, fun _ => outcome_false hready⟩
    rw [wp_theDistro]
    cases s.world.distro with
    | none => trivial
    | some d =>
      refine wp_mono ((Steps.sub keeps_isValidIso.asTask) s) (fun v s₁ h₁ => ?_) fun _ _ _ => trivial
      have hready₁ : Ready env s₁.world := hready.keep h₁
      cases Val.truthy v with
      | true => exact copyIso_outcome hskip hplaced hready₁.no_cd hp
      | false => exact copyIso_outcome hskip hplaced hready₁ hp

/-! ## The CD -/

theorem findCdFrom_value {d : Distro} {paths : List Str} :
    wp user (findCdFrom env d paths)
      (fun r s' => Keeps env s.world s'.world ∧
        ∀ p, r = some p → ∃ q ∈ paths, p = env.abspath q)
      (fun _ _ => True) s := by
  induction paths generalizing s with
  | nil => exact ⟨refl _, by simp⟩
  | cons q qs ih =>
    simp only [findCdFrom, wp_bind]
    refine wp_mono (keeps_isValidCd s) (fun valid s₁ h₁ => ?_) fun _ _ _ => trivial
    rw [wp_ite]
    refine ⟨fun _ => ⟨h₁, fun p h => ⟨q, List.mem_cons_self, (Option.some.inj h).symm⟩⟩, fun _ => ?_⟩
    refine wp_mono ih ?_ fun _ _ h => h
    intro r s₂ hpost
    obtain ⟨h₂, hr⟩ := hpost
    refine ⟨IsTrans.trans _ _ _ h₁ h₂, fun p hp => ?_⟩
    obtain ⟨q', hq', h⟩ := hr p hp
    exact ⟨q', List.mem_cons_of_mem _ hq', h⟩

theorem findCd_value (hplaced : env.Placed) :
    wp user (findCd env)
      (fun r s' => Keeps env s.world s'.world ∧ ∀ p, r = some p → env.Media p)
      (fun _ _ => True) s := by
  unfold findCd
  cases hcds : env.cdSearch with
  | nil => exact ⟨refl _, by simp⟩
  | cons q qs =>
    simp only [wp_bind, wp_theDistro]
    cases s.world.distro with
    | none => trivial
    | some d =>
      refine wp_mono findCdFrom_value ?_ fun _ _ h => h
      intro r s₁ hpost
      obtain ⟨h₁, hr⟩ := hpost
      refine ⟨h₁, fun p hp => ?_⟩
      obtain ⟨q', hq', rfl⟩ := hr p hp
      exact hplaced.cds q' (hcds ▸ hq')

theorem chooseCd_value (hplaced : env.Placed) (hready : Ready env s.world) :
    wp user (chooseCd env)
      (fun r s' => Keeps env s.world s'.world ∧ ∀ p, r = some p → env.Media p)
      (fun _ _ => True) s := by
  simp only [chooseCd, wp_bind, wp_get]
  split
  · rename_i d cdPath hd hcd
    rw [wp_ite]
    refine ⟨fun _ => ⟨refl _, fun p h => ?_⟩, fun _ => findCd_value hplaced⟩
    cases h
    exact hready.cdPath cdPath (Option.filter_eq_some_iff.1 hcd).1
  · exact findCd_value hplaced

theorem useCd_outcome (hskip : env.skipMd5Check = false) (hplaced : env.Placed)
    (hready : Ready env s.world) :
    wp user (useCd env) (Outcome env) (fun _ _ => True) s := by
  unfold useCd
  rw [wp_bind]
  refine wp_mono (chooseCd_value hplaced hready) ?_
    fun _ _ _ => trivial
  intro found s₁ hpost
  obtain ⟨h₁, hfound⟩ := hpost
  cases hcd : nonempty found with
  | none => exact outcome_false (hready.keep h₁)
  | some cdPath =>
    have hmedia : env.Media cdPath := hfound cdPath (Option.filter_eq_some_iff.1 hcd).1
    simp only [wp_bind, wp_modify, wp_tryCatch, wp_pure, if_true]
    generalize hs₂ : St.map _ s₁ = s₂
    have hinv₂ : Inv env s₂.world := by
      have hinv := (hready.keep h₁).inv
      rw [← hs₂]
      exact ⟨hinv.hash, hinv.parsed, hinv.declared⟩
    have hiso₂ : s₂.world.isoPath = some env.dest := by rw [← hs₂]; rfl
    have hcopy : Steps user (Keeps env) (.sub true ((copyFile env cdPath env.dest true).asTask fun _ => none)) :=
      Steps.sub ((steps_copyFile hits_dest).mono fun _ _ => Touches.keeps).asTask
    refine wp_mono (hcopy s₂) (fun _ s₃ h₃ => ?_) fun _ s₃ h₃ => ?_
    · generalize hs₄ : St.map _ s₃ = s₄
      have hinv₄ : Inv env s₄.world := by
        have hinv := h₃.inv hinv₂
        rw [← hs₄]
        exact ⟨hinv.hash, hinv.parsed, hinv.declared⟩
      have hiso₄ : s₄.world.isoPath = some env.dest := by
        rw [← hs₄]; exact h₃.isoPath.trans hiso₂
      have hcd₄ : s₄.world.cdPath = some cdPath := by rw [← hs₄]; rfl
      refine wp_mono (checkIsoTask_value hskip (.inl hplaced.dest) hinv₄) ?_
        fun _ _ h => h.elim
      intro ok s₅ hpost
      obtain ⟨h₅, hok⟩ := hpost
      have hiso₅ : s₅.world.isoPath = some env.dest := h₅.isoPath.trans hiso₄
      cases ok with
      | true => exact outcome_true fun _ => .inl ⟨env.dest, hiso₅, hok rfl⟩
      | false =>
        simp only [Bool.false_eq_true, if_false, wp_bind, wp_get]
        cases hcdd : s₅.world.cdDistro with
        | none => trivial
        | some d =>
          simp only [wp_bind]
          refine wp_mono getInfo_value ?_ fun _ _ _ => trivial
          intro info s₆ hpost
          obtain ⟨h₆, hinfo⟩ := hpost
          have hinv₆ : Inv env s₆.world := h₆.inv (h₅.inv hinv₄)
          cases info with
          | none => trivial
          | some info =>
            simp only [wp_ite, wp_bind, wp_modify, wp_pure]
            refine ⟨fun hpre => outcome_true fun _ => .inr ?_, fun _ => outcome_false (.no_iso hinv₆)⟩
            exact ⟨h₆.isoPath.trans hiso₅, cdPath, d, info,
              h₆.cdPath.trans (h₅.cdPath.trans hcd₄), h₆.cdDistro.trans hcdd,
              hinv₆.declared cdPath d.infoFile info hmedia hinfo, hpre⟩
    · exact outcome_false (.no_iso (h₃.inv hinv₂))

/-! ## A local ISO -/

theorem findIsoFrom_value {d : Distro} {isos : List Str} :
    wp user (findIsoFrom env d isos)
      (fun r s' => Keeps env s.world s'.world ∧ ∀ p, r = some p → p ∈ isos)
      (fun _ _ => True) s := by
  induction isos generalizing s with
  | nil => exact ⟨refl _, by simp⟩
  | cons q qs ih =>
    simp only [findIsoFrom, wp_bind]
    refine wp_mono (keeps_isValidIso s) (fun valid s₁ h₁ => ?_) fun _ _ _ => trivial
    rw [wp_ite]
    refine ⟨fun _ => ⟨h₁, fun p h => by cases h; exact List.mem_cons_self⟩, fun _ => ?_⟩
    refine wp_mono ih ?_ fun _ _ h => h
    intro r s₂ hpost
    obtain ⟨h₂, hr⟩ := hpost
    exact ⟨IsTrans.trans _ _ _ h₁ h₂, fun p hp => List.mem_cons_of_mem _ (hr p hp)⟩

theorem findIso_value (hplaced : env.Placed) :
    wp user (findIso env)
      (fun r s' => Keeps env s.world s'.world ∧ ∀ p, r = some p → ¬ env.Written p)
      (fun _ _ => True) s := by
  simp only [findIso, wp_bind, wp_tick]
  have h₁ : Keeps env s.world (s.world.advance 1) :=
    keeps_of_same rfl rfl rfl rfl rfl rfl rfl rfl
  cases hisos : env.isoSearch s.world.clock with
  | nil => exact ⟨h₁, by simp⟩
  | cons q qs =>
    simp only [wp_bind, wp_theDistro]
    cases (s.map (World.advance 1)).world.distro with
    | none => trivial
    | some d =>
      refine wp_mono findIsoFrom_value ?_ fun _ _ h => h
      intro r s₂ hpost
      obtain ⟨h₂, hr⟩ := hpost
      refine ⟨IsTrans.trans _ _ _ h₁ h₂, fun p hp => ?_⟩
      exact hplaced.isos _ p (hisos ▸ hr p hp)

theorem chooseIso_value (hplaced : env.Placed) (hready : Ready env s.world) :
    wp user (chooseIso env)
      (fun r s' => Keeps env s.world s'.world ∧ ∀ p, r = some p → ¬ env.Written p)
      (fun _ _ => True) s := by
  simp only [chooseIso, wp_bind, wp_get]
  rw [wp_ite]
  refine ⟨fun _ => ?_, fun _ => findIso_value hplaced⟩
  cases hpath : s.world.isoPath with
  | none => trivial
  | some p =>
    simp only [wp_ite]
    refine ⟨fun _ => ⟨refl _, fun q hq => ?_⟩, fun _ => findIso_value hplaced⟩
    cases hq
    exact hready.isoPath p hpath

theorem useIso_outcome (hskip : env.skipMd5Check = false) (hplaced : env.Placed)
    (hready : Ready env s.world) :
    wp user (useIso env) (Outcome env) (fun _ _ => True) s := by
  unfold useIso
  rw [wp_bind]
  refine wp_mono (chooseIso_value hplaced hready) (fun found s₁ ⟨h₁, hfound⟩ => ?_)
    fun _ _ _ => trivial
  cases hiso : nonempty found with
  | none => exact outcome_false (hready.keep h₁)
  | some p =>
    exact copyIso_outcome hskip hplaced (hready.keep h₁)
      (hfound p (Option.filter_eq_some_iff.1 hiso).1)

/-! ## The download -/

theorem runDownload_value {saveAs : Str} {url : MetalinkUrl} (hsave : env.SaveAs saveAs) :
    wp user (runDownload env saveAs url)
      (fun v s' => Keeps env s.world s'.world ∧
        ∀ p, Val.str? v = some p → p = saveAs ∨ p = env.target saveAs url.url)
      (fun _ _ => False) s := by
  have htransfer : ∀ {q : Str} {fetch : Fetch} {s : St World},
      wp user (transfer env q fetch) (fun p _ => p = q) (fun _ _ => True) s := by
    intro q fetch s
    cases fetch with
    | saved content => rfl
    | raised e left => trivial
  have hsub : ∀ {r : Bool} {q : Str} {act : Fn Str}, (q = saveAs ∨ q = env.target saveAs url.url) →
      Steps user (Touches env env.Written) act →
      (∀ s, wp user act (fun p _ => p = q) (fun _ _ => True) s) →
      wp user (.sub r (act.asTask fun p => some (.str p)))
        (fun v s' => Keeps env s.world s'.world ∧
          ∀ p, Val.str? v = some p → p = saveAs ∨ p = env.target saveAs url.url)
        (fun _ _ => False) s := by
    intro r q act hq hsteps hval
    rw [wp_sub, wp_asTask]
    refine ⟨fun _ => ⟨refl _, fun p h => nomatch h⟩, fun _ => ?_⟩
    refine wp_mono (wp_and (hsteps (s.poll user)) (hval _)) (fun p s' h => ?_)
      fun e s' h => ⟨h.1.keeps, fun p hp => nomatch hp⟩
    refine ⟨h.1.keeps, fun p' hp => ?_⟩
    cases hp
    exact h.2 ▸ hq
  unfold runDownload
  rw [wp_ite]
  refine ⟨fun _ => hsub (.inl rfl) (steps_btdownload (hits_saveAs hsave)) fun s => ?_,
    fun _ => hsub (.inr rfl) (steps_download (hits_saved hsave)) fun s => ?_⟩
  · simp only [btdownload, wp_bind, wp_tick]
    exact htransfer
  · simp only [download, wp_bind, wp_tick]
    exact htransfer

theorem fetchMirror_value {saveAs : Str} {url : MetalinkUrl} (hsave : env.SaveAs saveAs) :
    wp user (fetchMirror env saveAs url)
      (fun r s' => Keeps env s.world s'.world ∧
        ∀ p, r = some p → p = saveAs ∨ p = env.target saveAs url.url)
      (fun _ _ => True) s := by
  have hunlink : Steps user (Keeps env) (unlinkIfFile env saveAs) :=
    Steps.get.bind fun _ => .ite
      (fun _ => (steps_unlink (hits_saveAs hsave)).mono fun _ _ => Touches.keeps) fun _ => .pure
  simp only [fetchMirror, wp_bind, wp_pure]
  refine wp_mono (hunlink s) (fun _ s₁ h₁ => ?_) fun _ _ _ => trivial
  refine wp_mono (runDownload_value hsave) ?_ fun _ _ h => h.elim
  intro v s₂ hpost
  obtain ⟨h₂, hv⟩ := hpost
  exact ⟨IsTrans.trans _ _ _ h₁ h₂, fun p hp => hv p (Option.filter_eq_some_iff.1 hp).1⟩

/-- Each mirror in turn; the invariant holds before every one of them. -/
theorem tryMirrors_value (hskip : env.skipMd5Check = false) (hplaced : env.Placed) {saveAs : Str}
    {urls : List MetalinkUrl} (hsave : env.SaveAs saveAs) (hinv : Inv env s.world) :
    wp user (tryMirrors env saveAs urls) (fun b s' => b = true → s'.world.Good env)
      (fun _ _ => True) s := by
  have hkey : env.Key saveAs := .inl (hplaced.saveAs saveAs hsave).1
  induction urls generalizing s with
  | nil => exact fun h => by cases h
  | cons url urls ih =>
    unfold tryMirrors
    rw [wp_ite]
    refine ⟨fun _ => ih hinv, fun _ => ?_⟩
    rw [wp_bind]
    refine wp_mono (fetchMirror_value hsave) ?_ fun _ _ _ => trivial
    intro r s₁ hpost
    obtain ⟨h₁, hr⟩ := hpost
    cases r with
    | none => exact ih (h₁.inv hinv)
    | some p =>
      have hp : env.Key p ∧ Hits env env.Written p := by
        rcases hr p rfl with rfl | rfl
        · exact ⟨hkey, hits_saveAs hsave⟩
        · exact ⟨.inl ((hplaced.saveAs saveAs hsave).2 _), hits_saved hsave⟩
      simp only [wp_bind]
      refine wp_mono (checkIsoTask_value hskip hp.1 (h₁.inv hinv)) ?_
        fun _ _ h => h.elim
      intro ok s₂ hpost
      obtain ⟨h₂, hok⟩ := hpost
      cases ok with
      | true => exact fun _ => .inl ⟨p, rfl, hok rfl⟩
      | false =>
        simp only [Bool.false_eq_true, if_false, wp_bind]
        refine wp_mono (steps_unlink hp.2 s₂) (fun _ s₃ h₃ => ?_) fun _ _ _ => trivial
        exact ih (h₃.keeps.inv (h₂.inv (h₁.inv hinv)))

theorem downloadIso_value (hskip : env.skipMd5Check = false) (hplaced : env.Placed)
    (hready : Ready env s.world) :
    wp user (downloadIso env) (fun b s' => b = true → s'.world.Good env) (fun _ _ => True) s := by
  unfold downloadIso
  rw [wp_bind, wp_modify, wp_bind]
  refine wp_mono (wp_and (keeps_ensureMetalink _) ensureMetalink_value) (fun metalink s₁ h => ?_)
    fun _ _ _ => trivial
  obtain ⟨h₁, d, hd, hm⟩ := h
  have hinv₁ : Inv env s₁.world := h₁.inv hready.no_cd.inv
  cases metalink with
  | none => trivial
  | some m =>
    cases hfiles : m.files with
    | nil => simp [hfiles]
    | cons file rest =>
      have hsave : env.SaveAs (env.joinPath env.installDir file.name) :=
        ⟨m, file, rest, hinv₁.parsed d m hm, hfiles, rfl⟩
      simp only [hfiles]
      exact tryMirrors_value hskip hplaced hsave hinv₁

/-! ## Together -/

theorem getIso_good (hskip : env.skipMd5Check = false) (hplaced : env.Placed)
    (hready : Ready env s.world) :
    wp user (getIso env) (fun _ s' => s'.cancelled = false → s'.world.Good env)
      (fun _ _ => True) s := by
  unfold getIso
  rw [wp_bind]
  refine wp_mono (getPrespecifiedIso_outcome hskip hplaced hready) (fun b s₁ h₁ => ?_)
    fun _ _ h => h
  cases b with
  | true => exact h₁.2 rfl
  | false =>
    simp only [Bool.false_eq_true, if_false, wp_bind]
    refine wp_mono (useCd_outcome hskip hplaced (h₁.1 rfl)) (fun b s₂ h₂ => ?_) fun _ _ h => h
    cases b with
    | true => exact h₂.2 rfl
    | false =>
      simp only [Bool.false_eq_true, if_false, wp_bind]
      refine wp_mono (useIso_outcome hskip hplaced (h₂.1 rfl)) (fun b s₃ h₃ => ?_) fun _ _ h => h
      cases b with
      | true => exact h₃.2 rfl
      | false =>
        simp only [Bool.false_eq_true, if_false, wp_bind]
        refine wp_mono (downloadIso_value hskip hplaced (h₃.1 rfl)) (fun b s₄ h₄ => ?_)
          fun _ _ h => h
        cases b with
        | true => exact fun _ => h₄ rfl
        | false => trivial

/-- With fresh tables, only where the sources lie matters. -/
theorem ready_start {w : World} (hhash : ∀ p, w.isoMd5Hashes p = none)
    (hmeta : ∀ d, w.metalink d = none) (hinfo : ∀ key, w.diskInfo key = none)
    (hiso : ∀ p, w.isoPath = some p → ¬ env.Written p)
    (hcd : ∀ p, w.cdPath = some p → env.Media p) : Ready env w := by
  refine ⟨⟨fun p h hp => ?_, fun d m hm => ?_, fun cd f info _ hi => ?_⟩, hiso, hcd⟩
  · rw [hhash] at hp; cases hp
  · rw [hmeta] at hm; cases hm
  · rw [hinfo] at hi; cases hi

theorem MetalinkFile.md5sum_of_one {file : MetalinkFile} {h : MetalinkHash}
    (hone : file.hashes.filter (fun h => decide (h.type = "md5".toList)) = [h]) (hne : h.hash ≠ []) :
    file.md5sum = some h.hash := by
  have hlast : file.hashes.reverse.find? (fun h => decide (h.type = "md5".toList)) = some h := by
    rw [← List.head?_filter, List.filter_reverse, hone]
    rfl
  rw [MetalinkFile.md5sum, hlast]
  simp [nonempty, hne]

/-- When `get_iso` returns and the root is not cancelled, the ISO in use has
the md5 of the metalink, or it comes from a CD of a pre-release. -/
theorem getIso_verified {s' : St World} (hskip : env.skipMd5Check = false) (hplaced : env.Placed)
    (hready : Ready env s.world) (hrun : (getIso env).run user s = (.ok (), s'))
    (hlive : s'.cancelled = false) {d : Distro} {m : Metalink} {file : MetalinkFile}
    {rest : List MetalinkFile} {h : MetalinkHash} (hd : s'.world.distro = some d)
    (hm : s'.world.metalink d = some m) (hfiles : m.files = file :: rest)
    (hone : file.hashes.filter (fun h => decide (h.type = "md5".toList)) = [h])
    (hne : h.hash ≠ []) :
    (∃ p content, s'.world.isoPath = some p ∧ s'.world.read env p = some content ∧
      env.md5 content = h.hash) ∨ s'.world.FromPreRelease env := by
  have hgood : wp user (getIso env) (fun _ s' => s'.cancelled = false → s'.world.Good env)
      (fun _ _ => True) s := getIso_good hskip hplaced hready
  unfold wp at hgood
  rw [hrun] at hgood
  obtain ⟨p, hp, hchecked⟩ | hpre := hgood hlive
  · obtain ⟨content, hread, hmd5⟩ :=
      hchecked d m file rest h.hash hd hm hfiles (MetalinkFile.md5sum_of_one hone hne)
    exact .inl ⟨p, content, hp, hread, hmd5⟩
  · exact .inr hpre

/-! ## Two mirrors with different files -/

def md5OfI686 : Str := (Nat.toDigits 16 0x33a8f403b2c8cadfe1ba40b39edeaf18).leftpad 32 '0'

def md5OfX86 : Str := (Nat.toDigits 16 0x0027f42e1e5dfcb4fd5f8f9c6db89af3).leftpad 32 '0'

def twoMirrors (name hash : Str) : Metalink :=
  ⟨[⟨name, [⟨"md5".toList, hash⟩],
    [⟨"http://one/x86_64".toList, "http".toList, [], 90⟩,
     ⟨"http://two/i686".toList, "http".toList, [], 80⟩]⟩]⟩

def i686Distro : Distro :=
  { (default : Distro) with
    id := "arch-i686".toList, name := "Arch".toList, arch := "i686".toList
    kernel := "vmlinuz".toList, initrd := "initrd".toList
    infoFile := "i686.info".toList, md5sums := "md5sums".toList
    metalinkUrl := "http://meta/i686.metalink".toList }

def x86Distro : Distro :=
  { i686Distro with
    id := "arch-x86_64".toList, arch := "x86_64".toList, infoFile := "x86_64.info".toList
    metalinkUrl := "http://meta/x86_64.metalink".toList }

/-- Texts are abbreviated: an ISO and its info line are the name of the
architecture, a metalink is the md5 that it lists. The metalink of i686 lists
`listed`. -/
def mirrorEnv (name listed : Str) : Env :=
  { (default : Env) with
    distros := [i686Distro, x86Distro]
    checkArch := false
    md5 := fun content => if content = "x86_64".toList then md5OfX86 else md5OfI686
    saxParse := fun content => .parsed (twoMirrors name content)
    matchDiskInfo := fun arch => some ⟨"Arch".toList, [], [], arch⟩
    list := fun _ _ _ => .ok ("\r\n\r\n\r\n\r\n\r\n\r\n\r\nvmlinuz\r\ninitrd\r\nmd5sums\r\n".toList ++
      "i686.info\r\nx86_64.info\r\n\r\n\r\n".toList)
    extract := fun _ _ _ content => .ok content
    download := fun _ url =>
      if url.basename = "i686.metalink".toList then .saved listed
      else if url.basename = "x86_64.metalink".toList then .saved md5OfI686
      else .saved url.basename }

def mirrorState : St World := ⟨{ (default : World) with distro := some i686Distro }, false, 0⟩

/-- The state in which `get_iso` ends. -/
def mirrorEnd (name listed : Str) : St World :=
  ((getIso (mirrorEnv name listed)).run (fun _ => false) mirrorState).2

theorem mirrorEnv_placed : (mirrorEnv "arch.iso".toList md5OfI686).Placed := by
  refine ⟨rfl, rfl, fun p hp => ?_, (fun _ _ h => nomatch h), fun _ h => nomatch h⟩
  obtain ⟨m, file, rest, ⟨_, _, _, _, hparse⟩, hfiles, rfl⟩ := hp
  cases hparse
  cases hfiles
  exact ⟨rfl, fun _ => rfl⟩

/-- The first mirror's file is rejected, the second's has the hash listed. -/
theorem getIso_verified_second_mirror :
    ((getIso (mirrorEnv "arch.iso".toList md5OfI686)).run (fun _ => false) mirrorState).1 = .ok () ∧
    ((∃ p content, (mirrorEnd "arch.iso".toList md5OfI686).world.isoPath = some p ∧
      (mirrorEnd "arch.iso".toList md5OfI686).world.read
        (mirrorEnv "arch.iso".toList md5OfI686) p = some content ∧
      (mirrorEnv "arch.iso".toList md5OfI686).md5 content = md5OfI686) ∨
    (mirrorEnd "arch.iso".toList md5OfI686).world.FromPreRelease
      (mirrorEnv "arch.iso".toList md5OfI686)) := by
  have hready : Ready (mirrorEnv "arch.iso".toList md5OfI686) mirrorState.world :=
    ready_start (fun _ => rfl) (fun _ => rfl) (fun _ => rfl) (fun _ h => nomatch h)
      fun _ h => nomatch h
  obtain ⟨hok, hlive, hd, hm⟩ :
      ((getIso (mirrorEnv "arch.iso".toList md5OfI686)).run (fun _ => false) mirrorState).1 = .ok () ∧
      (mirrorEnd "arch.iso".toList md5OfI686).cancelled = false ∧
      (mirrorEnd "arch.iso".toList md5OfI686).world.distro = some i686Distro ∧
      (mirrorEnd "arch.iso".toList md5OfI686).world.metalink i686Distro =
        some (twoMirrors "arch.iso".toList md5OfI686) := by
    decide +kernel
  refine ⟨hok, ?_⟩
  exact getIso_verified (h := ⟨"md5".toList, md5OfI686⟩) rfl mirrorEnv_placed hready
    (Prod.ext hok (by rw [mirrorEnd])) hlive hd hm rfl rfl (by decide)

/-- A metalink that names a file elsewhere: the md5 of the first mirror's file
stays in the table, and the second mirror's file is accepted with it. -/
theorem stale_md5_accepted :
    ∃ env : Env, ∃ s s' : St World, ∃ d m file h p content,
      env.skipMd5Check = false ∧ (getIso env).run (fun _ => false) s = (.ok (), s') ∧
      s'.cancelled = false ∧ s'.world.distro = some d ∧ s'.world.metalink d = some m ∧
      m.files = [file] ∧ file.hashes = [h] ∧ h.type = "md5".toList ∧ h.hash ≠ [] ∧
      s'.world.isoPath = some p ∧ s'.world.cdPath = none ∧
      s'.world.read env p = some content ∧ env.md5 content ≠ h.hash := by
  obtain ⟨hok, hlive, hd, hm, hiso, hcd, hread⟩ :
      ((getIso (mirrorEnv "D:\\arch.iso".toList md5OfX86)).run (fun _ => false) mirrorState).1 = .ok () ∧
      (mirrorEnd "D:\\arch.iso".toList md5OfX86).cancelled = false ∧
      (mirrorEnd "D:\\arch.iso".toList md5OfX86).world.distro = some i686Distro ∧
      (mirrorEnd "D:\\arch.iso".toList md5OfX86).world.metalink i686Distro =
        some (twoMirrors "D:\\arch.iso".toList md5OfX86) ∧
      (mirrorEnd "D:\\arch.iso".toList md5OfX86).world.isoPath = some "D:\\arch.iso".toList ∧
      (mirrorEnd "D:\\arch.iso".toList md5OfX86).world.cdPath = none ∧
      (mirrorEnd "D:\\arch.iso".toList md5OfX86).world.read
        (mirrorEnv "D:\\arch.iso".toList md5OfX86) "D:\\arch.iso".toList = some "i686".toList := by
    decide +kernel
  exact ⟨mirrorEnv "D:\\arch.iso".toList md5OfX86, mirrorState,
    mirrorEnd "D:\\arch.iso".toList md5OfX86, i686Distro, _, _, ⟨"md5".toList, md5OfX86⟩, _, _, rfl,
    Prod.ext hok (by rw [mirrorEnd]), hlive, hd, hm, rfl, rfl, rfl, by decide, hiso, hcd, hread,
    by decide⟩

end Wubi.Backend
