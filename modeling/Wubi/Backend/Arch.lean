import Wubi.Backend.Iso

/-!
# The distro of the medium's architecture

On a host that is not `i386` the architecture of an ISO is not checked, and
`set_distro_from_arch` replaces the current distro by the entry of the isolist
with the same name and the architecture found on the medium. `get` of a
dictionary gives None where there is no such entry, and nothing falls back to
another one as `on_distro_change` of the installation page does.

`checkIso_sameName_iff`: the distro stays one of the list with its name exactly
where the list knows the architecture of every line that can be found.
-/
namespace Wubi.Backend

open Wubi.Tasks Wubi.Tasks.Prog

variable {env : Env} {user : Nat → Bool} {s : St World} {d : Distro} {p : Str}

/-- The distro in force is one of the list, with the name of `d`. -/
def SameName (env : Env) (d : Distro) (w : World) : Prop :=
  ∃ e ∈ env.distros, w.distro = some e ∧ e.name = d.name

/-- `info.distros_dict.get((name.lower(), arch))`: of entries with one key the
last one is in the dictionary. -/
def Env.entry (env : Env) (name arch : Str) : Option Distro :=
  env.distros.reverse.find? fun e => decide (e.name.lower = name.lower ∧ e.arch = arch)

/-- `is_valid_iso` accepts the path, and `get_info` then finds this line. -/
def LineFound (env : Env) (user : Nat → Bool) (d : Distro) (p : Str) (s : St World)
    (info : DiskInfo) : Prop :=
  ∃ s₁ s₂, (d.isValidIso env p false).run user s = (.ok true, s₁) ∧
    (d.getInfo env p).run user s₁ = (.ok (some info), s₂)

/-- The rest of `check_iso`, with the distro chosen. -/
def checkMd5 (env : Env) (isoPath : Str) : Fn Bool :=
  if env.skipMd5Check then return true
  else do
    let metalink ← ensureMetalink env
    match metalink with
    | none => return true
    | some m =>
      match m.files with
      | [] => .raise .indexError
      | file :: _ =>
        match file.md5sum with
        | none => return true
        | some md5sum =>
          let md5sum2 ← isoMd5 env isoPath
          return some md5sum == md5sum2

theorem checkIso_eq : checkIso env p = do
    let d ← theDistro
    let valid ← d.isValidIso env p false
    if valid then
      setDistroFromArch env p
      checkMd5 env p
    else return false := rfl

/-! ## What leaves the distro as it is -/

def SameDistro (w w' : World) : Prop := w'.distro = w.distro

instance : IsPreorder World SameDistro where
  refl _ := rfl
  trans _ _ _ h h' := Eq.trans h' h

theorem Touches.sameDistro {S : Str → Prop} {w w' : World} (h : Touches env S w w') :
    SameDistro w w' := by
  obtain ⟨⟨_, _, rfl⟩, _⟩ := h
  rfl

theorem Looks.sameDistro {w w' : World} (h : Looks w w') : SameDistro w w' := by
  obtain ⟨_, _, _, rfl⟩ := h
  rfl

theorem sameDistro_download {url filename : Str} :
    Steps user SameDistro (download env url filename) :=
  (steps_download (S := fun _ => True) fun _ _ => trivial).mono fun _ _ => Touches.sameDistro

theorem sameDistro_getFileMd5 {withTask : Bool} : Steps user SameDistro (getFileMd5 env p withTask) :=
  (steps_getFileMd5 (S := fun _ => True)).mono fun _ _ => Touches.sameDistro

theorem sameDistro_judgeMetalink {sums signature : Str} :
    Steps user SameDistro (judgeMetalink env sums signature p) :=
  (touches_judgeMetalink (S := fun _ => True)).mono fun _ _ => Touches.sameDistro

theorem sameDistro_getMetalink : Steps user SameDistro (getMetalink env) := by
  refine Steps.get.bind fun w => ?_
  split
  · exact .raise
  · refine Steps.bind (.tryCatch (sameDistro_download.bind fun _ => .pure) fun _ =>
      .tryCatch (sameDistro_download.bind fun _ => .pure) fun _ => .pure) fun fetched => ?_
    split
    · exact .pure
    · refine Steps.bind (.ite (fun _ => .pure) fun _ => sameDistro_download.bind fun _ =>
        sameDistro_download.bind fun _ => sameDistro_judgeMetalink) fun _ =>
          steps_parseMetalink.bind fun m => .modify fun _ => rfl

theorem sameDistro_theDistro : Steps user SameDistro theDistro := by
  refine Steps.get.bind fun w => ?_
  split
  · exact .raise
  · exact .pure

theorem sameDistro_isoMd5 : Steps user SameDistro (isoMd5 env p) := by
  refine Steps.get.bind fun w => ?_
  split
  · exact .pure
  · have hcache : ∀ v w, SameDistro w (cacheHash p v w) := fun _ _ => rfl
    exact (Steps.sub sameDistro_getFileMd5.asTask).bind fun v =>
      .ite (fun _ => .pure) fun _ => (Steps.modify (hcache (Val.str? v))).bind fun _ => .pure

theorem sameDistro_checkMd5 : Steps user SameDistro (checkMd5 env p) := by
  refine .ite (fun _ => .pure) fun _ => Steps.bind (sameDistro_theDistro.bind fun d =>
    Steps.get.bind fun w => ?_) fun metalink => ?_
  · split
    · exact .pure
    · exact (Steps.sub sameDistro_getMetalink.asTask).bind fun _ => sameDistro_theDistro.bind fun _ =>
        Steps.get.bind fun _ => .pure
  · split
    · exact .pure
    · split
      · exact .raise
      · split
        · exact .pure
        · exact sameDistro_isoMd5.bind fun _ => .pure

/-! ## The check -/

/-- What is left of the check does not decide about the distro. -/
theorem wp_sameName {α : Type} {q : Fn α} (h : Steps user SameDistro q) :
    wp user q (fun _ s' => SameName env d s'.world) (fun _ s' => SameName env d s'.world) s ↔
      SameName env d s.world := by
  have hsame : ∀ {w : World}, SameDistro s.world w → (SameName env d w ↔ SameName env d s.world) := by
    intro w hw
    rw [SameName, SameName, hw]
  constructor
  · intro hq
    exact (wp_const (p := q)).1 (wp_mono (wp_and hq (h s)) (fun _ _ hs => (hsame hs.2).1 hs.1)
      fun _ _ hs => (hsame hs.2).1 hs.1)
  · intro hname
    exact wp_mono (h s) (fun _ _ hs => (hsame hs).2 hname) fun _ _ hs => (hsame hs).2 hname

theorem sameName_of_run {α : Type} {q : Fn α} (h : Steps user Looks q) {t t' : St World}
    {r : Except PyErr α} (hrun : q.run user t = (r, t')) : SameDistro t.world t'.world := by
  cases r with
  | ok a => exact ((wp_of_ok hrun).1 (h t)).sameDistro
  | error e => exact ((wp_of_error hrun).1 (h t)).sameDistro

/-- The entry that replaces the distro. -/
theorem sameName_entry {info : DiskInfo} (h : d.arch ≠ info.arch) :
    SameName env d (s.map fun w => { w with distro := env.entry d.name info.arch }).world ↔
      (info.arch ≠ d.arch → ∃ e, env.entry d.name info.arch = some e ∧ e.name = d.name) := by
  constructor
  · intro ⟨e, _, he, hname⟩ _
    exact ⟨e, he, hname⟩
  · intro hentry
    obtain ⟨e, he, hname⟩ := hentry h.symm
    exact ⟨e, List.mem_reverse.1 (List.mem_of_find?_eq_some he), he, hname⟩

theorem not_lineFound {r : Except PyErr Bool} {s₁ : St World} {info : DiskInfo}
    (hvalid : (d.isValidIso env p false).run user s = (r, s₁)) (hr : r ≠ .ok true) :
    ¬ LineFound env user d p s info := by
  intro hline
  obtain ⟨t, -, ht, -⟩ := hline
  rw [hvalid] at ht
  exact hr (congrArg Prod.fst ht)

theorem lineFound_iff {s₁ : St World} {info : DiskInfo}
    (hvalid : (d.isValidIso env p false).run user s = (.ok true, s₁)) :
    LineFound env user d p s info ↔
      ∃ s₂, (d.getInfo env p).run user s₁ = (.ok (some info), s₂) := by
  simp only [LineFound, hvalid, Prod.mk.injEq, true_and]
  constructor
  · intro hboth
    obtain ⟨_, s₂, h, h'⟩ := hboth
    rw [← h] at h'
    exact ⟨s₂, h'⟩
  · intro hboth
    obtain ⟨s₂, h⟩ := hboth
    exact ⟨s₁, s₂, rfl, h⟩

/-- The distro stays one of the list with its name exactly where the list
knows the architecture on the medium under that name. -/
theorem checkIso_sameName_iff (hd : s.world.distro = some d) (hmem : d ∈ env.distros) :
    wp user (checkIso env p) (fun _ s' => SameName env d s'.world)
        (fun _ s' => SameName env d s'.world) s ↔
      (env.checkArch = false → ∀ info, LineFound env user d p s info → info.arch ≠ d.arch →
        ∃ e, env.entry d.name info.arch = some e ∧ e.name = d.name) := by
  have hself : SameName env d s.world := ⟨d, hmem, hd, rfl⟩
  simp only [checkIso_eq, wp_bind, wp_theDistro, hd]
  cases hvalid : (d.isValidIso env p false).run user s with
  | mk r s₁ =>
    have h₁ : s₁.world.distro = s.world.distro := sameName_of_run looks_isValidIso hvalid
    have hself₁ : SameName env d s₁.world := ⟨d, hmem, h₁.trans hd, rfl⟩
    cases r with
    | error e =>
      rw [wp_of_error hvalid]
      exact ⟨fun _ _ info hline => absurd hline (not_lineFound hvalid (by simp)), fun _ => hself₁⟩
    | ok valid =>
      rw [wp_of_ok hvalid]
      cases valid with
      | false =>
        exact ⟨fun _ _ info hline => absurd hline (not_lineFound hvalid (by simp)), fun _ => hself₁⟩
      | true =>
        have hline : ∀ info, LineFound env user d p s info ↔
            ∃ s₂, (d.getInfo env p).run user s₁ = (.ok (some info), s₂) :=
          fun _ => lineFound_iff hvalid
        simp only [if_true, wp_bind, setDistroFromArch]
        cases harch : env.checkArch with
        | true =>
          simp only [if_true, wp_pure]
          rw [wp_sameName sameDistro_checkMd5]
          exact ⟨by simp, fun _ => hself₁⟩
        | false =>
          simp only [Bool.false_eq_true, if_false, wp_bind, wp_theDistro, h₁, hd, forall_const]
          cases hinfo : (d.getInfo env p).run user s₁ with
          | mk r s₂ =>
            have h₂ : s₂.world.distro = s₁.world.distro := sameName_of_run looks_getInfo hinfo
            have hself₂ : SameName env d s₂.world := ⟨d, hmem, (h₂.trans h₁).trans hd, rfl⟩
            cases r with
            | error e =>
              rw [wp_of_error hinfo]
              refine ⟨fun _ info hfound => ?_, fun _ => hself₂⟩
              obtain ⟨_, ht⟩ := (hline info).1 hfound
              rw [hinfo] at ht
              cases ht
            | ok line =>
              rw [wp_of_ok hinfo]
              cases line with
              | none =>
                refine ⟨fun _ info hfound => ?_, fun _ => hself₂⟩
                obtain ⟨_, ht⟩ := (hline info).1 hfound
                rw [hinfo] at ht
                cases ht
              | some info =>
                have hthis : ∀ info', LineFound env user d p s info' ↔ info' = info := by
                  intro info'
                  rw [hline, hinfo]
                  constructor
                  · intro hboth
                    obtain ⟨_, h⟩ := hboth
                    cases h
                    rfl
                  · rintro rfl
                    exact ⟨s₂, rfl⟩
                simp only [hthis, forall_eq]
                by_cases hsame : d.arch = info.arch
                · simp only [if_pos hsame, wp_pure]
                  rw [wp_sameName sameDistro_checkMd5]
                  exact ⟨fun _ h => absurd hsame.symm h, fun _ => hself₂⟩
                · simp only [if_neg hsame, wp_modify]
                  rw [wp_sameName sameDistro_checkMd5]
                  exact sameName_entry hsame

/-! ## A list without the other architecture -/

def onlyX86 : Distro :=
  { (default : Distro) with
    name := ['A'], arch := "x86_64".toList, kernel := ['k'], initrd := ['k'], infoFile := ['k']
    md5sums := ['k'] }

/-- A 64-bit host and an ISO whose info line says i686. -/
def i686Medium : Env :=
  { (default : Env) with
    distros := [onlyX86], checkArch := false, skipMd5Check := true
    matchDiskInfo := fun _ => some ⟨['A'], [], [], "i686".toList⟩
    list := fun _ _ _ => .ok "\r\n\r\n\r\n\r\n\r\n\r\n\r\nk\r\n\r\n\r\n".toList
    extract := fun _ _ _ content => .ok content }

def onlyState : St World :=
  ⟨{ (default : World).write i686Medium ['p'] (some ['x']) with distro := some onlyX86 }, false, 0⟩

def alsoI686 : Distro := { onlyX86 with arch := "i686".toList }

/-- The list has an entry for the medium. -/
def bothListed : Env := { i686Medium with distros := [onlyX86, alsoI686] }

/-- The distro is replaced by the entry of the same name. -/
theorem checkIso_sameName_replaced :
    ((checkIso bothListed ['p']).run (fun _ => false) onlyState).2.world.distro = some alsoI686 ∧
    wp (fun _ => false) (checkIso bothListed ['p'])
      (fun _ s' => SameName bothListed onlyX86 s'.world)
      (fun _ s' => SameName bothListed onlyX86 s'.world) onlyState := by
  refine ⟨rfl, (checkIso_sameName_iff rfl List.mem_cons_self).2 fun _ info hline _ => ?_⟩
  obtain ⟨s₁, s₂, hvalid, hinfo⟩ := hline
  obtain rfl : _ = s₁ := congrArg Prod.snd hvalid
  have harch : info.arch = alsoI686.arch := by
    have hline := congrArg Prod.fst hinfo
    cases hline
    rfl
  exact ⟨alsoI686, by rw [harch]; rfl, rfl⟩

/-- The ISO is accepted and the distro is None. -/
theorem accepted_without_distro : onlyState.world.distro = some onlyX86 ∧
    i686Medium.distros = [onlyX86] ∧
    ((checkIso i686Medium ['p']).run (fun _ => false) onlyState).1 = .ok true ∧
    ((checkIso i686Medium ['p']).run (fun _ => false) onlyState).2.world.distro = none ∧
    ¬ SameName i686Medium onlyX86
      ((checkIso i686Medium ['p']).run (fun _ => false) onlyState).2.world := by
  have hrun : ((checkIso i686Medium ['p']).run (fun _ => false) onlyState).1 = .ok true ∧
      ((checkIso i686Medium ['p']).run (fun _ => false) onlyState).2.world.distro = none := by
    decide
  refine ⟨rfl, rfl, hrun.1, hrun.2, fun h => ?_⟩
  obtain ⟨e, -, he, -⟩ := h
  rw [hrun.2] at he
  cases he

end Wubi.Backend
