import Wubi.Backend.Iso
import Wubi.Backend.Chunks

/-!
# The ISO that is used has the md5 of the metalink

When `get_iso` returns and nothing was cancelled, the file at `info.iso_path`
has been compared with the metalink of the distro in force, or comes from a CD
of a pre-release.

The proof follows two facts through every function. `Inv`: the md5 table is
right about every file it lists, and these are files that the installer does
not write. `Keeps`: what a check leaves as it was. Both rest on where the files
lie (`Env.Placed`).
-/
namespace Wubi.Backend

open Wubi.Tasks Wubi.Tasks.Prog

/-- A metalink that some download delivers. -/
def Env.Delivers (env : Env) (m : Metalink) : Prop :=
  ∃ k url content, env.download k url = .saved content ∧ env.saxParse content = .parsed m

/-- A path that `download_iso` saves to. -/
def Env.SaveAs (env : Env) (p : Str) : Prop :=
  ∃ m file rest, env.Delivers m ∧ m.files = file :: rest ∧
    p = env.joinPath env.installDir file.name

/-- `p` is a file that the installer may write while it looks for an ISO. -/
def Env.Written (env : Env) (p : Str) : Prop :=
  env.abspath p = env.abspath env.dest ∨
  (∃ url, env.abspath p = env.abspath (env.target env.installDir url)) ∨
  ∃ saveAs, env.SaveAs saveAs ∧
    (env.abspath p = env.abspath saveAs ∨ ∃ url, env.abspath p = env.abspath (env.target saveAs url))

/-- A CD, none of whose files the installer writes. -/
def Env.Media (env : Env) (cdPath : Str) : Prop := ∀ f, ¬ env.Written (cdPath.join f)

/-- The installer writes its ISOs below the installation directory, and the
ISOs and CDs that it may find lie elsewhere. -/
structure Env.Placed (env : Env) : Prop where
  dest : env.installDir.isPrefixOf env.dest = true
  destFile : env.isDir env.dest = false
  saveAs : ∀ p, env.SaveAs p → env.installDir.isPrefixOf p = true ∧
    ∀ url, env.installDir.isPrefixOf (env.target p url) = true
  isos : ∀ k, ∀ p ∈ env.isoSearch k, ¬ env.Written p
  cds : ∀ p ∈ env.cdSearch, env.Media (env.abspath p)

/-- The info file of the CD at `cdPath`, read from it or extracted, says `info`. -/
def World.Declares (env : Env) (w : World) (cdPath infoFile : Str) (info : DiskInfo) : Prop :=
  ∃ text, parseIsoinfo env text = some info ∧
    (w.read env (cdPath.join infoFile) = some text ∨
      ∃ k content, env.extract k cdPath infoFile (some content) = .ok (some text))

structure Inv (env : Env) (w : World) : Prop where
  hash : ∀ p h, w.isoMd5Hashes p = some (some h) →
    ¬ env.Written p ∧ ∃ content, w.read env p = some content ∧ env.md5 content = h
  parsed : ∀ d m, w.metalink d = some m → env.Delivers m
  declared : ∀ cdPath infoFile info, env.Media cdPath →
    w.diskInfo (cdPath, infoFile) = some (some info) → w.Declares env cdPath infoFile info

structure Keeps (env : Env) (w w' : World) : Prop where
  inv : Inv env w → Inv env w'
  isoPath : w'.isoPath = w.isoPath
  cdPath : w'.cdPath = w.cdPath
  cdDistro : w'.cdDistro = w.cdDistro
  isoDistro : w'.isoDistro = w.isoDistro
  read : ∀ p, ¬ env.Written p → w'.read env p = w.read env p

variable {env : Env} {user : Nat → Bool} {s : St World} {d : Distro} {p : Str}

instance : IsPreorder World (Keeps env) where
  refl _ := ⟨id, rfl, rfl, rfl, rfl, fun _ _ => rfl⟩
  trans _ _ _ h h' := ⟨fun hi => h'.inv (h.inv hi), h'.isoPath.trans h.isoPath,
    h'.cdPath.trans h.cdPath, h'.cdDistro.trans h.cdDistro, h'.isoDistro.trans h.isoDistro,
    fun p hp => (h'.read p hp).trans (h.read p hp)⟩

/-- `Keeps` for a change that no invariant mentions. -/
theorem keeps_of_same {w w' : World} (hh : w'.isoMd5Hashes = w.isoMd5Hashes)
    (hm : w'.metalink = w.metalink) (hd : w'.diskInfo = w.diskInfo) (hf : w'.file = w.file)
    (hiso : w'.isoPath = w.isoPath) (hcd : w'.cdPath = w.cdPath) (hcdd : w'.cdDistro = w.cdDistro)
    (hisod : w'.isoDistro = w.isoDistro) : Keeps env w w' := by
  have hread : ∀ p, w'.read env p = w.read env p := fun p => congrFun hf (env.abspath p)
  refine ⟨fun hi => ⟨?_, ?_, ?_⟩, hiso, hcd, hcdd, hisod, fun p _ => hread p⟩
  · simpa only [hh, hread] using hi.hash
  · simpa only [hm] using hi.parsed
  · simpa only [World.Declares, hd, hread] using hi.declared

theorem Touches.keeps {w w' : World} (h : Touches env env.Written w w') : Keeps env w w' := by
  obtain ⟨⟨_, _, rfl⟩, hread⟩ := h
  refine ⟨fun hi => ⟨fun p h hp => ?_, hi.parsed, fun cd f info hmedia hc => ?_⟩,
    rfl, rfl, rfl, rfl, hread⟩
  · obtain ⟨hw, content, hc, hm⟩ := hi.hash p h hp
    exact ⟨hw, content, (hread p hw).trans hc, hm⟩
  · obtain ⟨text, hparse, hsrc⟩ := hi.declared cd f info hmedia hc
    exact ⟨text, hparse, hsrc.imp (hread _ (hmedia f)).trans id⟩

theorem hits_dest : Hits env env.Written env.dest := fun _ h => .inl h

theorem hits_target {url : Str} : Hits env env.Written (env.target env.installDir url) :=
  fun _ h => .inr (.inl ⟨url, h⟩)

theorem hits_saveAs {saveAs : Str} (h : env.SaveAs saveAs) : Hits env env.Written saveAs :=
  fun _ hq => .inr (.inr ⟨saveAs, h, .inl hq⟩)

theorem hits_saved {saveAs url : Str} (h : env.SaveAs saveAs) :
    Hits env env.Written (env.target saveAs url) :=
  fun _ hq => .inr (.inr ⟨saveAs, h, .inr ⟨url, hq⟩⟩)

/-! ## Looking at a CD or an ISO -/

theorem keeps_tick : Steps user (Keeps env) tick :=
  .act fun _ => keeps_of_same rfl rfl rfl rfl rfl rfl rfl rfl

theorem keeps_cacheNames {w : World} {names : Option (List Str)} :
    Keeps env w (cacheNames p names w) :=
  keeps_of_same rfl rfl rfl rfl rfl rfl rfl rfl

theorem keeps_getIsoFileNames : Steps user (Keeps env) (getIsoFileNames env p) := by
  refine Steps.get.bind fun w => ?_
  split
  · exact .pure
  · refine (Steps.modify fun _ => keeps_cacheNames).bind fun _ => keeps_tick.bind fun k => ?_
    split
    · exact .pure
    · exact .pure
    · exact Steps.lift.bind fun _ => (Steps.modify fun _ => keeps_cacheNames).bind fun _ => .pure

/-- Where the text of the info file comes from. -/
theorem infoText_value :
    wp user (d.infoText env p)
      (fun r s' => Keeps env s.world s'.world ∧ ∀ text, r = some text →
        s'.world.read env (p.join d.infoFile) = some text ∨
          ∃ k content, env.extract k p d.infoFile (some content) = .ok (some text))
      (fun _ s' => Keeps env s.world s'.world) s := by
  have htick : Keeps env s.world (s.world.advance 1) :=
    keeps_of_same rfl rfl rfl rfl rfl rfl rfl rfl
  simp only [Distro.infoText, wp_bind, wp_get]
  cases hread : s.world.read env p with
  | some content =>
    simp only [wp_bind, wp_tick]
    cases hx : env.extract s.world.clock p d.infoFile (some content) with
    | error e => exact htick
    | ok text => exact ⟨htick, fun t ht => .inr ⟨_, content, ht ▸ hx⟩⟩
  | none =>
    simp only [wp_ite, wp_bind, wp_tick, wp_pure]
    refine ⟨fun _ => ⟨htick, fun text h => ?_⟩, fun _ => ⟨refl _, fun text h => by cases h⟩⟩
    split at h
    · cases h
    · exact .inl h

theorem keeps_cacheInfo {w : World} {f : Str} {info : Option DiskInfo}
    (h : ∀ i, info = some i → w.Declares env p f i) : Keeps env w (cacheInfo (p, f) info w) := by
  refine ⟨fun hi => ⟨hi.hash, hi.parsed, fun cd f' i hmedia hc => ?_⟩, rfl, rfl, rfl, rfl,
    fun _ _ => rfl⟩
  by_cases hkey : (cd, f') = (p, f)
  · cases hkey
    simp only [cacheInfo, Function.update_self, Option.some.injEq] at hc
    exact h i hc
  · simp only [cacheInfo, Function.update_of_ne hkey] at hc
    exact hi.declared cd f' i hmedia hc

theorem getInfo_value :
    wp user (d.getInfo env p)
      (fun r s' => Keeps env s.world s'.world ∧ s'.world.diskInfo (p, d.infoFile) = some r)
      (fun _ s' => Keeps env s.world s'.world) s := by
  simp only [Distro.getInfo, wp_bind, wp_get]
  cases hc : s.world.diskInfo (p, d.infoFile) with
  | some info => exact ⟨refl _, hc⟩
  | none =>
    simp only [wp_bind, wp_modify, wp_pure]
    have hstart : Keeps env s.world (cacheInfo (p, d.infoFile) none s.world) :=
      keeps_cacheInfo fun i h => by cases h
    refine wp_mono infoText_value ?_ fun _ _ h => IsTrans.trans _ _ _ hstart h
    intro text s₁ hpost
    obtain ⟨h₁, htext⟩ := hpost
    refine ⟨IsTrans.trans _ _ _ hstart (IsTrans.trans _ _ _ h₁ (keeps_cacheInfo fun i hi => ?_)),
      by simp [cacheInfo]⟩
    obtain ⟨t, ht, hparse⟩ := Option.bind_eq_some_iff.1 hi
    exact ⟨t, hparse, htext t ht⟩

theorem keeps_getInfo : Steps user (Keeps env) (d.getInfo env p) :=
  fun _ => wp_mono getInfo_value (fun _ _ h => h.1) fun _ _ h => h

theorem keeps_isValidIso {checkArch : Bool} :
    Steps user (Keeps env) (d.isValidIso env p checkArch) := by
  refine Steps.get.bind fun w => ?_
  split
  · exact .pure
  · refine .ite (fun _ => .pure) fun _ => keeps_getIsoFileNames.bind fun files => ?_
    split
    · exact .raise
    · exact .ite (fun _ => keeps_getInfo.bind fun _ => .pure) fun _ => .pure

theorem keeps_isValidCd {checkArch : Bool} :
    Steps user (Keeps env) (d.isValidCd env p checkArch) :=
  Steps.get.bind fun _ => .ite (fun _ => keeps_getInfo.bind fun _ => .pure) fun _ => .pure

/-! ## Getting the metalink -/

theorem keeps_download {url : Str} : Steps user (Keeps env) (download env url env.installDir) :=
  (steps_download hits_target).mono fun _ _ => Touches.keeps

theorem keeps_fetchMetalink : Steps user (Keeps env) (fetchMetalink env d) :=
  .tryCatch (keeps_download.bind fun _ => .pure) fun _ =>
    .tryCatch (keeps_download.bind fun _ => .pure) fun _ => .pure

theorem keeps_checkMetalink {base : Str} : Steps user (Keeps env) (checkMetalink env d p base) :=
  .ite (fun _ => .pure) fun _ => keeps_download.bind fun _ => keeps_download.bind fun _ =>
    touches_judgeMetalink.mono fun _ _ => Touches.keeps

/-- Every download that returned wrote what it was given. -/
def World.Delivered (env : Env) (w : World) (p : Str) : Prop :=
  ∀ content, w.read env p = some content → ∃ k url, env.download k url = .saved content

theorem delivered_write {w : World} {k : Nat} {q url content : Str}
    (hsaved : env.download k url = .saved content) (h : env.abspath p ≠ env.abspath q → w.Delivered env p) :
    (w.write env q (some content)).Delivered env p := by
  intro c hc
  by_cases hpq : env.abspath p = env.abspath q
  · simp only [World.read, World.write, hpq, Function.update_self, Option.some.injEq] at hc
    exact ⟨k, url, hc ▸ hsaved⟩
  · rw [World.read_write_of_ne hpq] at hc
    exact h hpq c hc

theorem download_delivers {url : Str} :
    wp user (download env url env.installDir) (fun p s' => s'.world.Delivered env p)
      (fun _ _ => True) s := by
  rw [wp_download]
  cases h : env.download s.world.clock url with
  | saved content => exact delivered_write h fun hne => (hne rfl).elim
  | raised e left => trivial

theorem download_keeps_delivered {url : Str} (hp : s.world.Delivered env p) :
    wp user (download env url env.installDir) (fun _ s' => s'.world.Delivered env p)
      (fun _ _ => True) s := by
  rw [wp_download]
  cases h : env.download s.world.clock url with
  | saved content => exact delivered_write h fun _ => hp
  | raised e left => trivial

theorem fetchMetalink_delivers :
    wp user (fetchMetalink env d)
      (fun r s' => ∀ file url, r = some (file, url) → s'.world.Delivered env file)
      (fun _ _ => False) s := by
  have hsome : ∀ {file : Str} {url : Str} {s' : St World}, s'.world.Delivered env file →
      ∀ file' url', some (file, url) = some (file', url') → s'.world.Delivered env file' := by
    intro file url s' h file' url' heq
    cases heq
    exact h
  simp only [fetchMetalink, wp_tryCatch, wp_bind, wp_pure]
  refine wp_mono download_delivers (fun _ _ h => hsome h) fun _ s₁ _ => ?_
  refine wp_mono download_delivers (fun _ _ h => hsome h) fun _ s₂ _ => ?_
  intro file url h
  cases h

theorem checkMetalink_delivers {base : Str} (hp : s.world.Delivered env p) :
    wp user (checkMetalink env d p base) (fun _ s' => s'.world.Delivered env p)
      (fun _ _ => True) s := by
  rw [checkMetalink, wp_ite]
  refine ⟨fun _ => hp, fun _ => ?_⟩
  simp only [wp_bind]
  refine wp_mono (download_keeps_delivered hp) (fun sums s₁ h₁ => ?_) fun _ _ h => h
  refine wp_mono (download_keeps_delivered h₁) (fun signature s₂ h₂ => ?_) fun _ _ h => h
  refine wp_mono (touches_judgeMetalink (S := fun _ => False) s₂) (fun _ s₃ h₃ => ?_) fun _ _ _ => trivial
  intro content hc
  exact h₂ content ((h₃.read p not_false).symm.trans hc)

theorem parseMetalink_value (hp : s.world.Delivered env p) :
    wp user (parseMetalink env p) (fun m _ => env.Delivers m) (fun _ _ => True) s := by
  simp only [parseMetalink, readFile, wp_bind, wp_get, wp_pure]
  cases hread : s.world.read env p with
  | none => trivial
  | some content =>
    obtain ⟨k, url, hsaved⟩ := hp content hread
    simp only [Option.map_some]
    cases h : env.saxParse content with
    | parsed m => exact ⟨k, url, content, hsaved, h⟩
    | parseException => trivial
    | ioError => trivial
    | raised e => trivial

theorem keeps_setMetalink {m : Metalink} (h : env.Delivers m) (w : World) :
    Keeps env w (setMetalink d m w) := by
  refine ⟨fun hi => ⟨hi.hash, fun e m' he => ?_, hi.declared⟩, rfl, rfl, rfl, rfl, fun _ _ => rfl⟩
  by_cases hed : e = d
  · subst hed
    simp only [setMetalink, Function.update_self, Option.some.injEq] at he
    exact he ▸ h
  · simp only [setMetalink, Function.update_of_ne hed] at he
    exact hi.parsed e m' he

theorem keeps_getMetalink : Steps user (Keeps env) (getMetalink env) := by
  intro s
  unfold getMetalink
  rw [wp_bind, wp_get]
  cases s.world.distro with
  | none => exact refl _
  | some d =>
    simp only [wp_bind]
    refine wp_mono (wp_and (keeps_fetchMetalink s) fetchMetalink_delivers) ?_ fun _ _ h => h.1
    intro fetched s₁ hpost
    obtain ⟨h₁, hd₁⟩ := hpost
    rcases fetched with _ | ⟨file, url⟩
    · exact h₁
    · simp only [wp_bind]
      refine wp_mono (wp_and (keeps_checkMetalink s₁) (checkMetalink_delivers (hd₁ file url rfl)))
        ?_ fun _ _ h => IsTrans.trans _ _ _ h₁ h.1
      intro _ s₂ hpost
      obtain ⟨h₂, hd₂⟩ := hpost
      refine wp_mono (wp_and (steps_parseMetalink s₂) (parseMetalink_value hd₂)) ?_
        fun _ _ h => IsTrans.trans _ _ _ h₁ (IsTrans.trans _ _ _ h₂ h.1)
      intro m s₃ hpost
      obtain ⟨h₃, hm⟩ := hpost
      exact IsTrans.trans _ _ _ h₁ (IsTrans.trans _ _ _ h₂
        (IsTrans.trans _ _ _ h₃ (keeps_setMetalink hm _)))

/-! ## Checking an ISO -/

theorem keeps_theDistro : Steps user (Keeps env) theDistro := by
  refine Steps.get.bind fun w => ?_
  split
  · exact .raise
  · exact .pure

theorem keeps_setDistroFromArch : Steps user (Keeps env) (setDistroFromArch env p) := by
  refine .ite (fun _ => .pure) fun _ => keeps_theDistro.bind fun d =>
    keeps_getInfo.bind fun info => ?_
  split
  · exact .raise
  · exact .ite (fun _ => .pure) fun _ =>
      .modify fun _ => keeps_of_same rfl rfl rfl rfl rfl rfl rfl rfl

theorem keeps_ensureMetalink : Steps user (Keeps env) (ensureMetalink env) := by
  refine keeps_theDistro.bind fun d => Steps.get.bind fun w => ?_
  split
  · exact .pure
  · exact (Steps.sub keeps_getMetalink.asTask).bind fun _ => keeps_theDistro.bind fun _ =>
      Steps.get.bind fun _ => .pure

/-- The metalink it returns is the one of the distro in force. -/
theorem ensureMetalink_value :
    wp user (ensureMetalink env)
      (fun m s' => ∃ d, s'.world.distro = some d ∧ s'.world.metalink d = m) (fun _ _ => True) s := by
  simp only [ensureMetalink, wp_bind, wp_theDistro]
  cases hd : s.world.distro with
  | none => trivial
  | some d =>
    simp only [wp_get]
    cases hm : s.world.metalink d with
    | some m => exact ⟨d, hd, hm⟩
    | none =>
      simp only [wp_bind, wp_theDistro, wp_get, wp_pure]
      refine wp_mono wp_true (fun _ s' _ => ?_) fun _ _ h => h
      cases s'.world.distro with
      | none => trivial
      | some d' => exact ⟨d', rfl, rfl⟩

/-- The installer does not write `p`, or does not enter its md5 in the table. -/
def Env.Key (env : Env) (p : Str) : Prop := env.installDir.isPrefixOf p = true ∨ ¬ env.Written p

/-- A hash that the subtask returns is the hash of the file. -/
theorem md5Task_value :
    wp user (.sub true ((getFileMd5 env p true).asTask fun h => h.map .str))
      (fun v s' => Touches env (fun _ => False) s.world s'.world ∧
        ∀ h, Val.str? v = some h → ∃ content, s'.world.read env p = some content ∧ env.md5 content = h)
      (fun _ _ => False) s := by
  rw [wp_sub, wp_asTask]
  refine ⟨fun _ => ⟨refl _, fun h hh => by cases hh⟩, fun _ => ?_⟩
  refine wp_mono (wp_and (steps_getFileMd5 (S := fun _ => False) _) getFileMd5_value) ?_ ?_
  · intro r s' ⟨ht, hr⟩
    refine ⟨ht, fun h hh => ?_⟩
    have hval : r = some h := by
      cases r with
      | none => cases hh
      | some r => exact hh
    obtain ⟨content, hread, rfl⟩ := hr h hval
    exact ⟨content, (ht.read p not_false).trans hread, rfl⟩
  · intro e s' ⟨ht, _⟩
    exact ⟨ht, fun h hh => by cases hh⟩

theorem keeps_cacheHash {w : World} {hash : Option Str} (hkey : ¬ env.Written p)
    (h : ∀ h, hash = some h → ∃ content, w.read env p = some content ∧ env.md5 content = h) :
    Keeps env w (cacheHash p hash w) := by
  refine ⟨fun hi => ⟨fun q h' hq => ?_, hi.parsed, hi.declared⟩, rfl, rfl, rfl, rfl,
    fun _ _ => rfl⟩
  by_cases hqp : q = p
  · subst hqp
    simp only [cacheHash, Function.update_self, Option.some.injEq] at hq
    exact ⟨hkey, h h' hq⟩
  · simp only [cacheHash, Function.update_of_ne hqp] at hq
    exact hi.hash q h' hq

theorem isoMd5_value (hkey : env.Key p) (hinv : Inv env s.world) :
    wp user (isoMd5 env p)
      (fun r s' => Keeps env s.world s'.world ∧ s'.world.distro = s.world.distro ∧
        s'.world.metalink = s.world.metalink ∧
        ∀ h, r = some h → ∃ content, s'.world.read env p = some content ∧ env.md5 content = h)
      (fun _ _ => False) s := by
  simp only [isoMd5, wp_bind, wp_get]
  cases hn : nonempty (s.world.isoMd5Hashes p).join with
  | some h =>
    refine ⟨refl _, rfl, rfl, ?_⟩
    rintro _ ⟨⟩
    have hentry : s.world.isoMd5Hashes p = some (some h) := by
      cases he : s.world.isoMd5Hashes p with
      | none => simp [he, nonempty] at hn
      | some e =>
        simp only [he, nonempty, Option.join_some, Option.filter_eq_some_iff] at hn
        rw [hn.1]
    exact (hinv.hash p h hentry).2
  | none =>
    simp only [wp_bind]
    refine wp_mono md5Task_value ?_ fun _ _ h => h
    intro v s' hpost
    obtain ⟨ht, hv⟩ := hpost
    have hkeep : Keeps env s.world s'.world :=
      Touches.keeps ⟨ht.same, fun q _ => ht.read q not_false⟩
    obtain ⟨_, _, hw⟩ := ht.same
    have hdistro : s'.world.distro = s.world.distro := by rw [hw]
    have hmeta : s'.world.metalink = s.world.metalink := by rw [hw]
    simp only [wp_ite, wp_bind, wp_modify, wp_pure]
    refine ⟨fun _ => ⟨hkeep, hdistro, hmeta, hv⟩, fun hout => ?_⟩
    have hwritten : ¬ env.Written p := hkey.resolve_left hout
    exact ⟨IsTrans.trans _ _ _ hkeep (keeps_cacheHash hwritten hv), hdistro, hmeta, hv⟩

/-- If the distro in force has a metalink with a hash, the file at `p` has it. -/
def World.Checked (env : Env) (w : World) (p : Str) : Prop :=
  ∀ d m file rest h, w.distro = some d → w.metalink d = some m → m.files = file :: rest →
    file.md5sum = some h → ∃ content, w.read env p = some content ∧ env.md5 content = h

theorem checkIso_value (hskip : env.skipMd5Check = false) (hkey : env.Key p)
    (hinv : Inv env s.world) :
    wp user (checkIso env p)
      (fun b s' => Keeps env s.world s'.world ∧ (b = true → s'.world.Checked env p))
      (fun _ s' => Keeps env s.world s'.world) s := by
  unfold checkIso
  rw [wp_bind]
  refine wp_mono (keeps_theDistro s) (fun d s₀ h₀ => ?_) fun _ _ h => h
  rw [wp_bind]
  refine wp_mono (keeps_isValidIso s₀)
    (fun valid s₁ h₁ => ?_) fun _ _ h => IsTrans.trans _ _ _ h₀ h
  have h₁ : Keeps env s.world s₁.world := IsTrans.trans _ _ _ h₀ h₁
  rw [wp_ite]
  refine ⟨fun _ => ?_, fun _ => ⟨h₁, by rintro ⟨⟩⟩⟩
  rw [wp_bind]
  refine wp_mono (keeps_setDistroFromArch s₁) (fun _ s₂ h₂ => ?_)
    fun _ _ h => IsTrans.trans _ _ _ h₁ h
  have h₂ : Keeps env s.world s₂.world := IsTrans.trans _ _ _ h₁ h₂
  simp only [hskip, Bool.false_eq_true, if_false, wp_bind]
  refine wp_mono (wp_and (keeps_ensureMetalink s₂) ensureMetalink_value) (fun metalink s₃ h => ?_)
    fun _ _ h => IsTrans.trans _ _ _ h₂ h.1
  obtain ⟨h₃, d, hd, hm⟩ := h
  have h₃ : Keeps env s.world s₃.world := IsTrans.trans _ _ _ h₂ h₃
  -- nothing is promised when there is no hash to compare with
  have hvacuous : (∀ m file rest, metalink = some m → m.files = file :: rest →
      file.md5sum = none) → s₃.world.Checked env p := by
    intro hnone d' m file rest h hd' hmeta hfiles hsum
    cases hd.symm.trans hd'
    rw [hm] at hmeta
    rw [hnone m file rest hmeta hfiles] at hsum
    cases hsum
  cases metalink with
  | none => exact ⟨h₃, fun _ => hvacuous fun _ _ _ h => by cases h⟩
  | some m =>
    cases hfiles : m.files with
    | nil => simpa [hfiles] using h₃
    | cons file rest =>
      simp only [hfiles]
      cases hsum : file.md5sum with
      | none =>
        refine ⟨h₃, fun _ => hvacuous fun m' file' rest' hm' hf' => ?_⟩
        cases hm'
        rw [hfiles] at hf'
        cases hf'
        exact hsum
      | some md5sum =>
        simp only [wp_bind, wp_pure]
        refine wp_mono (isoMd5_value hkey (h₃.inv hinv)) (fun r s₄ h => ?_) fun _ _ h => h.elim
        obtain ⟨h₄, hdistro, hmeta, hr⟩ := h
        refine ⟨IsTrans.trans _ _ _ h₃ h₄, fun hb => ?_⟩
        have hr' : r = some md5sum := (eq_of_beq hb).symm
        intro d' m' file' rest' h hd' hm' hf' hs'
        cases (hdistro.trans hd).symm.trans hd'
        rw [hmeta, hm] at hm'
        cases hm'
        rw [hfiles] at hf'
        cases hf'
        rw [hsum] at hs'
        cases hs'
        exact hr md5sum hr'

end Wubi.Backend
