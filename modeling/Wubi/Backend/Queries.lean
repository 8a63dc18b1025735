import Wubi.Backend.Cached

/-!
# Asking more than once

Sequences of calls of `is_valid_iso` of `src/wubi/backends/common/distro.py`, by
any distros on any paths, from empty caches on. `find_iso` and `find_any_iso`
make such calls.

Both caches get a None before the work that may fail. `get_iso_file_names` then
returns an empty list where 7-Zip fails or prints nothing, and leaves the None,
and the next call for the file returns that and `is_valid_iso` iterates over it.

**Setting.** `Env.Steady`: 7-Zip lists and extracts the same every time. The
files do not change.

Results:
* `wp_ask`: on caches that hold what is found, a call answers as on empty ones.
* `answers_iff`: every call answers so if and only if no listing or extraction
  raises and no file without a listing is asked about twice.
-/
namespace Wubi.Backend

open Wubi.Tasks Wubi.Tasks.Prog

/-- A call of `is_valid_iso`. -/
structure IsoQuery where
  distro : Distro
  isoPath : Str
  checkArch : Bool

/-- The world with both caches empty. -/
def World.emptied (w : World) : World :=
  { w with fileNames := fun _ => none, diskInfo := fun _ => none }

variable (env : Env)

namespace IsoQuery

def ask (q : IsoQuery) : Fn Bool := q.distro.isValidIso env q.isoPath q.checkArch

/-- The path by which the caches know the file. -/
def path (q : IsoQuery) : Str := env.abspath q.isoPath

/-- The file is there and has a size that the distro admits. -/
def Opens (file : Str → Option Str) (q : IsoQuery) (content : Str) : Prop :=
  file (q.path env) = some content ∧ q.distro.wrongSize content.length = false

/-- 7-Zip fails on the file or prints nothing. -/
def Unlisted (file : Str → Option Str) (q : IsoQuery) : Prop :=
  ∃ content, q.Opens env file content ∧ env.listing (q.path env) content = .ok none

/-- Neither the listing nor, where the call comes to it, the info file raises. -/
def Readable (file : Str → Option Str) (q : IsoQuery) : Prop :=
  ∀ content, q.Opens env file content →
    ∃ names, env.listing (q.path env) content = .ok names ∧
      ∀ found, names = some found → q.distro.hasRequired found = true →
        ∃ info, env.infoLine q.distro (q.path env) content = .ok info

/-- What the file itself says. -/
def answer (file : Str → Option Str) (q : IsoQuery) : Bool :=
  match file (q.path env) with
  | none => false
  | some content =>
    if q.distro.wrongSize content.length then false
    else match env.listing (q.path env) content with
      | .ok (some names) =>
        q.distro.hasRequired names && match env.infoLine q.distro (q.path env) content with
          | .ok info => q.distro.checkInfo info q.checkArch
          | .error _ => false
      | _ => false

end IsoQuery

/-- Each call returns, and returns what it returns on empty caches. -/
def Answers (user : Nat → Bool) : List IsoQuery → St World → Prop
  | [], _ => True
  | q :: qs, s => ∃ b s', (q.ask env).run user s = (.ok b, s') ∧
      (∃ s₁, (q.ask env).run user (s.map World.emptied) = (.ok b, s₁)) ∧ Answers user qs s'

/-- No two of the calls are about one file without a listing. -/
def UnlistedOnce (file : Str → Option Str) (qs : List IsoQuery) : Prop :=
  qs.Pairwise fun q q' =>
    ¬ (q.path env = q'.path env ∧ q.Unlisted env file ∧ q'.Unlisted env file)

/-! ## Caches that hold what is found -/

/-- A cached value is what listing and extracting the file give, and a None is
one that the listing left. -/
structure Truthful (w : World) : Prop where
  names : ∀ p names, w.fileNames p = some names →
    ∃ content, w.file p = some content ∧ env.listing p content = .ok names
  infos : ∀ p f info, w.diskInfo (p, f) = some info →
    ∃ d content, d.infoFile = f ∧ w.file p = some content ∧ env.infoLine d p content = .ok info

/-- What a call leaves. -/
structure After (q : IsoQuery) (w w' : World) : Prop where
  truthful : Truthful env w'
  file : w'.file = w.file
  none_iff : ∀ p, w'.fileNames p = some none ↔
    w.fileNames p = some none ∨ q.Unlisted env w.file ∧ q.path env = p

variable {env} {user : Nat → Bool} {s : St World} {q : IsoQuery} {w : World} {p content : Str}

theorem truthful_emptied : Truthful env w.emptied where
  names _ _ h := nomatch h
  infos _ _ _ h := nomatch h

theorem infoLine_congr {d d' : Distro} (h : d.infoFile = d'.infoFile) :
    env.infoLine d p content = env.infoLine d' p content := by
  unfold Env.infoLine
  rw [h]

theorem isValidIso_path {d : Distro} {checkArch : Bool} :
    d.isValidIso env p checkArch = d.isValidIso env (env.abspath p) checkArch := by
  unfold Distro.isValidIso
  rw [env.abspath_abspath]

theorem fileNames_cacheNames {names : Option (List Str)} :
    (cacheNames p names w).fileNames = Function.update w.fileNames p (some names) := rfl

theorem diskInfo_cacheInfo {key : Str × Str} {info : Option DiskInfo} :
    (cacheInfo key info w).diskInfo = Function.update w.diskInfo key (some info) := rfl

/-- The placeholder is gone. -/
theorem cacheNames_again {names names' : Option (List Str)} {n : Nat} :
    cacheNames p names' ((cacheNames p names w).advance n) =
      cacheNames p names' (w.advance n) := by
  simp [cacheNames, World.advance]

theorem cacheInfo_again {key : Str × Str} {info info' : Option DiskInfo} {n : Nat} :
    cacheInfo key info' ((cacheInfo key info w).advance n) = cacheInfo key info' (w.advance n) := by
  simp [cacheInfo, World.advance]

/-- The world behind a listing that was found. -/
theorem Truthful.cacheNames {names : Option (List Str)} (h : Truthful env w)
    (hfile : w.file p = some content) (hlist : env.listing p content = .ok names) :
    Truthful env (cacheNames p names w) where
  names p' names' h' := by
    rw [fileNames_cacheNames, Function.update_apply] at h'
    split at h'
    · rename_i hp
      obtain rfl := Option.some.inj h'
      exact ⟨content, by rw [hp]; exact hfile, by rw [hp]; exact hlist⟩
    · exact h.names p' names' h'
  infos := h.infos

theorem Truthful.cacheInfo {d : Distro} {info : Option DiskInfo} (h : Truthful env w)
    (hfile : w.file p = some content) (hinfo : env.infoLine d p content = .ok info) :
    Truthful env (cacheInfo (p, d.infoFile) info w) where
  names := h.names
  infos p' f info' h' := by
    rw [diskInfo_cacheInfo, Function.update_apply] at h'
    split at h'
    · rename_i hp
      obtain ⟨rfl, rfl⟩ := Prod.mk.inj hp
      obtain rfl := Option.some.inj h'
      exact ⟨d, content, rfl, hfile, hinfo⟩
    · exact h.infos p' f info' h'

/-- A cached info is the one in the file. -/
theorem Truthful.infoLine_eq {d : Distro} {info : Option DiskInfo} (h : Truthful env w)
    (hfile : w.file p = some content) (hcache : w.diskInfo (p, d.infoFile) = some info) :
    env.infoLine d p content = .ok info := by
  obtain ⟨d', content', hd', hfile', hinfo⟩ := h.infos p d.infoFile info hcache
  obtain rfl := Option.some.inj (hfile.symm.trans hfile')
  rw [← hinfo]
  exact infoLine_congr hd'.symm

theorem Truthful.listing_eq {names : Option (List Str)} (h : Truthful env w)
    (hfile : w.file p = some content) (hcache : w.fileNames p = some names) :
    env.listing p content = .ok names := by
  obtain ⟨content', hfile', hlist⟩ := h.names p names hcache
  obtain rfl := Option.some.inj (hfile.symm.trans hfile')
  exact hlist

theorem Truthful.advance {n : Nat} (h : Truthful env w) : Truthful env (w.advance n) :=
  ⟨h.names, h.infos⟩

/-! ## One call -/

theorem read_of_file (habs : env.abspath p = p) (hfile : w.file p = some content) :
    w.read env p = some content := by
  rw [World.read, habs, hfile]

section
variable (hsteady : env.Steady) (habs : env.abspath p = p)
include hsteady habs

theorem wp_getIsoFileNames_truthful {names : Option (List Str)} (ht : Truthful env s.world)
    (hfile : s.world.file p = some content) (hlist : env.listing p content = .ok names)
    (hfirst : names = none → s.world.fileNames p ≠ some none) :
    wp user (getIsoFileNames env p)
      (fun r s' => r = some (names.getD []) ∧ Truthful env s'.world ∧
        s'.world.file = s.world.file ∧
        s'.world.fileNames = Function.update s.world.fileNames p (some names))
      (fun _ _ => False) s := by
  cases hcache : s.world.fileNames p with
  | some names' =>
    have hsame := ht.listing_eq hfile hcache
    obtain rfl : names = names' := Except.ok.inj (hlist.symm.trans hsame)
    rw [wp_getIsoFileNames_cached habs hcache]
    refine ⟨?_, ht, rfl, ?_⟩
    · cases names with
      | none => exact absurd hcache (hfirst rfl)
      | some found => rfl
    · rw [← hcache, Function.update_eq_self]
  | none =>
    rw [wp_getIsoFileNames_fresh hsteady habs hcache (read_of_file habs hfile), hlist]
    cases names with
    | none => exact ⟨rfl, (ht.cacheNames hfile hlist).advance, rfl, rfl⟩
    | some found =>
      simp only [St.map_world, cacheNames_again]
      exact ⟨rfl, ht.advance.cacheNames hfile hlist, rfl, rfl⟩

theorem wp_getInfo_truthful {d : Distro} {info : Option DiskInfo} (ht : Truthful env s.world)
    (hfile : s.world.file p = some content) (hinfo : env.infoLine d p content = .ok info) :
    wp user (d.getInfo env p)
      (fun r s' => r = info ∧ Truthful env s'.world ∧ s'.world.file = s.world.file ∧
        s'.world.fileNames = s.world.fileNames)
      (fun _ _ => False) s := by
  cases hcache : s.world.diskInfo (p, d.infoFile) with
  | some info' =>
    obtain rfl : info = info' := Except.ok.inj (hinfo.symm.trans (ht.infoLine_eq hfile hcache))
    rw [wp_getInfo_cached hcache]
    exact ⟨rfl, ht, rfl, rfl⟩
  | none =>
    rw [wp_getInfo_fresh hsteady hcache (read_of_file habs hfile), hinfo]
    simp only [St.map_world, cacheInfo_again]
    exact ⟨trivial, ht.advance.cacheInfo hfile hinfo, rfl, rfl⟩

theorem wp_getInfo_raises {d : Distro} {e : PyErr} (ht : Truthful env s.world)
    (hfile : s.world.file p = some content) (hinfo : env.infoLine d p content = .error e) :
    wp user (d.getInfo env p) (fun _ _ => False) (fun _ _ => True) s := by
  cases hcache : s.world.diskInfo (p, d.infoFile) with
  | some info => exact nomatch hinfo.symm.trans (ht.infoLine_eq hfile hcache)
  | none =>
    rw [wp_getInfo_fresh hsteady hcache (read_of_file habs hfile), hinfo]
    trivial

end

/-- The call neither raises nor meets a None. -/
def IsoQuery.Askable (env : Env) (q : IsoQuery) (w : World) : Prop :=
  q.Readable env w.file ∧ (q.Unlisted env w.file → w.fileNames (q.path env) ≠ some none)

theorem unlisted_iff {names : Option (List Str)} (hopen : q.Opens env w.file content)
    (hlist : env.listing (q.path env) content = .ok names) :
    q.Unlisted env w.file ↔ names = none := by
  constructor
  · intro hboth
    obtain ⟨content', hopen', hlist'⟩ := hboth
    obtain rfl := Option.some.inj (hopen.1.symm.trans hopen'.1)
    exact Except.ok.inj (hlist.symm.trans hlist')
  · rintro rfl
    exact ⟨content, hopen, hlist⟩

theorem answer_closed (h : ∀ content, ¬ q.Opens env w.file content) :
    q.answer env w.file = false := by
  unfold IsoQuery.answer
  split
  · rfl
  · rename_i content hfile
    split
    · rfl
    · rename_i hsize
      exact absurd ⟨hfile, by simpa using hsize⟩ (h content)

theorem answer_open (hopen : q.Opens env w.file content) : q.answer env w.file =
    match env.listing (q.path env) content with
    | .ok (some names) =>
      q.distro.hasRequired names && match env.infoLine q.distro (q.path env) content with
        | .ok info => q.distro.checkInfo info q.checkArch
        | .error _ => false
    | _ => false := by
  unfold IsoQuery.answer
  simp only [hopen.1, hopen.2, Bool.false_eq_true, if_false]

/-- A call that does not come to the listing. -/
theorem wp_ask_closed (h : ∀ content, ¬ q.Opens env s.world.file content)
    {Q : Bool → St World → Prop} {R : PyErr → St World → Prop} :
    wp user (q.ask env) Q R s ↔ Q false s := by
  have hread : s.world.read env (env.abspath q.isoPath) = s.world.file (q.path env) := by
    rw [World.read, env.abspath_abspath]
    rfl
  simp only [IsoQuery.ask, Distro.isValidIso, wp_bind, wp_get, hread]
  cases hfile : s.world.file (q.path env) with
  | none => exact Iff.rfl
  | some content =>
    cases hsize : q.distro.wrongSize content.length with
    | true =>
      simp only [hsize, if_true]
      exact Iff.rfl
    | false => exact absurd ⟨hfile, hsize⟩ (h content)

/-- The cache of the names behind a call. -/
theorem after_update {names : Option (List Str)} {w' : World} (hopen : q.Opens env w.file content)
    (hlist : env.listing (q.path env) content = .ok names) (ht : Truthful env w)
    (ht' : Truthful env w') (hfile : w'.file = w.file)
    (hnames : w'.fileNames = Function.update w.fileNames (q.path env) (some names)) :
    After env q w w' where
  truthful := ht'
  file := hfile
  none_iff p := by
    rw [hnames, Function.update_apply, unlisted_iff hopen hlist]
    split
    · rename_i hp
      subst hp
      constructor
      · intro h
        exact .inr ⟨Option.some.inj h, rfl⟩
      · intro hboth
        rcases hboth with h | ⟨h, -⟩
        · exact congrArg some (Except.ok.inj (hlist.symm.trans (ht.listing_eq hopen.1 h)))
        · rw [h]
    · rename_i hp
      exact ⟨Or.inl, fun h => h.resolve_right fun hr => hp hr.2.symm⟩

/-- On caches that hold what is found, a call answers what the file says. -/
theorem wp_ask (hsteady : env.Steady) (ht : Truthful env s.world) (hask : q.Askable env s.world) :
    wp user (q.ask env) (fun b s' => b = q.answer env s.world.file ∧ After env q s.world s'.world)
      (fun _ _ => False) s := by
  by_cases hopens : ∃ content, q.Opens env s.world.file content
  case neg =>
    have hclosed : ∀ content, ¬ q.Opens env s.world.file content := fun c h => hopens ⟨c, h⟩
    rw [wp_ask_closed hclosed]
    exact ⟨(answer_closed hclosed).symm, ht, rfl, fun p => by simp [IsoQuery.Unlisted, hclosed]⟩
  obtain ⟨content, hopen⟩ := hopens
  have habs : env.abspath (q.path env) = q.path env := env.abspath_abspath _
  have hpath : q.ask env = q.distro.isValidIso env (q.path env) q.checkArch := isValidIso_path
  obtain ⟨names, hlist, hinfo⟩ := hask.1 content hopen
  have hfirst : names = none → s.world.fileNames (q.path env) ≠ some none :=
    fun h => hask.2 ((unlisted_iff hopen hlist).2 h)
  rw [hpath, wp_isValidIso habs (read_of_file habs hopen.1) hopen.2, answer_open hopen, hlist]
  refine wp_mono (wp_getIsoFileNames_truthful hsteady habs ht hopen.1 hlist hfirst) ?_ fun _ _ h => h
  rintro r s₁ ⟨rfl, ht₁, hfile, hnames⟩
  cases names with
  | none =>
    simp only [Option.getD_none, hasRequired_nil, Bool.false_eq_true, if_false]
    exact ⟨trivial, after_update hopen hlist ht ht₁ hfile hnames⟩
  | some found =>
    cases hreq : q.distro.hasRequired found with
    | false =>
      simp only [Option.getD_some, hreq, Bool.false_eq_true, if_false, Bool.false_and]
      exact ⟨trivial, after_update hopen hlist ht ht₁ hfile hnames⟩
    | true =>
      obtain ⟨info, hline⟩ := hinfo found rfl hreq
      have hfile₁ : s₁.world.file (q.path env) = some content := by rw [hfile]; exact hopen.1
      simp only [Option.getD_some, hreq, if_true, hline, Bool.true_and]
      refine wp_mono (wp_getInfo_truthful hsteady habs ht₁ hfile₁ hline) ?_ fun _ _ h => h
      rintro i s₂ ⟨rfl, ht₂, hfile₂, hnames₂⟩
      exact ⟨rfl, after_update hopen hlist ht ht₂ (hfile₂.trans hfile) (hnames₂.trans hnames)⟩

theorem exists_raising {names : Option (List Str)} (hopen : q.Opens env w.file content)
    (hlist : env.listing (q.path env) content = .ok names) (h : ¬ q.Readable env w.file) :
    ∃ found, names = some found ∧ q.distro.hasRequired found = true ∧
      ∃ e, env.infoLine q.distro (q.path env) content = .error e := by
  by_contra hno
  refine h fun content' hopen' => ?_
  obtain rfl := Option.some.inj (hopen.1.symm.trans hopen'.1)
  refine ⟨names, hlist, fun found hfound hreq => ?_⟩
  cases hline : env.infoLine q.distro (q.path env) content with
  | ok info => exact ⟨info, rfl⟩
  | error e => exact absurd ⟨found, hfound, hreq, e, hline⟩ hno

/-- Otherwise it raises. -/
theorem wp_ask_raises (hsteady : env.Steady) (ht : Truthful env s.world)
    (hask : ¬ q.Askable env s.world) :
    wp user (q.ask env) (fun _ _ => False) (fun _ _ => True) s := by
  by_cases hopens : ∃ content, q.Opens env s.world.file content
  case neg =>
    refine absurd ⟨fun c h => absurd ⟨c, h⟩ hopens, ?_⟩ hask
    intro hboth
    obtain ⟨c, h, -⟩ := hboth
    exact absurd ⟨c, h⟩ hopens
  obtain ⟨content, hopen⟩ := hopens
  have habs : env.abspath (q.path env) = q.path env := env.abspath_abspath _
  have hpath : q.ask env = q.distro.isValidIso env (q.path env) q.checkArch := isValidIso_path
  rw [hpath, wp_isValidIso habs (read_of_file habs hopen.1) hopen.2]
  cases hlist : env.listing (q.path env) content with
  | error e =>
    cases hcache : s.world.fileNames (q.path env) with
    | some names => exact nomatch hlist.symm.trans (ht.listing_eq hopen.1 hcache)
    | none =>
      rw [wp_getIsoFileNames_fresh hsteady habs hcache (read_of_file habs hopen.1), hlist]
      trivial
  | ok names =>
    by_cases hnone : s.world.fileNames (q.path env) = some none
    · rw [wp_getIsoFileNames_cached habs hnone]
      trivial
    obtain ⟨found, rfl, hreq, e, hline⟩ := exists_raising hopen hlist fun h =>
      hask ⟨h, fun _ => hnone⟩
    refine wp_mono (wp_getIsoFileNames_truthful hsteady habs ht hopen.1 hlist fun _ => hnone) ?_
      fun _ _ h => h.elim
    rintro r s₁ ⟨rfl, ht₁, hfile, -⟩
    simp only [Option.getD_some, hreq, if_true]
    have hfile₁ : s₁.world.file (q.path env) = some content := by rw [hfile]; exact hopen.1
    exact wp_mono (wp_getInfo_raises hsteady habs ht₁ hfile₁ hline) (fun _ _ h => h.elim)
      fun _ _ h => h

/-! ## Sequences of calls -/

/-- What a call spoils: the next one about the same file, if that has no listing. -/
theorem askable_after {q' : IsoQuery} {w' : World} (h : After env q w w') :
    q'.Askable env w' ↔ q'.Askable env w ∧
      ¬ (q.path env = q'.path env ∧ q.Unlisted env w.file ∧ q'.Unlisted env w.file) := by
  unfold IsoQuery.Askable
  simp only [h.file, ne_eq, h.none_iff]
  constructor
  · intro hboth
    obtain ⟨hread, hfirst⟩ := hboth
    refine ⟨⟨hread, fun hu hn => hfirst hu (.inl hn)⟩, ?_⟩
    intro hboth
    obtain ⟨hpath, hu, hu'⟩ := hboth
    exact hfirst hu' (.inr ⟨hu, hpath⟩)
  · intro hboth
    obtain ⟨⟨hread, hfirst⟩, honce⟩ := hboth
    refine ⟨hread, fun hu hn => ?_⟩
    rcases hn with hn | ⟨hq, hpath⟩
    · exact hfirst hu hn
    · exact honce ⟨hpath, hq, hu⟩

/-- On empty caches a call answers what the file says, if it does not raise. -/
theorem ask_emptied (hsteady : env.Steady) (hread : q.Readable env s.world.file) :
    ∃ s', (q.ask env).run user (s.map World.emptied) = (.ok (q.answer env s.world.file), s') := by
  have hask : q.Askable env (s.map World.emptied).world := ⟨hread, fun _ h => nomatch h⟩
  obtain ⟨b, s', hrun, rfl, -⟩ := exists_run (@wp_ask env user _ q hsteady truthful_emptied hask)
  exact ⟨s', hrun⟩

theorem answers_iff_from (hsteady : env.Steady) {qs : List IsoQuery}
    (ht : Truthful env s.world) : Answers env user qs s ↔
      (∀ q ∈ qs, q.Askable env s.world) ∧ UnlistedOnce env s.world.file qs := by
  induction qs generalizing s with
  | nil => simp [Answers, UnlistedOnce]
  | cons q qs ih =>
    rw [List.forall_mem_cons, UnlistedOnce, List.pairwise_cons]
    constructor
    · intro hboth
      obtain ⟨b, s', hrun, -, hrest⟩ := hboth
      by_cases hask : q.Askable env s.world
      · obtain ⟨-, hafter⟩ := (wp_of_ok hrun).1 (wp_ask hsteady ht hask)
        obtain ⟨hasks, honce⟩ := (ih hafter.truthful).1 hrest
        rw [hafter.file] at honce
        refine ⟨⟨hask, fun q' hq' => ?_⟩, fun q' hq' => ?_, honce⟩
        · exact ((askable_after hafter).1 (hasks q' hq')).1
        · exact ((askable_after hafter).1 (hasks q' hq')).2
      · exact ((wp_of_ok hrun).1 (wp_ask_raises hsteady ht hask)).elim
    · intro hboth
      obtain ⟨⟨hask, hasks⟩, hhead, honce⟩ := hboth
      obtain ⟨b, s', hrun, rfl, hafter⟩ := exists_run (@wp_ask env user s q hsteady ht hask)
      refine ⟨_, s', hrun, ask_emptied hsteady hask.1, (ih hafter.truthful).2 ⟨fun q' hq' => ?_, ?_⟩⟩
      · exact (askable_after hafter).2 ⟨hasks q' hq', hhead q' hq'⟩
      · rw [hafter.file]
        exact honce

/-- From empty caches on, every call answers as on empty caches if and only if
none raises by itself and no file without a listing is asked about twice. -/
theorem answers_iff (hsteady : env.Steady) (qs : List IsoQuery) (s : St World)
    (hnames : s.world.fileNames = fun _ => none) (hinfo : s.world.diskInfo = fun _ => none) :
    Answers env user qs s ↔
      (∀ q ∈ qs, q.Readable env s.world.file) ∧ UnlistedOnce env s.world.file qs := by
  have ht : Truthful env s.world := by
    refine ⟨fun p names h => ?_, fun p f info h => ?_⟩
    · rw [hnames] at h
      exact nomatch h
    · rw [hinfo] at h
      exact nomatch h
  rw [answers_iff_from hsteady ht]
  simp [IsoQuery.Askable, hnames]

/-! ## Calls that are answered -/

/-- 7-Zip lists the ISO `['i']` and fails on others. -/
def listsOne : Env :=
  { (default : Env) with
    matchDiskInfo := fun _ => some ⟨['K'], [], [], []⟩
    list := fun _ _ content =>
      if content = some ['i'] then .ok "\r\n\r\n\r\n\r\n\r\n\r\n\r\nk\r\n\r\n\r\n".toList
      else .error .typeError
    extract := fun _ _ _ content => .ok content }

def twoFiles : St World :=
  ⟨{ (default : World) with
    file := fun p => if p = ['a'] then some ['i'] else if p = ['b'] then some ['x'] else none },
    false, 0⟩

def kernelDistro : Distro :=
  { (default : Distro) with
    name := ['K'], kernel := ['k'], initrd := ['k'], infoFile := ['k'], md5sums := ['k'] }

/-- The listed ISO, the other one, and the listed one again. -/
def threeQueries : List IsoQuery :=
  [⟨kernelDistro, ['a'], false⟩, ⟨kernelDistro, ['b'], false⟩, ⟨kernelDistro, ['a'], false⟩]

theorem answers_three :
    threeQueries.map (IsoQuery.answer listsOne twoFiles.world.file) = [true, false, true] ∧
    Answers listsOne (fun _ => false) threeQueries twoFiles := by
  have hlisted : ∀ q : IsoQuery, q.path listsOne = ['a'] →
      ¬ q.Unlisted listsOne twoFiles.world.file := by
    intro q hpath hun
    obtain ⟨content, hopen, hnone⟩ := hun
    obtain rfl : ['i'] = content := Option.some.inj ((congrArg _ hpath).symm.trans hopen.1)
    rw [hpath] at hnone
    exact nomatch hnone
  refine ⟨by decide, (answers_iff ⟨fun _ _ _ => rfl, fun _ _ _ _ => rfl⟩ _ _ rfl rfl).2 ⟨?_, ?_⟩⟩
  · intro q hq content hopen
    obtain rfl | rfl | rfl : q = _ ∨ q = _ ∨ q = _ := by simpa [threeQueries] using hq
    · obtain rfl : ['i'] = content := Option.some.inj hopen.1
      exact ⟨some [['k']], rfl, fun _ _ _ => ⟨_, rfl⟩⟩
    · obtain rfl : ['x'] = content := Option.some.inj hopen.1
      exact ⟨none, rfl, fun _ h => nomatch h⟩
    · obtain rfl : ['i'] = content := Option.some.inj hopen.1
      exact ⟨some [['k']], rfl, fun _ _ _ => ⟨_, rfl⟩⟩
  · refine .cons (fun _ _ h => hlisted _ rfl h.2.1) (.cons (fun q hq h => ?_) (List.pairwise_singleton _ _))
    obtain rfl := List.mem_singleton.1 hq
    exact hlisted _ rfl h.2.2

/-! ## An ISO that 7-Zip does not list -/

/-- One ISO, and 7-Zip fails on it. -/
def unlistedEnv : Env := default

def unlistedWorld : St World :=
  ⟨{ (default : World) with file := fun p => if p = ['a'] then some ['x'] else none }, false, 0⟩

/-- Two distros look at it, as `find_any_iso` does. -/
def twoQueries : List IsoQuery := [⟨default, ['a'], false⟩, ⟨default, ['a'], false⟩]

theorem unlistedEnv_steady : unlistedEnv.Steady := ⟨fun _ _ _ => rfl, fun _ _ _ _ => rfl⟩

/-- The second call raises. -/
theorem not_answers_two : unlistedEnv.Steady ∧ unlistedWorld.world.fileNames = (fun _ => none) ∧
    unlistedWorld.world.diskInfo = (fun _ => none) ∧
    ¬ Answers unlistedEnv (fun _ => false) twoQueries unlistedWorld := by
  refine ⟨unlistedEnv_steady, rfl, rfl, ?_⟩
  intro hboth
  obtain ⟨b, s, hrun, -, b', s', hrun', -⟩ := hboth
  obtain rfl := (Prod.mk.inj hrun).2
  exact nomatch hrun'

end Wubi.Backend
