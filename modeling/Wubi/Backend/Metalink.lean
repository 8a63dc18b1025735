import Wubi.Backend.Files

/-!
# Fetching and authenticating the metalink

Model of `get_metalink` and `check_metalink` of
`src/wubi/backends/common/backend.py`. The metalink comes from one of two
URLs; a list of md5 sums and its signature come from the same directory.

**Text mode.** The contents are what `open` and `read` get, with one character
for the end of a line: the metalink, the md5 sums and the signature are texts.
-/
namespace Wubi.Backend

open Wubi.Tasks Wubi.Tasks.Prog

variable (env : Env)

/-- mirrors src/wubi/backends/common/utils.py:229-239 -/
def readFile (filePath : Str) : Fn (Option Str) := do
  let w ← .get
  return w.read env filePath

/-- The signature's line ends are replaced inside `env.verify`.
mirrors src/wubi/backends/common/signature.py:33-42 -/
def verifyGpgSignature (detachedFile signatureFile : Str) : Fn Bool := do
  let signature ← readFile env signatureFile
  match signature with
  | none => .raise .attributeError
  | some signature =>
    let message ← readFile env detachedFile
    .lift (env.verify message signature)

/-- The entries of the md5sums file: every line that is not empty has two
words, the md5 and the name.
mirrors src/wubi/backends/common/backend.py:250 -/
def parseMd5sums (md5sums : Str) : Except PyErr (List (Str × Str)) :=
  ((md5sums.splitOn '\n').filter (· ≠ [])).mapM fun (line : Str) =>
    match line.words with
    | [md5, name] => .ok (name, md5)
    | _ => .error .valueError

/-- `md5sums.get(name)`: the last entry of a name counts. -/
def lookupMd5 (entries : List (Str × Str)) (name : Str) : Option Str :=
  entries.reverse.lookup name

/-- `check_metalink` on the three downloaded files.
mirrors src/wubi/backends/common/backend.py:245-256 -/
def judgeMetalink (md5sumsFile signatureFile metalink : Str) : Fn Bool := do
  let verified ← verifyGpgSignature env md5sumsFile signatureFile
  if verified then
    let md5sums ← readFile env md5sumsFile
    match md5sums with
    | none => .raise .attributeError
    | some md5sums =>
      let entries ← .lift (parseMd5sums md5sums)
      let md5sum2 ← getFileMd5 env metalink false
      return lookupMd5 entries metalink.basename == md5sum2
  else return false

/-- mirrors src/wubi/backends/common/backend.py:238-256 -/
def checkMetalink (d : Distro) (metalink baseUrl : Str) : Fn Bool := do
  if env.skipMd5Check then return true
  else
    let md5sumsFile ← download env (baseUrl ++ '/' :: d.metalinkMd5sums) env.installDir
    let signatureFile ← download env (baseUrl ++ '/' :: d.metalinkMd5sumsSignature) env.installDir
    judgeMetalink env md5sumsFile signatureFile metalink

/-- mirrors src/wubi/backends/common/metalink.py:205-213 -/
def parseMetalink (filename : Str) : Fn Metalink := do
  let content ← readFile env filename
  match content.map env.saxParse with
  | none | some .ioError => .raise (.metalinkException "Failed to read file.")
  | some .parseException => .raise (.metalinkException "Failed to parse xml-file.")
  | some (.raised e) => .raise e
  | some (.parsed m) => return m

/-- The metalink file and the URL it was downloaded from; None when neither
URL works. -/
def fetchMetalink (d : Distro) : Fn (Option (Str × Str)) :=
  .tryCatch
    (do
      let metalink ← download env d.metalinkUrl env.installDir
      return some (metalink, d.metalinkUrl))
    fun _ => .tryCatch
      (do
        let metalink ← download env d.metalinkUrl2 env.installDir
        return some (metalink, d.metalinkUrl2))
      fun _ => return none

def setMetalink (d : Distro) (m : Metalink) (w : World) : World :=
  { w with metalink := Function.update w.metalink d (some m) }

/-- The result of `check_metalink` does not decide whether the file is parsed.
mirrors src/wubi/backends/common/backend.py:364-381 -/
def getMetalink : Fn Unit := do
  let w ← .get
  match w.distro with
  -- the handler of the AttributeError logs `url`, which is not assigned yet
  | none => .raise .unboundLocalError
  | some d =>
    let fetched ← fetchMetalink env d
    match fetched with
    | none => return ()
    | some (metalink, url) =>
      let _ ← checkMetalink env d metalink url.dirname
      let m ← parseMetalink env metalink
      .modify (setMetalink d m)

/-! ## When the metalink is authenticated -/

/-! ## What reading a metalink leaves alone -/

section
variable {env} {user : Nat → Bool} {p : Str}

theorem steps_readFile {ρ : World → World → Prop} [IsPreorder World ρ] :
    Steps user ρ (readFile env p) :=
  Steps.get.bind fun _ => .pure

theorem steps_parseMetalink {ρ : World → World → Prop} [IsPreorder World ρ] :
    Steps user ρ (parseMetalink env p) := by
  refine steps_readFile.bind fun content => ?_
  split
  · exact .raise
  · exact .raise
  · exact .raise
  · exact .raise
  · exact .pure

/-- The check of the signature and of the md5 only reads. -/
theorem touches_judgeMetalink {S : Str → Prop} {sums signature : Str} :
    Steps user (Touches env S) (judgeMetalink env sums signature p) := by
  refine Steps.bind (steps_readFile.bind fun sig => ?_) fun verified =>
    .ite (fun _ => ?_) fun _ => .pure
  · cases sig with
    | none => exact .raise
    | some sig => exact steps_readFile.bind fun _ => .lift
  · refine steps_readFile.bind fun text => ?_
    cases text with
    | none => exact .raise
    | some text => exact Steps.lift.bind fun _ => steps_getFileMd5.bind fun _ => .pure

end

section
variable {env} {user : Nat → Bool} {s : St World} {d : Distro} {url : Str}

/-- After a download to the installation directory. -/
def World.fetched (env : Env) (w : World) (url content : Str) : World :=
  (w.advance 1).write env (env.target env.installDir url) (some content)

/-- The URL that gave the metalink, and the world after the attempts. -/
def World.afterFetch (env : Env) (d : Distro) (w : World) : Option Str × World :=
  match env.download w.clock d.metalinkUrl with
  | .saved content => (some d.metalinkUrl, w.fetched env d.metalinkUrl content)
  | .raised _ left =>
    let w := (w.advance 1).leave env (env.target env.installDir d.metalinkUrl) left
    match env.download w.clock d.metalinkUrl2 with
    | .saved content => (some d.metalinkUrl2, w.fetched env d.metalinkUrl2 content)
    | .raised _ left =>
      (none, (w.advance 1).leave env (env.target env.installDir d.metalinkUrl2) left)

theorem wp_fetchMetalink {Q : Option (Str × Str) → St World → Prop}
    {R : PyErr → St World → Prop} :
    wp user (fetchMetalink env d) Q R s ↔
      Q ((s.world.afterFetch env d).1.map fun url => (env.target env.installDir url, url))
        (s.map fun w => (w.afterFetch env d).2) := by
  unfold fetchMetalink World.afterFetch
  simp only [wp_tryCatch, wp_bind, wp_download, wp_pure, St.map]
  cases env.download s.world.clock d.metalinkUrl with
  | saved content => exact Iff.rfl
  | raised e left =>
    simp only
    generalize hw : (s.world.advance 1).leave env (env.target env.installDir d.metalinkUrl) left = w
    cases env.download w.clock d.metalinkUrl2 <;> exact Iff.rfl

def Distro.sumsUrl (d : Distro) (url : Str) : Str := url.dirname ++ '/' :: d.metalinkMd5sums

def Distro.signatureUrl (d : Distro) (url : Str) : Str :=
  url.dirname ++ '/' :: d.metalinkMd5sumsSignature

/-- On the disk of `w`: the md5sums verify, and they list the md5 of the
metalink downloaded from `url`. -/
def Authentic (env : Env) (d : Distro) (url : Str) (w : World) : Prop :=
  ∃ md5sums signature entries content,
    w.read env (env.target env.installDir (d.sumsUrl url)) = some md5sums ∧
    w.read env (env.target env.installDir (d.signatureUrl url)) = some signature ∧
    env.verify (some md5sums) signature = .ok true ∧
    parseMd5sums md5sums = .ok entries ∧
    w.read env (env.target env.installDir url) = some content ∧
    lookupMd5 entries (env.target env.installDir url).basename = some (env.md5 content)

/-- After both further downloads. -/
def World.afterSums (env : Env) (d : Distro) (url md5sums signature : Str) (w : World) : World :=
  (w.fetched env (d.sumsUrl url) md5sums).fetched env (d.signatureUrl url) signature

/-- Everything that follows the download of the metalink from `url` works. -/
def Authenticates (env : Env) (d : Distro) (url : Str) (w : World) : Prop :=
  ∃ md5sums signature content m,
    env.download w.clock (d.sumsUrl url) = .saved md5sums ∧
    env.download (w.clock + 1) (d.signatureUrl url) = .saved signature ∧
    Authentic env d url (w.afterSums env d url md5sums signature) ∧
    (w.afterSums env d url md5sums signature).read env (env.target env.installDir url) =
      some content ∧
    env.Quiet (w.clock + 2) (content.length / mib + 2) ∧
    env.saxParse content = .parsed m

/-- `get_metalink` returns, and sets the metalink from an authentic file only. -/
def SafeGet (env : Env) (user : Nat → Bool) (d : Distro) (s : St World) : Prop :=
  wp user (getMetalink env)
    (fun _ s' => s'.world.metalink d ≠ s.world.metalink d →
      ∃ url, (s.world.afterFetch env d).1 = some url ∧ Authentic env d url s'.world)
    (fun _ _ => False) s

theorem afterSums_signature {md5sums signature : Str} {w : World} :
    (w.afterSums env d url md5sums signature).read env
      (env.target env.installDir (d.signatureUrl url)) = some signature := by
  simp [World.afterSums, World.fetched]

theorem read_fetched_isSome {w : World} {p u c : Str} (h : (w.read env p).isSome = true) :
    ((w.fetched env u c).read env p).isSome = true := by
  by_cases hp : env.abspath p = env.abspath (env.target env.installDir u)
  · simp [World.fetched, World.read, World.write, hp]
  · rw [World.fetched, World.read_write_of_ne hp]; exact h

theorem wp_checkMetalink {Q : Bool → St World → Prop} {R : PyErr → St World → Prop}
    {metalink : Str} (hskip : env.skipMd5Check = false) :
    wp user (checkMetalink env d metalink url.dirname) Q R s ↔
      match env.download s.world.clock (d.sumsUrl url) with
      | .raised e left => R e
          (s.map fun w => (w.advance 1).leave env (env.target env.installDir (d.sumsUrl url)) left)
      | .saved md5sums =>
        match env.download (s.world.clock + 1) (d.signatureUrl url) with
        | .raised e left => R e (s.map fun w => ((w.fetched env (d.sumsUrl url) md5sums).advance 1).leave
            env (env.target env.installDir (d.signatureUrl url)) left)
        | .saved signature =>
          wp user (judgeMetalink env (env.target env.installDir (d.sumsUrl url))
            (env.target env.installDir (d.signatureUrl url)) metalink) Q R
            (s.map (World.afterSums env d url md5sums signature)) := by
  unfold checkMetalink
  simp only [hskip, Bool.false_eq_true, if_false, wp_bind, wp_download]
  change (match env.download s.world.clock (d.sumsUrl url) with
    | .saved c => _
    | .raised e left => _) ↔ _
  cases env.download s.world.clock (d.sumsUrl url) with
  | raised e left => exact Iff.rfl
  | saved md5sums =>
    change (match env.download (s.world.clock + 1) (d.signatureUrl url) with
      | .saved c => _
      | .raised e left => _) ↔ _
    cases env.download (s.world.clock + 1) (d.signatureUrl url) <;> exact Iff.rfl

theorem authentic_advance {k : Nat} {m : Metalink} {w : World} :
    Authentic env d url (setMetalink d m (w.advance k)) ↔ Authentic env d url w := Iff.rfl

theorem authentic_iff {w : World} {md5sums signature content : Str}
    (hsums : w.read env (env.target env.installDir (d.sumsUrl url)) = some md5sums)
    (hsig : w.read env (env.target env.installDir (d.signatureUrl url)) = some signature)
    (hfile : w.read env (env.target env.installDir url) = some content) :
    Authentic env d url w ↔ env.verify (some md5sums) signature = .ok true ∧
      ∃ entries, parseMd5sums md5sums = .ok entries ∧
        lookupMd5 entries (env.target env.installDir url).basename = some (env.md5 content) := by
  constructor
  · intro ⟨_, _, entries, _, h1, h2, hv, hp, h3, hl⟩
    rw [hsums] at h1; rw [hsig] at h2; rw [hfile] at h3
    cases h1; cases h2; cases h3
    exact ⟨hv, entries, hp, hl⟩
  · intro ⟨hv, entries, hp, hl⟩
    exact ⟨_, _, entries, _, hsums, hsig, hv, hp, hfile, hl⟩

/-- `check_metalink` behind its downloads. -/
theorem wp_judgeMetalink {Q : Bool → St World → Prop} {R : PyErr → St World → Prop}
    {sumsFile sigFile file md5sums signature content : Str}
    (hsums : s.world.read env sumsFile = some md5sums)
    (hsig : s.world.read env sigFile = some signature)
    (hne : file ≠ []) (hfile : s.world.read env file = some content) :
    wp user (judgeMetalink env sumsFile sigFile file) Q R s ↔
      match env.verify (some md5sums) signature with
      | .error e => R e s
      | .ok false => Q false s
      | .ok true =>
        match parseMd5sums md5sums with
        | .error e => R e s
        | .ok entries =>
          (env.Quiet s.world.clock (content.length / mib + 2) →
            Q (lookupMd5 entries file.basename == some (env.md5 content))
              (s.map (World.advance (content.length / mib + 2)))) ∧
          ∀ j < content.length / mib + 2, ∀ e, env.Quiet s.world.clock j →
            env.ioError (s.world.clock + j) = some e → R e (s.map (World.advance (j + 1))) := by
  simp only [judgeMetalink, verifyGpgSignature, readFile, wp_bind, wp_get, wp_pure, hsig, hsums]
  cases env.verify (some md5sums) signature with
  | error e => exact Iff.rfl
  | ok verified =>
    cases verified with
    | false => exact Iff.rfl
    | true =>
      simp only [wp_lift_ok, if_true, wp_bind, wp_get, wp_pure, hsums]
      cases parseMd5sums md5sums with
      | error e => exact Iff.rfl
      | ok entries => simp only [wp_lift_ok, wp_getFileMd5 hne hfile]

/-- The parse and what follows it. -/
theorem wp_parse {file content : Str} (hfile : s.world.read env file = some content)
    (P : World → Prop) :
    wp user (parseMetalink env file)
      (fun m s' => (setMetalink d m s'.world).metalink d ≠ none → P (setMetalink d m s'.world))
      (fun _ _ => False) s ↔
      ∃ m, env.saxParse content = .parsed m ∧ P (setMetalink d m s.world) := by
  simp only [parseMetalink, readFile, wp_bind, wp_get, wp_pure, hfile, Option.map_some]
  cases env.saxParse content with
  | parsed m => simp [setMetalink]
  | parseException => simp
  | ioError => simp
  | raised e => simp

/-- The part of `get_metalink` behind the downloads. -/
theorem judged_iff {md5sums signature content : Str}
    (hsums : s.world.read env (env.target env.installDir (d.sumsUrl url)) = some md5sums)
    (hsig : s.world.read env (env.target env.installDir (d.signatureUrl url)) = some signature)
    (hfile : s.world.read env (env.target env.installDir url) = some content) :
    wp user (judgeMetalink env (env.target env.installDir (d.sumsUrl url))
        (env.target env.installDir (d.signatureUrl url)) (env.target env.installDir url))
      (fun _ s' => wp user (parseMetalink env (env.target env.installDir url))
        (fun m s' => (setMetalink d m s'.world).metalink d ≠ none →
          Authentic env d url (setMetalink d m s'.world)) (fun _ _ => False) s')
      (fun _ _ => False) s ↔
      Authentic env d url s.world ∧ env.Quiet s.world.clock (content.length / mib + 2) ∧
        ∃ m, env.saxParse content = .parsed m := by
  have hne : env.target env.installDir url ≠ [] := Env.target_ne env.installDir_ne
  have hparse : ∀ k, wp user (parseMetalink env (env.target env.installDir url))
      (fun m s' => (setMetalink d m s'.world).metalink d ≠ none →
        Authentic env d url (setMetalink d m s'.world)) (fun _ _ => False)
      (s.map (World.advance k)) ↔
      (∃ m, env.saxParse content = .parsed m) ∧ Authentic env d url s.world := by
    intro k
    rw [wp_parse (s := s.map (World.advance k)) hfile (Authentic env d url)]
    simp only [St.map_world, authentic_advance, exists_and_right]
  have hauth := authentic_iff hsums hsig hfile
  rw [wp_judgeMetalink hsums hsig hne hfile]
  cases hv : env.verify (some md5sums) signature with
  | error e => simp [hauth, hv]
  | ok verified =>
    cases verified with
    | false =>
      -- the file is parsed all the same
      have h := hparse 0
      simp only [World.map_advance_zero] at h
      simp only [h, hauth, hv]
      simp
    | true =>
      cases hp : parseMd5sums md5sums with
      | error e => simp [hauth, hp]
      | ok entries =>
        simp only [hparse]
        constructor
        · intro ⟨h, hno⟩
          have hq := Env.quiet_of_no_failure hno
          exact ⟨(h hq).2, hq, (h hq).1⟩
        · intro ⟨ha, hq, hm⟩
          refine ⟨fun _ => ⟨hm, ha⟩, fun j hj e _ he => ?_⟩
          rw [hq j hj] at he
          cases he

theorem afterFetch_file : (s.world.afterFetch env d).1 = some url →
    ((s.world.afterFetch env d).2.read env (env.target env.installDir url)).isSome = true := by
  unfold World.afterFetch
  cases env.download s.world.clock d.metalinkUrl with
  | saved content => rintro ⟨⟩; simp [World.fetched]
  | raised e left =>
    simp only
    generalize (s.world.advance 1).leave env (env.target env.installDir d.metalinkUrl) left = w
    cases env.download w.clock d.metalinkUrl2 with
    | saved content => rintro ⟨⟩; simp [World.fetched]
    | raised e left => rintro ⟨⟩

theorem afterFetch_metalink : (s.world.afterFetch env d).2.metalink = s.world.metalink := by
  have hleave : ∀ (w : World) p left, (w.leave env p left).metalink = w.metalink := by
    intro w p left
    cases left <;> rfl
  unfold World.afterFetch
  cases env.download s.world.clock d.metalinkUrl with
  | saved content => rfl
  | raised e left =>
    simp only
    generalize hw : (s.world.advance 1).leave env (env.target env.installDir d.metalinkUrl) left = w
    have hmeta : w.metalink = s.world.metalink := by rw [← hw, hleave]; rfl
    cases env.download w.clock d.metalinkUrl2 with
    | saved content => exact hmeta
    | raised e left => exact (hleave _ _ _).trans hmeta

/-- **The metalink.** `get_metalink` is safe if and only if neither URL yields
a metalink, or everything that follows the download works: a failure behind
the first `try` is either fatal or without effect. -/
theorem getMetalink_safe_iff (hskip : env.skipMd5Check = false) (hd : s.world.distro = some d)
    (hm : s.world.metalink d = none) :
    SafeGet env user d s ↔ (s.world.afterFetch env d).1 = none ∨
      ∃ url, (s.world.afterFetch env d).1 = some url ∧
        Authenticates env d url (s.world.afterFetch env d).2 := by
  unfold SafeGet
  simp only [getMetalink, wp_bind, wp_get, hd, wp_fetchMetalink]
  cases hf : (s.world.afterFetch env d).1 with
  | none => simp [afterFetch_metalink]
  | some url =>
    have hfile := afterFetch_file hf
    simp only [Option.map_some, wp_bind, wp_checkMetalink hskip, wp_modify, hm, reduceCtorEq,
      false_or, Option.some.injEq, exists_eq_left']
    have hw : (s.world.afterFetch env d).2 = (s.map fun w => (w.afterFetch env d).2).world := rfl
    rw [hw] at hfile ⊢
    generalize s.map (fun w => (w.afterFetch env d).2) = s₁ at hfile ⊢
    unfold Authenticates
    cases env.download s₁.world.clock (d.sumsUrl url) with
    | raised e left => simp
    | saved md5sums =>
      simp only
      cases env.download (s₁.world.clock + 1) (d.signatureUrl url) with
      | raised e left => simp
      | saved signature =>
        simp only
        -- the three files are there, whatever their names are
        generalize hs₂ : s₁.map (World.afterSums env d url md5sums signature) = s₂
        have hworld : s₁.world.afterSums env d url md5sums signature = s₂.world := by
          rw [← hs₂]; rfl
        have hclock : s₂.world.clock = s₁.world.clock + 2 := by rw [← hworld]; rfl
        have hsig : s₂.world.read env (env.target env.installDir (d.signatureUrl url)) =
            some signature := by rw [← hworld]; exact afterSums_signature
        have hsums : (s₂.world.read env (env.target env.installDir (d.sumsUrl url))).isSome = true := by
          rw [← hworld]; exact read_fetched_isSome (by simp [World.fetched])
        have hread : (s₂.world.read env (env.target env.installDir url)).isSome = true := by
          rw [← hworld]; exact read_fetched_isSome (read_fetched_isSome hfile)
        obtain ⟨sums, hsums⟩ := Option.isSome_iff_exists.1 hsums
        obtain ⟨content, hread⟩ := Option.isSome_iff_exists.1 hread
        have hj : wp user _ _ _ s₂ ↔ _ := judged_iff hsums hsig hread
        rw [hclock] at hj
        simp only [St.map_world]
        constructor
        · intro h
          obtain ⟨ha, hq, m, hp⟩ := hj.1 h
          exact ⟨md5sums, signature, content, m, rfl, rfl, hworld ▸ ha, hworld ▸ hread, hq, hp⟩
        · intro hboth
          obtain ⟨_, _, content', m, h1, h2, ha, hr, hq, hp⟩ := hboth
          cases h1; cases h2
          rw [hworld] at ha hr
          rw [hread] at hr; cases hr
          exact hj.2 ⟨ha, hq, m, hp⟩
end

/-- A server with the metalink, the list of its md5 and a signature. -/
def releaseEnv (signature : Str) : Env :=
  { (default : Env) with
    md5 := fun content =>
      if content = "<metalink/>".toList then "096cdbe5845f05d11891c97573b541cc".toList
      else "d41d8cd98f00b204e9800998ecf8427e".toList
    verify := fun _ signature => .ok (signature = "good".toList)
    saxParse := fun content => if content = "<metalink/>".toList then .parsed ⟨[]⟩ else .parseException
    download := fun _ url =>
      if url.basename = "live.metalink".toList then .saved "<metalink/>".toList
      else if url.basename = "MD5SUMS".toList then
        .saved "096cdbe5845f05d11891c97573b541cc  live.metalink\n".toList
      else .saved signature }

def releaseDistro : Distro :=
  { (default : Distro) with
    metalinkUrl := "http://mirror/live.metalink".toList
    metalinkMd5sums := "MD5SUMS".toList
    metalinkMd5sumsSignature := "MD5SUMS.gpg".toList }

def releaseState : St World := ⟨{ (default : World) with distro := some releaseDistro }, false, 0⟩

theorem getMetalink_safe_signed :
    SafeGet (releaseEnv "good".toList) (fun _ => false) releaseDistro releaseState :=
  (getMetalink_safe_iff rfl rfl rfl).2 <| .inr
    ⟨"http://mirror/live.metalink".toList, rfl,
      "096cdbe5845f05d11891c97573b541cc  live.metalink\n".toList, "good".toList,
      "<metalink/>".toList, ⟨[]⟩, rfl, rfl,
      ⟨_, _, [("live.metalink".toList, "096cdbe5845f05d11891c97573b541cc".toList)], _,
        rfl, rfl, rfl, rfl, rfl, rfl⟩,
      rfl, fun _ _ => rfl, rfl⟩

/-- The signature does not verify, and the metalink is set all the same. -/
theorem unverified_metalink_set :
    ¬ SafeGet (releaseEnv "bad".toList) (fun _ => false) releaseDistro releaseState := by
  intro h
  obtain ⟨url, hurl, _, signature, _, _, -, hsig, hv, -⟩ := h (by decide)
  cases hurl
  have hbad : some "bad".toList = some signature := hsig
  cases hbad
  exact absurd (Except.ok.inj hv) (by decide)

end Wubi.Backend
