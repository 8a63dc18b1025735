import Mathlib.Data.List.Sort
import Wubi.Backend.Distro
import Wubi.Backend.Metalink

/-!
# Looking for an ISO

Model of `check_iso`, `download_iso`, `get_iso` and the sources that it tries,
in `src/wubi/backends/common/backend.py`. The work of a source is done by
subtasks of the task that runs `get_iso`; a subtask that raises returns None
to its caller.
-/
namespace Wubi.Backend

open Wubi.Tasks Wubi.Tasks.Prog

variable (env : Env)

/-- `self.info.distro`, where an attribute of it is read next. -/
def theDistro : Fn Distro := do
  let w ← .get
  match w.distro with
  | none => .raise .attributeError
  | some d => return d

@[simp] theorem wp_theDistro {user : Nat → Bool} {s : St World} {Q : Distro → St World → Prop}
    {R : PyErr → St World → Prop} :
    wp user theDistro Q R s ↔
      match s.world.distro with
      | none => R .attributeError s
      | some d => Q d s := by
  simp only [theDistro, wp_bind, wp_get]
  cases s.world.distro <;> exact Iff.rfl

/-! ## Checking an ISO -/

/-- mirrors src/wubi/backends/common/backend.py:396-411 -/
def setDistroFromArch (cdOrIsoPath : Str) : Fn Unit := do
  if env.checkArch then return ()
  else
    let d ← theDistro
    let info ← d.getInfo env cdOrIsoPath
    match info with
    | none => .raise .typeError
    | some info =>
      if d.arch = info.arch then return ()
      else .modify fun w => { w with
        distro := env.distros.reverse.find? fun e =>
          decide (e.name.lower = d.name.lower ∧ e.arch = info.arch) }

/-- `self.info.distro.metalink`, after one attempt to get it.
mirrors src/wubi/backends/common/backend.py:282-288,327-332 -/
def ensureMetalink : Fn (Option Metalink) := do
  let d ← theDistro
  let w ← .get
  match w.metalink d with
  | some m => return some m
  | none =>
    let _ ← .sub true ((getMetalink env).asTask fun _ => none)
    let d ← theDistro
    let w ← .get
    return w.metalink d

/-- The hash that `check_iso` compares with: the last of type md5, if it is
not empty.
mirrors src/wubi/backends/common/backend.py:290-293 -/
def MetalinkFile.md5sum (file : MetalinkFile) : Option Str :=
  nonempty ((file.hashes.reverse.find? fun h => decide (h.type = "md5".toList)).map (·.hash))

def cacheHash (isoPath : Str) (hash : Option Str) (w : World) : World :=
  { w with isoMd5Hashes := Function.update w.isoMd5Hashes isoPath (some hash) }

/-- The md5 of the ISO, from the table or computed by a subtask. Files below
the installation directory are not entered into the table.
mirrors src/wubi/backends/common/backend.py:296-303 -/
def isoMd5 (isoPath : Str) : Fn (Option Str) := do
  let w ← .get
  match nonempty (w.isoMd5Hashes isoPath).join with
  | some hash => return some hash
  | none =>
    let v ← .sub true ((getFileMd5 env isoPath true).asTask fun h => h.map .str)
    if env.installDir.isPrefixOf isoPath then return Val.str? v
    else
      .modify (cacheHash isoPath (Val.str? v))
      return Val.str? v

/-- mirrors src/wubi/backends/common/backend.py:275-307 -/
def checkIso (isoPath : Str) : Fn Bool := do
  let d ← theDistro
  let valid ← d.isValidIso env isoPath false
  if valid then
    setDistroFromArch env isoPath
    if env.skipMd5Check then return true
    else
      let metalink ← ensureMetalink env
      match metalink with
      | none => return true
      | some m =>
        match m.files with
        | [] => .raise .indexError
        | file :: _ =>
          match file.md5sum with
          | none => return true
          | some md5sum =>
            let md5sum2 ← isoMd5 env isoPath
            return some md5sum == md5sum2
  else return false

/-- `check_iso` as a subtask: is its result true? -/
def checkIsoTask (isoPath : Str) : Fn Bool := do
  let v ← .sub true ((checkIso env isoPath).asTask fun b => some (.bool b))
  return Val.truthy v

/-! ## Downloading -/

/-- mirrors src/wubi/backends/common/backend.py:316-320 -/
def Env.score (url : MetalinkUrl) : Int :=
  url.preference + if env.country = some url.location then 50 else 0

/-- A stable sort, the highest score first.
mirrors src/wubi/backends/common/backend.py:309-322 -/
def selectMirrors (urls : List MetalinkUrl) : List MetalinkUrl :=
  urls.insertionSort fun x y => env.score y ≤ env.score x

def MetalinkUrl.isBittorrent (url : MetalinkUrl) : Bool := url.type = "bittorrent".toList

/-- `os.unlink` if the file is there. -/
def unlinkIfFile (p : Str) : Fn Unit := do
  let w ← .get
  if (w.read env p).isSome then unlink env p
  else return ()

/-- The download from one mirror; a torrent is not required.
mirrors src/wubi/backends/common/backend.py:343-353 -/
def runDownload (saveAs : Str) (url : MetalinkUrl) : Fn (Option Val) :=
  if url.isBittorrent then
    .sub false ((btdownload env url.url saveAs).asTask fun p => some (.str p))
  else .sub true ((download env url.url saveAs).asTask fun p => some (.str p))

/-- mirrors src/wubi/backends/common/backend.py:338-353 -/
def fetchMirror (saveAs : Str) (url : MetalinkUrl) : Fn (Option Str) := do
  unlinkIfFile env saveAs
  let v ← runDownload env saveAs url
  return nonempty (Val.str? v)

/-- The loop of `download_iso` over the mirrors.
mirrors src/wubi/backends/common/backend.py:337-362 -/
def tryMirrors (saveAs : Str) : List MetalinkUrl → Fn Bool
  | [] => return false
  | url :: urls => do
    if url.isBittorrent ∧ env.noBittorrent then tryMirrors saveAs urls
    else
      let isoPath ← fetchMirror env saveAs url
      match isoPath with
      | none => tryMirrors saveAs urls
      | some isoPath =>
        let ok ← checkIsoTask env isoPath
        if ok then
          .modify fun w => { w with isoPath := some isoPath }
          return true
        else
          unlink env isoPath
          tryMirrors saveAs urls

/-- mirrors src/wubi/backends/common/backend.py:324-362 -/
def downloadIso : Fn Bool := do
  .modify fun w => { w with cdPath := none }
  let metalink ← ensureMetalink env
  match metalink with
  | none => .raise (.exception "Cannot download the metalink and therefore the ISO")
  | some m =>
    match m.files with
    | [] => .raise .indexError
    | file :: _ =>
      tryMirrors env (env.joinPath env.installDir file.name) ((selectMirrors env file.urls).take 5)

/-! ## The other sources -/

/-- A checked ISO becomes `installation.iso`.
mirrors src/wubi/backends/common/backend.py:421-433 -/
def bringIso (isoPath : Str) : Fn (Option Val) :=
  if isoPath.dirname = env.dest ∨ isoPath.dirname = env.backupDir then
    .sub true ((move env isoPath env.dest).asTask fun _ => none)
  else .sub true ((copyFile env isoPath env.dest true).asTask fun _ => none)

/-- mirrors src/wubi/backends/common/backend.py:413-437 -/
def copyIso (isoPath : Str) : Fn Bool := do
  if isoPath = [] then return false
  else
    let ok ← checkIsoTask env isoPath
    if ok then
      let _ ← bringIso env isoPath
      .modify fun w => { w with cdPath := none, isoPath := some env.dest }
      return true
    else return false

/-- mirrors src/wubi/backends/common/backend.py:383-394 -/
def getPrespecifiedIso : Fn Bool := do
  let w ← .get
  match nonempty w.isoPath with
  | none => return false
  | some isoPath =>
    if w.pathExists env isoPath then
      let d ← theDistro
      let v ← .sub true ((d.isValidIso env isoPath env.checkArch).asTask fun b => some (.bool b))
      .when (Val.truthy v) (.modify fun w => { w with cdPath := none })
      copyIso env isoPath
    else return false

/-- The first CD that the distro accepts.
mirrors src/wubi/backends/common/backend.py:707-712 -/
def findCdFrom (d : Distro) : List Str → Fn (Option Str)
  | [] => return none
  | path :: paths => do
    let valid ← d.isValidCd env (env.abspath path) env.checkArch
    if valid then return some (env.abspath path)
    else findCdFrom d paths

def findCd : Fn (Option Str) := do
  match env.cdSearch with
  | [] => return none
  | paths =>
    let d ← theDistro
    findCdFrom env d paths

/-- mirrors src/wubi/backends/common/backend.py:666-673 -/
def findIsoFrom (d : Distro) : List Str → Fn (Option Str)
  | [] => return none
  | iso :: isos => do
    let valid ← d.isValidIso env iso env.checkArch
    if valid then return some iso
    else findIsoFrom d isos

def findIso : Fn (Option Str) := do
  let k ← tick
  match env.isoSearch k with
  | [] => return none
  | isos =>
    let d ← theDistro
    findIsoFrom env d isos

/-- The sub-versions whose CD is used although its check failed.
mirrors src/wubi/backends/common/backend.py:473 -/
def ignoredSubversions : List Str :=
  ["alpha".toList, "beta".toList, "release candidate".toList]

/-- The CD in use, or one that is found now.
mirrors src/wubi/backends/common/backend.py:440-446 -/
def chooseCd : Fn (Option Str) := do
  let w ← .get
  match w.cdDistro, nonempty w.cdPath with
  | some d, some cdPath =>
    if w.distro = some d ∧ env.isDir cdPath then return some cdPath
    else findCd env
  | _, _ => findCd env

/-- mirrors src/wubi/backends/common/backend.py:439-479 -/
def useCd : Fn Bool := do
  let found ← chooseCd env
  match nonempty found with
  | none => return false
  | some cdPath =>
    .modify fun w => { w with isoPath := some env.dest }
    let extracted ← .tryCatch
      (do
        let _ ← .sub true ((copyFile env cdPath env.dest true).asTask fun _ => none)
        return true)
      fun _ => do
        .modify fun w => { w with cdPath := none, isoPath := none }
        return false
    if extracted then
      .modify fun w => { w with cdPath := some cdPath }
      let ok ← checkIsoTask env env.dest
      if ok then return true
      else
        let w ← .get
        match w.cdDistro with
        | none => .raise .attributeError
        | some cdDistro =>
          let info ← cdDistro.getInfo env cdPath
          match info with
          | none => .raise .typeError
          | some info =>
            if info.subversion.lower ∈ ignoredSubversions then return true
            else
              .modify fun w => { w with cdPath := none, isoPath := none }
              return false
    else return false

/-- `os.path.isfile(None)` raises.
mirrors src/wubi/backends/common/backend.py:482-487 -/
def chooseIso : Fn (Option Str) := do
  let w ← .get
  if w.isoDistro.isSome ∧ w.distro = w.isoDistro then
    match w.isoPath with
    | none => .raise .typeError
    | some isoPath =>
      if (w.read env isoPath).isSome then return some isoPath
      else findIso env
  else findIso env

/-- mirrors src/wubi/backends/common/backend.py:481-491 -/
def useIso : Fn Bool := do
  let found ← chooseIso env
  match nonempty found with
  | none => return false
  | some isoPath => copyIso env isoPath

/-- mirrors src/wubi/backends/common/backend.py:493-499 -/
def getIso : Fn Unit := do
  let prespecified ← getPrespecifiedIso env
  if prespecified then .finish
  else
    let cd ← useCd env
    if cd then .finish
    else
      let iso ← useIso env
      if iso then .finish
      else
        let downloaded ← downloadIso env
        if downloaded then .finish
        else .raise (.exception "Could not retrieve the required installation files")

end Wubi.Backend
