import Wubi.Backend.Files

/-!
# What a distro accepts as its ISO or CD

Model of `is_valid_iso`, `is_valid_cd`, `get_info` and `check_info` of
`src/wubi/backends/common/distro.py`, and of `get_iso_file_names` of the
Windows backend. The list of files in an ISO and the info line are cached by
path, and the caches hold None from the start of a lookup until it succeeds.
-/
namespace Wubi.Backend

open Wubi.Tasks Wubi.Tasks.Prog

variable (env : Env)

/-- The names in the output of `7z l`: the last word of each line between the
header and the footer. A line without words has no last word.
mirrors src/wubi/backends/win32/backend.py:473-476 -/
def parseListing (output : Str) : Except PyErr (List Str) :=
  let lines := Str.splitPair '\r' '\n' output
  ((lines.drop 7).take (lines.length - 10)).mapM fun line =>
    match line.words.getLast? with
    | none => .error .indexError
    | some name => .ok (env.normpath name)

def cacheNames (isoPath : Str) (names : Option (List Str)) (w : World) : World :=
  { w with fileNames := Function.update w.fileNames isoPath (some names) }

/-- mirrors src/wubi/backends/win32/backend.py:458-478 -/
def getIsoFileNames (isoPath : Str) : Fn (Option (List Str)) := do
  let isoPath := env.abspath isoPath
  let w ← .get
  match w.fileNames isoPath with
  | some names => return names
  | none =>
    .modify (cacheNames isoPath none)
    let k ← tick
    match env.list k isoPath (w.read env isoPath) with
    | .error _ => return some []
    | .ok [] => return some []
    | .ok output => do
      let names ← .lift (parseListing env output)
      .modify (cacheNames isoPath (some names))
      return some names

/-- mirrors src/wubi/backends/common/distro.py:172-190 -/
def parseIsoinfo (info : Str) : Option DiskInfo :=
  if info = [] then none
  else (env.matchDiskInfo info).map fun i =>
    { i with name := i.name.map fun c => if c = '-' then ' ' else c }

def cacheInfo (key : Str × Str) (info : Option DiskInfo) (w : World) : World :=
  { w with diskInfo := Function.update w.diskInfo key (some info) }

namespace Distro

variable (d : Distro)

/-- mirrors src/wubi/backends/common/distro.py:147-154 -/
def requiredFiles : List Str := d.filesToCheck ++ [d.kernel, d.initrd, d.infoFile, d.md5sums]

/-- mirrors src/wubi/backends/common/distro.py:97-106 -/
def wrongSize (fileSize : Nat) : Bool :=
  if d.size ≠ 0 ∧ d.size ≠ fileSize then true
  else if d.minIsoSize ≠ 0 ∧ fileSize < d.minIsoSize then true
  else d.maxIsoSize ≠ 0 ∧ d.maxIsoSize < fileSize

/-- mirrors src/wubi/backends/common/distro.py:108-113 -/
def hasRequired (files : List Str) : Bool :=
  let files := files.map fun f => f.strip.lower
  d.requiredFiles.all fun f => files.contains f.strip.lower

/-- mirrors src/wubi/backends/common/distro.py:156-170 -/
def checkInfo (info : Option DiskInfo) (checkArch : Bool) : Bool :=
  match info with
  | none => false
  | some info =>
    if d.name ≠ [] ∧ info.name ≠ d.name then false
    else if d.version ≠ [] ∧
        ¬ (info.version = d.version ∨ (d.version ++ ['.']).isPrefixOf info.version) then false
    else !(checkArch && d.arch ≠ [] && info.arch ≠ d.arch)

/-- The text of the info file; none: `get_info` returns None.
mirrors src/wubi/backends/common/distro.py:126-143 -/
def infoText (cdOrIsoPath : Str) : Fn (Option Str) := do
  let w ← .get
  match w.read env cdOrIsoPath with
  | some content =>
    let k ← tick
    .lift (env.extract k cdOrIsoPath d.infoFile (some content))
  | none =>
    if env.isDir cdOrIsoPath then
      let k ← tick
      return if (env.ioError k).isSome then none else w.read env (cdOrIsoPath.join d.infoFile)
    else return none

/-- mirrors src/wubi/backends/common/distro.py:121-145 -/
def getInfo (cdOrIsoPath : Str) : Fn (Option DiskInfo) := do
  let w ← .get
  match w.diskInfo (cdOrIsoPath, d.infoFile) with
  | some info => return info
  | none =>
    .modify (cacheInfo (cdOrIsoPath, d.infoFile) none)
    let text ← d.infoText env cdOrIsoPath
    let info := text.bind (parseIsoinfo env)
    .modify (cacheInfo (cdOrIsoPath, d.infoFile) info)
    return info

/-- mirrors src/wubi/backends/common/distro.py:91-119 -/
def isValidIso (isoPath : Str) (checkArch : Bool) : Fn Bool := do
  let isoPath := env.abspath isoPath
  let w ← .get
  match w.read env isoPath with
  | none => return false
  | some content =>
    if d.wrongSize content.length then return false
    else
      let files ← getIsoFileNames env isoPath
      match files with
      | none => .raise .typeError
      | some files =>
        if d.hasRequired files then
          let info ← d.getInfo env isoPath
          return d.checkInfo info checkArch
        else return false

/-- mirrors src/wubi/backends/common/distro.py:72-89 -/
def isValidCd (cdPath : Str) (checkArch : Bool) : Fn Bool := do
  let cdPath := env.abspath cdPath
  let w ← .get
  if env.isDir cdPath ∧ ∀ f ∈ d.requiredFiles, (w.read env (cdPath.join f)).isSome then
    let info ← d.getInfo env cdPath
    return d.checkInfo info checkArch
  else return false

end Distro

/-! ## What a look at a CD or an ISO changes -/

/-- Between `w` and `w'` only the caches and the clock have changed. -/
def Looks (w w' : World) : Prop :=
  ∃ names infos k, w' = { w with fileNames := names, diskInfo := infos, clock := k }

instance : IsPreorder World Looks where
  refl w := ⟨w.fileNames, w.diskInfo, w.clock, rfl⟩
  trans a b c := by
    rintro ⟨_, _, _, rfl⟩ ⟨names, infos, k, rfl⟩
    exact ⟨names, infos, k, rfl⟩

section
variable {env} {user : Nat → Bool} {d : Distro} {p : Str}

theorem looks_tick : Steps user Looks tick := .act fun _ => ⟨_, _, _, rfl⟩

theorem looks_getIsoFileNames : Steps user Looks (getIsoFileNames env p) := by
  refine Steps.get.bind fun w => ?_
  split
  · exact .pure
  · refine (Steps.modify fun _ => ⟨_, _, _, rfl⟩).bind fun _ => looks_tick.bind fun k => ?_
    split
    · exact .pure
    · exact .pure
    · exact Steps.lift.bind fun _ => (Steps.modify fun _ => ⟨_, _, _, rfl⟩).bind fun _ => .pure

theorem looks_infoText : Steps user Looks (d.infoText env p) := by
  refine Steps.get.bind fun w => ?_
  split
  · exact looks_tick.bind fun _ => .lift
  · exact .ite (fun _ => looks_tick.bind fun _ => .pure) fun _ => .pure

theorem looks_getInfo : Steps user Looks (d.getInfo env p) := by
  refine Steps.get.bind fun w => ?_
  split
  · exact .pure
  · exact (Steps.modify fun _ => ⟨_, _, _, rfl⟩).bind fun _ => looks_infoText.bind fun _ =>
      (Steps.modify fun _ => ⟨_, _, _, rfl⟩).bind fun _ => .pure

theorem looks_isValidIso {checkArch : Bool} : Steps user Looks (d.isValidIso env p checkArch) := by
  refine Steps.get.bind fun w => ?_
  split
  · exact .pure
  · refine .ite (fun _ => .pure) fun _ => looks_getIsoFileNames.bind fun files => ?_
    split
    · exact .raise
    · exact .ite (fun _ => looks_getInfo.bind fun _ => .pure) fun _ => .pure

end

end Wubi.Backend
