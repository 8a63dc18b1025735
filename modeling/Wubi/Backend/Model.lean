import Wubi.Core.Text
import Wubi.Tasks.Prog

/-!
# The backend's state and its surroundings

Model of the state that `src/wubi/backends/common/backend.py` and
`distro.py` share while the installer looks for an ISO, and of what they call
outside the repository: the operating system, 7-Zip, the two downloaders, the
signature check and the XML parser.

**World.** The mutable attributes of `info` and of the `Distro` objects, the
two caches, the files, and a clock. The clock counts the calls of operations
that may fail, so that an operation can do something else each time.

**Env.** The attributes that do not change, and the outcome of every outside
operation as a function of the clock and of what the operation reads. Nothing
is assumed about these outcomes here.

Python's `None` is `none`; an empty string is false, and so is `none`.
-/
namespace Wubi.Backend

open Wubi.Tasks

/-- The exceptions that the code raises itself, and all others. -/
inductive PyErr where
  | exception (message : String)
  | metalinkException (message : String)
  | attributeError | typeError | indexError | valueError | unboundLocalError
  | osError (code : Nat)
  | other (code : Nat)
  deriving DecidableEq, Repr

/-- What a task's function returns, None apart. -/
inductive Val where
  | bool (b : Bool)
  | str (s : Str)
  deriving DecidableEq

/-- `if v:` for a value that is used as a condition. -/
def Val.truthy : Option Val → Bool
  | some (.bool b) => b
  | some (.str s) => s ≠ []
  | none => false

/-- A string result; nothing else is used as one. -/
def Val.str? : Option Val → Option Str
  | some (.str s) => some s
  | _ => none

/-- `s` where `if s:` holds. -/
def nonempty (s : Option Str) : Option Str := s.filter (· ≠ [])

/-- mirrors src/wubi/backends/common/metalink.py:32-95 -/
structure MetalinkUrl where
  url : Str
  type : Str
  location : Str
  preference : Int
  deriving DecidableEq

structure MetalinkHash where
  type : Str
  hash : Str
  deriving DecidableEq

structure MetalinkFile where
  name : Str
  hashes : List MetalinkHash
  urls : List MetalinkUrl
  deriving DecidableEq

structure Metalink where
  files : List MetalinkFile
  deriving DecidableEq

/-- What the info file of a CD or an ISO declares. -/
structure DiskInfo where
  name : Str
  version : Str
  subversion : Str
  arch : Str
  deriving DecidableEq

/-- A `Distro` object, without its metalink. `id` is its section in
isolist.ini, which tells the objects apart.
mirrors src/wubi/backends/common/distro.py:34-70 -/
structure Distro where
  id : Str
  name : Str
  version : Str
  arch : Str
  kernel : Str
  initrd : Str
  infoFile : Str
  md5sums : Str
  filesToCheck : List Str
  size : Nat
  minIsoSize : Nat
  maxIsoSize : Nat
  metalinkUrl : Str
  metalinkUrl2 : Str
  metalinkMd5sums : Str
  metalinkMd5sumsSignature : Str
  deriving DecidableEq, Inhabited

/-- One call of a downloader. A failed one may leave part of the file. -/
inductive Fetch where
  | saved (content : Str)
  | raised (e : PyErr) (left : Option Str)

/-- `xml.sax.parse` with the `MetalinkHandler`. -/
inductive SaxResult where
  | parsed (m : Metalink)
  | parseException
  | ioError
  | raised (e : PyErr)

structure Env where
  distros : List Distro
  checkArch : Bool
  skipMd5Check : Bool
  noBittorrent : Bool
  country : Option Str
  installDir : Str
  installDir_ne : installDir ≠ []
  backupDir : Str
  abspath : Str → Str
  abspath_abspath : ∀ p, abspath (abspath p) = abspath p
  normpath : Str → Str
  isDir : Str → Bool
  /-- a mounted device: its size as `get_drive_space` gives it, and its bytes -/
  mount : Str → Option (Nat × Str)
  md5 : Str → Str
  /-- `verify_gpg_signature` with the trusted keys, on message and signature -/
  verify : Option Str → Str → Except PyErr Bool
  saxParse : Str → SaxResult
  /-- `disk_info_re.match` -/
  matchDiskInfo : Str → Option DiskInfo
  download : Nat → Str → Fetch
  btdownload : Nat → Str → Fetch
  /-- `7z l`: what it prints -/
  list : Nat → Str → Option Str → Except PyErr Str
  /-- `extract_file_from_iso` and the reading of the file it extracts -/
  extract : Nat → Str → Str → Option Str → Except PyErr (Option Str)
  /-- an open, a read, a write or an unlink fails -/
  ioError : Nat → Option PyErr
  /-- `shutil.move` fails and leaves the target so -/
  moveError : Nat → Option (PyErr × Option Str)
  /-- the paths that match `*.iso` in the directories searched -/
  isoSearch : Nat → List Str
  cdSearch : List Str

structure World where
  distro : Option Distro
  isoPath : Option Str
  cdPath : Option Str
  isoDistro : Option Distro
  cdDistro : Option Distro
  metalink : Distro → Option Metalink
  isoMd5Hashes : Str → Option (Option Str)
  /-- `WindowsBackend.cache` -/
  fileNames : Str → Option (Option (List Str))
  /-- `Distro.cache` -/
  diskInfo : Str × Str → Option (Option DiskInfo)
  /-- the files, by their absolute paths -/
  file : Str → Option Str
  clock : Nat

/-- Nothing is found, and no operation fails that does not have to. -/
instance : Inhabited Env where
  default :=
    { distros := [], checkArch := true, skipMd5Check := false, noBittorrent := false
      country := none
      installDir := "C:\\archlive\\install".toList
      installDir_ne := by decide
      backupDir := "C:\\archlive-backup".toList
      abspath := id, abspath_abspath := fun _ => rfl, normpath := id
      isDir := fun p => p == "C:\\archlive\\install".toList
      mount := fun _ => none
      md5 := fun _ => [], verify := fun _ _ => .ok false, saxParse := fun _ => .parseException
      matchDiskInfo := fun _ => none
      download := fun _ _ => .raised (.osError 2) none
      btdownload := fun _ _ => .raised (.osError 2) none
      list := fun _ _ _ => .error (.osError 2)
      extract := fun _ _ _ _ => .ok none
      ioError := fun _ => none, moveError := fun _ => none
      isoSearch := fun _ => [], cdSearch := [] }

instance : Inhabited World where
  default :=
    ⟨none, none, none, none, none, fun _ => none, fun _ => none, fun _ => none, fun _ => none,
      fun _ => none, 0⟩

/-- A function of the backend. -/
abbrev Fn := Prog World Val PyErr

variable (env : Env)

/-! ## Paths and files -/

/-- mirrors src/wubi/backends/common/utils.py:32-36 -/
def Env.joinPath (a b : Str) : Str :=
  env.abspath ((if a.getLast? = some ':' then a ++ ['\\'] else a).join b)

/-- `join_path(self.info.install_dir, "installation.iso")` -/
def Env.dest : Str := env.joinPath env.installDir "installation.iso".toList

namespace World

/-- The content of the file at `p`; none: `os.path.isfile(p)` is False. -/
def read (w : World) (p : Str) : Option Str := w.file (env.abspath p)

def write (w : World) (p : Str) (content : Option Str) : World :=
  { w with file := Function.update w.file (env.abspath p) content }

/-- What a failed operation leaves at `p`; none: it did not touch it. -/
def leave (w : World) (p : Str) : Option Str → World
  | none => w
  | some content => w.write env p (some content)

/-- `os.path.exists(p)` -/
def pathExists (w : World) (p : Str) : Bool := (w.read env p).isSome || env.isDir p

/-- `n` operations later. -/
def advance (n : Nat) (w : World) : World := { w with clock := w.clock + n }

section
variable {env} {w : World} {p q : Str} {c : Option Str}

@[simp] theorem read_write : (w.write env p c).read env p = c := by simp [read, write]

theorem read_write_of_ne (h : env.abspath q ≠ env.abspath p) :
    (w.write env p c).read env q = w.read env q := by
  simp [read, write, h]

@[simp] theorem read_advance {n : Nat} : (w.advance n).read env p = w.read env p := rfl

@[simp] theorem advance_advance {m n : Nat} : (w.advance m).advance n = w.advance (n + m) := by
  simp [advance, Nat.add_assoc, Nat.add_comm n m]

@[simp] theorem map_advance_zero {s : St World} : s.map (advance 0) = s := rfl

@[simp] theorem map_advance {m n : Nat} {s : St World} :
    (s.map (advance m)).map (advance n) = s.map (advance (n + m)) := by
  simp [St.map]

@[simp] theorem clock_advance {n : Nat} : (w.advance n).clock = w.clock + n := rfl

end

end World

end Wubi.Backend
