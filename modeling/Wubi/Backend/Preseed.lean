import Wubi.Core.Substitute
import Wubi.Backend.Disks
import Wubi.Backend.Grub

/-!
# The files that are filled in

Model of `create_preseed` of `src/wubi/backends/common/backend.py`. Its loop and
the one of `modify_grub_configuration` are `Str.Names.fill` with the keys of
either `dic`, and any values.

`dic.items()` comes in no particular order, so the order is an argument. The
encrypted password holds a random salt; `md5Password` gives it.

Results:
* `modifyGrubConfiguration_fill`: the loop in the model of the boot menu.
* `simultaneous_iff_apart`: both loops are the one pass, in every order, if and
  only if no value makes a placeholder that another one then replaces.
-/
namespace Wubi.Backend

/-! ## `dic` of `create_preseed` -/

inductive PreseedKey where
  | timezone | password | userFullName | distroPackages | hostUsername | username | partitioning
  | userDirectory | safeHostUsername | hostOsName
  deriving DecidableEq

namespace PreseedKey

def name : PreseedKey → String
  | timezone => "timezone"
  | password => "password"
  | userFullName => "user_full_name"
  | distroPackages => "distro_packages"
  | hostUsername => "host_username"
  | username => "username"
  | partitioning => "partitioning"
  | userDirectory => "user_directory"
  | safeHostUsername => "safe_host_username"
  | hostOsName => "host_os_name"

def all : List PreseedKey :=
  [timezone, password, userFullName, distroPackages, hostUsername, username, partitioning,
    userDirectory, safeHostUsername, hostOsName]

theorem name_inj {j k : PreseedKey} (h : j.name = k.name) : j = k := by
  cases j <;> cases k <;> first | rfl | simp [name] at h

end PreseedKey

def preseedNames : Str.Names PreseedKey where
  name k := k.name.toList
  inj _ _ h := PreseedKey.name_inj (String.toList_inj.1 h)
  legal k := by cases k <;> decide

def grubNames : Str.Names GrubKey where
  name k := k.name.toList
  inj _ _ h := GrubKey.name_inj (String.toList_inj.1 h)
  legal k := ⟨fun h => (k.name_chars _ h).1 rfl, fun h => (k.name_chars _ h).2.2.1 rfl⟩

/-- What `create_preseed` reads from `info`. -/
structure PreseedInfo where
  dataDir : AbsPath
  customInstall : AbsPath
  disksDir : AbsPath
  distroName : Str
  distroPackages : Str
  sizes : DiskSizes
  timezone : Str
  username : Str
  password : Str
  userFullName : Str
  hostUsername : Str
  userDirectory : Str

/-- `"%s" % n` -/
def intText (n : Int) : Str :=
  if n < 0 then '-' :: Nat.toDigits 10 n.natAbs else Nat.toDigits 10 n.natAbs

/-- One disk of the recipe; none for a size of zero. -/
def recipeLine (disksDir : Str) (disk : String) (minimum : String) (sizeMb : Int) (rest : String) :
    Str :=
  if sizeMb = 0 then []
  else "  ".toList ++ disksDir ++ disk.toList ++ minimum.toList ++ intText sizeMb ++ [' '] ++
    intText sizeMb ++ rest.toList ++ " . \\\n".toList

/-- mirrors src/wubi/backends/common/backend.py:553-571 -/
def PreseedInfo.partitioning (info : PreseedInfo) : Str :=
  let disksDir := unixPath info.disksDir.text ++ ['/']
  let filesystem := " $default_filesystem method\x7b format \x7d format\x7b \x7d " ++
    "use_filesystem\x7b \x7d $default_filesystem\x7b \x7d mountpoint"
  "d-i partman-auto/disk string LIDISK\n".toList ++
    "d-i partman-auto/method string loop\n".toList ++
    "d-i partman-auto-loop/partition string LIPARTITION\n".toList ++
    "d-i partman-auto-loop/recipe string \\\n".toList ++
    recipeLine disksDir "root.disk" " 3000 " info.sizes.root (filesystem ++ "\x7b / \x7d") ++
    recipeLine disksDir "swap.disk" " 100 " info.sizes.swap
      " linux-swap method\x7b swap \x7d format\x7b \x7d" ++
    recipeLine disksDir "home.disk" " 100 " info.sizes.home (filesystem ++ "\x7b /home \x7d") ++
    recipeLine disksDir "usr.disk" " 100 " info.sizes.usr (filesystem ++ "\x7b /usr \x7d") ++ ['\n']

/-- mirrors src/wubi/backends/common/backend.py:572-586 -/
def PreseedInfo.dic (md5Password : Str → Str) (info : PreseedInfo) : PreseedKey → Str
  | .timezone => info.timezone
  | .password => md5Password info.password
  | .userFullName => info.userFullName
  | .distroPackages => info.distroPackages
  | .hostUsername => info.hostUsername
  | .username => info.username
  | .partitioning => info.partitioning
  | .userDirectory => (Str.replace ['\\'] ['/'] info.userDirectory).drop 2
  | .safeHostUsername => Str.replace [' '] ['+'] info.hostUsername
  | .hostOsName => "Windows XP Professional".toList

/-- The path and the content of the file that is written, if there is a
template; `readFile` is `none` where there is no file.
mirrors src/wubi/backends/common/backend.py:548-592 -/
def createPreseed (abspath : Str → AbsPath) (readFile : AbsPath → Option Str)
    (md5Password : Str → Str) (order : List PreseedKey) (info : PreseedInfo) :
    Option (AbsPath × Str) :=
  let templateFile := joinPath abspath info.dataDir.text ["preseed.".toList ++ info.distroName]
  let templateFile :=
    if (readFile templateFile).isNone then
      joinPath abspath info.dataDir.text ["preseed.lupin".toList]
    else templateFile
  (readFile templateFile).map fun template =>
    (joinPath abspath info.customInstall.text ["preseed.cfg".toList],
      preseedNames.fill (info.dic md5Password) order template)

/-! ## The loops -/

theorem modifyGrubConfiguration_fill (cdBoot : Bool) (order : List GrubKey) (info : GrubInfo) :
    modifyGrubConfiguration cdBoot order info =
      let content := grubNames.fill (info.dic cdBoot) order
        (['\n'].intercalate (grubInstallCfg.map Line.text))
      if cdBoot then Str.replace " autoinstall".toList [] content else content := rfl

theorem simultaneous_iff_apart (template : Str) :
    (∀ value : PreseedKey → Str, preseedNames.Simultaneous value PreseedKey.all template ↔
      preseedNames.Apart value PreseedKey.all template) ∧
    ∀ value : GrubKey → Str, grubNames.Simultaneous value GrubKey.all template ↔
      grubNames.Apart value GrubKey.all template := by
  have hpreseed : PreseedKey.all.Nodup := by decide
  have hgrub : GrubKey.all.Nodup := by decide
  exact ⟨fun _ => Str.Names.simultaneous_iff hpreseed, fun _ => Str.Names.simultaneous_iff hgrub⟩

/-- A full name that is a placeholder. -/
def nestedValue : PreseedKey → Str
  | .userFullName => "$(username)".toList
  | .username => "ann".toList
  | _ => []

/-- The username is filled into the full name, or not. -/
theorem userFullName_rewritten : ¬ ∀ (template : Str) (value : PreseedKey → Str)
    (order : List PreseedKey), order.Perm PreseedKey.all →
      preseedNames.fill value order template =
        preseedNames.substitute value PreseedKey.all template := by
  intro h
  have hrun := h "$(user_full_name)".toList nestedValue PreseedKey.all (List.Perm.refl _)
  exact absurd hrun (by decide)

end Wubi.Backend
