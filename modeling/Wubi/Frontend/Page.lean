import Mathlib.Algebra.Ring.Nat
import Wubi.Backend.Disks
import Wubi.Core.LTS
import Wubi.Core.Text

/-!
# The installation page

Model of the drive, size and distro lists of `InstallationPage` in
`src/wubi/frontends/win32/installation_page.py`. A combo box keeps every item
that was added to it, and the user may pick any of them; the page fills its
lists again on every change of distro or drive and never empties them.

A handler returns the page with `.ok`, or with `.error` where it raises or has
ended the application. An exception in a handler leaves the page as it is, and
the user goes on.

Free space is in bytes: the page compares megabytes that are exact quotients
by 2^20.

Results:
* `populateSizeList_good`: where some size fits, filling the list selects one.
* `pages_sound`: in every run whose picks fit, what `on_install` accepts fits.
-/
namespace Wubi.Frontend

open Wubi.Backend (chooseDiskSizes)

structure Drive where
  path : Str
  /-- of the type `removable` or `hd` -/
  usable : Bool
  isFat : Bool
  freeBytes : Nat
  deriving DecidableEq

/-- The attributes of a distro that the page reads. -/
structure PageDistro where
  name : Str
  arch : Str
  minDiskSpaceMb : Nat
  maxIsoSize : Nat
  minMemoryMb : Nat
  deriving DecidableEq

/-- What does not change while the page is shown. -/
structure PageEnv where
  drives : List Drive
  distros : List PageDistro
  arch : Str
  totalMemoryMb : Nat
  /-- the names in the distro list, of which there is one -/
  first : Str
  others : List Str
  /-- `_("(%sGB free)")` -/
  freeText : Nat → Str
  reserved : List Str

/-- `info.target_drive`: from the command line, or an object. -/
inductive Target where
  | named (text : Str)
  | drive (d : Drive)

/-- `info.installation_size_mb`: from the command line, or a number. -/
inductive Size where
  | text (t : Str)
  | mb (n : Nat)

structure Page where
  distroItems : List Str := []
  driveItems : List Str := []
  sizeItems : List Str := []
  distroText : Str := []
  driveText : Str := []
  sizeText : Str := []
  distro : Option PageDistro := none
  targetDrive : Option Target := none
  installationSizeMb : Option Size := none
  skipSizeCheck : Bool := false
  skipMemoryCheck : Bool := false
  ended : Bool := false

/-- The answers to the questions whether to go on with too little memory or
disk space. -/
structure Answers where
  memory : Bool
  space : Bool

abbrev Handler := Page → Except Page Page

variable (env : PageEnv)

/-! ## Lists and what they select -/

def mib : Nat := 2 ^ 20

/-- `min_disk_space_mb + max_iso_size/(1024**2) + 100` -/
def minSpaceMb (d : PageDistro) : Nat := d.minDiskSpaceMb + d.maxIsoSize / mib + 100

/-- `int(drive.free_space_mb/1024) * 1000` -/
def driveSpaceMb (drive : Drive) : Nat := drive.freeBytes / (1024 * mib) * 1000

/-- `CB_SELECTSTRING`: the first item that starts with the text, in any case. -/
def selectString (items : List Str) (text old : Str) : Str :=
  (items.find? fun item => text.lower.isPrefixOf item.lower).getD old

/-- `"%sGB" % i` -/
def sizeItem (i : Nat) : Str := Nat.toDigits 10 i ++ ['G', 'B']

/-- `int(text)` for decimal digits. -/
def parseInt (text : Str) : Option Nat :=
  if text ≠ [] ∧ text.all Char.isDigit then
    some (text.foldl (fun n c => 10 * n + (c.toNat - '0'.toNat)) 0)
  else none

/-- `drives_dict.get(text[:2].lower())`; of drives with one key the last. -/
def PageEnv.driveOf (text : Str) : Option Drive :=
  env.drives.reverse.find? fun d => decide (Str.lower (d.path.take 2) = Str.lower (text.take 2))

/-- mirrors src/wubi/frontends/win32/installation_page.py:245-248 -/
def getDrive (s : Page) : Option Drive := env.driveOf s.driveText

/-- mirrors src/wubi/frontends/win32/installation_page.py:250-254 -/
def getInstallationSizeMb (s : Page) : Option Nat :=
  (parseInt (s.sizeText.take (s.sizeText.length - 2))).map (· * 1000)

/-- mirrors src/wubi/frontends/win32/installation_page.py:293-294 -/
def onSizeChange : Handler := fun s =>
  match getInstallationSizeMb s with
  | some n => .ok { s with installationSizeMb := some (.mb n) }
  | none => .error s

/-- A text cannot be divided.
mirrors src/wubi/frontends/win32/installation_page.py:130-141 -/
def selectDefaultSize (sizeListGb : List Nat) : Handler := fun s =>
  let byDefault : Except Page Page :=
    match sizeListGb[sizeListGb.length / 2]? with
    | some i => onSizeChange { s with sizeText := selectString s.sizeItems (sizeItem i) s.sizeText }
    | none => .error s
  match s.installationSizeMb with
  | some (.mb n) =>
    if n = 0 then byDefault
    else match sizeListGb.find? fun i => decide (n / 1000 ≤ i) with
      | some i => .ok { s with sizeText := selectString s.sizeItems (sizeItem i) s.sizeText }
      | none => byDefault
  | some (.text t) => if t = [] then byDefault else .error s
  | none => byDefault

/-- `i` gigabytes are enough for the distro and fit on the drive. -/
def Fits (d : PageDistro) (drive : Drive) (i : Nat) : Prop :=
  d.minDiskSpaceMb ≤ i * 1000 ∧ (i * 1000 + d.maxIsoSize / mib + 100) * mib ≤ drive.freeBytes

instance {d : PageDistro} {drive : Drive} {i : Nat} : Decidable (Fits d drive i) :=
  inferInstanceAs (Decidable (_ ∧ _))

/-- The sizes from 1 to 30 GB that are offered. -/
def sizeList (skip : Bool) (d : PageDistro) (drive : Drive) : List Nat :=
  ((List.range 31).drop 1).filter fun i =>
    (skip || decide (d.minDiskSpaceMb ≤ i * 1000)) &&
      decide ((i * 1000 + d.maxIsoSize / mib + 100) * mib ≤ drive.freeBytes)

/-- mirrors src/wubi/frontends/win32/installation_page.py:116-128 -/
def populateSizeList : Handler := fun s =>
  match s.distro, getDrive env s with
  | some d, some drive =>
    let sizes := sizeList s.skipSizeCheck d drive
    selectDefaultSize sizes { s with sizeItems := s.sizeItems ++ sizes.map sizeItem }
  | _, _ => .error s

/-- mirrors src/wubi/frontends/win32/installation_page.py:289-291 -/
def onDriveChange : Handler := fun s =>
  populateSizeList env { s with targetDrive := (getDrive env s).map Target.drive }

/-- mirrors src/wubi/frontends/win32/installation_page.py:101-113 -/
def defaultDriveText (target : Option Target) (first : Str) (drivesGb : List Str) : Str :=
  let drive := match target with
    | some (.drive d) => some d
    | some (.named text) => if text = [] then none else env.driveOf text
    | none => none
  match drive with
  | some d => ((drivesGb.reverse.find? fun text => d.path.isPrefixOf text).getD first)
  | none => first

/-- mirrors src/wubi/frontends/win32/installation_page.py:114-115 -/
def selectDefaultDrive (drivesGb : List Str) : Handler := fun s =>
  match drivesGb with
  | [] => .error s
  | first :: _ =>
    onDriveChange env { s with
      driveText := selectString s.driveItems (defaultDriveText env s.targetDrive first drivesGb)
        s.driveText }

/-- mirrors src/wubi/frontends/win32/installation_page.py:60-83 -/
def checkDiskFreeSpace (space : Bool) (d : PageDistro) : Handler := fun s =>
  let usable := env.drives.filter (·.usable)
  let most := (usable.map (·.freeBytes)).foldl max 0
  let most2 := ((usable.filter fun drive => minSpaceMb d < driveSpaceMb drive).map
    (·.freeBytes)).foldl max 0
  if s.skipSizeCheck then .ok s
  else if most < 1024 * mib then .error { s with ended := true }
  else if most2 < minSpaceMb d * mib then
    if space then .ok { s with skipSizeCheck := true } else .error { s with ended := true }
  else .ok s

/-- The drives that are listed.
mirrors src/wubi/frontends/win32/installation_page.py:88-97 -/
def driveList (skip : Bool) (d : PageDistro) : List Str :=
  (env.drives.filter fun drive =>
    drive.usable && (skip || decide (minSpaceMb d < driveSpaceMb drive))).map fun drive =>
      drive.path ++ ' ' :: env.freeText (driveSpaceMb drive / 1000)

/-- mirrors src/wubi/frontends/win32/installation_page.py:85-99 -/
def populateDriveList (space : Bool) (d : PageDistro) : Handler := fun s => do
  let s ← checkDiskFreeSpace env space d s
  let drivesGb := driveList env s.skipSizeCheck d
  selectDefaultDrive env drivesGb { s with driveItems := s.driveItems ++ drivesGb }

/-- `distros_dict.get((name.lower(), arch))`; of entries with one key the last. -/
def PageEnv.entry (name arch : Str) : Option PageDistro :=
  env.distros.reverse.find? fun d => decide (d.name.lower = name.lower ∧ d.arch = arch)

/-- mirrors src/wubi/frontends/win32/installation_page.py:257-262 -/
def PageEnv.distroOf (name : Str) : Option PageDistro :=
  match env.entry name env.arch with
  | some d => some d
  | none => if env.arch = "x86_64".toList then env.entry name "i686".toList else none

/-- mirrors src/wubi/frontends/win32/installation_page.py:268-276 -/
def checkMemory (memory : Bool) (d : PageDistro) : Handler := fun s =>
  if s.skipMemoryCheck then .ok s
  else if env.totalMemoryMb < d.minMemoryMb then
    if memory then .ok { s with skipMemoryCheck := true } else .error { s with ended := true }
  else .ok s

/-- mirrors src/wubi/frontends/win32/installation_page.py:256-277 -/
def onDistroChange (answers : Answers) : Handler := fun s =>
  let s := { s with distro := env.distroOf s.distroText }
  match s.distro with
  | none => .error s
  | some d => do
    let s ← checkMemory env answers.memory d s
    populateDriveList env answers.space d s

/-- mirrors src/wubi/frontends/win32/installation_page.py:143-156 -/
def populateDistroList (answers : Answers) : Handler := fun s =>
  let items := s.distroItems ++ env.first :: env.others
  onDistroChange env answers
    { s with distroItems := items, distroText := selectString items env.first s.distroText }

/-! ## `on_install` -/

def isUsernameChar (c : Char) : Bool := c.isLower || c.isDigit || c == '-' || c == '_'

/-- `re.compile("[a-z][-a-z0-9_]*$").match`: the end may be in front of a
final end of line. -/
def matchUsername : Str → Bool
  | [] => false
  | c :: s => c.isLower && (s.all isUsernameChar ||
      (s.getLast? == some '\n' && s.dropLast.all isUsernameChar))

/-- The first objection to the account.
mirrors src/wubi/frontends/win32/installation_page.py:311-330 -/
def errorMessage (username password1 password2 : Str) : Option String :=
  if username = [] then some "Please enter a valid username"
  else if username ≠ username.lower then some "Please use all lower cases in the username."
  else if ' ' ∈ username then some "Please do not use spaces in the username."
  else if username.head?.any Char.isLower = false then
    some "Your username must start with a lower-case letter."
  else if matchUsername username = false then
    some "Your username must contain only lower-case letters, numbers, hyphens, and underscores."
  else if env.reserved.contains username then
    some "The selected username is reserved, please select a different one."
  else if password1 = [] then some "Please enter a valid password."
  else if ' ' ∈ password1 then some "Please do not use spaces in the password."
  else if password1 ≠ password2 then some "Passwords do not match."
  else none

/-- What `on_install` accepts: the drive and the size that go into `info`.
mirrors src/wubi/frontends/win32/installation_page.py:302-342 -/
def onInstall (username password1 password2 : Str) (s : Page) : Option (Drive × Nat) :=
  match getInstallationSizeMb s, errorMessage env username password1 password2, getDrive env s,
      s.distro with
  | some size, none, some drive, some _ => some (drive, size)
  | _, _, _, _ => none

/-! ## Events -/

inductive PageEvent where
  /-- `on_init` -/
  | show (answers : Answers)
  | pickDistro (text : Str) (answers : Answers)
  | pickDrive (text : Str)
  | pickSize (text : Str)
  | install (username password1 password2 : Str)

/-- The page behind a handler, however it ended. -/
def settle : Except Page Page → Page
  | .ok s => s
  | .error s => s

namespace PageEvent

/-- The user picks an item that the list holds. -/
def Enabled (s : Page) : PageEvent → Prop
  | .pickDistro text _ => text ∈ s.distroItems
  | .pickDrive text => text ∈ s.driveItems
  | .pickSize text => text ∈ s.sizeItems
  | _ => True

instance {s : Page} : (e : PageEvent) → Decidable (e.Enabled s)
  | .pickDistro text _ => inferInstanceAs (Decidable (text ∈ s.distroItems))
  | .pickDrive text => inferInstanceAs (Decidable (text ∈ s.driveItems))
  | .pickSize text => inferInstanceAs (Decidable (text ∈ s.sizeItems))
  | .show _ | .install _ _ _ => inferInstanceAs (Decidable True)

def run : PageEvent → Page → Page
  | .show answers, s => settle (populateDistroList env answers s)
  | .pickDistro text answers, s => settle (onDistroChange env answers { s with distroText := text })
  | .pickDrive text, s => settle (onDriveChange env { s with driveText := text })
  | .pickSize text, s => settle (onSizeChange { s with sizeText := text })
  | .install username password1 password2, s =>
    match onInstall env username password1 password2 s with
    | some (drive, size) =>
      { s with targetDrive := some (.drive drive), installationSizeMb := some (.mb size), ended := true }
    | none => s

end PageEvent

/-- The page from an empty one on, with the size checked. -/
def pages : LTS Page PageEvent where
  init s := s.sizeItems = [] ∧ s.sizeText = [] ∧ s.skipSizeCheck = false
  step s e s' := s.ended = false ∧ e.Enabled s ∧ s' = e.run env s

/-- What is accepted is enough for the distro and fits on the drive. -/
def Sound (s : Page) : Prop :=
  s.skipSizeCheck = false → s.ended = false → ∀ username password1 password2 drive size,
    onInstall env username password1 password2 s = some (drive, size) →
      ∃ d, s.distro = some d ∧ d.minDiskSpaceMb ≤ size ∧
        (chooseDiskSizes drive.isFat size).allocated * mib + d.maxIsoSize ≤ drive.freeBytes

/-! ## When a pick fits -/

/-- Some size from 1 to 30 GB fits. -/
def Offers (d : PageDistro) (drive : Drive) : Prop := ∃ i, 1 ≤ i ∧ i ≤ 30 ∧ Fits d drive i

/-- The drive that the page selects when the distro changes. -/
def landing (s : Page) (d : PageDistro) : Option Drive :=
  match driveList env false d with
  | [] => none
  | first :: rest => env.driveOf (selectString (s.driveItems ++ first :: rest)
      (defaultDriveText env s.targetDrive first (first :: rest)) s.driveText)

/-- The drive that is selected for the distro offers a size. -/
def Lands (s : Page) (name : Str) : Prop :=
  ∀ d drive, env.distroOf name = some d → landing env s d = some drive → Offers d drive

/-- A pick of a size fits the drive and the distro that are selected, and a
pick of a drive or a distro leaves a size to offer. -/
def PageEvent.Fitting (s : Page) : PageEvent → Prop
  | .show _ => Lands env s (selectString (s.distroItems ++ env.first :: env.others) env.first s.distroText)
  | .pickDistro text _ => Lands env s text
  | .pickDrive text => ∀ d drive, s.distro = some d → env.driveOf text = some drive → Offers d drive
  | .pickSize text => ∀ d drive i, s.distro = some d → getDrive env s = some drive →
      text = sizeItem i → Fits d drive i
  | .install _ _ _ => True

/-- The size selected fits. -/
def Good (s : Page) : Prop :=
  ∀ d drive n, s.distro = some d → getDrive env s = some drive → getInstallationSizeMb s = some n →
    ∃ i, 1 ≤ i ∧ n = i * 1000 ∧ Fits d drive i

def SizeItems (s : Page) : Prop := ∀ t ∈ s.sizeItems, ∃ i, 1 ≤ i ∧ i ≤ 30 ∧ t = sizeItem i

/-- While the size is the text of the command line, none is selected. -/
def Pending (s : Page) : Prop := ∀ t, s.installationSizeMb = some (.text t) → t = [] ∨ s.sizeText = []

/-! ## Sizes -/

variable {env}

theorem sizeItem_table : ∀ i ∈ (List.range 31).drop 1,
    parseInt ((sizeItem i).take ((sizeItem i).length - 2)) = some i ∧
      ∀ j ∈ (List.range 31).drop 1, (sizeItem i).lower.isPrefixOf (sizeItem j).lower = true → i = j := by
  decide

theorem mem_range_iff {i : Nat} : i ∈ (List.range 31).drop 1 ↔ 1 ≤ i ∧ i ≤ 30 := by
  have hdrop : (List.range 31).drop 1 = List.range' 1 30 := by decide
  rw [hdrop, List.mem_range'_1]
  omega

theorem mem_range {i : Nat} (h1 : 1 ≤ i) (h30 : i ≤ 30) : i ∈ (List.range 31).drop 1 :=
  mem_range_iff.2 ⟨h1, h30⟩

theorem parse_sizeItem {s : Page} {i : Nat} (h1 : 1 ≤ i) (h30 : i ≤ 30) (h : s.sizeText = sizeItem i) :
    getInstallationSizeMb s = some (i * 1000) := by
  rw [getInstallationSizeMb, h, (sizeItem_table i (mem_range h1 h30)).1]
  rfl

theorem sizeItem_prefix {i j : Nat} (h1 : 1 ≤ i) (h30 : i ≤ 30) (h1' : 1 ≤ j) (h30' : j ≤ 30)
    (h : (sizeItem i).lower.isPrefixOf (sizeItem j).lower = true) : i = j :=
  (sizeItem_table i (mem_range h1 h30)).2 j (mem_range h1' h30') h

theorem sizeList_range {skip : Bool} {d : PageDistro} {drive : Drive} {i : Nat}
    (h : i ∈ sizeList skip d drive) : 1 ≤ i ∧ i ≤ 30 := by
  have hdrop : (List.range 31).drop 1 = List.range' 1 30 := by decide
  rw [sizeList, List.mem_filter, hdrop, List.mem_range'_1] at h
  omega

theorem mem_sizeList {d : PageDistro} {drive : Drive} {i : Nat} :
    i ∈ sizeList false d drive ↔ 1 ≤ i ∧ i ≤ 30 ∧ Fits d drive i := by
  rw [sizeList, List.mem_filter, mem_range_iff]
  simp only [Bool.false_or, Bool.and_eq_true, decide_eq_true_eq, Fits, and_assoc]

/-- A size that the list holds is found by its text. -/
theorem selectString_size {s : Page} {i : Nat} {old : Str} (hitems : SizeItems s)
    (hmem : sizeItem i ∈ s.sizeItems) (h1 : 1 ≤ i) (h30 : i ≤ 30) :
    selectString s.sizeItems (sizeItem i) old = sizeItem i := by
  rw [selectString]
  cases hfind : s.sizeItems.find? fun item => (sizeItem i).lower.isPrefixOf item.lower with
  | none =>
    have hself := List.find?_eq_none.1 hfind _ hmem
    exact absurd (List.isPrefixOf_iff_prefix.2 List.prefix_rfl) hself
  | some item =>
    obtain ⟨j, h1', h30', rfl⟩ := hitems item (List.mem_of_find?_eq_some hfind)
    have hpre : (sizeItem i).lower.isPrefixOf (sizeItem j).lower = true := by
      have := List.find?_some hfind
      simpa using this
    rw [Option.getD_some, sizeItem_prefix h1 h30 h1' h30' hpre]

variable {s : Page} {d : PageDistro} {drive : Drive}

theorem onSizeChange_good {i : Nat} (h1 : 1 ≤ i) (h30 : i ≤ 30) (h : s.sizeText = sizeItem i) :
    onSizeChange s = .ok { s with installationSizeMb := some (.mb (i * 1000)) } := by
  rw [onSizeChange, parse_sizeItem h1 h30 h]

/-- Where the list of sizes is not empty, one of them is selected. -/
theorem selectDefaultSize_eq {sizes : List Nat} (hitems : SizeItems s)
    (hmem : ∀ i ∈ sizes, 1 ≤ i ∧ i ≤ 30 ∧ sizeItem i ∈ s.sizeItems) (hne : sizes ≠ [])
    (hsize : ∀ t, s.installationSizeMb = some (.text t) → t = []) :
    ∃ i ∈ sizes, ∃ n, selectDefaultSize sizes s =
      .ok { s with sizeText := sizeItem i, installationSizeMb := n } := by
  have hselect : ∀ i ∈ sizes, selectString s.sizeItems (sizeItem i) s.sizeText = sizeItem i := by
    intro i hi
    obtain ⟨h1, h30, hin⟩ := hmem i hi
    exact selectString_size hitems hin h1 h30
  have hlt : sizes.length / 2 < sizes.length :=
    Nat.div_lt_self (List.length_pos_of_ne_nil hne) (by decide)
  have hmid : sizes[sizes.length / 2] ∈ sizes := List.getElem_mem hlt
  have hdefault : ∃ i ∈ sizes, ∃ n, (match sizes[sizes.length / 2]? with
      | some i => onSizeChange { s with sizeText := selectString s.sizeItems (sizeItem i) s.sizeText }
      | none => .error s) = .ok { s with sizeText := sizeItem i, installationSizeMb := n } := by
    obtain ⟨h1, h30, -⟩ := hmem _ hmid
    refine ⟨sizes[sizes.length / 2], hmid, some (.mb (sizes[sizes.length / 2] * 1000)), ?_⟩
    simp only [List.getElem?_eq_getElem hlt, hselect _ hmid]
    exact onSizeChange_good h1 h30 rfl
  rw [selectDefaultSize]
  split
  · split
    · exact hdefault
    · split
      · rename_i i hfind
        have hi := List.mem_of_find?_eq_some hfind
        exact ⟨i, hi, s.installationSizeMb, by rw [hselect i hi]⟩
      · exact hdefault
  · rename_i t htext
    rw [if_pos (hsize t htext)]
    exact hdefault
  · exact hdefault

theorem SizeItems.append {sizes : List Nat} (hitems : SizeItems s)
    (h : ∀ i ∈ sizes, 1 ≤ i ∧ i ≤ 30) :
    SizeItems { s with sizeItems := s.sizeItems ++ sizes.map sizeItem } := by
  intro t ht
  rcases List.mem_append.1 ht with ht | ht
  · exact hitems t ht
  · obtain ⟨i, hi, rfl⟩ := List.mem_map.1 ht
    obtain ⟨h1, h30⟩ := h i hi
    exact ⟨i, h1, h30, rfl⟩

/-- Where the drive offers a size, filling the list selects one that fits. -/
theorem populateSizeList_good (hskip : s.skipSizeCheck = false) (hitems : SizeItems s)
    (hpending : Pending s)
    (h : ∀ d drive, s.distro = some d → getDrive env s = some drive → Offers d drive) :
    Good env (settle (populateSizeList env s)) := by
  rw [populateSizeList]
  split
  · rename_i d drive hd hdrive
    by_cases hsize : ∀ t, s.installationSizeMb = some (.text t) → t = []
    case neg =>
      obtain ⟨t, ht⟩ := not_forall.1 hsize
      obtain ⟨htext, hne⟩ := Classical.not_imp.1 ht
      have hnone := (hpending t htext).resolve_left hne
      rw [selectDefaultSize]
      simp only [htext, if_neg hne, settle]
      intro d' drive' n' _ _ hn'
      rw [getInstallationSizeMb, hnone] at hn'
      exact nomatch hn'
    have hne : sizeList s.skipSizeCheck d drive ≠ [] := by
      obtain ⟨i, h1, h30, hfits⟩ := h d drive hd hdrive
      rw [hskip]
      exact List.ne_nil_of_mem (mem_sizeList.2 ⟨h1, h30, hfits⟩)
    have hall : ∀ i ∈ sizeList s.skipSizeCheck d drive, 1 ≤ i ∧ i ≤ 30 ∧
        sizeItem i ∈ s.sizeItems ++ (sizeList s.skipSizeCheck d drive).map sizeItem := by
      intro i hi
      obtain ⟨h1, h30⟩ := sizeList_range hi
      exact ⟨h1, h30, List.mem_append_right _ (List.mem_map_of_mem hi)⟩
    obtain ⟨i, hi, n, heq⟩ := selectDefaultSize_eq
      (hitems.append fun i hi => sizeList_range hi) hall hne hsize
    rw [hskip] at hi
    obtain ⟨h1, h30, hfits⟩ := mem_sizeList.1 hi
    simp only [heq, settle]
    intro d' drive' n' hd' hdrive' hn'
    obtain rfl : d = d' := Option.some.inj (hd.symm.trans hd')
    obtain rfl : drive = drive' := Option.some.inj (hdrive.symm.trans hdrive')
    rw [parse_sizeItem h1 h30 rfl] at hn'
    exact ⟨i, h1, (Option.some.inj hn').symm, hfits⟩
  · rename_i hnone
    intro d drive n hd hdrive hn
    exact absurd hdrive (hnone d drive hd)

/-! ## What every handler keeps -/

/-- The check that is turned off stays off, and the sizes in the list are from
1 to 30 GB. -/
structure Kept (s s' : Page) : Prop where
  skip : s.skipSizeCheck = true → s'.skipSizeCheck = true
  items : SizeItems s → SizeItems s'
  pending : Pending s → Pending s'

theorem Kept.refl (s : Page) : Kept s s := ⟨id, id, id⟩

theorem Kept.trans {s s₁ s' : Page} (h : Kept s s₁) (h' : Kept s₁ s') : Kept s s' :=
  ⟨h'.skip ∘ h.skip, h'.items ∘ h.items, h'.pending ∘ h.pending⟩

/-- The other fields do not matter. -/
theorem Kept.frame {s s₁ s' : Page} (h : Kept s₁ s') (hskip : s₁.skipSizeCheck = s.skipSizeCheck)
    (hsizes : s₁.sizeItems = s.sizeItems) (hsize : s₁.installationSizeMb = s.installationSizeMb)
    (htext : s₁.sizeText = s.sizeText) : Kept s s' where
  skip hs := h.skip (hskip.trans hs)
  items hs := h.items (by rwa [SizeItems, hsizes])
  pending hs := h.pending (by rwa [Pending, hsize, htext])

/-- A size that is selected in place of a text of the command line becomes a
number. -/
theorem onSizeChange_kept {text : Str} (h : ∀ t, s.installationSizeMb = some (.text t) → t = [] ∨
      (parseInt (text.take (text.length - 2))).isSome) :
    Kept s (settle (onSizeChange { s with sizeText := text })) := by
  rw [onSizeChange]
  split
  · exact ⟨id, id, fun _ t ht => nomatch ht⟩
  · rename_i hnone
    refine ⟨id, id, fun _ t ht => .inl ((h t ht).resolve_right fun hsome => ?_)⟩
    rw [getInstallationSizeMb, Option.map_eq_none_iff] at hnone
    rw [hnone] at hsome
    exact nomatch hsome

theorem selectDefaultSize_kept (sizes : List Nat) (s : Page) :
    Kept s (settle (selectDefaultSize sizes s)) := by
  have hdefault (hsize : ∀ t, s.installationSizeMb = some (.text t) → t = []) :
      Kept s (settle (match sizes[sizes.length / 2]? with
        | some i => onSizeChange { s with sizeText := selectString s.sizeItems (sizeItem i) s.sizeText }
        | none => .error s)) := by
    split
    · exact onSizeChange_kept fun t ht => .inl (hsize t ht)
    · exact Kept.refl s
  rw [selectDefaultSize]
  split
  · rename_i n hmb
    have hsize : ∀ t, s.installationSizeMb = some (.text t) → t = [] :=
      fun t ht => nomatch hmb.symm.trans ht
    split
    · exact hdefault hsize
    · split
      · exact ⟨id, id, fun _ t ht => nomatch hmb.symm.trans ht⟩
      · exact hdefault hsize
  · rename_i t htext
    split
    · rename_i hnil
      refine hdefault fun t' ht' => ?_
      cases htext.symm.trans ht'
      exact hnil
    · exact Kept.refl s
  · rename_i hnone
    exact hdefault fun t ht => nomatch hnone.symm.trans ht

theorem populateSizeList_kept (s : Page) : Kept s (settle (populateSizeList env s)) := by
  rw [populateSizeList]
  split
  · rename_i d drive _ _
    have happend : Kept s { s with
        sizeItems := s.sizeItems ++ (sizeList s.skipSizeCheck d drive).map sizeItem } :=
      ⟨id, fun h => h.append fun i hi => sizeList_range hi, id⟩
    exact happend.trans (selectDefaultSize_kept _ _)
  · exact Kept.refl s

theorem selectDefaultDrive_kept (drivesGb : List Str) (s : Page) :
    Kept s (settle (selectDefaultDrive env drivesGb s)) := by
  cases drivesGb with
  | nil => exact Kept.refl s
  | cons first rest => exact (populateSizeList_kept _).frame rfl rfl rfl rfl

theorem checkMemory_cases (env : PageEnv) (memory : Bool) (d : PageDistro) (s : Page) :
    checkMemory env memory d s = .ok s ∨
      checkMemory env memory d s = .ok { s with skipMemoryCheck := true } ∨
      checkMemory env memory d s = .error { s with ended := true } := by
  rw [checkMemory]
  split
  · exact .inl rfl
  · split
    · split
      · exact .inr (.inl rfl)
      · exact .inr (.inr rfl)
    · exact .inl rfl

theorem checkDiskFreeSpace_cases (env : PageEnv) (space : Bool) (d : PageDistro) (s : Page) :
    checkDiskFreeSpace env space d s = .ok s ∨
      checkDiskFreeSpace env space d s = .ok { s with skipSizeCheck := true } ∨
      checkDiskFreeSpace env space d s = .error { s with ended := true } := by
  simp only [checkDiskFreeSpace]
  split
  · exact .inl rfl
  · split
    · exact .inr (.inr rfl)
    · split
      · split
        · exact .inr (.inl rfl)
        · exact .inr (.inr rfl)
      · exact .inl rfl

theorem populateDriveList_kept (space : Bool) (d : PageDistro) (s : Page) :
    Kept s (settle (populateDriveList env space d s)) := by
  rw [populateDriveList]
  rcases checkDiskFreeSpace_cases env space d s with hc | hc | hc <;> rw [hc]
  · exact (selectDefaultDrive_kept _ _).frame rfl rfl rfl rfl
  · have hoff : Kept s { s with skipSizeCheck := true } := ⟨fun _ => rfl, id, id⟩
    exact hoff.trans ((selectDefaultDrive_kept _ _).frame rfl rfl rfl rfl)
  · exact ⟨id, id, id⟩

theorem onDistroChange_kept (answers : Answers) (s : Page) :
    Kept s (settle (onDistroChange env answers s)) := by
  rw [onDistroChange]
  split
  · exact ⟨id, id, id⟩
  · rename_i d _
    rcases checkMemory_cases env answers.memory d { s with distro := env.distroOf s.distroText } with
      hm | hm | hm <;> rw [hm]
    · exact (populateDriveList_kept _ _ _).frame rfl rfl rfl rfl
    · exact (populateDriveList_kept _ _ _).frame rfl rfl rfl rfl
    · exact ⟨id, id, id⟩

theorem PageEvent.run_kept {e : PageEvent} (hen : e.Enabled s) (hitems : SizeItems s) :
    Kept s (e.run env s) := by
  cases e with
  | «show» answers => exact (onDistroChange_kept _ _).frame rfl rfl rfl rfl
  | pickDistro text answers => exact (onDistroChange_kept _ _).frame rfl rfl rfl rfl
  | pickDrive text => exact (populateSizeList_kept _).frame rfl rfl rfl rfl
  | pickSize text =>
    obtain ⟨i, h1, h30, rfl⟩ := hitems text hen
    refine onSizeChange_kept fun t _ => .inr ?_
    rw [(sizeItem_table i (mem_range h1 h30)).1]
    rfl
  | install username password1 password2 =>
    rw [PageEvent.run]
    split
    · exact ⟨id, id, fun _ t ht => nomatch ht⟩
    · exact ⟨id, id, id⟩

/-! ## What a pick leads to -/

/-- A list of drives that is empty is noticed by the check in front of it. -/
theorem driveList_ne_nil {space : Bool} (hskip : s.skipSizeCheck = false)
    (h : checkDiskFreeSpace env space d s = .ok s) : driveList env false d ≠ [] := by
  intro hnil
  have hnone : (env.drives.filter (·.usable)).filter
      (fun drive => decide (minSpaceMb d < driveSpaceMb drive)) = [] := by
    rw [driveList, List.map_eq_nil_iff] at hnil
    rw [List.filter_filter, ← hnil]
    exact List.filter_congr fun drive _ => by rw [Bool.false_or, Bool.and_comm]
  have hmin : 0 < minSpaceMb d := Nat.add_pos_right _ (by decide)
  have hpos : 0 < minSpaceMb d * mib := Nat.mul_pos hmin (by decide)
  simp only [checkDiskFreeSpace, hskip, hnone, List.map_nil, List.foldl_nil, hpos, if_true,
    Bool.false_eq_true, if_false] at h
  split at h
  · exact nomatch h
  · split at h
    · have hon : true = s.skipSizeCheck := congrArg Page.skipSizeCheck (Except.ok.inj h)
      exact absurd (hon.trans hskip) (by decide)
    · exact nomatch h

variable (env) in
/-- What holds from the first page on while every pick fits. -/
def PageInv (s : Page) : Prop := s.skipSizeCheck = true ∨ s.ended = true ∨ Good env s

/-- The list of drives is filled, and the one that is selected offers a size. -/
theorem populateDriveList_inv {space : Bool} (hskip : s.skipSizeCheck = false)
    (hitems : SizeItems s) (hpending : Pending s) (hd : s.distro = some d)
    (h : ∀ drive, landing env s d = some drive → Offers d drive) :
    PageInv env (settle (populateDriveList env space d s)) := by
  rw [populateDriveList]
  rcases checkDiskFreeSpace_cases env space d s with hc | hc | hc
  · cases hlist : driveList env false d with
    | nil => exact absurd hlist (driveList_ne_nil hskip hc)
    | cons first rest =>
      simp only [landing, hlist] at h
      have hlist' : driveList env s.skipSizeCheck d = first :: rest := by rw [hskip, hlist]
      rw [hc]
      simp only [Except.bind, bind, hlist', selectDefaultDrive]
      refine .inr (.inr (populateSizeList_good hskip hitems hpending fun d' drive hd' hdrive => ?_))
      obtain rfl : d = d' := Option.some.inj (hd.symm.trans hd')
      exact h drive hdrive
  · rw [hc]
    exact .inl ((selectDefaultDrive_kept _ _).skip rfl)
  · rw [hc]
    exact .inr (.inl rfl)

theorem onDistroChange_inv {answers : Answers} (hskip : s.skipSizeCheck = false)
    (hitems : SizeItems s) (hpending : Pending s) (h : Lands env s s.distroText) :
    PageInv env (settle (onDistroChange env answers s)) := by
  rw [onDistroChange]
  cases hd : env.distroOf s.distroText with
  | none => exact .inr (.inr fun _ _ _ hd' => nomatch hd')
  | some d =>
    have hland := h d
    rcases checkMemory_cases env answers.memory d { s with distro := some d } with hm | hm | hm
    · simp only [hm]
      exact populateDriveList_inv hskip hitems hpending rfl fun drive => hland drive hd
    · simp only [hm]
      exact populateDriveList_inv hskip hitems hpending rfl fun drive => hland drive hd
    · simp only [hm]
      exact .inr (.inl rfl)

/-- A step whose pick fits leaves a size selected that fits. -/
theorem PageEvent.run_inv {e : PageEvent} (hen : e.Enabled s) (hfit : e.Fitting env s)
    (hitems : SizeItems s) (hpending : Pending s) (h : PageInv env s) :
    PageInv env (e.run env s) := by
  cases hskip : s.skipSizeCheck with
  | true => exact .inl ((run_kept hen hitems).skip hskip)
  | false =>
    cases e with
    | «show» answers => exact onDistroChange_inv hskip hitems hpending hfit
    | pickDistro text answers => exact onDistroChange_inv hskip hitems hpending hfit
    | pickDrive text => exact .inr (.inr (populateSizeList_good hskip hitems hpending hfit))
    | pickSize text =>
      obtain ⟨i, h1, h30, rfl⟩ := hitems text hen
      have hrun : PageEvent.run env (.pickSize (sizeItem i)) s =
          { s with sizeText := sizeItem i, installationSizeMb := some (.mb (i * 1000)) } :=
        congrArg settle (onSizeChange_good h1 h30 rfl)
      rw [hrun]
      refine .inr (.inr fun d drive n hd hdrive hn => ?_)
      rw [parse_sizeItem h1 h30 rfl] at hn
      exact ⟨i, h1, (Option.some.inj hn).symm, hfit d drive i hd hdrive rfl⟩
    | install username password1 password2 =>
      rw [PageEvent.run]
      split
      · exact .inr (.inl rfl)
      · exact h

/-! ## Runs -/

theorem pages_kept : (pages env).Inductive fun s => SizeItems s ∧ Pending s where
  init s h := by
    refine ⟨fun t ht => ?_, fun t _ => .inr h.2.1⟩
    rw [h.1] at ht
    exact nomatch ht
  step s e s' h hstep := by
    obtain ⟨-, hen, rfl⟩ := hstep
    have hkept : Kept s (e.run env s) := PageEvent.run_kept hen h.1
    exact ⟨hkept.items h.1, hkept.pending h.2⟩

theorem pages_inv : ((pages env).restrict (PageEvent.Fitting env)).Inductive
    fun s => (SizeItems s ∧ Pending s) ∧ PageInv env s :=
  pages_kept.restrict.strengthen
    (fun s h => .inr (.inr fun _ _ _ _ _ hn => by
      rw [getInstallationSizeMb, h.2.1] at hn
      exact nomatch hn))
    (fun s e s' hkept h hstep => by
      obtain ⟨⟨-, hen, rfl⟩, hfit⟩ := hstep
      exact PageEvent.run_inv hen hfit hkept.1 hkept.2 h)

theorem onInstall_eq {username password1 password2 : Str} {size : Nat}
    (h : onInstall env username password1 password2 s = some (drive, size)) :
    getInstallationSizeMb s = some size ∧ getDrive env s = some drive ∧ ∃ d, s.distro = some d := by
  rw [onInstall] at h
  split at h
  · rename_i hsize _ hdrive hd
    cases h
    exact ⟨hsize, hdrive, _, hd⟩
  · exact nomatch h

/-- The disks, the ISO and what is kept free are within the drive. -/
theorem Fits.allocated {i : Nat} (h : Fits d drive i) (h1 : 1 ≤ i) :
    (chooseDiskSizes drive.isFat (i * 1000 : Nat)).allocated * mib + d.maxIsoSize ≤
      drive.freeBytes := by
  have hle : (chooseDiskSizes drive.isFat (i * 1000 : Nat)).allocated ≤ i * 1000 := by
    have h256 : (256 : Int) ≤ (i * 1000 : Nat) := by omega
    have := @Backend.allocated_le drive.isFat _ h256
    omega
  have hiso : d.maxIsoSize < (d.maxIsoSize / mib + 1) * mib := by
    have := Nat.lt_div_mul_add (a := d.maxIsoSize) (b := mib) (by decide)
    rw [Nat.add_mul]
    omega
  calc (chooseDiskSizes drive.isFat (i * 1000 : Nat)).allocated * mib + d.maxIsoSize
      ≤ i * 1000 * mib + (d.maxIsoSize / mib + 1) * mib :=
        Nat.add_le_add (Nat.mul_le_mul_right _ hle) (Nat.le_of_lt hiso)
    _ ≤ (i * 1000 + d.maxIsoSize / mib + 100) * mib := by
        rw [← Nat.add_mul]
        exact Nat.mul_le_mul_right _ (by omega)
    _ ≤ drive.freeBytes := h.2

/-- In every run whose picks fit, what is accepted fits. -/
theorem pages_sound (env : PageEnv) (s : Page)
    (h : ((pages env).restrict (PageEvent.Fitting env)).Reachable s) : Sound env s := by
  intro hskip hended username password1 password2 drive size haccept
  obtain ⟨hsize, hdrive, d, hd⟩ := onInstall_eq haccept
  rcases (pages_inv.reachable s h).2 with hs | hs | hs
  · exact absurd (hs.symm.trans hskip) (by decide)
  · exact absurd (hs.symm.trans hended) (by decide)
  · obtain ⟨i, h1, rfl, hfits⟩ := hs d drive size hd hdrive hsize
    exact ⟨d, hd, hfits.1, hfits.allocated h1⟩

/-- A drive C: with 10 GB free and a drive D: with 100 GB. -/
def twoDrives : PageEnv where
  drives := [⟨"C:".toList, true, false, 10240 * mib⟩, ⟨"D:".toList, true, false, 102400 * mib⟩]
  distros := [⟨"Archlive".toList, "i386".toList, 3000, 900000000, 256⟩]
  arch := "i386".toList
  totalMemoryMb := 1024
  first := "Archlive".toList
  others := []
  freeText n := Nat.toDigits 10 n
  reserved := []

/-- The page that the user sees first. -/
theorem pages_sound_first : Sound twoDrives
    ((PageEvent.show ⟨false, false⟩).run twoDrives {}) ∧
    (onInstall twoDrives ['a'] ['b'] ['b'] ((PageEvent.show ⟨false, false⟩).run twoDrives {})).map
      Prod.snd = some 6000 := by
  have hoffers : Lands twoDrives {} (selectString ["Archlive".toList] "Archlive".toList []) := by
    intro d drive hd hdrive
    have hd' : twoDrives.distroOf (selectString ["Archlive".toList] "Archlive".toList []) =
        some ⟨"Archlive".toList, "i386".toList, 3000, 900000000, 256⟩ := by decide
    obtain rfl := Option.some.inj (hd'.symm.trans hd)
    have hdrive' : landing twoDrives {} ⟨"Archlive".toList, "i386".toList, 3000, 900000000, 256⟩ =
        some ⟨"C:".toList, true, false, 10240 * mib⟩ := by decide
    obtain rfl := Option.some.inj (hdrive'.symm.trans hdrive)
    exact ⟨5, by decide, by decide, by decide⟩
  exact ⟨pages_sound twoDrives _ ⟨{}, [.show ⟨false, false⟩], ⟨rfl, rfl, rfl⟩,
    .cons ⟨⟨rfl, trivial, rfl⟩, hoffers⟩ (.nil _)⟩, by decide⟩

/-- The sizes that were offered for D: are still in the list when C: is
selected again. -/
def staleRun : List PageEvent :=
  [.show ⟨false, false⟩, .pickDrive "D: 100".toList, .pickDrive "C: 10".toList, .pickSize "30GB".toList]

theorem stale_size_accepted : ∃ s, (pages twoDrives).Reachable s ∧ ¬ Sound twoDrives s := by
  refine ⟨_, ⟨{}, staleRun, ⟨rfl, rfl, rfl⟩, .cons ⟨rfl, trivial, rfl⟩ (.cons ⟨by decide, by decide, rfl⟩
    (.cons ⟨by decide, by decide, rfl⟩ (.cons ⟨by decide, by decide, rfl⟩ (.nil _))))⟩, ?_⟩
  intro h
  obtain ⟨d, -, -, hfit⟩ := h (by decide) (by decide) ['a'] ['b'] ['b']
    ⟨"C:".toList, true, false, 10240 * mib⟩ 30000 (by decide)
  exact absurd ((Nat.le_add_right _ _).trans hfit) (by decide)

end Wubi.Frontend
