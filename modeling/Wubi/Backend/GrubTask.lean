import Wubi.Backend.Grub
import Wubi.Backend.Model

/-!
# The task that writes the boot menu

`modify_grub_configuration` on the attributes of `info` as they are: some are
not set, and a value may have a type that the code cannot use. The tasks in
front of it are relations on `info`. An attribute that only a task sets is not
there before.

Results:
* `modifyGrub_text`: with sizes that are texts, the task writes what
  `modifyGrubConfiguration` says.
* `modifyGrub_raises`: behind either list of tasks it raises.
-/
namespace Wubi.Backend

open Wubi.Frontend (Drive)

inductive PyVal where
  | none
  | int (i : Int)
  | str (s : Str)
  | drive (d : Drive)
  deriving DecidableEq

/-- The attributes of `info` that the tasks up to this one read or set. -/
inductive Attr where
  | dataDir | runTask | isoPath | targetDrive | installationSizeMb
  | keyboardVariant | keyboardLayout | locale | accessibility | username | password | timezone
  | targetDir | disksDir | installDir | installBootDir | customInstall | kernel | initrd
  | homeSizeMb | usrSizeMb | swapSizeMb | rootSizeMb
  deriving DecidableEq

/-- `none` where the attribute is not set. -/
abbrev Info := Attr → Option PyVal

namespace Info

def get (info : Info) (a : Attr) : Except PyErr PyVal :=
  match info a with
  | some v => .ok v
  | none => .error .attributeError

def set (info : Info) (a : Attr) (v : PyVal) : Info := fun b => if b = a then some v else info b

end Info

namespace PyVal

/-- `bool(v)` -/
def truthy : PyVal → Bool
  | none => false
  | int i => i != 0
  | str s => s != []
  | drive _ => true

/-- `v + s` -/
def add (s : Str) : PyVal → Except PyErr PyVal
  | str t => .ok (str (t ++ s))
  | _ => .error .typeError

/-- `unix_path(v)` calls a method of `str`. -/
def unixPath : PyVal → Except PyErr PyVal
  | str s => .ok (str (Backend.unixPath s))
  | _ => .error .attributeError

def isFat : PyVal → Except PyErr Bool
  | drive d => .ok d.isFat
  | _ => .error .attributeError

/-- `join_path(v, ...)` indexes and joins texts. -/
def checkText : PyVal → Except PyErr Unit
  | str _ => .ok ()
  | _ => .error .typeError

end PyVal

/-! ## `modify_grub_configuration` -/

/-- The local `isopath`, which one case leaves without a value.
mirrors src/wubi/backends/common/backend.py:601-607 -/
def isopath (info : Info) : Except PyErr (Option PyVal) := do
  let runTask ← info.get .runTask
  if runTask = .str "cd_boot".toList then return some (.str [])
  let isoPath ← info.get .isoPath
  if isoPath.truthy then return some (← isoPath.unixPath)
  return none

/-- The items of `dic` in the order in which they are evaluated.
mirrors src/wubi/backends/common/backend.py:612-641 -/
def dicEntries (isopath : Option PyVal) (isFat : Bool) :
    List (GrubKey × (Info → Except PyErr PyVal)) :=
  [(.customInstallationDir, fun info => do (← info.get .customInstall).unixPath),
    (.isoPath, fun _ => match isopath with
      | some v => .ok v
      | none => .error .unboundLocalError),
    (.keyboardVariant, fun info => info.get .keyboardVariant),
    (.keyboardLayout, fun info => info.get .keyboardLayout),
    (.locale, fun info => info.get .locale),
    (.accessibility, fun info => info.get .accessibility),
    (.kernel, fun info => do (← info.get .kernel).unixPath),
    (.initrd, fun info => do (← info.get .initrd).unixPath),
    (.rootflags, fun _ => .ok (.str
      (if isFat then "rootflags=sync".toList else "rootflags=syncio".toList))),
    (.title1, fun _ => .ok (.str "Completing the Archlive installation.".toList)),
    (.title2, fun _ => .ok (.str "For more installation boot options, press `ESC' now...".toList)),
    (.normalModeTitle, fun _ => .ok (.str "Normal mode".toList)),
    (.safeGraphicModeTitle, fun _ => .ok (.str "Safe graphic mode".toList)),
    (.acpiWorkaroundsTitle, fun _ => .ok (.str "ACPI workarounds".toList)),
    (.verboseModeTitle, fun _ => .ok (.str "Verbose mode".toList)),
    (.demoModeTitle, fun _ => .ok (.str "Demo mode".toList)),
    (.username, fun info => info.get .username),
    (.password, fun info => info.get .password),
    (.timezone, fun info => info.get .timezone),
    (.root, fun info => do (← (← info.get .disksDir).unixPath).add "/root.disk".toList),
    (.rootsize, fun info => do (← info.get .rootSizeMb).add "MB".toList),
    (.swap, fun info => do (← (← info.get .disksDir).unixPath).add "/swap.disk".toList),
    (.swapsize, fun info => do (← info.get .swapSizeMb).add "MB".toList)]

def evalEntries (info : Info) :
    List (GrubKey × (Info → Except PyErr PyVal)) → Except PyErr (List (GrubKey × PyVal))
  | [] => .ok []
  | (k, f) :: es => do
    let v ← f info
    let dic ← evalEntries info es
    return (k, v) :: dic

/-- `for k, v in dic.items(): content = content.replace("$(%s)" % k, v)` -/
def replaceItems (dic : List (GrubKey × PyVal)) : List GrubKey → Str → Except PyErr Str
  | [], content => .ok content
  | k :: order, content =>
    match dic.lookup k with
    | some (.str v) => replaceItems dic order (Str.replace k.hole v content)
    | _ => .error .typeError

/-- The content of the file, or what is raised.
mirrors src/wubi/backends/common/backend.py:598-657 -/
def modifyGrub (order : List GrubKey) (info : Info) : Except PyErr Str := do
  (← info.get .dataDir).checkText
  let isopath ← isopath info
  let isFat ← (← info.get .targetDrive).isFat
  let dic ← evalEntries info (dicEntries isopath isFat)
  let content ← replaceItems dic order (['\n'].intercalate (grubInstallCfg.map Line.text))
  let content := if info .runTask = some (.str "cd_boot".toList) then
    Str.replace " autoinstall".toList [] content else content
  (← info.get .installBootDir).checkText
  return content

/-! ## The tasks in front of it -/

inductive InfoTask where
  | selectTargetDir | createDirStructure | uncompressTargetDir | createUninstaller
  | copyInstallationFiles | getIso | useCd | extractKernel | chooseDiskSizes | createPreseed
  | createPreseedCdboot | modifyBootloader

/-- The two lists that hold the task. -/
inductive MenuList where
  | install
  | cdboot

/-- The tasks in front of it.
mirrors src/wubi/backends/common/backend.py:76-88 and 98-108 -/
def MenuList.before : MenuList → List InfoTask
  | .install => [.selectTargetDir, .createDirStructure, .uncompressTargetDir, .createUninstaller,
    .copyInstallationFiles, .getIso, .extractKernel, .chooseDiskSizes, .createPreseed,
    .modifyBootloader]
  | .cdboot => [.selectTargetDir, .createDirStructure, .uncompressTargetDir, .createUninstaller,
    .copyInstallationFiles, .useCd, .extractKernel, .createPreseedCdboot, .modifyBootloader]

def Info.setSizes (sizes : DiskSizes) (info : Info) : Info :=
  (((info.set .homeSizeMb (.int sizes.home)).set .usrSizeMb (.int sizes.usr)).set
    .swapSizeMb (.int sizes.swap)).set .rootSizeMb (.int sizes.root)

/-- What a task that succeeds does to `info`. Which ISO is used, and the names
that the distro gives its files, are left open. -/
def InfoTask.Step (abspath : Str → AbsPath) : InfoTask → Info → Info → Prop
  | .selectTargetDir, i, i' => ∃ d dir, i .targetDrive = some (.drive d) ∧
      i' = i.set .targetDir (.str (Backend.selectTargetDir abspath d.path dir).text)
  | .createDirStructure, i, i' => ∃ t, i .targetDir = some (.str t) ∧
      let installDir := (joinPath abspath t ["install".toList]).text
      i' = ((i.set .disksDir (.str (joinPath abspath t ["disks".toList]).text)).set
        .installDir (.str installDir)).set
        .installBootDir (.str (joinPath abspath installDir ["boot".toList]).text)
  | .copyInstallationFiles, i, i' => ∃ t, i .installDir = some (.str t) ∧
      i' = i.set .customInstall (.str (joinPath abspath t ["custom-installation".toList]).text)
  | .getIso, i, i' => ∃ v, i' = i.set .isoPath v
  | .useCd, i, i' => ∃ v, i' = i.set .isoPath v
  | .extractKernel, i, i' => ∃ t kernel initrd : Str, i .installBootDir = some (.str t) ∧
      i' = (i.set .kernel (.str (joinPath abspath t [kernel.basename]).text)).set
        .initrd (.str (joinPath abspath t [initrd.basename]).text)
  | .chooseDiskSizes, i, i' => ∃ n d, i .installationSizeMb = some (.int n) ∧
      i .targetDrive = some (.drive d) ∧
      i' = i.setSizes (Backend.chooseDiskSizes d.isFat n)
  | .uncompressTargetDir, i, i' | .createUninstaller, i, i' | .createPreseed, i, i'
  | .createPreseedCdboot, i, i' | .modifyBootloader, i, i' => i' = i

def InfoSteps (abspath : Str → AbsPath) : List InfoTask → Info → Info → Prop
  | [], i, i' => i' = i
  | t :: ts, i, i' => ∃ i₁, t.Step abspath i i₁ ∧ InfoSteps abspath ts i₁ i'

/-- Before the tasks: `fetch_basic_info`, the command line and the pages set
none of the attributes that the tasks set, the ISO apart. -/
def Info.Setup (info : Info) : Prop :=
  ∀ a ∈ [Attr.targetDir, .disksDir, .installDir, .installBootDir, .customInstall, .kernel, .initrd,
    .homeSizeMb, .usrSizeMb, .swapSizeMb, .rootSizeMb], info a = none

/-! ## What is evaluated -/

theorem bind_eq_ok {α β : Type} {x : Except PyErr α} {f : α → Except PyErr β} {b : β}
    (h : (x >>= f) = .ok b) : ∃ a, x = .ok a ∧ f a = .ok b := by
  cases x with
  | error e => exact nomatch h
  | ok a => exact ⟨a, rfl, h⟩

variable {info : Info}

theorem evalEntries_ok {es : List (GrubKey × (Info → Except PyErr PyVal))}
    {dic : List (GrubKey × PyVal)} (h : evalEntries info es = .ok dic) :
    ∀ e ∈ es, ∃ v, e.2 info = .ok v := by
  induction es generalizing dic with
  | nil => exact fun e he => nomatch he
  | cons e es ih =>
    obtain ⟨v, hv, hrest⟩ := bind_eq_ok h
    obtain ⟨dic', hdic', -⟩ := bind_eq_ok hrest
    intro e' he'
    rcases List.mem_cons.1 he' with rfl | he'
    · exact ⟨v, hv⟩
    · exact ih hdic' e' he'

theorem evalEntries_eq {es : List (GrubKey × (Info → Except PyErr PyVal))} {v : GrubKey → PyVal}
    (h : ∀ e ∈ es, e.2 info = .ok (v e.1)) :
    evalEntries info es = .ok ((es.map Prod.fst).map fun k => (k, v k)) := by
  induction es with
  | nil => rfl
  | cons e es ih =>
    rw [evalEntries, h e List.mem_cons_self, ih fun e' he' => h e' (List.mem_cons_of_mem e he')]
    rfl

theorem replaceItems_eq {dic : GrubKey → Str} {order : List GrubKey} {content : Str} :
    replaceItems (GrubKey.all.map fun k => (k, .str (dic k))) order content =
      .ok (Str.replaceAll (GrubKey.items dic order) content) := by
  induction order generalizing content with
  | nil => rfl
  | cons k order ih =>
    have hk : k ∈ GrubKey.all := by cases k <;> decide
    rw [replaceItems, List.lookup_graph (fun k => PyVal.str (dic k)) hk]
    exact ih

/-- The attributes are set, with texts for the two sizes. -/
structure Info.Holds (info : Info) (g : GrubInfo) : Prop where
  dataDir : ∃ s, info .dataDir = some (.str s)
  runTask : ∃ v, info .runTask = some v ∧ v ≠ .str "cd_boot".toList
  installBootDir : ∃ s, info .installBootDir = some (.str s)
  targetDrive : ∃ d : Drive, info .targetDrive = some (.drive d) ∧ d.isFat = g.isFat
  customInstall : info .customInstall = some (.str g.customInstall.text)
  isoPath : info .isoPath = some (.str g.isoPath.text)
  kernel : info .kernel = some (.str g.kernel.text)
  initrd : info .initrd = some (.str g.initrd.text)
  disksDir : info .disksDir = some (.str g.disksDir.text)
  keyboardVariant : info .keyboardVariant = some (.str g.keyboardVariant)
  keyboardLayout : info .keyboardLayout = some (.str g.keyboardLayout)
  locale : info .locale = some (.str g.locale)
  accessibility : info .accessibility = some (.str g.accessibility)
  username : info .username = some (.str g.username)
  password : info .password = some (.str g.password)
  timezone : info .timezone = some (.str g.timezone)
  rootSizeMb : info .rootSizeMb = some (.str (Nat.toDigits 10 g.rootSizeMb))
  swapSizeMb : info .swapSizeMb = some (.str (Nat.toDigits 10 g.swapSizeMb))

variable {g : GrubInfo}

theorem Info.Holds.isopath (h : info.Holds g) :
    Backend.isopath info = .ok (some (.str (unixPath g.isoPath.text))) := by
  obtain ⟨v, hv, hne⟩ := h.runTask
  have htruthy : (PyVal.str g.isoPath.text).truthy = true := rfl
  simp only [Backend.isopath, Info.get, hv, h.isoPath]
  simp only [bind, Except.bind, hne, if_false, htruthy, if_true, PyVal.unixPath]
  rfl

theorem Info.Holds.entries (h : info.Holds g) :
    ∀ e ∈ dicEntries (some (.str (unixPath g.isoPath.text))) g.isFat,
      e.2 info = .ok (.str (g.dic false e.1)) := by
  simp only [dicEntries, List.forall_mem_cons, Info.get, h.customInstall, h.keyboardVariant,
    h.keyboardLayout, h.locale, h.accessibility, h.kernel, h.initrd, h.username, h.password,
    h.timezone, h.disksDir, h.rootSizeMb, h.swapSizeMb]
  exact ⟨rfl, rfl, rfl, rfl, rfl, rfl, rfl, rfl, rfl, rfl, rfl, rfl, rfl, rfl, rfl, rfl, rfl, rfl,
    rfl, rfl, rfl, rfl, rfl, fun _ he => nomatch he⟩

/-- With sizes that are texts, the task writes the file. -/
theorem modifyGrub_text (h : info.Holds g) (order : List GrubKey) :
    modifyGrub order info = .ok (modifyGrubConfiguration false order g) := by
  obtain ⟨dataDir, hdata⟩ := h.dataDir
  obtain ⟨boot, hboot⟩ := h.installBootDir
  obtain ⟨d, hdrive, hfat⟩ := h.targetDrive
  obtain ⟨v, hv, hne⟩ := h.runTask
  have hdic := @evalEntries_eq info _ (fun k => .str (g.dic false k)) h.entries
  have hkeys : (dicEntries (some (.str (unixPath g.isoPath.text))) g.isFat).map Prod.fst =
      GrubKey.all := rfl
  rw [hkeys] at hdic
  have hcd : ¬ info .runTask = some (.str "cd_boot".toList) := by
    rw [hv]
    exact fun heq => hne (Option.some.inj heq)
  simp only [modifyGrub, h.isopath, Info.get, hdata, hdrive, hboot, PyVal.checkText, PyVal.isFat,
    hfat, bind, Except.bind, hdic, replaceItems_eq, if_neg hcd]
  rfl

/-! ## Behind the tasks -/

/-- The size of the root disk, where it is set, is a number. -/
def Info.SizeInt (info : Info) : Prop := ∀ v, info .rootSizeMb = some v → ∃ n, v = .int n

theorem InfoTask.step_sizeInt {abspath : Str → AbsPath} {t : InfoTask} {info' : Info}
    (h : t.Step abspath info info') (hinfo : info.SizeInt) : info'.SizeInt := by
  have hkeep : info' .rootSizeMb = info .rootSizeMb → info'.SizeInt := by
    intro heq v hv
    exact hinfo v (heq ▸ hv)
  cases t with
  | selectTargetDir =>
    obtain ⟨d, dir, -, rfl⟩ := h
    exact hkeep rfl
  | createDirStructure =>
    obtain ⟨t, -, rfl⟩ := h
    exact hkeep rfl
  | copyInstallationFiles =>
    obtain ⟨t, -, rfl⟩ := h
    exact hkeep rfl
  | getIso =>
    obtain ⟨v, rfl⟩ := h
    exact hkeep rfl
  | useCd =>
    obtain ⟨v, rfl⟩ := h
    exact hkeep rfl
  | extractKernel =>
    obtain ⟨t, kernel, initrd, -, rfl⟩ := h
    exact hkeep rfl
  | chooseDiskSizes =>
    obtain ⟨n, d, -, -, rfl⟩ := h
    intro v hv
    exact ⟨_, (Option.some.inj hv).symm⟩
  | uncompressTargetDir | createUninstaller | createPreseed | createPreseedCdboot
    | modifyBootloader =>
    obtain rfl := h
    exact hinfo

theorem infoSteps_sizeInt {abspath : Str → AbsPath} {ts : List InfoTask} {info' : Info}
    (h : InfoSteps abspath ts info info') (hinfo : info.SizeInt) : info'.SizeInt := by
  induction ts generalizing info with
  | nil =>
    obtain rfl := h
    exact hinfo
  | cons t ts ih =>
    obtain ⟨i₁, hstep, hrest⟩ := h
    exact ih hrest (InfoTask.step_sizeInt hstep hinfo)

/-- `root_size_mb + 'MB'` needs a text. -/
theorem modifyGrub_error (order : List GrubKey) (h : info.SizeInt) :
    ∃ e, modifyGrub order info = .error e := by
  cases hrun : modifyGrub order info with
  | error e => exact ⟨e, rfl⟩
  | ok content =>
    obtain ⟨_, -, h₁⟩ := bind_eq_ok hrun
    obtain ⟨_, -, h₂⟩ := bind_eq_ok h₁
    obtain ⟨ip, -, h₃⟩ := bind_eq_ok h₂
    obtain ⟨_, -, h₄⟩ := bind_eq_ok h₃
    obtain ⟨fat, -, h₅⟩ := bind_eq_ok h₄
    obtain ⟨dic, hdic, -⟩ := bind_eq_ok h₅
    have hmem : (.rootsize, fun info => do (← info.get .rootSizeMb).add "MB".toList) ∈
        dicEntries ip fat := List.mem_of_getElem? (i := 20) rfl
    obtain ⟨v, hv⟩ := evalEntries_ok hdic _ hmem
    obtain ⟨size, hsize, hadd⟩ := bind_eq_ok hv
    cases hroot : info .rootSizeMb with
    | none =>
      rw [Info.get, hroot] at hsize
      exact nomatch hsize
    | some w =>
      obtain ⟨n, rfl⟩ := h w hroot
      rw [Info.get, hroot] at hsize
      cases hsize
      exact nomatch hadd

/-- Behind the tasks of either list the task raises. -/
theorem modifyGrub_raises (l : MenuList) (abspath : Str → AbsPath) (order : List GrubKey)
    {start info : Info} (hstart : start.Setup) (hrun : InfoSteps abspath l.before start info) :
    ∃ e, modifyGrub order info = .error e := by
  refine modifyGrub_error order (infoSteps_sizeInt hrun fun v hv => ?_)
  rw [hstart .rootSizeMb (by simp)] at hv
  exact nomatch hv

/-- `info` in front of the installation on a drive with 6 GB to use. -/
def startInfo : Info
  | .dataDir => some (.str "C:\\data".toList)
  | .runTask => some (.str "install".toList)
  | .isoPath => some .none
  | .targetDrive => some (.drive ⟨"C:".toList, true, false, 10240 * Frontend.mib⟩)
  | .installationSizeMb => some (.int 6000)
  | .keyboardVariant => some (.str [])
  | .keyboardLayout => some (.str ['u', 's'])
  | .locale => some (.str "en_US.UTF-8".toList)
  | .accessibility => some (.str [])
  | .username => some (.str ['a'])
  | .password => some (.str ['b'])
  | .timezone => some (.str "Europe/Rome".toList)
  | _ => none

theorem startInfo_setup : startInfo.Setup := by
  simp [Info.Setup, startInfo]

/-- The tasks in front of it succeed. -/
theorem startInfo_run : ∃ info, InfoSteps sameAbspath MenuList.install.before startInfo info :=
  ⟨_, _, ⟨_, "archlive".toList, rfl, rfl⟩, _, ⟨_, rfl, rfl⟩, _, rfl, _, rfl, _, ⟨_, rfl, rfl⟩, _,
    ⟨.str "C:\\archlive\\install\\installation.iso".toList, rfl⟩, _,
    ⟨_, "ker".toList, "img".toList, rfl, rfl⟩, _, ⟨6000, _, rfl, rfl, rfl⟩, _, rfl, _, rfl, rfl⟩

theorem modifyGrub_raises_install : ∃ info,
    InfoSteps sameAbspath MenuList.install.before startInfo info ∧
      ∃ e, modifyGrub GrubKey.all info = .error e := by
  obtain ⟨info, hrun⟩ := startInfo_run
  exact ⟨info, hrun, modifyGrub_raises .install sameAbspath GrubKey.all startInfo_setup hrun⟩

theorem install_not_written : ∃ info,
    InfoSteps sameAbspath MenuList.install.before startInfo info ∧
      ¬ ∃ content, modifyGrub GrubKey.all info = .ok content := by
  obtain ⟨info, hrun⟩ := startInfo_run
  have hsize : info.SizeInt := infoSteps_sizeInt hrun fun v hv => nomatch hv
  obtain ⟨e, he⟩ := modifyGrub_error GrubKey.all hsize
  refine ⟨info, hrun, fun ⟨content, hok⟩ => ?_⟩
  exact nomatch he.symm.trans hok

end Wubi.Backend
