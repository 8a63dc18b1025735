import Wubi.Core.Replace
import Wubi.Core.Words
import Wubi.Frontend.Page

/-!
# The kernel command lines of the boot menu

Model of `modify_grub_configuration` of `src/wubi/backends/common/backend.py`
and of `data/grub.install.cfg`, with the functions that the paths come from.
The file is a list of lines, and a line is a list of tokens with one space
between two of them; a token without text stands for one more space.

`dic.items()` comes in no particular order, so the order of the replacements
is an argument. Sizes are decimal texts. What `os.path.abspath` returns is a
path on a drive.

Results:
* `modifyGrubConfiguration_lines`: the text is written line by line.
* `linuxLines_kept_iff`: every linux line has the tokens that it should have,
  in any order of the replacements, if and only if no value in such a line
  holds white space or the placeholder of another value.
-/
namespace Wubi.Backend

/-! ## Paths -/

/-- A path that starts with a drive and the root. -/
structure AbsPath where
  drive : Char
  rest : Str
  deriving DecidableEq

def AbsPath.text (p : AbsPath) : Str := p.drive :: ':' :: '\\' :: p.rest

/-- mirrors src/wubi/backends/common/utils.py:32-36 -/
def joinPath (abspath : Str → AbsPath) (first : Str) (args : List Str) : AbsPath :=
  let first := if first.getLast? = some ':' then first ++ ['\\'] else first
  abspath (args.foldl Str.join first)

/-- mirrors src/wubi/backends/common/utils.py:293-300 -/
def unixPath (path : Str) : Str :=
  let path := path.map fun c => if c = '\\' then '/' else c
  let path := if path[1]? = some ':' then path.drop 2 else path
  if 1 < path.length ∧ path.getLast? = some '/' then path.dropLast else path

/-- The texts that the two calls of `replace` return are dropped.
mirrors src/wubi/backends/win32/backend.py:77-86 -/
def selectTargetDir (abspath : Str → AbsPath) (drivePath installationDir : Str) : AbsPath :=
  joinPath abspath drivePath [installationDir]

/-! ## Values -/

/-- The keys of `dic`. -/
inductive GrubKey where
  | customInstallationDir | isoPath | keyboardVariant | keyboardLayout | locale | accessibility
  | kernel | initrd | rootflags | title1 | title2 | normalModeTitle | safeGraphicModeTitle
  | acpiWorkaroundsTitle | verboseModeTitle | demoModeTitle | username | password | timezone
  | root | rootsize | swap | swapsize
  deriving DecidableEq

namespace GrubKey

def name : GrubKey → String
  | customInstallationDir => "custom_installation_dir"
  | isoPath => "iso_path"
  | keyboardVariant => "keyboard_variant"
  | keyboardLayout => "keyboard_layout"
  | locale => "locale"
  | accessibility => "accessibility"
  | kernel => "kernel"
  | initrd => "initrd"
  | rootflags => "rootflags"
  | title1 => "title1"
  | title2 => "title2"
  | normalModeTitle => "normal_mode_title"
  | safeGraphicModeTitle => "safe_graphic_mode_title"
  | acpiWorkaroundsTitle => "acpi_workarounds_title"
  | verboseModeTitle => "verbose_mode_title"
  | demoModeTitle => "demo_mode_title"
  | username => "username"
  | password => "password"
  | timezone => "timezone"
  | root => "root"
  | rootsize => "rootsize"
  | swap => "swap"
  | swapsize => "swapsize"

def all : List GrubKey :=
  [customInstallationDir, isoPath, keyboardVariant, keyboardLayout, locale, accessibility, kernel,
    initrd, rootflags, title1, title2, normalModeTitle, safeGraphicModeTitle, acpiWorkaroundsTitle,
    verboseModeTitle, demoModeTitle, username, password, timezone, root, rootsize, swap, swapsize]

/-- `"$(%s)" % k` -/
def hole (k : GrubKey) : Str := Str.placeholder k.name.toList

end GrubKey

/-- What `modify_grub_configuration` reads from `info`. -/
structure GrubInfo where
  customInstall : AbsPath
  isoPath : AbsPath
  kernel : AbsPath
  initrd : AbsPath
  disksDir : AbsPath
  isFat : Bool
  keyboardVariant : Str
  keyboardLayout : Str
  locale : Str
  accessibility : Str
  username : Str
  password : Str
  timezone : Str
  rootSizeMb : Nat
  swapSizeMb : Nat

/-- The paths in `info`, as the tasks of the installation set them.
mirrors src/wubi/backends/common/backend.py:211-215, 417, 458 and 520-521, and
src/wubi/backends/win32/backend.py:141 -/
def GrubInfo.setPaths (abspath : Str → AbsPath)
    (drivePath installationDir distroKernel distroInitrd : Str) (info : GrubInfo) : GrubInfo :=
  let targetDir := selectTargetDir abspath drivePath installationDir
  let installDir := joinPath abspath targetDir.text ["install".toList]
  let installBootDir := joinPath abspath installDir.text ["boot".toList]
  { info with
    disksDir := joinPath abspath targetDir.text ["disks".toList]
    customInstall := joinPath abspath installDir.text ["custom-installation".toList]
    isoPath := joinPath abspath installDir.text ["installation.iso".toList]
    kernel := joinPath abspath installBootDir.text [distroKernel.basename]
    initrd := joinPath abspath installBootDir.text [distroInitrd.basename] }

/-- `dic`; `cdBoot` is `run_task == "cd_boot"`.
mirrors src/wubi/backends/common/backend.py:601-641 -/
def GrubInfo.dic (cdBoot : Bool) (info : GrubInfo) : GrubKey → Str
  | .customInstallationDir => unixPath info.customInstall.text
  | .isoPath => if cdBoot then [] else unixPath info.isoPath.text
  | .keyboardVariant => info.keyboardVariant
  | .keyboardLayout => info.keyboardLayout
  | .locale => info.locale
  | .accessibility => info.accessibility
  | .kernel => unixPath info.kernel.text
  | .initrd => unixPath info.initrd.text
  | .rootflags => if info.isFat then "rootflags=sync".toList else "rootflags=syncio".toList
  | .title1 => "Completing the Archlive installation.".toList
  | .title2 => "For more installation boot options, press `ESC' now...".toList
  | .normalModeTitle => "Normal mode".toList
  | .safeGraphicModeTitle => "Safe graphic mode".toList
  | .acpiWorkaroundsTitle => "ACPI workarounds".toList
  | .verboseModeTitle => "Verbose mode".toList
  | .demoModeTitle => "Demo mode".toList
  | .username => info.username
  | .password => info.password
  | .timezone => info.timezone
  | .root => unixPath info.disksDir.text ++ "/root.disk".toList
  | .rootsize => Nat.toDigits 10 info.rootSizeMb ++ ['M', 'B']
  | .swap => unixPath info.disksDir.text ++ "/swap.disk".toList
  | .swapsize => Nat.toDigits 10 info.swapSizeMb ++ ['M', 'B']

/-! ## `data/grub.install.cfg` -/

structure Token where
  text : Str
  key : Option GrubKey := none
  after : Str := []

def Token.raw (t : Token) : Str := t.text ++ (t.key.elim [] GrubKey.hole ++ t.after)

def word (s : String) : Token := { text := s.toList }

def filled (s : String) (k : GrubKey) : Token := { text := s.toList, key := k }

/-- A title in quotes. -/
def quoted (k : GrubKey) : Token := { text := ['"'], key := k, after := ['"'] }

abbrev Line := List Token

def Line.text (l : Line) : Str := [' '].intercalate (l.map Token.raw)

/-- A line without placeholders. -/
def plain (s : String) : Line := (s.toList.splitOn ' ').map fun t => { text := t }

/-- A linux line: the arguments, two dashes, the accessibility option and what
follows it. -/
structure LinuxLine where
  args : Line
  options : Line

def LinuxLine.line (l : LinuxLine) : Line :=
  l.args ++ word "--" :: filled "" .accessibility :: l.options

def indent : Line := [word "", word "", word "", word ""]

def linuxHead : Line :=
  indent ++ [word "linux", filled "" .kernel, filled "real_root=uuid=${img_root_uuid}/" .isoPath]

def linuxInstall : Line :=
  linuxHead ++ [word "autoinstall", filled "newroot=uuid=${img_root_uuid}/" .root,
    filled "rootsize=" .rootsize, filled "swap=uuid=${img_root_uuid}/" .swap,
    filled "swapsize=" .swapsize, filled "user=" .username, filled "pass=" .password,
    word "from=archlive", word "noprompt"]

def linuxLocale : Line :=
  [filled "LOCALE=" .locale, filled "TIMEZONE=" .timezone, filled "KEYB=" .keyboardLayout,
    filled "KEYMAP=" .keyboardVariant]

def normalMode : LinuxLine where
  args := linuxInstall ++ [word "quiet", word "splash"] ++ linuxLocale
  options := [word ""]

def safeGraphicMode : LinuxLine where
  args := linuxInstall ++ [word "videodrv=vesa"] ++ linuxLocale
  options := [word "", word "nomodeset", word "pci=bios"]

def acpiWorkarounds : LinuxLine where
  args := linuxInstall ++ linuxLocale
  options := [word "", word "acpi=off", word "noapic", word "nolapic", word "nomodeset",
    word "pci=bios"]

def verboseMode : LinuxLine where
  args := linuxInstall ++ [word "debug"] ++ linuxLocale
  options := [word "", word ""]

def demoMode : LinuxLine where
  args := linuxHead ++ [word "from=archlive", word "quiet", word "splash"] ++ linuxLocale
  options := [word ""]

def linuxLines : List LinuxLine :=
  [normalMode, safeGraphicMode, acpiWorkarounds, verboseMode, demoMode]

def menuEntry (title : GrubKey) (comment : List Line) (linux : LinuxLine) : List Line :=
  [[word "menuentry", quoted title, word "\x7b"]] ++ comment ++
    [linux.line, indent ++ [word "initrd", filled "" .initrd], [word "\x7d"], []]

/-- mirrors data/grub.install.cfg -/
def grubInstallCfg : List Line :=
  [plain "#This file is modified at runtime by bootmenu.nsh", [],
    plain "set default=0",
    [word "echo", quoted .title1],
    [word "echo", quoted .title2],
    plain "if sleep --verbose --interruptible 5 ; then",
    plain "   set timeout=0",
    plain "fi",
    plain "echo", [],
    plain "#search -s -f -n" ++ [filled "" .kernel],
    plain "search -s -f -n" ++ [filled "" .isoPath], [],
    plain "insmod part_msdos",
    plain "insmod loopback",
    [word "set", filled "img_file=" .isoPath],
    plain "search --file --no-floppy --set=img_root /${img_file}",
    plain "probe ${img_root} -u --set=img_root_uuid", []] ++
  menuEntry .normalModeTitle
    [[], plain "    # If you boot directly from loop, use below two lines, too slow...",
      plain "    #loopback loop0 (${img_root})/${img_file} ",
      plain "    #set root=(loop0)", []] normalMode ++
  menuEntry .safeGraphicModeTitle [] safeGraphicMode ++
  menuEntry .acpiWorkaroundsTitle [] acpiWorkarounds ++
  menuEntry .verboseModeTitle [] verboseMode ++
  menuEntry .demoModeTitle [] demoMode ++ [[]]

/-! ## The text that is written -/

def GrubKey.items (dic : GrubKey → Str) (order : List GrubKey) : List (Str × Str) :=
  order.map fun k => (k.hole, dic k)

/-- mirrors src/wubi/backends/common/backend.py:598-652 -/
def modifyGrubConfiguration (cdBoot : Bool) (order : List GrubKey) (info : GrubInfo) : Str :=
  let template := ['\n'].intercalate (grubInstallCfg.map Line.text)
  let content := Str.replaceAll (GrubKey.items (info.dic cdBoot) order) template
  if cdBoot then Str.replace " autoinstall".toList [] content else content

/-- What a line of the template becomes. -/
def Line.written (dic : GrubKey → Str) (order : List GrubKey) (l : Line) : Str :=
  Str.replaceAll (GrubKey.items dic order) l.text

/-- The token with its placeholder replaced; an accessibility option that is
empty may leave no token. -/
def Token.expected (dic : GrubKey → Str) (t : Token) : List Str :=
  let s := t.text ++ t.key.elim [] dic
  if t.raw = [] ∨ t.key = some .accessibility ∧ s = [] then [] else [s]

/-- Every linux line, split on white space, is the list of the template's
tokens with every placeholder replaced inside its own token. -/
def LinuxLinesKept (order : List GrubKey) (info : GrubInfo) : Prop :=
  ∀ l ∈ linuxLines, (l.line.written (info.dic false) order).words =
    l.line.flatMap (Token.expected (info.dic false))

/-- The key stands in a linux line. -/
def InLinux (k : GrubKey) : Prop := ∃ l ∈ linuxLines, ∃ t ∈ l.line, t.key = some k

/-- No value in a linux line holds white space, or the placeholder of another
key whose value is not that placeholder itself. -/
structure Clean (info : GrubInfo) : Prop where
  solid : ∀ k, InLinux k → Str.Solid (info.dic false k)
  hole : ∀ k j, InLinux k → k ≠ j → j.hole <:+: info.dic false k → info.dic false j = j.hole

/-! ## Placeholders of the template -/

theorem GrubKey.name_chars (k : GrubKey) :
    ∀ c ∈ k.name.toList, c ≠ '$' ∧ c ≠ '(' ∧ c ≠ ')' ∧ c ≠ ' ' ∧ c ≠ '\n' ∧ c ≠ '=' ∧ c ≠ '/' := by
  cases k <;> simp [GrubKey.name]

theorem GrubKey.name_inj {j k : GrubKey} (h : j.name = k.name) : j = k := by
  cases j <;> cases k <;> first | rfl | simp [GrubKey.name] at h

theorem GrubKey.hole_infix {j k : GrubKey} (h : j.hole <:+: k.hole) : j = k := by
  have hj : ')' ∉ j.name.toList := fun hmem => (j.name_chars _ hmem).2.2.1 rfl
  have hk : ')' ∉ k.name.toList := fun hmem => (k.name_chars _ hmem).2.2.1 rfl
  have hd : '$' ∉ k.name.toList := fun hmem => (k.name_chars _ hmem).1 rfl
  exact name_inj (String.toList_inj.1 (Str.placeholder_infix hj hk hd h))

variable {dic : GrubKey → Str} {order : List GrubKey}

/-- No placeholder reaches over a character that no placeholder holds. -/
theorem items_sep {c : Char} (h : c = ' ' ∨ c = '\n' ∨ c = '=' ∨ c = '/') :
    ∀ p ∈ GrubKey.items dic order, p.1 ≠ [] ∧ c ∉ p.1 := by
  intro p hp
  obtain ⟨k, -, rfl⟩ := List.mem_map.1 hp
  refine ⟨Str.placeholder_ne_nil, ?_⟩
  rcases h with rfl | rfl | rfl | rfl
  · exact Str.not_mem_placeholder (fun hmem => (k.name_chars _ hmem).2.2.2.1 rfl) (by decide)
      (by decide) (by decide)
  · exact Str.not_mem_placeholder (fun hmem => (k.name_chars _ hmem).2.2.2.2.1 rfl) (by decide)
      (by decide) (by decide)
  · exact Str.not_mem_placeholder (fun hmem => (k.name_chars _ hmem).2.2.2.2.2.1 rfl) (by decide)
      (by decide) (by decide)
  · exact Str.not_mem_placeholder (fun hmem => (k.name_chars _ hmem).2.2.2.2.2.2 rfl) (by decide)
      (by decide) (by decide)

theorem modifyGrubConfiguration_lines (info : GrubInfo) :
    modifyGrubConfiguration false order info =
      ['\n'].intercalate (grubInstallCfg.map (Line.written (info.dic false) order)) := by
  simp only [modifyGrubConfiguration, Bool.false_eq_true, if_false]
  rw [Str.replaceAll_join (items_sep (.inr (.inl rfl))), List.map_map]
  rfl

/-- What a placeholder becomes. -/
def GrubKey.written (dic : GrubKey → Str) (order : List GrubKey) (k : GrubKey) : Str :=
  Str.replaceAll (GrubKey.items dic order) k.hole

/-- The value, with what the later replacements do to it. -/
theorem GrubKey.written_eq {k : GrubKey} {pre post : List GrubKey} (hpre : k ∉ pre) :
    k.written dic (pre ++ k :: post) = Str.replaceAll (GrubKey.items dic post) (dic k) := by
  have hfixed : Str.replaceAll (GrubKey.items dic pre) k.hole = k.hole := by
    refine Str.replaceAll_fixed fun p hp => ?_
    obtain ⟨j, hj, rfl⟩ := List.mem_map.1 hp
    refine Str.replace_of_not_infix fun hin => hpre ?_
    rw [← GrubKey.hole_infix hin]
    exact hj
  have hself : Str.replace k.hole (dic k) k.hole = dic k := by
    have := @Str.replace_hit k.hole (dic k) [] Str.placeholder_ne_nil
    simpa [Str.replace, Str.replaceFrom] using this
  rw [GrubKey.written, GrubKey.items, List.map_append, Str.replaceAll_append]
  rw [GrubKey.items] at hfixed
  rw [hfixed, List.map_cons, Str.replaceAll_cons, hself]
  rfl

theorem exists_split (h : order.Perm GrubKey.all) (k : GrubKey) :
    ∃ pre post, order = pre ++ k :: post ∧ k ∉ pre ∧ k ∉ post := by
  have hk : k ∈ order := h.mem_iff.2 (by cases k <;> decide)
  have hnodup : order.Nodup := h.nodup_iff.2 (by decide)
  obtain ⟨pre, post, rfl⟩ := List.append_of_mem hk
  rw [List.nodup_append] at hnodup
  obtain ⟨-, hcons, hdisj⟩ := hnodup
  exact ⟨pre, post, rfl, fun hmem => hdisj k hmem k List.mem_cons_self rfl,
    (List.nodup_cons.1 hcons).1⟩

/-! ## Tokens of a linux line -/

/-- The text of the token is a part of a word, and a placeholder follows a
character that no placeholder holds. -/
def Token.Fine (t : Token) : Prop :=
  Str.Solid t.text ∧ '(' ∉ t.text ∧ t.after = [] ∧
    (t.key ≠ none → t.text = [] ∨ t.text.getLast? = some '=' ∨ t.text.getLast? = some '/')

/-- The token leaves at least one word, or is none. -/
def Token.Heads (t : Token) : Prop :=
  t.text = [] ∧ t.key = none ∨ t.text ≠ [] ∨ t.key = some .kernel

theorem linuxHead_fine : ∀ t ∈ linuxHead, t.Fine ∧ t.Heads := by
  simp [linuxHead, indent, word, filled, Token.Fine, Token.Heads, Str.Solid, Str.isSpace]

theorem linuxInstall_fine : ∀ t ∈ linuxInstall, t.Fine ∧ t.Heads := by
  rw [linuxInstall, List.forall_mem_append]
  refine ⟨linuxHead_fine, ?_⟩
  simp [word, filled, Token.Fine, Token.Heads, Str.Solid, Str.isSpace]

theorem linuxLocale_fine : ∀ t ∈ linuxLocale, t.Fine ∧ t.Heads := by
  simp [linuxLocale, filled, Token.Fine, Token.Heads, Str.Solid, Str.isSpace]

theorem linuxLines_fine : ∀ l ∈ linuxLines,
    (∀ t ∈ l.args, t.Fine ∧ t.Heads) ∧ ∀ t ∈ l.options, t.Fine ∧ t.key = none := by
  have hmore : ∀ t ∈ [word "quiet", word "splash", word "videodrv=vesa", word "debug",
      word "from=archlive"], t.Fine ∧ t.Heads := by
    simp [word, Token.Fine, Token.Heads, Str.Solid, Str.isSpace]
  have hoptions : ∀ t ∈ [word "", word "nomodeset", word "pci=bios", word "acpi=off", word "noapic",
      word "nolapic"], t.Fine ∧ t.key = none := by
    simp [word, Token.Fine, Str.Solid, Str.isSpace]
  have hhead := linuxHead_fine
  have hinstall := linuxInstall_fine
  have hlocale := linuxLocale_fine
  simp only [linuxLines, List.forall_mem_cons, List.not_mem_nil, false_implies, implies_true,
    and_true, normalMode, safeGraphicMode, acpiWorkarounds, verboseMode, demoMode,
    List.forall_mem_append] at hmore hoptions ⊢
  simp only [hmore, hoptions, and_self, and_true]
  exact ⟨⟨hinstall, hlocale⟩, ⟨hinstall, hlocale⟩, ⟨hinstall, hlocale⟩, ⟨hinstall, hlocale⟩,
    hhead, hlocale⟩

theorem dashes_fine : (word "--").Fine := by
  simp [word, Token.Fine, Str.Solid, Str.isSpace]

theorem accessibility_fine : (filled "" .accessibility).Fine := by
  simp [filled, Token.Fine, Str.Solid]

theorem linux_fine {l : LinuxLine} (hl : l ∈ linuxLines) : ∀ t ∈ l.line, t.Fine := by
  obtain ⟨hargs, hoptions⟩ := linuxLines_fine l hl
  intro t ht
  rcases List.mem_append.1 ht with ht | ht
  · exact (hargs t ht).1
  · rcases List.mem_cons.1 ht with rfl | ht
    · exact dashes_fine
    · rcases List.mem_cons.1 ht with rfl | ht
      · exact accessibility_fine
      · exact (hoptions t ht).1

/-- A text without an opening parenthesis holds no placeholder. -/
theorem replaceAll_text {s : Str} (h : '(' ∉ s) :
    Str.replaceAll (GrubKey.items dic order) s = s := by
  refine Str.replaceAll_fixed fun p hp => ?_
  obtain ⟨k, -, rfl⟩ := List.mem_map.1 hp
  refine Str.replace_of_not_infix fun hin => h (hin.subset ?_)
  exact List.mem_cons_of_mem _ List.mem_cons_self

/-- The words that a token becomes. -/
def Token.becomes (dic : GrubKey → Str) (order : List GrubKey) (t : Token) : List Str :=
  (t.text ++ t.key.elim [] (GrubKey.written dic order)).words

theorem Token.words_replaced {t : Token} (h : t.Fine) :
    (Str.replaceAll (GrubKey.items dic order) t.raw).words = t.becomes dic order := by
  obtain ⟨-, hparen, hafter, hsep⟩ := h
  rw [becomes, raw, hafter, List.append_nil]
  cases hk : t.key with
  | none => rw [Option.elim_none, Option.elim_none, List.append_nil, replaceAll_text hparen]
  | some k =>
    rw [Option.elim_some, Option.elim_some]
    have hcut : ∀ c, (c = ' ' ∨ c = '\n' ∨ c = '=' ∨ c = '/') → t.text.getLast? = some c →
        Str.replaceAll (GrubKey.items dic order) (t.text ++ k.hole) =
          t.text ++ k.written dic order := by
      intro c hc hlast
      obtain ⟨a, ha⟩ := List.getLast?_eq_some_iff.1 hlast
      rw [ha, List.append_assoc, List.singleton_append, Str.replaceAll_sep (items_sep hc),
        replaceAll_text fun hmem => hparen (ha ▸ List.mem_append_left _ hmem)]
      simp [GrubKey.written]
    rcases hsep (by simp [hk]) with hnil | hlast | hlast
    · rw [hnil]
      rfl
    · rw [hcut '=' (.inr (.inr (.inl rfl))) hlast]
    · rw [hcut '/' (.inr (.inr (.inr rfl))) hlast]

theorem words_written {l : LinuxLine} (hl : l ∈ linuxLines) :
    (l.line.written dic order).words = l.line.flatMap (Token.becomes dic order) := by
  rw [Line.written, Line.text, Str.replaceAll_join (items_sep (.inl rfl)), Str.words_join,
    List.map_map, List.flatMap_map]
  exact List.flatMap_congr fun t ht => Token.words_replaced (linux_fine hl t ht)

/-! ## Values without placeholders of others -/

variable {info : GrubInfo}

/-- A path is written from the root on. -/
theorem unixPath_rooted (p : AbsPath) : ∃ rest, unixPath p.text = '/' :: rest := by
  obtain ⟨d, rest⟩ := p
  have hdrop : unixPath (AbsPath.text ⟨d, rest⟩) =
      let path := '/' :: rest.map fun c => if c = '\\' then '/' else c
      if 1 < path.length ∧ path.getLast? = some '/' then path.dropLast else path := rfl
  rw [hdrop]
  cases rest with
  | nil => exact ⟨[], rfl⟩
  | cons c rest =>
    simp only
    split
    · exact ⟨_, rfl⟩
    · exact ⟨_, rfl⟩

theorem dic_kernel (info : GrubInfo) : ∃ rest, info.dic false .kernel = '/' :: rest :=
  unixPath_rooted info.kernel

/-- The first character of a text stays where it is no dollar sign. -/
theorem replaceAll_head {c : Char} {s : Str} (hc : c ≠ '$') :
    ∃ rest, Str.replaceAll (GrubKey.items dic order) (c :: s) = c :: rest := by
  induction order generalizing s with
  | nil => exact ⟨s, rfl⟩
  | cons k order ih =>
    have hmiss : ¬ k.hole <+: c :: s := by
      intro hp
      obtain ⟨heq, -⟩ := List.cons_prefix_cons.1 hp
      exact hc heq.symm
    have hstep : Str.replaceAll (GrubKey.items dic (k :: order)) (c :: s) =
        Str.replaceAll (GrubKey.items dic order) (c :: Str.replace k.hole (dic k) s) := by
      rw [← Str.replace_miss hmiss]
      rfl
    rw [hstep]
    exact ih

theorem Clean.written (hclean : Clean info) (horder : order.Perm GrubKey.all) {k : GrubKey}
    (hk : InLinux k) : k.written (info.dic false) order = info.dic false k := by
  obtain ⟨pre, post, rfl, hpre, hpost⟩ := exists_split horder k
  rw [GrubKey.written_eq hpre]
  refine Str.replaceAll_fixed fun p hp => ?_
  obtain ⟨j, hj, rfl⟩ := List.mem_map.1 hp
  by_cases hin : j.hole <:+: info.dic false k
  · have hself := hclean.hole k j hk (fun heq => hpost (heq ▸ hj)) hin
    simp only [hself]
    exact Str.replace_self Str.placeholder_ne_nil
  · exact Str.replace_of_not_infix hin

theorem Token.expected_none {t : Token} (hfine : t.Fine) (hk : t.key = none) :
    t.expected dic = t.text.words := by
  obtain ⟨hsolid, -, hafter, -⟩ := hfine
  by_cases hnil : t.text = []
  · simp [expected, raw, hk, hafter, hnil]
  · simp [expected, raw, hk, hafter, hnil, Str.words_solid hnil hsolid]

theorem Token.expected_some {t : Token} {k : GrubKey} (hk : t.key = some k)
    (hne : t.text ++ dic k ≠ []) : t.expected dic = [t.text ++ dic k] := by
  have hraw : t.raw ≠ [] := by simp [raw, hk, GrubKey.hole, Str.placeholder]
  simp only [expected, hk, Option.elim_some, hraw, false_or, hne, and_false, if_false]

theorem Token.expected_dropped {t : Token} (hk : t.key = some .accessibility)
    (hnil : t.text ++ dic .accessibility = []) : t.expected dic = [] := by
  simp only [expected, hk, Option.elim_some, hnil, and_self, or_true, if_true]

theorem Token.becomes_none {t : Token} (hk : t.key = none) :
    t.becomes dic order = t.text.words := by
  rw [becomes, hk, Option.elim_none, List.append_nil]

theorem Token.becomes_some {t : Token} {k : GrubKey} (hk : t.key = some k) :
    t.becomes dic order = (t.text ++ k.written dic order).words := by
  rw [becomes, hk, Option.elim_some]

theorem Token.Heads.append_ne_nil {t : Token} (h : t.Heads) {k : GrubKey} (hk : t.key = some k) :
    t.text ++ info.dic false k ≠ [] := by
  rcases h with ⟨-, hnone⟩ | htext | hkernel
  · exact absurd (hnone.symm.trans hk) nofun
  · simp [htext]
  · obtain rfl := Option.some.inj (hk.symm.trans hkernel)
    obtain ⟨rest, hrest⟩ := dic_kernel info
    simp [hrest]

/-- Where the placeholder becomes the value, the token becomes what it
should. -/
theorem Token.becomes_eq {t : Token} (hfine : t.Fine)
    (hhead : t.Heads ∨ t.key = some .accessibility)
    (hwritten : ∀ k, t.key = some k → k.written (info.dic false) order = info.dic false k ∧
      Str.Solid (info.dic false k)) :
    t.becomes (info.dic false) order = t.expected (info.dic false) := by
  cases hk : t.key with
  | none => rw [becomes_none hk, expected_none hfine hk]
  | some k =>
    obtain ⟨heq, hvalue⟩ := hwritten k hk
    rw [becomes_some hk, heq]
    by_cases hnil : t.text ++ info.dic false k = []
    · rcases hhead with h | h
      · exact absurd hnil (h.append_ne_nil hk)
      · obtain rfl := Option.some.inj (hk.symm.trans h)
        rw [expected_dropped hk hnil, hnil, Str.words_nil]
    · rw [expected_some hk hnil, Str.words_solid hnil (hfine.1.append hvalue)]

theorem linux_heads {l : LinuxLine} (hl : l ∈ linuxLines) {t : Token} (ht : t ∈ l.line) {k : GrubKey}
    (hk : t.key = some k) : t.Heads ∨ t.key = some .accessibility := by
  obtain ⟨hargs, hoptions⟩ := linuxLines_fine l hl
  rcases List.mem_append.1 ht with ht | ht
  · exact .inl (hargs t ht).2
  · rcases List.mem_cons.1 ht with rfl | ht
    · exact nomatch hk
    · rcases List.mem_cons.1 ht with rfl | ht
      · exact .inr rfl
      · exact absurd ((hoptions t ht).2.symm.trans hk) nofun

theorem Clean.kept (hclean : Clean info) (horder : order.Perm GrubKey.all) :
    LinuxLinesKept order info := by
  intro l hl
  rw [words_written hl]
  refine List.flatMap_congr fun t ht => ?_
  cases hk : t.key with
  | none => rw [Token.becomes_none hk, Token.expected_none (linux_fine hl t ht) hk]
  | some k =>
    refine Token.becomes_eq (linux_fine hl t ht) (linux_heads hl ht hk) fun j hj => ?_
    have hin : InLinux j := ⟨l, hl, t, ht, hj⟩
    exact ⟨hclean.written horder hin, hclean.solid j hin⟩

/-! ## What a line that is kept says -/

/-- Every argument leaves a word. -/
theorem Token.Heads.expected_le {t : Token} (hfine : t.Fine) (h : t.Heads)
    (horder : order.Perm GrubKey.all) :
    (t.expected (info.dic false)).length ≤ (t.becomes (info.dic false) order).length := by
  cases hk : t.key with
  | none => rw [expected_none hfine hk, becomes_none hk]
  | some k =>
    rw [expected_some hk (h.append_ne_nil hk), becomes_some hk]
    have hhead : ∃ c rest, t.text ++ k.written (info.dic false) order = c :: rest ∧
        Str.isSpace c = false := by
      rcases h with ⟨-, hnone⟩ | htext | hkernel
      · exact absurd (hnone.symm.trans hk) nofun
      · cases hcons : t.text with
        | nil => exact absurd hcons htext
        | cons c rest => exact ⟨c, _, rfl, hfine.1 c (by rw [hcons]; exact List.mem_cons_self)⟩
      · obtain rfl := Option.some.inj (hk.symm.trans hkernel)
        by_cases hnil : t.text = []
        · obtain ⟨pre, post, rfl, hpre, -⟩ := exists_split horder .kernel
          obtain ⟨rest, hrest⟩ := dic_kernel info
          obtain ⟨rest', hrest'⟩ := @replaceAll_head (info.dic false) post '/' rest (by decide)
          refine ⟨'/', rest', ?_, by decide⟩
          rw [GrubKey.written_eq hpre, hnil, hrest, hrest', List.nil_append]
        · cases hcons : t.text with
          | nil => exact absurd hcons hnil
          | cons c rest => exact ⟨c, _, rfl, hfine.1 c (by rw [hcons]; exact List.mem_cons_self)⟩
    obtain ⟨c, rest, heq, hc⟩ := hhead
    obtain ⟨w, ws, hwords⟩ := @Str.words_head [] rest c (fun _ h => nomatch h) hc
    rw [heq]
    rw [List.nil_append] at hwords
    simp [hwords]

/-- An accessibility option that is lost would have to be the two dashes in
front of it, and these stay. -/
theorem accessibility_le {l : LinuxLine} (horder : order.Perm GrubKey.all)
    (hline : l.line.flatMap (Token.becomes (info.dic false) order) =
      l.line.flatMap (Token.expected (info.dic false)))
    (hbecomes : (word "--").becomes (info.dic false) order = ["--".toList])
    (hexpected : (word "--").expected (info.dic false) = ["--".toList])
    (hoptions : ∀ t ∈ l.options,
      t.becomes (info.dic false) order = t.expected (info.dic false)) :
    ((filled "" .accessibility).expected (info.dic false)).length ≤
      ((filled "" .accessibility).becomes (info.dic false) order).length := by
  by_cases hv : info.dic false .accessibility = []
  · rw [Token.expected_dropped rfl hv]
    exact Nat.zero_le _
  · have hexp : (filled "" .accessibility).expected (info.dic false) =
        [info.dic false .accessibility] := by
      rw [@Token.expected_some _ _ .accessibility rfl (by simpa [filled] using hv)]
      simp [filled]
    rw [hexp]
    by_contra hlt
    have hnil : (filled "" .accessibility).becomes (info.dic false) order = [] := by
      rw [← List.length_eq_zero_iff]
      simpa using hlt
    have hrest := List.flatMap_congr hoptions
    simp only [LinuxLine.line, List.flatMap_append, List.flatMap_cons, hbecomes, hexpected, hnil,
      hexp, hrest, List.nil_append] at hline
    rw [← List.append_assoc, ← List.append_assoc, ← List.append_assoc] at hline
    have hlast := List.append_inj_right' (List.append_cancel_right hline) rfl
    have hvalue : info.dic false .accessibility = "--".toList := (List.singleton_inj.1 hlast).symm
    obtain ⟨pre, post, rfl, hpre, -⟩ := exists_split horder .accessibility
    have hwords : (filled "" .accessibility).becomes (info.dic false)
        (pre ++ .accessibility :: post) = ["--".toList] := by
      rw [Token.becomes_some rfl, GrubKey.written_eq hpre, hvalue, replaceAll_text (by simp)]
      exact Str.words_solid (by simp [filled]) dashes_fine.1
    exact absurd (hwords.symm.trans hnil) nofun

/-- A line that has the tokens it should has each of them from its own
token. -/
theorem LinuxLinesKept.token (h : LinuxLinesKept order info) (horder : order.Perm GrubKey.all)
    {l : LinuxLine} (hl : l ∈ linuxLines) {t : Token} (ht : t ∈ l.line) :
    t.becomes (info.dic false) order = t.expected (info.dic false) := by
  obtain ⟨hargs, hoptions⟩ := linuxLines_fine l hl
  have hline := h l hl
  rw [words_written hl] at hline
  have hplain : ∀ t ∈ l.options, t.becomes (info.dic false) order = t.expected (info.dic false) :=
    fun t ht => by
      rw [Token.becomes_none (hoptions t ht).2, Token.expected_none (hoptions t ht).1 (hoptions t ht).2]
  have hdashes : (word "--").becomes (info.dic false) order = ["--".toList] ∧
      (word "--").expected (info.dic false) = ["--".toList] := by
    rw [Token.becomes_none rfl, Token.expected_none dashes_fine rfl]
    have hwords : (word "--").text.words = ["--".toList] :=
      Str.words_solid (by simp [word]) dashes_fine.1
    exact ⟨hwords, hwords⟩
  have hacc := accessibility_le horder hline hdashes.1 hdashes.2 hplain
  refine Str.flatMap_inj (fun t ht => ?_) hline t ht
  rcases List.mem_append.1 ht with ht | ht
  · exact (hargs t ht).2.expected_le (hargs t ht).1 horder
  · rcases List.mem_cons.1 ht with rfl | ht
    · rw [hdashes.1, hdashes.2]
    · rcases List.mem_cons.1 ht with rfl | ht
      · exact hacc
      · rw [hplain t ht]

theorem LinuxLinesKept.solid (h : LinuxLinesKept order info) {k : GrubKey} (hk : InLinux k) :
    Str.Solid (info.dic false k) := by
  obtain ⟨l, hl, t, ht, hkey⟩ := hk
  by_cases hnil : t.text ++ info.dic false k = []
  · rw [(List.append_eq_nil_iff.1 hnil).2]
    exact fun c hc => nomatch hc
  · have hmem : t.text ++ info.dic false k ∈ (l.line.written (info.dic false) order).words := by
      rw [h l hl, List.mem_flatMap]
      exact ⟨t, ht, by rw [Token.expected_some hkey hnil]; exact List.mem_singleton_self _⟩
    exact (Str.solid_of_mem_words hmem).right

/-- A value that stands in no linux line is no text of the user. -/
theorem dic_head {j : GrubKey} (hj : ¬ InLinux j) :
    ∃ c rest, info.dic false j = c :: rest ∧ c ≠ '$' ∧ Str.isSpace c = false := by
  have hpath : ∀ p : AbsPath, ∃ c rest, unixPath p.text = c :: rest ∧ c ≠ '$' ∧
      Str.isSpace c = false := by
    intro p
    obtain ⟨rest, hrest⟩ := unixPath_rooted p
    exact ⟨'/', rest, hrest, by decide, by decide⟩
  have hconst : ∀ {s : Str} {c : Char}, s.head? = some c → c ≠ '$' → Str.isSpace c = false →
      ∃ c rest, s = c :: rest ∧ c ≠ '$' ∧ Str.isSpace c = false := by
    intro s c hs hdollar hspace
    obtain ⟨rest, rfl⟩ := List.head?_eq_some_iff.1 hs
    exact ⟨c, rest, rfl, hdollar, hspace⟩
  cases j with
  | customInstallationDir => exact hpath info.customInstall
  | initrd => exact hpath info.initrd
  | rootflags =>
    have hdic : info.dic false .rootflags =
        if info.isFat then "rootflags=sync".toList else "rootflags=syncio".toList := rfl
    rw [hdic]
    split
    · exact hconst (c := 'r') (by simp) (by decide) (by decide)
    · exact hconst (c := 'r') (by simp) (by decide) (by decide)
  | title1 =>
    exact @hconst "Completing the Archlive installation.".toList 'C' (by simp) (by decide) (by decide)
  | title2 =>
    exact @hconst "For more installation boot options, press `ESC' now...".toList 'F' (by simp)
      (by decide) (by decide)
  | normalModeTitle => exact @hconst "Normal mode".toList 'N' (by simp) (by decide) (by decide)
  | safeGraphicModeTitle => exact @hconst "Safe graphic mode".toList 'S' (by simp) (by decide) (by decide)
  | acpiWorkaroundsTitle => exact @hconst "ACPI workarounds".toList 'A' (by simp) (by decide) (by decide)
  | verboseModeTitle => exact @hconst "Verbose mode".toList 'V' (by simp) (by decide) (by decide)
  | demoModeTitle => exact @hconst "Demo mode".toList 'D' (by simp) (by decide) (by decide)
  | _ => exact absurd (by unfold InLinux; decide) hj

/-- The key `j` is replaced last, right behind `i`. -/
theorem exists_order {i j : GrubKey} (h : i ≠ j) :
    ∃ pre : List GrubKey, (pre ++ [i, j]).Perm GrubKey.all ∧ i ∉ pre := by
  refine ⟨(GrubKey.all.erase i).erase j, ?_, ?_⟩
  · have hi : i ∈ GrubKey.all := by cases i <;> decide
    have hj : j ∈ GrubKey.all.erase i := (List.mem_erase_of_ne h.symm).2 (by cases j <;> decide)
    have hswap : ((GrubKey.all.erase i).erase j ++ [i, j]).Perm
        (i :: j :: (GrubKey.all.erase i).erase j) := List.perm_append_comm
    exact hswap.trans (((List.perm_cons_erase hj).symm.cons i).trans (List.perm_cons_erase hi).symm)
  · intro hmem
    have hnodup : GrubKey.all.Nodup := by decide
    exact hnodup.not_mem_erase (List.mem_of_mem_erase hmem)

theorem clean_of_kept (h : ∀ order, order.Perm GrubKey.all → LinuxLinesKept order info) :
    Clean info where
  solid k hk := (h _ (List.Perm.refl _)).solid hk
  hole i j hi hne hin := by
    obtain ⟨pre, horder, hpre⟩ := exists_order hne
    have hkept := h _ horder
    have hsolid := hkept.solid hi
    obtain ⟨l, hl, t, ht, hkey⟩ := hi
    have htoken := hkept.token horder hl ht
    have hne : t.text ++ info.dic false i ≠ [] := by
      intro hnil
      rw [(List.append_eq_nil_iff.1 hnil).2] at hin
      exact Str.placeholder_ne_nil (List.infix_nil.1 hin)
    rw [Token.expected_some hkey hne, Token.becomes_some hkey, GrubKey.written_eq hpre] at htoken
    have hreplace : Str.replaceAll (GrubKey.items (info.dic false) [j]) (info.dic false i) =
        Str.replace j.hole (info.dic false j) (info.dic false i) := rfl
    rw [hreplace] at htoken
    have htext : Str.Solid t.text := (linux_fine hl t ht).1
    by_cases hj : InLinux j
    · -- no white space comes in, so the word is the token
      have hjsolid := hkept.solid hj
      have hall : Str.Solid (t.text ++ Str.replace j.hole (info.dic false j) (info.dic false i)) := by
        refine htext.append fun c hc => ?_
        rcases Str.mem_replace Str.placeholder_ne_nil hc with hc | hc
        · exact hjsolid c hc
        · exact hsolid c hc
      have hnil : t.text ++ Str.replace j.hole (info.dic false j) (info.dic false i) ≠ [] := by
        intro hnil
        rw [hnil] at htoken
        exact nomatch htoken
      rw [Str.words_solid hnil hall] at htoken
      have hsame := List.append_cancel_left (List.singleton_inj.1 htoken)
      exact Str.eq_of_replace_eq Str.placeholder_ne_nil hin hsame
    · -- the value starts in the place of the dollar sign
      obtain ⟨c, rest, hvalue, hdollar, hspace⟩ := @dic_head info j hj
      obtain ⟨a, b, hcut, hrep⟩ := @Str.replace_first j.hole (info.dic false j)
        (info.dic false i) Str.placeholder_ne_nil hin
      have ha : Str.Solid (t.text ++ a) := by
        refine htext.append fun d hd => hsolid d ?_
        rw [hcut, List.append_assoc]
        exact List.mem_append_left _ hd
      obtain ⟨w, ws, hwords⟩ := @Str.words_head (t.text ++ a)
        (rest ++ Str.replace j.hole (info.dic false j) b) c ha hspace
      have hshape : t.text ++ Str.replace j.hole (info.dic false j) (info.dic false i) =
          (t.text ++ a) ++ c :: (rest ++ Str.replace j.hole (info.dic false j) b) := by
        rw [hrep, hvalue]
        simp
      rw [hshape, hwords, hcut, List.append_assoc a, ← List.append_assoc t.text] at htoken
      have hword := List.append_cancel_left (List.cons.inj htoken).1
      exact absurd (List.cons.inj hword).1 hdollar

/-- Every linux line of the text has the tokens of the template with the values
in them, whatever the order of the replacements, exactly where the values are
clean. -/
theorem linuxLines_kept_iff (info : GrubInfo) :
    (∀ order, order.Perm GrubKey.all → LinuxLinesKept order info) ↔ Clean info :=
  ⟨clean_of_kept, fun hclean _ horder => hclean.kept horder⟩

/-- `os.path.abspath` on a path that is one already. -/
def sameAbspath (p : Str) : AbsPath := ⟨p.headD 'C', p.drop 3⟩

/-- An installation into `C:\arch live`. -/
def spacedInfo : GrubInfo :=
  let here : AbsPath := ⟨'C', []⟩
  GrubInfo.setPaths sameAbspath "C:".toList "arch live".toList "boot/ker".toList "boot/img".toList
    { customInstall := here, isoPath := here, kernel := here, initrd := here, disksDir := here,
      isFat := false, keyboardVariant := [], keyboardLayout := ['u', 's'],
      locale := "en_US.UTF-8".toList, accessibility := [], username := ['a'], password := ['b'],
      timezone := "Europe/Rome".toList, rootSizeMb := 5744, swapSizeMb := 256 }

theorem spaced_dir_breaks : Frontend.errorMessage Frontend.twoDrives ['a'] ['b'] ['b'] = none ∧
    ¬ ∀ order, order.Perm GrubKey.all → LinuxLinesKept order spacedInfo := by
  refine ⟨by decide, fun h => ?_⟩
  have hkernel : InLinux .kernel := by
    unfold InLinux
    decide
  have hsolid := (h _ (List.Perm.refl _)).solid hkernel ' ' (by decide)
  exact nomatch hsolid

end Wubi.Backend
