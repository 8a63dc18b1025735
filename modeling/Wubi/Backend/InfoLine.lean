import Wubi.Core.Regex
import Wubi.Backend.Distro

/-!
# The info line of an ISO

`disk_info_re` of `src/wubi/backends/common/distro.py`, and what
`parse_isoinfo` reads off a line with it. Strings are bytes there, so `\w`,
`\s` and `\d` are those of ASCII.

Results:
* `matches_diskInfoRe`: what the pattern takes is the text of an `InfoLine`.
* `InfoLine.unique`: a text begins with one `InfoLine` at most whose names in
  quotes have no quote: the name and the version end before the first quote,
  the first digit behind it belongs to the architecture.
* `matchDiskInfo_sound`: what is read is said by an `InfoLine` at the start.
* `parseIsoinfo_text`: such a line is read as what it says, whatever follows.
-/
namespace Wubi.Backend

/-- The named groups of `disk_info_re`. -/
inductive InfoGroup where
  | name | version | codename | subversion | arch | build
  deriving DecidableEq

/-- `\w` -/
def isWordChar (c : Char) : Bool := c.isAlphanum || c == '_'

/-- `[\w\s-]` -/
def isNameChar (c : Char) : Bool := isWordChar c || Str.isSpace c || c == '-'

/-- `[\d.]` -/
def isNumberChar (c : Char) : Bool := c.isDigit || c == '.'

/-- `\D` -/
def isNoDigit (c : Char) : Bool := !c.isDigit

open Regex in
/-- mirrors src/wubi/backends/common/distro.py:28-29 -/
def diskInfoRe : Regex InfoGroup Char :=
  seq (group .name (plus (cls isNameChar))) <| seq (lit " ".toList) <|
  seq (group .version (plus (cls isNumberChar))) <| seq (opt (lit " LTS".toList)) <|
  seq (lit " \"".toList) <| seq (group .codename (plus (cls isNoDigit))) <|
  seq (lit "\" - ".toList) <| seq (group .subversion (plus (cls isNoDigit))) <|
  seq (lit " ".toList) <| seq (group .arch (alt (lit "i686".toList) (lit "x86_64".toList))) <|
  seq (lit " (".toList) <| seq (group .build (plus (cls isNumberChar))) (lit ")".toList)

/-- `disk_info_re.match(info)` and the groups that are read from it.
mirrors src/wubi/backends/common/distro.py:184-190 -/
def matchDiskInfo (info : Str) : Option DiskInfo := do
  let groups ← diskInfoRe.firstMatch info
  let name ← groups.get .name
  let version ← groups.get .version
  let subversion ← groups.get .subversion
  let arch ← groups.get .arch
  some { name, version, subversion, arch }

/-- The parts of a line that the pattern takes. -/
@[ext] structure InfoLine where
  name : Str
  version : Str
  lts : Bool
  codename : Str
  subversion : Str
  arch : Str
  build : Str
  name_ok : name ≠ [] ∧ ∀ c ∈ name, isNameChar c = true
  version_ok : version ≠ [] ∧ ∀ c ∈ version, isNumberChar c = true
  codename_ok : codename ≠ [] ∧ ∀ c ∈ codename, isNoDigit c = true
  subversion_ok : subversion ≠ [] ∧ ∀ c ∈ subversion, isNoDigit c = true
  arch_ok : arch = "i686".toList ∨ arch = "x86_64".toList
  build_ok : build ≠ [] ∧ ∀ c ∈ build, isNumberChar c = true

namespace InfoLine

variable (l : InfoLine)

def suffix : Str := if l.lts then " LTS".toList else []

/-- `name version[ LTS] "codename" - subversion arch (build)` -/
def text : Str :=
  l.name ++ (" ".toList ++ (l.version ++ (l.suffix ++ (" \"".toList ++ (l.codename ++
    ("\" - ".toList ++ (l.subversion ++ (" ".toList ++ (l.arch ++ (" (".toList ++
      (l.build ++ ")".toList)))))))))))

def groups : Regex.Groups InfoGroup Char :=
  [(.name, l.name), (.version, l.version), (.codename, l.codename), (.subversion, l.subversion),
    (.arch, l.arch), (.build, l.build)]

end InfoLine

/-! ## What the pattern takes -/

open Regex in
theorem matches_lts {w : Str} {c : Groups InfoGroup Char} :
    (opt (lit " LTS".toList)).Matches w c ↔
      ∃ lts : Bool, w = (if lts then " LTS".toList else []) ∧ c = [] := by
  rw [matches_opt, matches_lit, Bool.exists_bool]
  exact or_comm

open Regex in
theorem matches_arch {w : Str} {c : Groups InfoGroup Char} :
    (group InfoGroup.arch (alt (lit "i686".toList) (lit "x86_64".toList))).Matches w c ↔
      (w = "i686".toList ∨ w = "x86_64".toList) ∧ c = [(.arch, w)] := by
  rw [matches_group]
  constructor
  · intro hboth
    obtain ⟨d, halt, rfl⟩ := hboth
    rw [matches_alt, matches_lit, matches_lit, ← or_and_right] at halt
    obtain ⟨harch, rfl⟩ := halt
    exact ⟨harch, rfl⟩
  · intro hboth
    obtain ⟨harch, rfl⟩ := hboth
    refine ⟨[], ?_, rfl⟩
    rw [matches_alt, matches_lit, matches_lit, ← or_and_right]
    exact ⟨harch, rfl⟩

open Regex in
theorem matches_diskInfoRe {w : Str} {c : Groups InfoGroup Char} :
    diskInfoRe.Matches w c ↔ ∃ l : InfoLine, w = l.text ∧ c = l.groups := by
  unfold diskInfoRe
  constructor
  · intro h
    obtain ⟨name, w₁, c₁, hname, h₁, rfl, rfl⟩ := matches_field_seq.1 h
    obtain ⟨w₂, h₂, rfl⟩ := matches_lit_seq.1 h₁
    obtain ⟨version, w₃, c₃, hversion, h₃, rfl, rfl⟩ := matches_field_seq.1 h₂
    obtain ⟨suffix, c₀, w₄, c₄, hlts, h₄, rfl, rfl⟩ := matches_seq.1 h₃
    obtain ⟨lts, rfl, rfl⟩ := matches_lts.1 hlts
    obtain ⟨w₅, h₅, rfl⟩ := matches_lit_seq.1 h₄
    obtain ⟨codename, w₆, c₆, hcodename, h₆, rfl, rfl⟩ := matches_field_seq.1 h₅
    obtain ⟨w₇, h₇, rfl⟩ := matches_lit_seq.1 h₆
    obtain ⟨subversion, w₈, c₈, hsubversion, h₈, rfl, rfl⟩ := matches_field_seq.1 h₇
    obtain ⟨w₉, h₉, rfl⟩ := matches_lit_seq.1 h₈
    obtain ⟨arch, c', w', c'', hgroup, h₁₀, rfl, rfl⟩ := matches_seq.1 h₉
    obtain ⟨harch, rfl⟩ := matches_arch.1 hgroup
    obtain ⟨w₁₁, h₁₁, rfl⟩ := matches_lit_seq.1 h₁₀
    obtain ⟨build, w₁₂, c₁₂, hbuild, h₁₂, rfl, rfl⟩ := matches_field_seq.1 h₁₁
    obtain ⟨rfl, rfl⟩ := matches_lit.1 h₁₂
    exact ⟨⟨name, version, lts, codename, subversion, arch, build, hname, hversion, hcodename,
      hsubversion, harch, hbuild⟩, rfl, rfl⟩
  · intro hboth
    obtain ⟨l, rfl, rfl⟩ := hboth
    refine matches_field_seq.2 ⟨l.name, _, _, l.name_ok, ?_, rfl, rfl⟩
    refine matches_lit_seq.2 ⟨_, ?_, rfl⟩
    refine matches_field_seq.2 ⟨l.version, _, _, l.version_ok, ?_, rfl, rfl⟩
    refine matches_seq.2 ⟨l.suffix, [], _, _, matches_lts.2 ⟨l.lts, rfl, rfl⟩, ?_, rfl, rfl⟩
    refine matches_lit_seq.2 ⟨_, ?_, rfl⟩
    refine matches_field_seq.2 ⟨l.codename, _, _, l.codename_ok, ?_, rfl, rfl⟩
    refine matches_lit_seq.2 ⟨_, ?_, rfl⟩
    refine matches_field_seq.2 ⟨l.subversion, _, _, l.subversion_ok, ?_, rfl, rfl⟩
    refine matches_lit_seq.2 ⟨_, ?_, rfl⟩
    refine matches_seq.2 ⟨l.arch, _, _, _, matches_arch.2 ⟨l.arch_ok, rfl⟩, ?_, rfl, rfl⟩
    refine matches_lit_seq.2 ⟨_, ?_, rfl⟩
    refine matches_field_seq.2 ⟨l.build, _, _, l.build_ok, ?_, rfl, rfl⟩
    exact matches_lit.2 ⟨rfl, rfl⟩

/-! ## One way to take a line apart -/

open Str (append_cons_inj append_cons_inj_right bne_of_not_mem)

theorem not_quote {p : Char → Bool} {s : Str} (hp : p '"' = false) (hs : ∀ c ∈ s, p c = true) :
    ∀ c ∈ s, (c != '"') = true :=
  bne_of_not_mem fun hin => Bool.false_ne_true (hp.symm.trans (hs _ hin))

theorem not_lts {name name' version version' : Str}
    (h : version ≠ [] ∧ ∀ c ∈ version, isNumberChar c = true) :
    name ++ ' ' :: version ≠ name' ++ ' ' :: (version' ++ " LTS".toList) := by
  intro heq
  have hlast := congrArg List.getLast? heq
  rw [← List.singleton_append, ← List.append_assoc, List.getLast?_append_of_ne_nil _ h.1,
    ← List.cons_append, ← List.append_assoc, List.getLast?_append_of_ne_nil _ (by decide)] at hlast
  have hnumber := h.2 'S' (List.mem_of_getLast? (hlast.trans (by decide)))
  exact absurd hnumber (by decide)

theorem firstDigit_inj {m m' x x' : Str} {b b' d d' : Char} (hm : ∀ c ∈ m, isNoDigit c = true)
    (hm' : ∀ c ∈ m', isNoDigit c = true) (hb : isNoDigit b = true) (hb' : isNoDigit b' = true)
    (hd : isNoDigit d = false) (hd' : isNoDigit d' = false)
    (h : m ++ ' ' :: b :: d :: x = m' ++ ' ' :: b' :: d' :: x') : m = m' ∧ b = b' ∧ x = x' := by
  have hrun : ∀ {m : Str} {b : Char}, (∀ c ∈ m, isNoDigit c = true) → isNoDigit b = true →
      ∀ c ∈ m ++ [' ', b], isNoDigit c = true := by
    intro m b hm hb c hc
    simp only [List.mem_append, List.mem_cons, List.not_mem_nil, or_false] at hc
    rcases hc with hc | rfl | rfl
    · exact hm c hc
    · decide
    · exact hb
  have hsplit : (m ++ [' ', b]) ++ d :: x = (m' ++ [' ', b']) ++ d' :: x' := by simpa using h
  obtain ⟨hleft, -, hright⟩ := append_cons_inj (hrun hm hb) (hrun hm' hb') hd hd' hsplit
  obtain ⟨rfl, hlast⟩ := List.append_inj' hleft rfl
  simp only [List.cons.injEq, and_true, true_and] at hlast
  exact ⟨rfl, hlast, hright⟩

theorem arch_inj {m m' arch arch' y y' : Str} (hm : ∀ c ∈ m, isNoDigit c = true)
    (hm' : ∀ c ∈ m', isNoDigit c = true)
    (harch : arch = "i686".toList ∨ arch = "x86_64".toList)
    (harch' : arch' = "i686".toList ∨ arch' = "x86_64".toList)
    (h : m ++ ' ' :: (arch ++ y) = m' ++ ' ' :: (arch' ++ y')) : m = m' ∧ arch = arch' ∧ y = y' := by
  rcases harch with rfl | rfl <;> rcases harch' with rfl | rfl
  · obtain ⟨rfl, -, hx⟩ := firstDigit_inj hm hm' (by decide) (by decide) (by decide) (by decide) h
    exact ⟨rfl, rfl, by simpa using hx⟩
  · obtain ⟨-, hb, -⟩ := firstDigit_inj hm hm' (by decide) (by decide) (by decide) (by decide) h
    exact absurd hb (by decide)
  · obtain ⟨-, hb, -⟩ := firstDigit_inj hm hm' (by decide) (by decide) (by decide) (by decide) h
    exact absurd hb (by decide)
  · obtain ⟨rfl, -, hx⟩ := firstDigit_inj hm hm' (by decide) (by decide) (by decide) (by decide) h
    exact ⟨rfl, rfl, by simpa using hx⟩

namespace InfoLine

variable (l : InfoLine)

/-- The line up to the space before the first quote. -/
def head : Str := l.name ++ ' ' :: (l.version ++ l.suffix)

/-- The line from the first quote to the space before the architecture. -/
def middle : Str := l.codename ++ '"' :: ' ' :: '-' :: ' ' :: l.subversion

variable {l} {l' : InfoLine} {t t' : Str}

theorem text_append : l.text ++ t = (l.head ++ [' ']) ++ '"' :: (l.middle ++ ' ' ::
    (l.arch ++ ' ' :: '(' :: (l.build ++ ')' :: t))) := by
  unfold text head middle
  simp

theorem head_noQuote : ∀ c ∈ l.head ++ [' '], (c != '"') = true := by
  have hsuffix : ∀ c ∈ l.suffix, (c != '"') = true := by
    rw [← List.all_eq_true]
    unfold suffix
    cases l.lts <;> rfl
  intro c hc
  simp only [head, List.mem_append, List.mem_cons, List.not_mem_nil, or_false] at hc
  rcases hc with (hc | rfl | hc | hc) | rfl
  · exact not_quote (by decide) l.name_ok.2 c hc
  · decide
  · exact not_quote (by decide) l.version_ok.2 c hc
  · exact hsuffix c hc
  · decide

theorem middle_noDigit : ∀ c ∈ l.middle, isNoDigit c = true := by
  intro c hc
  simp only [middle, List.mem_append, List.mem_cons] at hc
  rcases hc with hc | rfl | rfl | rfl | rfl | hc
  · exact l.codename_ok.2 c hc
  · decide
  · decide
  · decide
  · decide
  · exact l.subversion_ok.2 c hc

theorem head_inj (h : l.head = l'.head) :
    l.name = l'.name ∧ l.version = l'.version ∧ l.lts = l'.lts := by
  have hspace : isNumberChar ' ' = false := by decide
  unfold head suffix at h
  cases hlts : l.lts <;> cases hlts' : l'.lts <;>
    simp only [hlts, hlts', if_true, if_false, Bool.false_eq_true, List.append_nil] at h
  · obtain ⟨hname, -, hversion⟩ :=
      append_cons_inj_right l.version_ok.2 l'.version_ok.2 hspace hspace h
    exact ⟨hname, hversion, rfl⟩
  · exact absurd h (not_lts l.version_ok)
  · exact absurd h.symm (not_lts l'.version_ok)
  · have hcut : l.name ++ ' ' :: l.version = l'.name ++ ' ' :: l'.version := by
      refine (List.append_left_inj " LTS".toList).1 ?_
      simpa using h
    obtain ⟨hname, -, hversion⟩ :=
      append_cons_inj_right l.version_ok.2 l'.version_ok.2 hspace hspace hcut
    exact ⟨hname, hversion, rfl⟩

theorem middle_inj (hc : '"' ∉ l.codename) (hs : '"' ∉ l.subversion) (h : l.middle = l'.middle) :
    l.codename = l'.codename ∧ l.subversion = l'.subversion := by
  unfold middle at h
  -- one quote on the left, so the codename on the right has none
  have hc' : '"' ∉ l'.codename := by
    intro hin
    have hpos := List.count_pos_iff.2 hin
    have hcount := congrArg (List.count '"') h
    simp only [List.count_append, List.count_cons, List.count_eq_zero.2 hc,
      List.count_eq_zero.2 hs] at hcount
    simp at hcount
    omega
  obtain ⟨hcodename, -, hrest⟩ :=
    append_cons_inj (bne_of_not_mem hc) (bne_of_not_mem hc') (by decide) (by decide) h
  exact ⟨hcodename, by simpa using hrest⟩

theorem unique (hc : '"' ∉ l.codename) (hs : '"' ∉ l.subversion)
    (h : l.text ++ t = l'.text ++ t') : l = l' := by
  rw [text_append, text_append] at h
  obtain ⟨hhead, -, htail⟩ := append_cons_inj head_noQuote head_noQuote (by decide) (by decide) h
  obtain ⟨hname, hversion, hlts⟩ := head_inj (List.append_cancel_right hhead)
  obtain ⟨hmiddle, harch, hend⟩ :=
    arch_inj middle_noDigit middle_noDigit l.arch_ok l'.arch_ok htail
  obtain ⟨hcodename, hsubversion⟩ := middle_inj hc hs hmiddle
  simp only [List.cons.injEq, true_and] at hend
  obtain ⟨hbuild, -, -⟩ :=
    append_cons_inj l.build_ok.2 l'.build_ok.2 (by decide) (by decide) hend
  exact InfoLine.ext hname hversion hlts hcodename hsubversion harch hbuild

end InfoLine

/-- What is read is said by a line at the start of the text. -/
theorem matchDiskInfo_sound {s : Str} {info : DiskInfo} (h : matchDiskInfo s = some info) :
    ∃ (l : InfoLine) (rest : Str), s = l.text ++ rest ∧
      info = ⟨l.name, l.version, l.subversion, l.arch⟩ := by
  unfold matchDiskInfo at h
  obtain ⟨groups, hfirst, hread⟩ := Option.bind_eq_some_iff.1 h
  obtain ⟨w, rest, hmatch, hs⟩ := Regex.matches_of_firstMatch hfirst
  obtain ⟨l, rfl, rfl⟩ := matches_diskInfoRe.1 hmatch
  exact ⟨l, rest, hs, (Option.some.inj hread).symm⟩

/-- The line is read as what it says, whatever follows it. -/
theorem parseIsoinfo_text (env : Env) (l : InfoLine) (rest : Str) (hname : '-' ∉ l.name)
    (hcodename : '"' ∉ l.codename) (hsubversion : '"' ∉ l.subversion) :
    parseIsoinfo { env with matchDiskInfo := matchDiskInfo } (l.text ++ rest) =
      some ⟨l.name, l.version, l.subversion, l.arch⟩ := by
  have hmatch : diskInfoRe.firstMatch (l.text ++ rest) = some l.groups := by
    refine Regex.firstMatch_eq_some (matches_diskInfoRe.2 ⟨l, rfl, rfl⟩) ?_
    intro w' c' t' hother htext
    obtain ⟨l', rfl, rfl⟩ := matches_diskInfoRe.1 hother
    rw [InfoLine.unique hcodename hsubversion htext]
  have hread : matchDiskInfo (l.text ++ rest) =
      some ⟨l.name, l.version, l.subversion, l.arch⟩ := by
    unfold matchDiskInfo
    rw [hmatch]
    rfl
  have hne : l.text ++ rest ≠ [] := by
    unfold InfoLine.text
    simp [l.name_ok.1]
  have hdash : l.name.map (fun c => if c = '-' then ' ' else c) = l.name := by
    refine (List.map_congr_left fun c hc => if_neg ?_).trans (List.map_id l.name)
    rintro rfl
    exact hname hc
  unfold parseIsoinfo
  rw [if_neg hne]
  simp only [hread, Option.map_some, hdash]

def summerLine : InfoLine where
  name := "Arch live 3".toList
  version := "2011.05".toList
  lts := true
  codename := "Summer (x".toList
  subversion := "Final - i".toList
  arch := "x86_64".toList
  build := "20110513.1".toList
  name_ok := ⟨by decide, List.all_eq_true.1 (by decide)⟩
  version_ok := ⟨by decide, List.all_eq_true.1 (by decide)⟩
  codename_ok := ⟨by decide, List.all_eq_true.1 (by decide)⟩
  subversion_ok := ⟨by decide, List.all_eq_true.1 (by decide)⟩
  arch_ok := .inr rfl
  build_ok := ⟨by decide, List.all_eq_true.1 (by decide)⟩

example : summerLine.text =
    "Arch live 3 2011.05 LTS \"Summer (x\" - Final - i x86_64 (20110513.1)".toList := by
  decide

theorem parseIsoinfo_summer :
    parseIsoinfo { (default : Env) with matchDiskInfo } (summerLine.text ++ "\n(2)".toList) =
      some ⟨"Arch live 3".toList, "2011.05".toList, "Final - i".toList, "x86_64".toList⟩ :=
  parseIsoinfo_text default summerLine "\n(2)".toList (by decide) (by decide)
    (by decide)

end Wubi.Backend
