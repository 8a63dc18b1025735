import Wubi.Core.Disk
import Wubi.Core.Import
import Wubi.Core.Words

/-!
# Packing the modules of a script

Model of `Application.add_dependencies`: the modules that modulegraph found for
a script are copied, and byte-compiled where asked, into the directory `lib` of
the output. A source goes where its dotted identifier says, a package's
`__init__` into the directory of the package, an extension under its own file
name into the directory where its identifier would lie, and the script into the
output directory.

**Paths** are relative to the output directory, which `create_dirs` made and
which holds nothing but `lib`. File names are compared as texts, as on a file
system that tells upper from lower case.

**Parameters.** `App` has the options and what the surroundings answer:
`copies f` if the file `f` can be copied, `compiles f` if its text can be
compiled. `Modules` is what `get_modules` can return: modulegraph keeps a node
for each identifier, loads a module with a dotted name out of a package that it
then refers to, and is given one script.

**Results.** Every run keeps the directories in order (`Dirs`), and tells for
each module that it placed where that is (`addModules_sound`).
-/
namespace Wubi.Pypack

open Import

/-! ## Modules -/

/-- The classes of modulegraph's nodes, but for `Script`.
mirrors src/pypack/modulegraph/modulegraph.py:184-281 -/
inductive Kind
  | node | alias | bad | excluded | missing | base | builtin | source | compiled | package
  | flatPackage | extension | archive
deriving DecidableEq

inductive Node
  /-- the identifier is the file name -/
  | script (filename : Str)
  | named (kind : Kind) (identifier : Str) (filename : Option Str)
deriving DecidableEq

namespace Node

def identifier : Node → Str
  | script filename => filename
  | named _ identifier _ => identifier

/-- `module.filename`, where it is true. -/
def file : Node → Option Str
  | script filename => if filename = [] then none else some filename
  | named _ _ filename => filename.filter (· ≠ [])

def isScript : Node → Bool
  | script _ => true
  | named _ _ _ => false

def isExtension : Node → Bool
  | named .extension _ _ => true
  | _ => false

def isPackage : Node → Bool
  | named .package _ _ => true
  | _ => false

/-- Has a file and is not a script whose identifier begins with an underscore. -/
def wanted (m : Node) : Bool := m.file.isSome ∧ (m.isScript → m.identifier.head? ≠ some '_')

/-- One of the classes that `add_dependencies` knows. -/
def known : Node → Bool
  | script _ => true
  | named k _ _ => k = .source ∨ k = .package ∨ k = .extension

/-- `module.identifier.split('.')` -/
def parts (m : Node) : List Str := m.identifier.splitOn '.'

end Node

/-- A name that `os.path.join` appends as it is. -/
def isName (n : Str) : Bool :=
  !n.isEmpty && n != ['.'] && n != ['.', '.'] && n.all fun c => !Str.isSep c && c != ':'

/-- What `get_modules` can return.
mirrors src/pypack/libpypack/application.py:212-217 -/
structure Modules where
  nodes : List Node
  /-- modulegraph has one node for an identifier -/
  distinct : ((nodes.filter fun m => m.file.isSome).map Node.identifier).Nodup
  dotted : ∀ m ∈ nodes, m.file.isSome → m.isScript = false → ∀ n ∈ m.parts, isName n
  /-- a module below a package was loaded from it, and refers to it -/
  inPackage : ∀ m ∈ nodes, m.file.isSome → m.isScript = false → m.parts.dropLast ≠ [] →
    ∃ P ∈ nodes, P.file.isSome ∧ P.isPackage ∧ P.parts = m.parts.dropLast
  /-- `find_modules` is given one script -/
  oneScript : ∀ m ∈ nodes, ∀ e ∈ nodes, m.isScript → e.isScript → m = e

/-! ## Paths -/

def libName : Str := "lib".toList

/-- `self.lib_dir`
mirrors src/pypack/libpypack/application.py:97 -/
def libDir : Path := [libName]

/-- For names that `os.path.join` appends as they are.
mirrors src/pypack/libpypack/application.py:198-199 -/
def ajoin (root : Path) (names : List Str) : Path := root ++ names

/-- mirrors src/pypack/libpypack/application.py:207-210 -/
def module2path (root : Path) (name : Str) : Path := ajoin root (name.splitOn '.')

def dirname (p : Path) : Path := p.dropLast

/-- `p + s` -/
def addEnding (p : Path) (s : Str) : Path := p.dropLast ++ [p.getLastD [] ++ s]

/-! ## Copying and compiling -/

structure App where
  suffixes : Suffixes
  /-- the path of the main script -/
  script : Str
  script_name : isName script.basename
  bytecompile : Bool
  copies : Str → Bool
  compiles : Str → Bool

/-- What `py_compile` puts behind the name of a source. -/
def App.letter (app : App) : Str := if app.suffixes.optimize then ['o'] else ['c']

structure Build where
  disk : Disk Str
  /-- ghost: the modules placed so far, and where -/
  log : List (Node × Path)

/-- `shutil.copy(source, target)`, and the path written. -/
def copy (app : App) (disk : Disk Str) (source : Str) (target : Path) :
    Option (Disk Str × Path) :=
  let target := if (target, true) ∈ disk then target ++ [source.basename] else target
  if app.copies source then (disk.write target).map fun disk => (disk, target) else none

/-- `py_compile.compile(target, doraise=True)` of a copy of `source`. -/
def pyCompile (app : App) (disk : Disk Str) (source : Str) (target : Path) : Option (Disk Str) :=
  if (target, false) ∈ disk ∧ app.compiles source then disk.write (addEnding target app.letter)
  else none

/-- `self.compile(source, target)` for the module `m`.
mirrors src/pypack/libpypack/application.py:160-170 -/
def compile (app : App) (b : Build) (m : Node) (source : Str) (target : Path) : Option Build :=
  match copy app (b.disk.makedirs (dirname target)) source target with
  | none => none
  | some (disk, placed) =>
    if app.bytecompile then
      (pyCompile app disk source target).map fun disk =>
        ⟨disk.remove target, b.log ++ [(m, addEnding target app.letter)]⟩
    else some ⟨disk, b.log ++ [(m, placed)]⟩

/-- The body of the loop. `none` is an exception that ends the packing.
mirrors src/pypack/libpypack/application.py:134-158 -/
def add (app : App) (b : Build) (m : Node) : Option Build :=
  match m.file with
  | none => some b
  | some filename =>
    match m with
    | .named .source identifier _ =>
      compile app b m filename (addEnding (module2path libDir identifier) dotPy)
    | .named .package identifier _ =>
      compile app b m filename (ajoin (module2path libDir identifier) [initName ++ dotPy])
    | .script identifier =>
      if identifier.head? = some '_' then some b
      else compile app b m filename (ajoin [] [app.script.basename])
    | .named .extension identifier _ =>
      let target := dirname (module2path libDir identifier)
      (copy app (b.disk.makedirs target) filename target).map fun r =>
        ⟨r.1, b.log ++ [(m, r.2)]⟩
    -- log.error("Unkown module %s", module)
    | _ => some b

def addModules (app : App) : Build → List Node → Option Build
  | b, [] => some b
  | b, m :: ms => (add app b m).bind fun b => addModules app b ms

/-- The output directory as `create_dirs` leaves it.
mirrors src/pypack/libpypack/application.py:91-98 -/
def created : Disk Str := [([], true), (libDir, true)]

/-- mirrors src/pypack/libpypack/application.py:128-158 -/
def addDependencies (app : App) (modules : Modules) : Option Build :=
  addModules app ⟨created, []⟩ modules.nodes

/-! ## Where the modules go -/

namespace Node

variable {m : Node} {n : Str}

theorem isScript_of_isExtension (h : m.isExtension) : m.isScript = false := by
  cases m with
  | script f => cases h
  | named k i f => rfl

theorem isScript_of_isPackage (h : m.isPackage) : m.isScript = false := by
  cases m with
  | script f => cases h
  | named k i f => rfl

theorem not_isPackage_of_isExtension (h : m.isExtension) : ¬ m.isPackage := by
  cases m with
  | script f => cases h
  | named k i f =>
    cases k with
    | extension => exact Bool.false_ne_true
    | _ => cases h

theorem parts_no_dot (h : n ∈ m.parts) : '.' ∉ n := by
  intro hdot
  have hne := Str.mem_splitOnP h '.' hdot
  simp at hne

theorem exists_parts (m : Node) : ∃ q n, m.parts = q ++ [n] := by
  rcases List.eq_nil_or_concat' m.parts with h | ⟨q, n, h⟩
  · exact absurd h (List.splitOnP_ne_nil _ _)
  · exact ⟨q, n, h⟩

theorem wanted_iff : m.wanted ↔ m.file.isSome ∧ (m.isScript → m.identifier.head? ≠ some '_') := by
  simp only [wanted, decide_eq_true_eq]

/-- The directory in which import looks for the file. -/
def dir : Node → Path
  | script _ => []
  | m@(named .package _ _) => libDir ++ m.parts
  | m => libDir ++ m.parts.dropLast

/-- The name under which it looks there. -/
def stem : Node → Str
  | named .package _ _ => initName
  | m => m.parts.getLastD []

end Node

/-- The name of the copy. -/
def App.copyName (app : App) : Node → Str
  | .script _ => app.script.basename
  | m@(.named .extension _ _) => (m.file.getD []).basename
  | m => m.stem ++ dotPy

/-- The name of the file that stays. -/
def App.fileName (app : App) (m : Node) : Str :=
  if app.bytecompile ∧ ¬ m.isExtension then app.copyName m ++ app.letter else app.copyName m

def App.target (app : App) (m : Node) : Path := m.dir ++ [app.copyName m]

/-- Where the module's file is, if nothing is in the way. -/
def App.spot (app : App) (m : Node) : Path := m.dir ++ [app.fileName m]

theorem App.letter_cases (app : App) : app.letter = ['o'] ∨ app.letter = ['c'] := by
  unfold App.letter
  split
  · exact .inl rfl
  · exact .inr rfl

theorem addEnding_concat (p : Path) (n s : Str) : addEnding (p ++ [n]) s = p ++ [n ++ s] := by
  simp [addEnding]

theorem App.dotPy_letter (app : App) : dotPy ++ app.letter = app.suffixes.compiled := by
  unfold App.letter Suffixes.compiled
  split
  · decide
  · decide

/-- A module that is not wanted, or is not of a known class, is passed over. -/
theorem add_skip {app : App} {b : Build} {m : Node} (h : ¬ (m.wanted ∧ m.known)) :
    add app b m = some b := by
  unfold add
  rw [Node.wanted_iff] at h
  cases hf : m.file with
  | none => rfl
  | some f =>
    cases m with
    | script identifier =>
      have hunder : identifier.head? = some '_' := by
        simpa [Node.known, hf, Node.isScript, Node.identifier] using h
      simp [hunder]
    | named k identifier filename =>
      cases k <;> simp [Node.known, hf, Node.isScript] at h ⊢

theorem add_compile {app : App} {b : Build} {m : Node} {f : Str} (hf : m.file = some f)
    (hw : m.wanted) (hk : m.known) (he : ¬ m.isExtension) :
    add app b m = compile app b m f (app.target m) := by
  unfold add
  simp only [hf]
  cases m with
  | script identifier => exact if_neg ((Node.wanted_iff.1 hw).2 rfl)
  | named k identifier filename =>
    cases k with
    | source =>
      obtain ⟨q, n, hparts⟩ := (Node.named .source identifier filename).exists_parts
      have hpath : module2path libDir identifier = libDir ++ q ++ [n] := by
        rw [List.append_assoc, ← hparts]
        rfl
      have htarget : addEnding (module2path libDir identifier) dotPy =
          app.target (.named .source identifier filename) := by
        rw [hpath, addEnding_concat]
        simp [App.target, App.copyName, Node.dir, Node.stem, hparts]
      dsimp only
      rw [htarget]
    | package => rfl
    | extension => exact absurd rfl he
    | _ => cases hk

theorem add_extension {app : App} {b : Build} {m : Node} {f : Str} (hf : m.file = some f)
    (he : m.isExtension) :
    add app b m = (copy app (b.disk.makedirs m.dir) f m.dir).map fun r =>
      ⟨r.1, b.log ++ [(m, r.2)]⟩ := by
  unfold add
  simp only [hf]
  cases m with
  | script identifier => cases he
  | named k identifier filename =>
    cases k with
    | extension =>
      obtain ⟨q, n, hparts⟩ := (Node.named .extension identifier filename).exists_parts
      have hpath : dirname (module2path libDir identifier) =
          (Node.named .extension identifier filename).dir := by
        have hsplit : module2path libDir identifier = libDir ++ q ++ [n] := by
          rw [List.append_assoc, ← hparts]
          rfl
        rw [hsplit, dirname, List.dropLast_concat]
        simp [Node.dir, hparts]
      dsimp only
      rw [hpath]
    | _ => cases he

/-! ## The directories -/

/-- The output directory, or a directory that stands for a package. -/
def Regular (p : Path) : Prop := p = [] ∨ ∃ q, p = libDir ++ q ∧ ∀ n ∈ q, '.' ∉ n

theorem Regular.above {p q : Path} (h : Regular p) (hq : q <+: p) : Regular q := by
  rcases h with rfl | ⟨r, rfl, hr⟩
  · exact .inl (List.prefix_nil.1 hq)
  · have hlib : q <+: libName :: r := hq
    rcases List.prefix_cons_iff.1 hlib with rfl | ⟨s, rfl, hs⟩
    · exact .inl rfl
    · exact .inr ⟨s, rfl, fun n hn => hr n (hs.subset hn)⟩

/-- The name of a directory has no dot. -/
theorem Regular.no_dot {p : Path} {n : Str} (h : Regular (p ++ [n])) : '.' ∉ n := by
  rcases h with h | ⟨q, hq, hdots⟩
  · simp at h
  · rcases List.eq_nil_or_concat' q with rfl | ⟨q, x, rfl⟩
    · have hlib : p ++ [n] = [] ++ [libName] := hq
      obtain ⟨-, heq⟩ := List.append_inj' hlib rfl
      cases heq
      decide
    · rw [← List.append_assoc] at hq
      obtain ⟨-, heq⟩ := List.append_inj' hq rfl
      cases heq
      exact hdots _ (by simp)

/-- Only `lib` has the place of the script. -/
theorem Regular.eq_libName {n : Str} (h : Regular [n]) : n = libName := by
  rcases h with heq | ⟨q, heq, -⟩
  · cases heq
  · cases heq
    rfl

theorem regular_dir (m : Node) : Regular m.dir := by
  have hparts : ∀ n ∈ m.parts, '.' ∉ n := fun n hn => Node.parts_no_dot hn
  have hdrop : ∀ n ∈ m.parts.dropLast, '.' ∉ n := fun n hn => hparts n (List.mem_of_mem_dropLast hn)
  cases m with
  | script f => exact .inl rfl
  | named k i f => cases k <;> first | exact .inr ⟨_, rfl, hparts⟩ | exact .inr ⟨_, rfl, hdrop⟩

/-- What every run keeps of the disk: what is a directory is one for good reason. -/
structure Dirs (d : Disk Str) : Prop where
  root : ([], true) ∈ d
  lib : (libDir, true) ∈ d
  apart : ∀ p, (p, true) ∈ d → (p, false) ∉ d
  regular : ∀ p, (p, true) ∈ d → Regular p

namespace Dirs

variable {d d' : Disk Str} {p : Path}

theorem created : Dirs Pypack.created where
  root := by simp [Pypack.created]
  lib := by simp [Pypack.created]
  apart p hp := by simp [Pypack.created]
  regular p hp := by
    have hp' : p = [] ∨ p = libDir := by simpa [Pypack.created] using hp
    rcases hp' with rfl | rfl
    · exact .inl rfl
    · exact .inr ⟨[], rfl, by simp⟩

theorem makedirs (h : Dirs d) (hp : Regular p) : Dirs (d.makedirs p) where
  root := Disk.subset_makedirs h.root
  lib := Disk.subset_makedirs h.lib
  apart := Disk.makedirs_apart h.apart
  regular q hq := by
    rcases Disk.prefix_or_mem_of_makedirs hq with hq | hq
    · exact hp.above hq
    · exact h.regular q hq

theorem write (h : Dirs d) (hw : d.write p = some d') : Dirs d' := by
  have hdir : ∀ q, (q, true) ∈ d' ↔ (q, true) ∈ d := fun q => by simp [Disk.mem_write hw]
  refine ⟨(hdir _).2 h.root, (hdir _).2 h.lib, fun q hq => ?_,
    fun q hq => h.regular q ((hdir q).1 hq)⟩
  rw [Disk.mem_write hw]
  intro hfile
  rcases hfile with hfile | heq
  · exact h.apart q ((hdir q).1 hq) hfile
  · cases heq
    exact Disk.not_dir_of_write hw ((hdir p).1 hq)

theorem remove (h : Dirs d) (hp : (p, true) ∉ d) : Dirs (d.remove p) := by
  have hdir : ∀ q, (q, true) ∈ d → (q, true) ∈ d.remove p := by
    intro q hq
    refine Disk.mem_remove.2 ⟨hq, fun heq => ?_⟩
    dsimp only at heq
    exact hp (heq ▸ hq)
  exact ⟨hdir _ h.root, hdir _ h.lib,
    fun q hq hfile => h.apart q (Disk.mem_remove.1 hq).1 (Disk.mem_remove.1 hfile).1,
    fun q hq => h.regular q (Disk.mem_remove.1 hq).1⟩

theorem mem_singleton_iff (h : Dirs d) {n : Str} : ([n], true) ∈ d ↔ n = libName := by
  constructor
  · exact fun hn => (h.regular _ hn).eq_libName
  · rintro rfl
    exact h.lib

end Dirs

/-! ## What a run does -/

variable {app : App}

theorem copy_cases {d d' : Disk Str} {s : Str} {t p : Path} (h : copy app d s t = some (d', p)) :
    app.copies s = true ∧ d.write p = some d' ∧
      p = if (t, true) ∈ d then t ++ [s.basename] else t := by
  unfold copy at h
  dsimp only at h
  split at h
  · rename_i hs
    obtain ⟨d'', hw, heq⟩ := Option.map_eq_some_iff.1 h
    cases heq
    exact ⟨hs, hw, rfl⟩
  · cases h

theorem pyCompile_cases {d d' : Disk Str} {s : Str} {t : Path}
    (h : pyCompile app d s t = some d') :
    (t, false) ∈ d ∧ app.compiles s = true ∧ d.write (addEnding t app.letter) = some d' := by
  unfold pyCompile at h
  split at h
  · rename_i hs
    exact ⟨hs.1, hs.2, h⟩
  · cases h

/-- A compilation that comes to its end was given a name that is no directory,
or copied into the directory. -/
theorem compile_cases {b b' : Build} {m : Node} {s n : Str} {dir : Path} (hd : Dirs b.disk)
    (hdir : Regular dir) (h : compile app b m s (dir ++ [n]) = some b') :
    Dirs b'.disk ∧ app.copies s = true ∧
    ((dir ++ [n], true) ∉ b.disk ∧ (app.bytecompile = true → app.compiles s = true) ∧
        b'.log = b.log ++ [(m, dir ++ [if app.bytecompile then n ++ app.letter else n])] ∨
      (dir ++ [n], true) ∈ b.disk ∧ app.bytecompile = false ∧
        b'.log = b.log ++ [(m, dir ++ [n] ++ [s.basename])]) := by
  unfold compile at h
  rw [dirname, List.dropLast_concat] at h
  have hmade := hd.makedirs hdir
  -- making `dir` does not make what lies in it
  have hsame : (dir ++ [n], true) ∈ b.disk.makedirs dir ↔ (dir ++ [n], true) ∈ b.disk := by
    refine ⟨fun hin => ?_, fun hin => Disk.subset_makedirs hin⟩
    exact (Disk.prefix_or_mem_of_makedirs hin).resolve_left (Disk.child_not_above dir n)
  cases hc : copy app (b.disk.makedirs dir) s (dir ++ [n]) with
  | none => simp [hc] at h
  | some r =>
    obtain ⟨d, p⟩ := r
    obtain ⟨hs, hw, hp⟩ := copy_cases hc
    have hdirs := hmade.write hw
    simp only [hc] at h
    split at h
    · rename_i hbyte
      obtain ⟨d', hpc, heq⟩ := Option.map_eq_some_iff.1 h
      cases heq
      obtain ⟨hfile, hcomp, hw'⟩ := pyCompile_cases hpc
      have hdirs' := hdirs.write hw'
      have hnot : (dir ++ [n], true) ∉ d' := by
        intro hin
        exact hdirs'.apart _ hin ((Disk.mem_write hw').2 (.inl hfile))
      have hnot' : (dir ++ [n], true) ∉ b.disk := by
        intro hin
        have hd' := (Disk.mem_write hw).2 (.inl (hsame.2 hin))
        exact hnot ((Disk.mem_write hw').2 (.inl hd'))
      refine ⟨hdirs'.remove hnot, hs, .inl ⟨hnot', fun _ => hcomp, ?_⟩⟩
      rw [addEnding_concat, if_pos hbyte]
    · rename_i hbyte
      cases h
      refine ⟨hdirs, hs, ?_⟩
      rw [hp]
      by_cases hin : (dir ++ [n], true) ∈ b.disk
      · rw [if_pos (hsame.2 hin)]
        exact .inr ⟨hin, by simpa using hbyte, rfl⟩
      · rw [if_neg (fun h => hin (hsame.1 h)), if_neg hbyte]
        exact .inl ⟨hin, fun h => absurd h hbyte, rfl⟩

/-- What is known of a module that a run placed at `p`. -/
structure Placed (app : App) (m : Node) (p : Path) : Prop where
  wanted : m.wanted
  known : m.known
  readable : ∀ f, m.file = some f →
    app.copies f = true ∧ (app.bytecompile = true → ¬ m.isExtension → app.compiles f = true)
  /-- at its place, in `lib` for a script of that name, or instead of its directory -/
  place : p = app.spot m ∧ (m.isScript → app.script.basename ≠ libName) ∨
    m.isScript ∧ (∃ n, p = libDir ++ [n]) ∨ m.isExtension ∧ p = m.dir

theorem App.fileName_eq {m : Node} (h : ¬ m.isExtension) : app.fileName m =
    if app.bytecompile then app.copyName m ++ app.letter else app.copyName m := by
  simp [App.fileName, h]

theorem App.fileName_extension {m : Node} {f : Str} (h : m.isExtension) (hf : m.file = some f) :
    app.fileName m = f.basename := by
  have hcopy : app.copyName m = f.basename := by
    cases m with
    | script g => cases h
    | named k i g =>
      cases k with
      | extension => simp [App.copyName, hf]
      | _ => cases h
  simp [App.fileName, h, hcopy]

/-- The name of a copied source has a dot. -/
theorem App.dot_mem_copyName {m : Node} (hs : ¬ m.isScript) (he : ¬ m.isExtension) :
    '.' ∈ app.copyName m := by
  have hpy : '.' ∈ m.stem ++ dotPy := by simp [dotPy_eq]
  cases m with
  | script g => exact absurd rfl hs
  | named k i g =>
    cases k with
    | extension => exact absurd rfl he
    | _ => exact hpy

theorem add_sound {b b' : Build} {m : Node} (hd : Dirs b.disk) (h : add app b m = some b') :
    Dirs b'.disk ∧ (b' = b ∨ ∃ p, b'.log = b.log ++ [(m, p)] ∧ Placed app m p) := by
  by_cases hm : m.wanted ∧ m.known
  · obtain ⟨hw, hk⟩ := hm
    obtain ⟨f, hf⟩ := Option.isSome_iff_exists.1 (Node.wanted_iff.1 hw).1
    by_cases he : m.isExtension = true
    · rw [add_extension hf he] at h
      obtain ⟨⟨d, p⟩, hc, heq⟩ := Option.map_eq_some_iff.1 h
      cases heq
      obtain ⟨hs, hwrite, hp⟩ := copy_cases hc
      refine ⟨(hd.makedirs (regular_dir m)).write hwrite, .inr ⟨p, rfl, hw, hk, ?_, ?_⟩⟩
      · intro g hg
        cases hf.symm.trans hg
        exact ⟨hs, fun _ hn => absurd he hn⟩
      · have hscript : ¬ m.isScript = true := by simp [Node.isScript_of_isExtension he]
        rw [hp, App.spot, App.fileName_extension he hf]
        split
        · exact .inl ⟨rfl, fun h => absurd h hscript⟩
        · exact .inr (.inr ⟨he, rfl⟩)
    · rw [add_compile hf hw hk he] at h
      obtain ⟨hdirs, hs, hcases⟩ := compile_cases hd (regular_dir m) h
      refine ⟨hdirs, .inr ?_⟩
      rcases hcases with ⟨hnot, hcomp, hlog⟩ | ⟨hin, hbyte, hlog⟩
      · refine ⟨app.spot m, ?_, hw, hk, ?_, .inl ⟨rfl, ?_⟩⟩
        · rw [hlog, App.spot, App.fileName_eq he]
        · intro g hg
          cases hf.symm.trans hg
          exact ⟨hs, fun hb _ => hcomp hb⟩
        · intro hscript hname
          cases m with
          | script g => exact hnot (hd.mem_singleton_iff.2 hname)
          | named k i g => cases hscript
      · have hscript : m.isScript = true := by
          by_contra hns
          exact (hd.regular _ hin).no_dot (App.dot_mem_copyName hns he)
        refine ⟨_, hlog, hw, hk, ?_, .inr (.inl ⟨hscript, f.basename, ?_⟩)⟩
        · intro g hg
          cases hf.symm.trans hg
          exact ⟨hs, fun hb => by simp [hbyte] at hb⟩
        · cases m with
          | script g =>
            rw [hd.mem_singleton_iff.1 hin]
            rfl
          | named k i g => cases hscript
  · rw [add_skip hm] at h
    cases h
    exact ⟨hd, .inl rfl⟩

/-- Every run keeps the directories, and what it logs is true. -/
theorem addModules_sound {b b' : Build} {ms : List Node} (hd : Dirs b.disk)
    (h : addModules app b ms = some b') :
    Dirs b'.disk ∧ ∀ e ∈ b'.log, e ∈ b.log ∨ e.1 ∈ ms ∧ Placed app e.1 e.2 := by
  induction ms generalizing b with
  | nil =>
    cases h
    exact ⟨hd, fun e he => .inl he⟩
  | cons m ms ih =>
    obtain ⟨b₁, hadd, hrest⟩ := Option.bind_eq_some_iff.1 h
    obtain ⟨hd₁, hstep⟩ := add_sound hd hadd
    obtain ⟨hd', hlog⟩ := ih hd₁ hrest
    refine ⟨hd', fun e he => ?_⟩
    rcases hlog e he with he | ⟨he, hp⟩
    · rcases hstep with rfl | ⟨p, hlog₁, hp⟩
      · exact .inl he
      · rw [hlog₁] at he
        rcases List.mem_append.1 he with he | he
        · exact .inl he
        · cases List.mem_singleton.1 he
          exact .inr ⟨List.mem_cons_self, hp⟩
    · exact .inr ⟨List.mem_cons_of_mem m he, hp⟩

end Wubi.Pypack
