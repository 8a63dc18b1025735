import Wubi.Pypack.Application

/-!
# What a complete output asks of the modules

The output is `Complete` if each module that has a file, but for a script that
begins with an underscore, has one file in it, which an import of its dotted
identifier finds below `lib` (or which is the script in the output directory),
and no two have the same.

**The condition.** `Packable` is about the modules and their file names alone:
their classes are those that `add_dependencies` knows, their files can be copied
and compiled, the script is not called `lib`, the file name of an extension is
its last name with a suffix of Python's, no module below a package is called
`__init__`, and no extension has the file name of another module in its
directory, or one that is tried before it.

**Results.** A module of a class that is not known is dropped in every run
(`not_mem_log_of_unknown`). Where the packing came to its end with a complete
output, the condition holds (`Complete.packable`).
-/
namespace Wubi.Pypack

open Import

/-- The file `p` is where the module `m` is looked for. -/
def Located (app : App) (b : Build) (m : Node) (p : Path) : Prop :=
  (p, false) ∈ b.disk ∧
    if m.isScript then p.dropLast = [] else Imports app.suffixes b.disk.files libDir m.parts p

structure Complete (app : App) (ms : Modules) (b : Build) : Prop where
  placed : ∀ m ∈ ms.nodes, m.wanted → ∃ p, (∀ q, (m, q) ∈ b.log ↔ q = p) ∧ Located app b m p
  distinct : (b.log.map Prod.snd).Nodup
  nothingElse : ∀ p, (p, false) ∈ b.disk ↔ ∃ m ∈ ms.nodes, m.wanted ∧ (m, p) ∈ b.log

/-- The file of the extension `e`, which keeps its name, is one that import tries
for the module `m`, up to that module's own. -/
def Hides (app : App) (e m : Node) : Prop :=
  e.isExtension ∧ e.dir = m.dir ∧
    app.fileName e ∈ app.suffixes.tried m.stem (app.fileName m) ++ [app.fileName m]

instance (app : App) (e m : Node) : Decidable (Hides app e m) :=
  inferInstanceAs (Decidable (_ ∧ _))

/-- The modules for which `add_dependencies` does its work. -/
structure Packable (app : App) (ms : Modules) : Prop where
  known : ∀ m ∈ ms.nodes, m.wanted → m.known
  readable : ∀ m ∈ ms.nodes, m.wanted → ∀ f ∈ m.file,
    app.copies f = true ∧ (app.bytecompile = true → ¬ m.isExtension → app.compiles f = true)
  script : ∀ m ∈ ms.nodes, m.wanted → m.isScript → app.script.basename ≠ libName
  suffix : ∀ m ∈ ms.nodes, m.wanted → m.isExtension → ∀ f ∈ m.file,
    f.basename ∈ app.suffixes.names m.stem
  init : ∀ m ∈ ms.nodes, m.wanted → m.isScript = false → m.parts.dropLast ≠ [] →
    m.parts.getLastD [] ≠ initName
  apart : ∀ m ∈ ms.nodes, ∀ e ∈ ms.nodes, m.wanted → e.wanted → m.isScript = false → e ≠ m →
    ¬ Hides app e m

/-! ## Names and packages -/

section
variable {app : App} {ms : Modules} {m e : Node} {q : Path}

/-- The ending of the file that stays for a source. -/
def App.own (app : App) : Str := if app.bytecompile then app.suffixes.compiled else dotPy

theorem App.own_cases (app : App) : app.own = dotPy ∨ app.own = app.suffixes.compiled := by
  unfold App.own
  split
  · exact .inr rfl
  · exact .inl rfl

theorem App.own_mem (app : App) : app.own ∈ app.suffixes.table := by
  rcases app.own_cases with h | h
  · exact h ▸ Suffixes.dotPy_mem
  · exact h ▸ Suffixes.compiled_mem

theorem Node.stem_no_dot (hs : m.isScript = false) : '.' ∉ m.stem := by
  have hlast : '.' ∉ m.parts.getLastD [] := by
    obtain ⟨q, n, h⟩ := m.exists_parts
    simpa [h] using m.parts_no_dot (n := n) (by simp [h])
  cases m with
  | script f => cases hs
  | named k i f =>
    cases k with
    | package =>
      change '.' ∉ initName
      decide
    | _ => exact hlast

theorem App.copyName_source (hs : m.isScript = false) (he : ¬ m.isExtension) :
    app.copyName m = m.stem ++ dotPy := by
  cases m with
  | script f => cases hs
  | named k i f =>
    cases k with
    | extension => exact absurd rfl he
    | _ => rfl

theorem App.fileName_source (hs : m.isScript = false) (he : ¬ m.isExtension) :
    app.fileName m = m.stem ++ app.own := by
  rw [App.fileName_eq he, App.copyName_source hs he, App.own, List.append_assoc, app.dotPy_letter]
  split <;> rfl

theorem Node.dir_package (h : m.isPackage) : m.dir = libDir ++ m.parts ∧ m.stem = initName := by
  cases m with
  | script f => cases h
  | named k i f =>
    cases k with
    | package => exact ⟨rfl, rfl⟩
    | _ => cases h

/-- Where its own file is there, a package is one for import. -/
theorem App.isPackage_of_spot {files : List Path} (hk : m.isPackage) (h : app.spot m ∈ files) :
    Import.isPackage app.suffixes files (libDir ++ m.parts) = true := by
  have he : ¬ m.isExtension := fun he => Node.not_isPackage_of_isExtension he hk
  have hfile : libDir ++ m.parts ++ [initName ++ app.own] ∈ files := by
    rwa [← (Node.dir_package hk).1, ← (Node.dir_package hk).2,
      ← App.fileName_source (Node.isScript_of_isPackage hk) he]
  rw [Import.isPackage, decide_eq_true_eq]
  rcases app.own_cases with hown | hown
  · exact .inl (hown ▸ hfile)
  · exact .inr (hown ▸ hfile)

theorem Node.dir_module (hs : m.isScript = false) (h : ¬ m.isPackage) :
    m.dir = libDir ++ m.parts.dropLast ∧ m.stem = m.parts.getLastD [] := by
  cases m with
  | script f => cases hs
  | named k i f =>
    cases k with
    | package => exact absurd rfl h
    | _ => exact ⟨rfl, rfl⟩

/-- A module with a file is known by its parts. -/
theorem Modules.eq_of_parts (hm : m ∈ ms.nodes) (he : e ∈ ms.nodes) (hmf : m.file.isSome)
    (hef : e.file.isSome) (h : m.parts = e.parts) : m = e := by
  have hjoin : ∀ x : Node, ['.'].intercalate x.parts = x.identifier :=
    fun x => List.intercalate_splitOn '.'
  have hid : m.identifier = e.identifier := by rw [← hjoin m, ← hjoin e, h]
  exact List.inj_on_of_nodup_map ms.distinct (List.mem_filter.2 ⟨hm, hmf⟩)
    (List.mem_filter.2 ⟨he, hef⟩) hid

theorem Node.wanted_of_package (hf : m.file.isSome) (h : m.isPackage) : m.wanted := by
  refine Node.wanted_iff.2 ⟨hf, fun hs => ?_⟩
  rw [Node.isScript_of_isPackage h] at hs
  cases hs

/-- Every directory on the way to a module is that of a package. -/
theorem Modules.exists_package (hm : m ∈ ms.nodes) (hf : m.file.isSome) (hs : m.isScript = false)
    (hq : q ≠ []) (hpre : q <+: m.parts.dropLast) :
    ∃ P ∈ ms.nodes, P.wanted ∧ P.isPackage ∧ P.parts = q := by
  induction hn : m.parts.length using Nat.strongRecOn generalizing m with
  | _ n ih =>
    have hne : m.parts.dropLast ≠ [] := fun h => hq (List.prefix_nil.1 (h ▸ hpre))
    obtain ⟨P, hP, hPf, hpkg, hparts⟩ := ms.inPackage m hm hf hs hne
    rcases eq_or_ne q m.parts.dropLast with rfl | hqne
    · exact ⟨P, hP, Node.wanted_of_package hPf hpkg, hpkg, hparts⟩
    · have hlen : P.parts.length < n := by
        have hpos := List.length_pos_of_ne_nil hne
        rw [hparts]
        rw [List.length_dropLast] at hpos ⊢
        omega
      have hpre' : q <+: P.parts.dropLast := by
        obtain ⟨r, hr⟩ := hpre
        rw [hparts, ← hr]
        rcases List.eq_nil_or_concat' r with rfl | ⟨r, x, rfl⟩
        · exact absurd (by simpa using hr) hqne
        · rw [← List.append_assoc, List.dropLast_concat]
          exact List.prefix_append q r
      exact ih _ hlen hP hPf (Node.isScript_of_isPackage hpkg) hpre' rfl

/-- Where the packages' own files are there, an import of a module looks for its
name in its directory. -/
theorem Modules.imports_iff {files : List Path} {p : Path} (hm : m ∈ ms.nodes) (hw : m.wanted)
    (hs : m.isScript = false) (hpkg : ∀ P ∈ ms.nodes, P.wanted → P.isPackage →
      Import.isPackage app.suffixes files (libDir ++ P.parts) = true) :
    Imports app.suffixes files libDir m.parts p ↔ Loads app.suffixes files m.dir m.stem p := by
  have hf := (Node.wanted_iff.1 hw).1
  obtain ⟨q, n, hparts⟩ := m.exists_parts
  have hway : ∀ r, r ≠ [] → r <+: q → Import.isPackage app.suffixes files (libDir ++ r) = true := by
    intro r hr hpre
    obtain ⟨P, hP, hPw, hPk, rfl⟩ := ms.exists_package hm hf hs hr (by simpa [hparts] using hpre)
    exact hpkg P hP hPw hPk
  rw [hparts, imports_concat hway]
  by_cases hk : m.isPackage = true
  · have hself := hpkg m hm hw hk
    rw [hparts, ← List.append_assoc] at hself
    rw [loads_package hself, (Node.dir_package hk).1, (Node.dir_package hk).2, hparts,
      List.append_assoc]
  · rw [(Node.dir_module hs hk).1, (Node.dir_module hs hk).2, hparts]
    simp

/-! ## A complete output had modules that can be packed -/

theorem App.dot_mem_fileName (hs : m.isScript = false)
    (h : m.isExtension → ∀ f, m.file = some f → f.basename ∈ app.suffixes.names m.stem)
    (hw : m.wanted) : '.' ∈ app.fileName m := by
  by_cases he : m.isExtension = true
  · obtain ⟨f, hf⟩ := Option.isSome_iff_exists.1 (Node.wanted_iff.1 hw).1
    rw [App.fileName_extension he hf]
    exact Suffixes.dot_mem (h he f hf)
  · rw [App.fileName_source hs he]
    rcases app.own_cases with hown | hown
    · simp [hown, dotPy_eq]
    · obtain ⟨x, -, hx⟩ := app.suffixes.compiled_eq
      simp [hown, hx]

/-- A module of a class that `add_dependencies` does not know is dropped. -/
theorem not_mem_log_of_unknown {b : Build} (hrun : addDependencies app ms = some b)
    (hk : ¬ m.known) (p : Path) : (m, p) ∉ b.log := by
  intro hin
  rcases (addModules_sound Dirs.created hrun).2 _ hin with hnil | ⟨-, hp⟩
  · cases hnil
  · exact hk hp.known

section
variable {b : Build} (hrun : addDependencies app ms = some b) (h : Complete app ms b)
include hrun h

theorem Complete.exists_placed (hm : m ∈ ms.nodes) (hw : m.wanted) :
    ∃ p, (m, p) ∈ b.log ∧ Located app b m p ∧ Placed app m p := by
  obtain ⟨p, honly, hloc⟩ := h.placed m hm hw
  have hin : (m, p) ∈ b.log := (honly p).2 rfl
  rcases (addModules_sound Dirs.created hrun).2 _ hin with hnil | ⟨-, hp⟩
  · cases hnil
  · exact ⟨p, hin, hloc, hp⟩

theorem Complete.isPackage (P : Node) (hP : P ∈ ms.nodes) (hw : P.wanted) (hk : P.isPackage) :
    Import.isPackage app.suffixes b.disk.files (libDir ++ P.parts) = true := by
  obtain ⟨p, -, hloc, hplaced⟩ := h.exists_placed hrun hP hw
  have hspot : p = app.spot P := by
    rcases hplaced.place with ⟨hp, -⟩ | ⟨hscript, -⟩ | ⟨hext, -⟩
    · exact hp
    · rw [Node.isScript_of_isPackage hk] at hscript
      cases hscript
    · exact absurd hk (Node.not_isPackage_of_isExtension hext)
  exact App.isPackage_of_spot hk (hspot ▸ Disk.mem_files.2 hloc.1)

/-- Each module is at its place, where it is loaded from. -/
theorem Complete.loads (hm : m ∈ ms.nodes) (hw : m.wanted) (hs : m.isScript = false) :
    (m, app.spot m) ∈ b.log ∧ Loads app.suffixes b.disk.files m.dir m.stem (app.spot m) := by
  obtain ⟨p, hin, hloc, hplaced⟩ := h.exists_placed hrun hm hw
  have himp : Imports app.suffixes b.disk.files libDir m.parts p := by
    simpa [hs] using hloc.2
  rw [ms.imports_iff hm hw hs (h.isPackage hrun)] at himp
  rcases hplaced.place with ⟨hp, -⟩ | ⟨hscript, -⟩ | ⟨-, hp⟩
  · exact hp ▸ ⟨hin, himp⟩
  · rw [hs] at hscript
    cases hscript
  · -- a file in the place of the directory is loaded for no module in it
    rw [hp] at himp
    rcases himp.cases_path with ⟨c, -, heq⟩ | ⟨r, -, heq⟩
    · simp at heq
    · simp at heq

theorem Complete.suffix (hm : m ∈ ms.nodes) (hw : m.wanted) (he : m.isExtension) {f : Str}
    (hf : m.file = some f) : f.basename ∈ app.suffixes.names m.stem := by
  obtain ⟨-, hload⟩ := h.loads hrun hm hw (Node.isScript_of_isExtension he)
  rw [App.spot, App.fileName_extension he hf] at hload
  rcases hload.cases_path with ⟨c, hc, heq⟩ | ⟨r, hr, heq⟩
  · cases List.append_cancel_left heq
    exact hc
  · have hnil := (List.cons.inj (List.append_cancel_left heq)).2
    exact absurd hnil.symm hr

theorem Complete.loads_first (hm : m ∈ ms.nodes) (hw : m.wanted) (hs : m.isScript = false) :
    Import.isPackage app.suffixes b.disk.files (m.dir ++ [m.stem]) = false ∧
      app.spot m ∈ b.disk.files ∧
      ∀ c ∈ app.suffixes.tried m.stem (app.fileName m), m.dir ++ [c] ∉ b.disk.files := by
  obtain ⟨-, hload⟩ := h.loads hrun hm hw hs
  have hdot := App.dot_mem_fileName hs (fun he f hf => h.suffix hrun hm hw he hf) hw
  obtain ⟨hpkg, -, hin, hfirst⟩ := (loads_file_iff (Node.stem_no_dot hs) hdot).1 hload
  exact ⟨hpkg, hin, hfirst⟩

/-- Two modules have not the same place. -/
theorem Complete.eq_of_spot (hm : m ∈ ms.nodes) (hmw : m.wanted) (hms : m.isScript = false)
    (he : e ∈ ms.nodes) (hew : e.wanted) (hes : e.isScript = false)
    (hspot : app.spot m = app.spot e) : m = e := by
  have hlog := (h.loads hrun hm hmw hms).1
  have hlog' := (h.loads hrun he hew hes).1
  exact congrArg Prod.fst (List.inj_on_of_nodup_map h.distinct hlog hlog' hspot)

theorem Complete.init (hm : m ∈ ms.nodes) (hw : m.wanted) (hs : m.isScript = false)
    (hne : m.parts.dropLast ≠ []) : m.parts.getLastD [] ≠ initName := by
  intro hlast
  obtain ⟨P, hP, hPf, hPk, hparts⟩ := ms.inPackage m hm (Node.wanted_iff.1 hw).1 hs hne
  have hPw := Node.wanted_of_package hPf hPk
  have hPs := Node.isScript_of_isPackage hPk
  obtain ⟨hPdir, hPstem⟩ := Node.dir_package hPk
  by_cases hk : m.isPackage = true
  · -- the package `__init__` comes before the file of its parent
    have hpkg := h.isPackage hrun m hm hw hk
    have hfirst := (h.loads_first hrun hP hPw hPs).1
    obtain ⟨q, n, hq⟩ := m.exists_parts
    have hself : libDir ++ m.parts = P.dir ++ [P.stem] := by
      rw [hPdir, hPstem, hparts, ← hlast, hq]
      simp
    rw [← hself, hpkg] at hfirst
    cases hfirst
  · -- the module and its parent are looked for under one name
    obtain ⟨hdir, hstem⟩ := Node.dir_module hs hk
    have hload := (h.loads hrun hm hw hs).2
    have hPload := (h.loads hrun hP hPw hPs).2
    rw [hPdir, hPstem, hparts, ← hlast, ← hstem, ← hdir] at hPload
    have heq := h.eq_of_spot hrun hm hw hs hP hPw hPs (hload.unique hPload)
    exact hk (heq ▸ hPk)

theorem Complete.packable : Packable app ms where
  known m hm hw := by
    obtain ⟨p, -, -, hplaced⟩ := h.exists_placed hrun hm hw
    exact hplaced.known
  readable m hm hw := by
    obtain ⟨p, -, -, hplaced⟩ := h.exists_placed hrun hm hw
    exact hplaced.readable
  script m hm hw hs := by
    obtain ⟨p, -, hloc, hplaced⟩ := h.exists_placed hrun hm hw
    rcases hplaced.place with ⟨-, hname⟩ | ⟨-, n, rfl⟩ | ⟨he, -⟩
    · exact hname hs
    · have hroot : (libDir ++ [n]).dropLast = [] := by simpa [hs] using hloc.2
      simp [libDir] at hroot
    · rw [Node.isScript_of_isExtension he] at hs
      cases hs
  suffix m hm hw he f hf := h.suffix hrun hm hw he hf
  init m hm hw hs hne := h.init hrun hm hw hs hne
  apart m hm e he hmw hew hs hne hhides := by
    obtain ⟨hext, hdir, hin⟩ := hhides
    have hes := Node.isScript_of_isExtension hext
    have hspot : app.spot e = m.dir ++ [app.fileName e] := by rw [App.spot, hdir]
    rcases List.mem_append.1 hin with hin | hin
    · have hfile := (h.loads_first hrun he hew hes).2.1
      rw [hspot] at hfile
      exact (h.loads_first hrun hm hmw hs).2.2 _ hin hfile
    · rw [List.mem_singleton.1 hin] at hspot
      exact hne (h.eq_of_spot hrun he hew hes hm hmw hs hspot)

end

end

end Wubi.Pypack
