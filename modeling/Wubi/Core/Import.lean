import Wubi.Core.Text

/-!
# Where Python finds a module

The search of `imp.find_module` in a set of files: a directory of the module's
name that holds an `__init__` comes first, then the name with each suffix of
`imp.get_suffixes()`, in their order. What is loaded for a package is what the
same search finds for `__init__` in its directory, and a dotted name is looked up
part by part, each in the directory of the one before it.

`loads_file_iff` and `imports_concat` say it as a condition on the files: the one
that is found is there, and none that is tried before it.
-/
namespace Wubi.Import

abbrev Path := List Str

def initName : Str := "__init__".toList

def dotPy : Str := ".py".toList

/-- The endings behind the dot that the interpreter itself writes and reads. -/
def pyEndings : List Str := ["py".toList, "pyc".toList, "pyo".toList]

/-- `imp.get_suffixes()`: those of extensions, `.py`, others that stand for a
source, and that of bytecode. -/
structure Suffixes where
  extensions : List Str
  others : List Str
  /-- `python -O`: bytecode is `.pyo` -/
  optimize : Bool
  foreign : ∀ s ∈ extensions ++ others, ∃ a e : Str, s = a ++ '.' :: e ∧ '.' ∉ a ∧ e ∉ pyEndings

/-- The suffix of bytecode. -/
def Suffixes.compiled (σ : Suffixes) : Str :=
  if σ.optimize then ".pyo".toList else ".pyc".toList

def Suffixes.table (σ : Suffixes) : List Str := σ.extensions ++ dotPy :: (σ.others ++ [σ.compiled])

/-- The file names that are tried for the module `n`, in order. -/
def Suffixes.names (σ : Suffixes) (n : Str) : List Str := σ.table.map (n ++ ·)

/-- Those before the name `b`. -/
def Suffixes.tried (σ : Suffixes) (n b : Str) : List Str := (σ.names n).takeWhile (· ≠ b)

inductive Found
  | package (dir : Path)
  | file (p : Path)

variable (σ : Suffixes) (files : List Path)

/-- The directory holds an `__init__`, as source or as bytecode. -/
def isPackage (d : Path) : Bool :=
  d ++ [initName ++ dotPy] ∈ files ∨ d ++ [initName ++ σ.compiled] ∈ files

/-- `imp.find_module(n, [d])` -/
def findModule (d : Path) (n : Str) : Option Found :=
  if isPackage σ files (d ++ [n]) then some (.package (d ++ [n]))
  else ((σ.names n).find? fun b => d ++ [b] ∈ files).map fun b => .file (d ++ [b])

/-- The file `p` is what is loaded for the module `n` in the directory `d`. -/
inductive Loads : Path → Str → Path → Prop
  | file {d p : Path} {n : Str} : findModule σ files d n = some (.file p) → Loads d n p
  | package {d e p : Path} {n : Str} :
      findModule σ files d n = some (.package e) → Loads e initName p → Loads d n p

/-- The file `p` is what an import of the dotted name finds from the directory `d`. -/
inductive Imports : Path → List Str → Path → Prop
  | last {d p : Path} {n : Str} : Loads σ files d n p → Imports d [n] p
  | part {d e p : Path} {n m : Str} {ns : List Str} :
      findModule σ files d n = some (.package e) → Imports e (m :: ns) p →
        Imports d (n :: m :: ns) p

variable {σ files} {d p : Path} {n b : Str}

/-! ## The table -/

theorem dotPy_eq : dotPy = '.' :: "py".toList := by decide

theorem Suffixes.compiled_eq : ∃ e ∈ pyEndings, σ.compiled = '.' :: e := by
  unfold compiled
  split
  · exact ⟨"pyo".toList, by decide, by decide⟩
  · exact ⟨"pyc".toList, by decide, by decide⟩

theorem Suffixes.mem_table {s : Str} (h : s ∈ σ.table) :
    ∃ a e : Str, s = a ++ '.' :: e ∧ '.' ∉ a ∧ (e ∈ pyEndings → a = []) := by
  have hforeign : s ∈ σ.extensions ++ σ.others →
      ∃ a e : Str, s = a ++ '.' :: e ∧ '.' ∉ a ∧ (e ∈ pyEndings → a = []) := by
    intro hs
    obtain ⟨a, e, rfl, ha, he⟩ := σ.foreign s hs
    exact ⟨a, e, rfl, ha, fun hin => absurd hin he⟩
  simp only [table, List.mem_append, List.mem_cons, List.not_mem_nil, or_false] at h
  rcases h with h | rfl | h | rfl
  · exact hforeign (List.mem_append_left _ h)
  · exact ⟨[], _, dotPy_eq, List.not_mem_nil, fun _ => rfl⟩
  · exact hforeign (List.mem_append_right _ h)
  · obtain ⟨e, -, he⟩ := σ.compiled_eq
    exact ⟨[], e, he, List.not_mem_nil, fun _ => rfl⟩

theorem Suffixes.dotPy_mem : dotPy ∈ σ.table := by simp [table]

theorem Suffixes.compiled_mem : σ.compiled ∈ σ.table := by simp [table]

theorem Suffixes.mem_names : b ∈ σ.names n ↔ ∃ s ∈ σ.table, n ++ s = b := List.mem_map

/-- Each name that is tried has a dot, which a module's name has not. -/
theorem Suffixes.dot_mem (h : b ∈ σ.names n) : '.' ∈ b := by
  obtain ⟨s, hs, rfl⟩ := mem_names.1 h
  obtain ⟨a, e, rfl, -⟩ := mem_table hs
  simp

/-- Two modules share no file name that ends like a source or like bytecode. -/
theorem Suffixes.eq_of_names {y own : Str} (hb : y ++ own ∈ σ.names n) (hn : '.' ∉ n) (hy : '.' ∉ y)
    (hown : own = dotPy ∨ own = σ.compiled) : n = y := by
  have hend : ∃ e ∈ pyEndings, own = '.' :: e := by
    rcases hown with rfl | rfl
    · exact ⟨_, by decide, dotPy_eq⟩
    · exact compiled_eq
  obtain ⟨e, he, rfl⟩ := hend
  obtain ⟨s, hs, heq⟩ := mem_names.1 hb
  obtain ⟨a, e', rfl, ha, hpy⟩ := mem_table hs
  have hna : '.' ∉ n ++ a := by
    simp only [List.mem_append, not_or]
    exact ⟨hn, ha⟩
  rw [← List.append_assoc] at heq
  obtain ⟨hstem, -, rfl⟩ := Str.append_cons_inj (Str.bne_of_not_mem hna) (Str.bne_of_not_mem hy)
    (bne_self_eq_false '.') (bne_self_eq_false '.') heq
  rw [hpy he, List.append_nil] at hstem
  exact hstem

/-! ## The search -/

theorem find?_eq_some_iff_takeWhile {α : Type} [DecidableEq α] {q : α → Bool} {x : α} {l : List α} :
    l.find? q = some x ↔ x ∈ l ∧ q x = true ∧ ∀ y ∈ l.takeWhile (· ≠ x), q y = false := by
  induction l with
  | nil => simp
  | cons z l ih =>
    rcases eq_or_ne z x with rfl | hne
    · cases hz : q z with
      | true => simp [hz]
      | false =>
        rw [List.find?_cons_of_neg (by simp [hz]), ih]
        simp [hz]
    · cases hz : q z with
      | true => simp [hz, hne]
      | false =>
        rw [List.find?_cons_of_neg (by simp [hz]), ih]
        simp [hz, hne, hne.symm]

theorem findModule_package {e : Path} (h : findModule σ files d n = some (.package e)) :
    e = d ++ [n] ∧ isPackage σ files (d ++ [n]) = true := by
  unfold findModule at h
  split at h
  · cases h
    exact ⟨rfl, ‹_›⟩
  · obtain ⟨b, -, hb⟩ := Option.map_eq_some_iff.1 h
    cases hb

theorem findModule_of_package (h : isPackage σ files (d ++ [n]) = true) :
    findModule σ files d n = some (.package (d ++ [n])) := if_pos h

theorem findModule_file : findModule σ files d n = some (.file p) ↔
    isPackage σ files (d ++ [n]) = false ∧ ∃ b ∈ σ.names n, p = d ++ [b] ∧ d ++ [b] ∈ files ∧
      ∀ c ∈ σ.tried n b, d ++ [c] ∉ files := by
  unfold findModule
  split
  · simp [*]
  · rename_i hpkg
    simp only [Option.map_eq_some_iff, find?_eq_some_iff_takeWhile, Bool.not_eq_true] at hpkg ⊢
    simp only [hpkg, decide_eq_true_eq, decide_eq_false_iff_not, Found.file.injEq, true_and]
    constructor
    · intro h
      obtain ⟨b, ⟨hb, hin, hfirst⟩, rfl⟩ := h
      exact ⟨b, hb, rfl, hin, hfirst⟩
    · intro h
      obtain ⟨b, hb, rfl, hin, hfirst⟩ := h
      exact ⟨b, ⟨hb, hin, hfirst⟩, rfl⟩

/-- What is found lies in the directory, or in one of the module's name. -/
theorem Loads.cases_path (h : Loads σ files d n p) :
    (∃ b ∈ σ.names n, p = d ++ [b]) ∨ ∃ r, r ≠ [] ∧ p = d ++ n :: r := by
  induction h with
  | file h =>
    obtain ⟨-, b, hb, hp, -⟩ := findModule_file.1 h
    exact .inl ⟨b, hb, hp⟩
  | package h _ ih =>
    obtain ⟨rfl, -⟩ := findModule_package h
    rcases ih with ⟨b, -, rfl⟩ | ⟨r, -, rfl⟩
    · exact .inr ⟨[b], by simp⟩
    · exact .inr ⟨initName :: r, by simp⟩

/-- The file `b` in the directory is loaded for the module `n` if and only if it
is the first of the names that are tried, and there is no package of that name. -/
theorem loads_file_iff (hn : '.' ∉ n) (hb : '.' ∈ b) : Loads σ files d n (d ++ [b]) ↔
    isPackage σ files (d ++ [n]) = false ∧ b ∈ σ.names n ∧ d ++ [b] ∈ files ∧
      ∀ c ∈ σ.tried n b, d ++ [c] ∉ files := by
  constructor
  · intro h
    cases h with
    | file h =>
      obtain ⟨hpkg, b', hb', heq, hin, hfirst⟩ := findModule_file.1 h
      cases List.append_cancel_left heq
      exact ⟨hpkg, hb', hin, hfirst⟩
    | package h hrest =>
      obtain ⟨rfl, -⟩ := findModule_package h
      -- whatever lies in the directory `n` is not the file `b` beside it
      have hpre : n = b := by
        rcases hrest.cases_path with ⟨c, -, heq⟩ | ⟨r, -, heq⟩
        · simp at heq
        · simp at heq
      rw [hpre] at hn
      exact absurd hb hn
  · intro h
    obtain ⟨hpkg, hmem, hin, hfirst⟩ := h
    exact .file (findModule_file.2 ⟨hpkg, b, hmem, rfl, hin, hfirst⟩)

theorem loads_package (h : isPackage σ files (d ++ [n]) = true) :
    Loads σ files d n p ↔ Loads σ files (d ++ [n]) initName p := by
  constructor
  · intro hload
    cases hload with
    | file hfile =>
      rw [findModule_of_package h] at hfile
      cases hfile
    | package hpkg hrest =>
      obtain ⟨rfl, -⟩ := findModule_package hpkg
      exact hrest
  · exact .package (findModule_of_package h)

theorem Loads.unique {p' : Path} (h : Loads σ files d n p) (h' : Loads σ files d n p') :
    p = p' := by
  induction h with
  | file hfile =>
    cases h' with
    | file hfile' =>
      rw [hfile] at hfile'
      cases hfile'
      rfl
    | package hpkg' _ =>
      rw [hfile] at hpkg'
      cases hpkg'
  | package hpkg _ ih =>
    cases h' with
    | file hfile' =>
      rw [hpkg] at hfile'
      cases hfile'
    | package hpkg' hrest' =>
      rw [hpkg] at hpkg'
      cases hpkg'
      exact ih hrest'

/-- Through packages, an import comes to the directory of the last of them. -/
theorem imports_concat {ns : List Str}
    (h : ∀ q, q ≠ [] → q <+: ns → isPackage σ files (d ++ q) = true) :
    Imports σ files d (ns ++ [n]) p ↔ Loads σ files (d ++ ns) n p := by
  induction ns generalizing d with
  | nil =>
    rw [List.nil_append, List.append_nil]
    constructor
    · intro himp
      cases himp with
      | last hload => exact hload
    · exact .last
  | cons m ns ih =>
    have hm : isPackage σ files (d ++ [m]) = true := h [m] (by simp) (by simp)
    have hrest : ∀ q, q ≠ [] → q <+: ns → isPackage σ files (d ++ [m] ++ q) = true := by
      intro q _ hq
      rw [List.append_assoc]
      exact h _ (by simp) (by simpa using hq)
    rw [List.append_cons d m ns, ← ih hrest]
    obtain ⟨x, xs, hxs⟩ := List.exists_cons_of_ne_nil (l := ns ++ [n]) (by simp)
    rw [List.cons_append, hxs]
    constructor
    · intro himp
      cases himp with
      | part hpkg himp =>
        obtain ⟨rfl, -⟩ := findModule_package hpkg
        exact himp
    · exact .part (findModule_of_package hm)

end Wubi.Import
