import Mathlib.Algebra.Ring.Nat
import Wubi.Core.CommandLine

/-!
# The arguments on their way to the script

Model of the three programs `src/pylauncher/header.c`, `pylauncher.c` and
`pyrun.c` as far as they handle arguments: each of the first two puts its
arguments behind three paths in quotes and starts the next program, and the
last one copies them into an array of 100 for `Py_Main`. The arguments
themselves are not quoted.

Results:
* `pyMain_iff`: the script gets the arguments exactly where all of them are
  plain, there are at most 95 and the command lines are short enough.
-/
namespace Wubi.Launcher

open CommandLine (argvOf splitArgs tail Plain)

/-- A path of a file: Windows allows no quotes in one, and it is no directory
that ends in a separator. -/
structure FilePath where
  text : Str
  noQuote : '"' ∉ text
  noSep : text.getLast? ≠ some '\\'

def quoted (path : Str) : Str := '"' :: (path ++ ['"'])

/-- The limit of `CreateProcess` on the command line, its NUL included. -/
def maxCommand : Nat := 32767

/-- The `argv` of the process that `CreateProcess(NULL, cmd, ..)` starts. -/
def createProcess (cmd : Str) : Option (List Str) :=
  if cmd.length + 1 ≤ maxCommand then some (argvOf cmd) else none

/-- The loop over the arguments: `cmd = concat(cmd, " ")`, then the argument. -/
def concatArgs (cmd : Str) (args : List Str) : Str :=
  args.foldl (fun cmd arg => cmd ++ [' '] ++ arg) cmd

/-- mirrors src/pylauncher/header.c:66,86-92 -/
def headerCommand (targetdir exefile : Str) (args : List Str) : Str :=
  concatArgs (quoted (targetdir ++ ['.', 'e', 'x', 'e']) ++ [' '] ++ quoted targetdir ++ [' '] ++
    quoted exefile) args

/-- mirrors src/pylauncher/pylauncher.c:58-63 -/
def pylauncherCommand (targetdir exefile : Str) (args : List Str) : Str :=
  concatArgs (quoted (targetdir ++ ['\\', 'p', 'y', 'r', 'u', 'n', '.', 'e', 'x', 'e']) ++ [' '] ++
    quoted targetdir ++ [' '] ++ quoted exefile) args

/-- `main` of pylauncher: the `argv` of pyrun.
mirrors src/pylauncher/pylauncher.c:46-70 -/
def pylauncherMain : List Str → Option (List Str)
  | _ :: targetdir :: exefile :: args => createProcess (pylauncherCommand targetdir exefile args)
  | _ => none

/-- The slots of `argv`. -/
def argvSlots : Nat := 100

/-- `argv[nargs] = av[i]; nargs++`; nothing is promised about a write outside. -/
def storeArg (argv : List Str) (arg : Str) : Option (List Str) :=
  if argv.length < argvSlots then some (argv ++ [arg]) else none

/-- What `Py_Main` gets in front of the arguments.
mirrors src/pylauncher/pyrun.c:104-108 -/
def pyArgs (exe exefile : Str) : List Str :=
  [exe, ['-', 'S'], ['-', 'O', 'O'], ['m', 'a', 'i', 'n', '.', 'p', 'y', 'o'],
    ['-', '-', 'e', 'x', 'e', 'f', 'i', 'l', 'e', '='] ++ quoted exefile]

/-- `main` of pyrun, whose own path is `exe`: the arguments of `Py_Main`.
mirrors src/pylauncher/pyrun.c:74-119 -/
def pyrunMain (exe : Str) : List Str → Option (List Str)
  | _ :: _ :: exefile :: args => args.foldlM storeArg (pyArgs exe exefile)
  | _ => none

/-- From the arguments of the executable to those of `Py_Main`.
mirrors src/pylauncher/header.c:85-97 -/
def pyMain (targetdir exefile : Str) (args : List Str) : Option (List Str) := do
  let av ← createProcess (headerCommand targetdir exefile args)
  let av ← pylauncherMain av
  pyrunMain (targetdir ++ ['\\', 'p', 'y', 'r', 'u', 'n', '.', 'e', 'x', 'e']) av

/-! ## The pieces -/

theorem concatArgs_eq {cmd : Str} {args : List Str} : concatArgs cmd args = cmd ++ tail args := by
  induction args generalizing cmd with
  | nil => simp [concatArgs]
  | cons a args ih =>
    rw [concatArgs, List.foldl_cons]
    exact ih.trans (by simp)

/-- Three paths in quotes come back, and the arguments are split. -/
theorem argvOf_paths {exe : Str} {dir file : FilePath} {args : List Str} (hexe : '"' ∉ exe) :
    argvOf (concatArgs (quoted exe ++ [' '] ++ quoted dir.text ++ [' '] ++ quoted file.text) args) =
      exe :: dir.text :: file.text :: splitArgs none .plain 0 (tail args) := by
  have hcmd : concatArgs (quoted exe ++ [' '] ++ quoted dir.text ++ [' '] ++ quoted file.text) args =
      '"' :: (exe ++ '"' :: ' ' :: '"' :: (dir.text ++ '"' :: tail (quoted file.text :: args))) := by
    rw [concatArgs_eq]
    simp [quoted]
  have hfile : splitArgs none .plain 0 (tail (quoted file.text :: args)) =
      file.text :: splitArgs none .plain 0 (tail args) := by
    have htail : tail (quoted file.text :: args) = ' ' :: '"' :: (file.text ++ '"' :: tail args) := by
      simp [quoted]
    rw [htail, CommandLine.splitArgs_blank, CommandLine.splitArgs_path file.noQuote file.noSep,
      CommandLine.splitArgs_closing]
  rw [hcmd, argvOf, CommandLine.programName_path hexe,
    CommandLine.splitArgs_path dir.noQuote dir.noSep, CommandLine.splitArgs_closing, hfile]

theorem storeArgs_eq {args argv : List Str} (h : argv.length ≤ argvSlots) :
    args.foldlM storeArg argv =
      if argv.length + args.length ≤ argvSlots then some (argv ++ args) else none := by
  induction args generalizing argv with
  | nil => simp [h]
  | cons a args ih =>
    rw [List.foldlM_cons, storeArg]
    by_cases hlt : argv.length < argvSlots
    · have hnext : (argv ++ [a]).length ≤ argvSlots := by simp; omega
      rw [if_pos hlt]
      show args.foldlM storeArg (argv ++ [a]) = _
      rw [ih hnext]
      simp [Nat.add_assoc, Nat.add_comm 1]
    · rw [if_neg hlt, if_neg (by simp; omega)]
      rfl

theorem pyArgs_length {exe exefile : Str} : (pyArgs exe exefile).length = 5 := rfl

variable {dir file : FilePath} {args : List Str}

theorem headerCommand_length : (headerCommand dir.text file.text args).length =
    2 * dir.text.length + file.text.length + (tail args).length + 12 := by
  rw [headerCommand, concatArgs_eq]
  simp [quoted]
  omega

theorem pylauncherCommand_length : (pylauncherCommand dir.text file.text args).length =
    2 * dir.text.length + file.text.length + (tail args).length + 18 := by
  rw [pylauncherCommand, concatArgs_eq]
  simp [quoted]
  omega

/-- The whole way in one expression. -/
theorem pyMain_eq : pyMain dir.text file.text args =
    if (headerCommand dir.text file.text args).length + 1 ≤ maxCommand ∧
      (pylauncherCommand dir.text file.text (splitArgs none .plain 0 (tail args))).length + 1 ≤
        maxCommand ∧
      5 + (splitArgs none .plain 0 (tail (splitArgs none .plain 0 (tail args)))).length ≤ argvSlots
    then some (pyArgs (dir.text ++ ['\\', 'p', 'y', 'r', 'u', 'n', '.', 'e', 'x', 'e']) file.text ++
      splitArgs none .plain 0 (tail (splitArgs none .plain 0 (tail args))))
    else none := by
  have hquote : ∀ {name : Str}, '"' ∉ name → '"' ∉ dir.text ++ name := by
    intro name hname hmem
    exact (List.mem_append.1 hmem).elim dir.noQuote hname
  have hheader : argvOf (headerCommand dir.text file.text args) = _ :=
    argvOf_paths (hquote (by decide))
  rw [pyMain, createProcess]
  by_cases hone : (headerCommand dir.text file.text args).length + 1 ≤ maxCommand
  · rw [if_pos hone, hheader]
    show (pylauncherMain _ >>= _) = _
    rw [pylauncherMain, createProcess]
    have hpyl : ∀ av, argvOf (pylauncherCommand dir.text file.text av) = _ :=
      fun av => argvOf_paths (hquote (by decide))
    by_cases htwo : (pylauncherCommand dir.text file.text
        (splitArgs none .plain 0 (tail args))).length + 1 ≤ maxCommand
    · rw [if_pos htwo, hpyl, Option.bind_eq_bind, Option.bind_some, pyrunMain,
        storeArgs_eq (by rw [pyArgs_length]; decide), pyArgs_length]
      simp [hone, htwo]
    · rw [if_neg htwo, if_neg (fun h => htwo h.2.1)]
      rfl
  · rw [if_neg hone, if_neg (fun h => hone h.1)]
    rfl

/-- The script gets the arguments of the executable exactly where all are
plain, fit into the array and fit into a command line. -/
theorem pyMain_iff : pyMain dir.text file.text args =
      some (pyArgs (dir.text ++ ['\\', 'p', 'y', 'r', 'u', 'n', '.', 'e', 'x', 'e']) file.text ++ args) ↔
    (∀ a ∈ args, Plain a) ∧ args.length ≤ 95 ∧
      2 * dir.text.length + file.text.length + (args.map fun a => a.length + 1).sum + 18 < maxCommand := by
  have hsum : (tail args).length = (args.map fun a => a.length + 1).sum := by
    simp [tail, List.length_flatten, Function.comp_def]
  rw [pyMain_eq, headerCommand_length, pylauncherCommand_length, ← hsum]
  constructor
  · intro h
    split at h
    · rename_i hlimits
      rw [Option.some.injEq, List.append_cancel_left_eq] at h
      have hplain := CommandLine.splitArgs_twice_iff.1 h
      rw [CommandLine.splitArgs_tail hplain, CommandLine.splitArgs_tail hplain] at hlimits
      refine ⟨hplain, ?_, ?_⟩
      · have := hlimits.2.2
        rw [argvSlots] at this
        omega
      · omega
    · cases h
  · intro hboth
    obtain ⟨hplain, hcount, hlen⟩ := hboth
    rw [CommandLine.splitArgs_tail hplain, CommandLine.splitArgs_tail hplain, if_pos]
    refine ⟨by omega, by omega, ?_⟩
    rw [argvSlots]
    omega

/-- An argument with a blank arrives as two. -/
theorem blank_splits :
    pyMain ['C', ':', '\\', 't'] ['C', ':', '\\', 'w', '.', 'e', 'x', 'e'] [['a', ' ', 'b']] =
      some (pyArgs ['C', ':', '\\', 't', '\\', 'p', 'y', 'r', 'u', 'n', '.', 'e', 'x', 'e']
        ['C', ':', '\\', 'w', '.', 'e', 'x', 'e'] ++ [['a'], ['b']]) ∧
    pyMain ['C', ':', '\\', 't'] ['C', ':', '\\', 'w', '.', 'e', 'x', 'e'] [['a', ' ', 'b']] ≠
      some (pyArgs ['C', ':', '\\', 't', '\\', 'p', 'y', 'r', 'u', 'n', '.', 'e', 'x', 'e']
        ['C', ':', '\\', 'w', '.', 'e', 'x', 'e'] ++ [['a', ' ', 'b']]) := by decide

end Wubi.Launcher
