import Wubi.Boot.ConfigSys
import Wubi.Boot.Ini
import Wubi.Tasks.Prog

/-!
# The attributes of the boot files

Model of `modify_bootini`, `undo_bootini`, `modify_configsys` and
`undo_configsys` of `src/wubi/backends/win32/backend.py` on the files of a
drive. What they do with a text is in `Wubi.Boot.Ini` and `Wubi.Boot.ConfigSys`;
here it stands between a call of `attrib` that clears the read-only, system and
hidden attributes and one that sets them.

The text of a file is what `read` gives in text mode, with one character for the
end of a line; a file is empty if `read` gives no character.

Copying a loader may raise. Reading and writing a boot file does not, nor does
`attrib`.

Results:
* `wp_body`: the calls of `attrib` that an operation makes, however it ends.
* `restored_iff`: the attributes that it cleared are set again if and only if it
  is not `modify_bootini` on an empty file or `modify_configsys` on one with the
  menu.
-/
namespace Wubi.Boot

open Wubi.Tasks Wubi.Tasks.Prog
open Wubi.Backend (PyErr Val)

inductive BootFile where
  | bootIni | configSys
  deriving DecidableEq

/-- `attrib +R +S +H` or `attrib -R -S -H` on a file. -/
structure AttribCall where
  set : Bool
  file : BootFile
  deriving DecidableEq

structure BootDrive where
  /-- none: `os.path.isfile` is False -/
  text : BootFile → Option Str
  /-- the calls of `attrib` so far -/
  attribs : List AttribCall := []

abbrev BootFn := Prog BootDrive Val PyErr

/-- `run_command(['attrib', .., file])` -/
def attrib (set : Bool) (file : BootFile) : BootFn Unit :=
  .modify fun d => { d with attribs := d.attribs ++ [⟨set, file⟩] }

def writeFile (file : BootFile) (text : Str) : BootFn Unit :=
  .modify fun d => { d with text := Function.update d.text file (some text) }

/-- `shutil.copyfile` of a loader to the drive: what it raises, if it does. -/
def copyfile (copies : String → Option PyErr) (name : String) : BootFn Unit :=
  match copies name with
  | some e => .raise e
  | none => Pure.pure ()

inductive BootOp where
  | modifyBootini | undoBootini | modifyConfigsys | undoConfigsys
  deriving DecidableEq

/-- mirrors src/wubi/backends/win32/backend.py:512-600 -/
def BootOp.body (copies : String → Option PyErr) (name : Str) : BootOp → BootFn Unit
  | modifyBootini => do
    let d ← .get
    match d.text .bootIni with
    | none => return
    | some content =>
      copyfile copies "archldr"
      copyfile copies "archldr.mbr"
      attrib false .bootIni
      let content ← .lift (Boot.modifyBootini name content)
      writeFile .bootIni content
      attrib true .bootIni
  | undoBootini => do
    let d ← .get
    match d.text .bootIni with
    | none => return
    | some content =>
      attrib false .bootIni
      writeFile .bootIni (Boot.undoBootini content)
      attrib true .bootIni
  | modifyConfigsys => do
    let d ← .get
    match d.text .configSys with
    | none => return
    | some config =>
      copyfile copies "archldr.exe"
      attrib false .configSys
      if menuStart <:+: config then return
      else
        writeFile .configSys (Boot.modifyConfigsys config)
        attrib true .configSys
  | undoConfigsys => do
    let d ← .get
    match d.text .configSys with
    | none => return
    | some config =>
      attrib false .configSys
      writeFile .configSys (Boot.undoConfigsys config)
      attrib true .configSys

/-- What was cleared has been set again, last of all. -/
def Restored (attribs : List AttribCall) : Prop :=
  ∀ file, ⟨false, file⟩ ∈ attribs →
    (attribs.filter fun call => call.file = file).getLast? = some ⟨true, file⟩

/-- The operation leaves the file alone before `attrib`, or comes to the end. -/
def BootOp.Balanced (copies : String → Option PyErr) (text : BootFile → Option Str) :
    BootOp → Prop
  | modifyBootini => text .bootIni = some [] →
      (copies "archldr").isSome ∨ (copies "archldr.mbr").isSome
  | modifyConfigsys => ∀ config, text .configSys = some config → menuStart <:+: config →
      (copies "archldr.exe").isSome
  | undoBootini | undoConfigsys => True

def cleared (file : BootFile) : List AttribCall := [⟨false, file⟩]

def bracket (file : BootFile) : List AttribCall := [⟨false, file⟩, ⟨true, file⟩]

/-- The calls of `attrib` that the operation makes. -/
def BootOp.calls (copies : String → Option PyErr) (text : BootFile → Option Str) :
    BootOp → List AttribCall
  | modifyBootini =>
    match text .bootIni with
    | none => []
    | some content =>
      if (copies "archldr").isSome ∨ (copies "archldr.mbr").isSome then []
      else if content = [] then cleared .bootIni
      else bracket .bootIni
  | undoBootini => if (text .bootIni).isSome then bracket .bootIni else []
  | modifyConfigsys =>
    match text .configSys with
    | none => []
    | some config =>
      if (copies "archldr.exe").isSome then []
      else if menuStart <:+: config then cleared .configSys
      else bracket .configSys
  | undoConfigsys => if (text .configSys).isSome then bracket .configSys else []

section
variable {user : Nat → Bool} {copies : String → Option PyErr} {name : Str} {s : St BootDrive}
  {Q : Unit → St BootDrive → Prop} {R : PyErr → St BootDrive → Prop} {file : BootFile}

theorem wp_attrib {set : Bool} : wp user (attrib set file) Q R s ↔
    Q () (s.map fun d => { d with attribs := d.attribs ++ [⟨set, file⟩] }) := Iff.rfl

theorem wp_writeFile {text : Str} : wp user (writeFile file text) Q R s ↔
    Q () (s.map fun d => { d with text := Function.update d.text file (some text) }) := Iff.rfl

theorem wp_copyfile {loader : String} : wp user (copyfile copies loader) Q R s ↔
    match copies loader with
    | some e => R e s
    | none => Q () s := by
  unfold copyfile
  cases copies loader <;> exact Iff.rfl

/-- What the operation does, as far as `attrib` goes. -/
theorem wp_body (op : BootOp) :
    wp user (op.body copies name)
      (fun _ s' => s'.world.attribs = s.world.attribs ++ op.calls copies s.world.text)
      (fun _ s' => s'.world.attribs = s.world.attribs ++ op.calls copies s.world.text) s := by
  cases op with
  | modifyBootini =>
    simp only [BootOp.body, BootOp.calls, wp_bind, wp_get]
    cases htext : s.world.text .bootIni with
    | none => simp
    | some content =>
      simp only [wp_bind, wp_copyfile]
      cases copies "archldr" with
      | some e => simp
      | none =>
        cases copies "archldr.mbr" with
        | some e => simp
        | none =>
          simp only [wp_attrib, Boot.modifyBootini]
          by_cases hempty : content = []
          · simp [hempty, cleared]
          · simp [hempty, bracket, wp_writeFile]
  | undoBootini =>
    simp only [BootOp.body, BootOp.calls, wp_bind, wp_get]
    cases htext : s.world.text .bootIni with
    | none => simp
    | some content => simp [wp_attrib, wp_writeFile, bracket]
  | modifyConfigsys =>
    simp only [BootOp.body, BootOp.calls, wp_bind, wp_get]
    cases htext : s.world.text .configSys with
    | none => simp
    | some config =>
      simp only [wp_bind, wp_copyfile]
      cases copies "archldr.exe" with
      | some e => simp
      | none =>
        by_cases hmenu : menuStart <:+: config
        · simp [hmenu, wp_attrib, cleared]
        · simp [hmenu, wp_attrib, wp_writeFile, bracket]
  | undoConfigsys =>
    simp only [BootOp.body, BootOp.calls, wp_bind, wp_get]
    cases htext : s.world.text .configSys with
    | none => simp
    | some config => simp [wp_attrib, wp_writeFile, bracket]

/-! ## What stays cleared -/

theorem restored_nil : Restored [] := fun _ h => nomatch h

theorem restored_bracket : Restored (bracket file) := by
  intro f hf
  cases f <;> cases file <;> simp_all [bracket]

theorem restored_optional {c : Prop} [Decidable c] : Restored (if c then bracket file else []) := by
  split
  · exact restored_bracket
  · exact restored_nil

theorem not_restored_cleared : ¬ Restored (cleared file) := by
  intro h
  have hlast := h file (List.mem_singleton_self _)
  simp [cleared] at hlast

theorem restored_calls_iff {op : BootOp} {text : BootFile → Option Str} :
    Restored (op.calls copies text) ↔ op.Balanced copies text := by
  cases op with
  | modifyBootini =>
    unfold BootOp.calls BootOp.Balanced
    cases text .bootIni with
    | none => simp [restored_nil]
    | some content =>
      by_cases hcopy : (copies "archldr").isSome ∨ (copies "archldr.mbr").isSome
      · simp [hcopy, restored_nil]
      · by_cases hempty : content = []
        · simp [hcopy, hempty, not_restored_cleared]
        · simp [hcopy, hempty, restored_bracket]
  | modifyConfigsys =>
    unfold BootOp.calls BootOp.Balanced
    cases text .configSys with
    | none => simp [restored_nil]
    | some config =>
      by_cases hcopy : (copies "archldr.exe").isSome
      · simp [hcopy, restored_nil]
      · by_cases hmenu : menuStart <:+: config
        · simp [hcopy, hmenu, not_restored_cleared]
        · simp [hcopy, hmenu, restored_bracket]
  | undoBootini | undoConfigsys => exact iff_of_true restored_optional trivial

/-- A drive with these files, on which `attrib` has not been called. -/
def startDrive (text : BootFile → Option Str) : St BootDrive := ⟨{ text := text }, false, 0⟩

end

/-- However it ends, the operation has set again what it cleared. -/
def BootOp.Restores (user : Nat → Bool) (copies : String → Option PyErr) (name : Str)
    (text : BootFile → Option Str) (op : BootOp) : Prop :=
  wp user (op.body copies name) (fun _ s => Restored s.world.attribs)
    (fun _ s => Restored s.world.attribs) (startDrive text)

theorem restores_iff_calls {user : Nat → Bool} {copies : String → Option PyErr} {name : Str}
    {text : BootFile → Option Str} {op : BootOp} :
    op.Restores user copies name text ↔ Restored (op.calls copies text) := by
  have hcalls := @wp_body user copies name (startDrive text) op
  constructor
  · intro h
    refine wp_const.1 (wp_mono (wp_and h hcalls) ?_ ?_)
    · rintro _ s ⟨hrestored, hs⟩
      rwa [hs] at hrestored
    · rintro _ s ⟨hrestored, hs⟩
      rwa [hs] at hrestored
  · intro h
    refine wp_mono hcalls ?_ ?_
    · intro _ s hs
      rw [hs]
      exact h
    · intro _ s hs
      rw [hs]
      exact h

theorem restored_iff (user : Nat → Bool) (copies : String → Option PyErr) (name : Str)
    (text : BootFile → Option Str) (op : BootOp) :
    op.Restores user copies name text ↔ op.Balanced copies text :=
  restores_iff_calls.trans restored_calls_iff

/-- An empty `boot.ini`, and a `config.sys` that is the marker line. -/
def unlucky : BootFile → Option Str
  | .bootIni => some []
  | .configSys => some menuStart

theorem not_restored :
    ¬ BootOp.modifyBootini.Restores (fun _ => false) (fun _ => none) [] unlucky ∧
    ¬ BootOp.modifyConfigsys.Restores (fun _ => false) (fun _ => none) [] unlucky := by
  have hmenu : menuStart <:+: menuStart := List.infix_rfl
  constructor
  · intro h
    exact not_restored_cleared (restores_iff_calls.1 h)
  · intro h
    have hcalls := restores_iff_calls.1 h
    simp only [BootOp.calls, unlucky, Option.isSome_none, Bool.false_eq_true, if_false, hmenu,
      if_true] at hcalls
    exact not_restored_cleared hcalls

end Wubi.Boot
