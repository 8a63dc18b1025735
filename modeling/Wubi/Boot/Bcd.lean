import Wubi.Core.Find
import Wubi.Core.LTS

/-!
# The entry in the boot configuration data

Model of `modify_bcd` and `undo_bcd` of `src/wubi/backends/win32/backend.py`
with `get_value` and `set_value` of `registry.py`. The store holds the entries
that `modify_bcd` has created and that are still there, and the registry value
`VistaBootDrive`, in which the last of its steps records the entry.

`Outcomes` says what every command and registry access of one call does. The
guard against a second entry is the registry value, and neither call rolls
anything back.

Results:
* `modifyBcd_agrees_iff`: one call keeps store and registry in agreement
  exactly where creating the entry is followed through.
* `boots_sound`: in every run of such calls there is at most one entry, it is
  the recorded one, and undoing removes it.
-/
namespace Wubi.Boot

open Str (find)

/-- The identifier of an entry, `{..}`. -/
structure Guid where
  body : Str
  noOpen : '{' ∉ body
  noClose : '}' ∉ body

def Guid.text (g : Guid) : Str := '{' :: (g.body ++ ['}'])

/-- What `bcdedit /create` has made and what it prints: the identifier is the
only text in braces. -/
structure Created where
  id : Guid
  before : Str
  after : Str
  noOpen : '{' ∉ before
  noClose : '}' ∉ before

def Created.output (c : Created) : Str := c.before ++ c.id.text ++ c.after

/-- What `info` says about the installation. -/
structure BcdInfo where
  distroName : Str
  /-- `target_dir\winboot\archldr.mbr` without its drive. -/
  mbrPath : Str
  targetDrive : Str
  /-- The places where `bcdedit.exe` is looked for. -/
  candidates : List Str

/-- The store and the registry value. -/
structure BcdStore where
  entries : List Guid
  registry : Option Str

/-- `set_value`: creating the key may raise, a refused value is only logged. -/
inductive Write where
  | keyRaises
  | refused
  | done

/-- What happens in one call. -/
structure Outcomes where
  /-- Copying the loader to the drive raises. -/
  copyRaises : Bool
  isFile : Str → Bool
  /-- The registry value can be read. -/
  readable : Bool
  create : List Str → Option Created
  /-- Every other command returns 0. -/
  succeeds : List Str → Bool
  write : Write

inductive CallResult where
  | returned
  | raised
  deriving DecidableEq

/-- mirrors src/wubi/backends/win32/registry.py:27-38 -/
def getValue (o : Outcomes) (s : BcdStore) : Option Str := if o.readable then s.registry else none

/-- mirrors src/wubi/backends/win32/registry.py:40-51 -/
def setValue (w : Write) (value : Str) (s : BcdStore) : CallResult × BcdStore :=
  match w with
  | .keyRaises => (.raised, s)
  | .refused => (.returned, s)
  | .done => (.returned, { s with registry := some value })

/-- `if value:` -/
def recorded (value : Option Str) : Bool := (value.getD []) ≠ []

/-- `id[id.index('{'):id.index('}')+1]`; `index` raises where there is none. -/
def idOf (output : Str) : Option Str :=
  match find ['{'] output, find ['}'] output with
  | some i, some j => some ((output.take (j + 1)).drop i)
  | _, _ => none

def createCommand (info : BcdInfo) (bcdedit : Str) : List Str :=
  [bcdedit, "/create".toList, "/d".toList, info.distroName, "/application".toList,
    "bootsector".toList]

/-- mirrors src/wubi/backends/win32/backend.py:631-634 -/
def configCommands (info : BcdInfo) (bcdedit id : Str) : List (List Str) :=
  [[bcdedit, "/set".toList, id, "device".toList, "partition=".toList ++ info.targetDrive],
    [bcdedit, "/set".toList, id, "path".toList, info.mbrPath],
    [bcdedit, "/displayorder".toList, id, "/addlast".toList],
    [bcdedit, "/timeout".toList, "10".toList]]

/-- A call for a drive; `systemDrive` says that the loader is copied to it.
mirrors src/wubi/backends/win32/backend.py:602-639 -/
def modifyBcd (info : BcdInfo) (systemDrive : Bool) (o : Outcomes) (s : BcdStore) :
    CallResult × BcdStore :=
  if systemDrive && o.copyRaises then (.raised, s)
  else match info.candidates.find? o.isFile with
  | none => (.returned, s)
  | some bcdedit =>
    if recorded (getValue o s) then (.returned, s)
    else match o.create (createCommand info bcdedit) with
    | none => (.raised, s)
    | some created =>
      let s := { s with entries := s.entries ++ [created.id] }
      match idOf created.output with
      | none => (.raised, s)
      | some id =>
        if (configCommands info bcdedit id).all o.succeeds then setValue o.write id s
        else (.raised, s)

/-- mirrors src/wubi/backends/win32/backend.py:666-689 -/
def undoBcd (info : BcdInfo) (o : Outcomes) (s : BcdStore) : CallResult × BcdStore :=
  match info.candidates.find? o.isFile with
  | none => (.returned, s)
  | some bcdedit =>
    let id := (getValue o s).getD []
    if id = [] then (.returned, s)
    else if o.succeeds [bcdedit, "/delete".toList, id, "/f".toList] then
      setValue o.write [] { s with entries := s.entries.filter (·.text ≠ id) }
    else (.raised, s)

/-! ## One call -/

theorem idOf_output {c : Created} : idOf c.output = some c.id.text := by
  have hopen : find ['{'] c.output = some c.before.length := by
    have hsplit : c.output = c.before ++ '{' :: (c.id.body ++ ['}'] ++ c.after) := by
      simp [Created.output, Guid.text]
    rw [hsplit]
    exact Str.find_char c.noOpen
  have hclose : find ['}'] c.output = some (c.before ++ '{' :: c.id.body).length := by
    have hsplit : c.output = (c.before ++ '{' :: c.id.body) ++ '}' :: c.after := by
      simp [Created.output, Guid.text]
    rw [hsplit]
    refine Str.find_char ?_
    simp [c.noClose, c.id.noClose]
  have htake : c.output.take ((c.before ++ '{' :: c.id.body).length + 1) = c.before ++ c.id.text := by
    have hsplit : c.output = (c.before ++ c.id.text) ++ c.after := rfl
    have hlen : (c.before ++ c.id.text).length = (c.before ++ '{' :: c.id.body).length + 1 := by
      simp only [Guid.text, List.length_append, List.length_cons, List.length_nil]
      omega
    rw [hsplit, List.take_append_of_le_length (Nat.le_of_eq hlen.symm)]
    exact List.take_of_length_le (Nat.le_of_eq hlen)
  rw [idOf, hopen, hclose]
  simp only [htake, List.drop_left]

variable {info : BcdInfo} {systemDrive : Bool} {o : Outcomes} {s : BcdStore} {bcdedit : Str}

/-- The call comes to the point where it creates an entry. -/
def Creates (info : BcdInfo) (systemDrive : Bool) (o : Outcomes) (s : BcdStore) (bcdedit : Str)
    (created : Created) : Prop :=
  (systemDrive && o.copyRaises) = false ∧ info.candidates.find? o.isFile = some bcdedit ∧
    recorded (getValue o s) = false ∧ o.create (createCommand info bcdedit) = some created

/-- Everything behind the creation succeeds. -/
def FollowsThrough (info : BcdInfo) (o : Outcomes) (bcdedit : Str) (created : Created) : Prop :=
  (configCommands info bcdedit created.id.text).all o.succeeds = true ∧ o.write = .done

/-- A call creates an entry and records it, creates one and does not, or
changes nothing. -/
theorem modifyBcd_cases :
    (∃ bcdedit created, Creates info systemDrive o s bcdedit created ∧
      FollowsThrough info o bcdedit created ∧ (modifyBcd info systemDrive o s).2 =
        ⟨s.entries ++ [created.id], some created.id.text⟩) ∨
    (∃ bcdedit created, Creates info systemDrive o s bcdedit created ∧
      ¬ FollowsThrough info o bcdedit created ∧ (modifyBcd info systemDrive o s).2 =
        { s with entries := s.entries ++ [created.id] }) ∨
    ((∀ bcdedit created, ¬ Creates info systemDrive o s bcdedit created) ∧
      (modifyBcd info systemDrive o s).2 = s) := by
  by_cases hcopy : (systemDrive && o.copyRaises) = true
  · refine .inr (.inr ⟨fun b c h => ?_, ?_⟩)
    · rw [h.1] at hcopy
      cases hcopy
    · rw [modifyBcd, if_pos hcopy]
  · rw [Bool.not_eq_true] at hcopy
    cases hfind : info.candidates.find? o.isFile with
    | none =>
      refine .inr (.inr ⟨fun b c h => ?_, ?_⟩)
      · rw [h.2.1] at hfind
        cases hfind
      · simp [modifyBcd, hcopy, hfind]
    | some bcdedit =>
      by_cases hrec : recorded (getValue o s) = true
      · refine .inr (.inr ⟨fun b c h => ?_, ?_⟩)
        · rw [h.2.2.1] at hrec
          cases hrec
        · simp [modifyBcd, hcopy, hfind, hrec]
      · rw [Bool.not_eq_true] at hrec
        cases hcreate : o.create (createCommand info bcdedit) with
        | none =>
          refine .inr (.inr ⟨fun b c h => ?_, ?_⟩)
          · obtain ⟨-, hb, -, hc⟩ := h
            rw [Option.some.inj (hb.symm.trans hfind), hcreate] at hc
            cases hc
          · simp [modifyBcd, hcopy, hfind, hrec, hcreate]
        | some created =>
          have hcreates : Creates info systemDrive o s bcdedit created := ⟨hcopy, hfind, hrec, hcreate⟩
          by_cases hconfig : (configCommands info bcdedit created.id.text).all o.succeeds = true
          · cases hwrite : o.write with
            | done =>
              refine .inl ⟨bcdedit, created, hcreates, ⟨hconfig, hwrite⟩, ?_⟩
              simp only [modifyBcd, hcopy, hfind, hrec, hcreate, idOf_output, hconfig, hwrite]
              rfl
            | keyRaises | refused =>
              refine .inr (.inl ⟨bcdedit, created, hcreates, fun h => ?_, ?_⟩)
              · have := h.2
                rw [hwrite] at this
                cases this
              · simp only [modifyBcd, hcopy, hfind, hrec, hcreate, idOf_output, hconfig, hwrite]
                rfl
          · refine .inr (.inl ⟨bcdedit, created, hcreates, fun h => hconfig h.1, ?_⟩)
            rw [Bool.not_eq_true] at hconfig
            simp only [modifyBcd, hcopy, hfind, hrec, hcreate, idOf_output, hconfig]
            rfl

/-- Undoing removes the recorded entry, or leaves the entries as they are. -/
theorem undoBcd_cases :
    (∃ id, getValue o s = some id ∧ (undoBcd info o s).2.entries = s.entries.filter (·.text ≠ id)) ∨
      (undoBcd info o s).2 = s := by
  rw [undoBcd]
  cases info.candidates.find? o.isFile with
  | none => exact .inr rfl
  | some bcdedit =>
    by_cases hid : (getValue o s).getD [] = []
    · simp [hid]
    · by_cases hdelete : o.succeeds [bcdedit, "/delete".toList, (getValue o s).getD [], "/f".toList] = true
      · refine .inl ⟨(getValue o s).getD [], ?_, ?_⟩
        · cases hvalue : getValue o s with
          | none => exact absurd (by rw [hvalue]; rfl) hid
          | some id => rfl
        · simp only [if_neg hid, hdelete]
          cases o.write <;> rfl
      · exact .inr (by simp only [if_neg hid, if_neg hdelete])

/-! ## Agreement -/

/-- Every entry is the recorded one. -/
def Agrees (s : BcdStore) : Prop := ∀ e ∈ s.entries, s.registry = some e.text

/-- From agreement a call that creates a new entry comes to agreement exactly
where it started without entries and follows the creation through. -/
theorem modifyBcd_agrees_iff (h : Agrees s)
    (hnew : ∀ b c, Creates info systemDrive o s b c → s.registry ≠ some c.id.text) :
    Agrees (modifyBcd info systemDrive o s).2 ↔
      ∀ b c, Creates info systemDrive o s b c → s.entries = [] ∧ FollowsThrough info o b c := by
  have hunique : ∀ {b c b' c'}, Creates info systemDrive o s b c →
      Creates info systemDrive o s b' c' → b = b' ∧ c = c' := by
    intro b c b' c' h h'
    have hb : b = b' := Option.some.inj (h.2.1.symm.trans h'.2.1)
    subst hb
    exact ⟨rfl, Option.some.inj (h.2.2.2.symm.trans h'.2.2.2)⟩
  rcases modifyBcd_cases with ⟨b, c, hc, hthrough, heq⟩ | ⟨b, c, hc, hthrough, heq⟩ | ⟨hno, heq⟩
  · rw [heq]
    constructor
    · intro hag b' c' hc'
      obtain ⟨rfl, rfl⟩ := hunique hc hc'
      refine ⟨?_, hthrough⟩
      by_contra hne
      obtain ⟨e, he⟩ := List.exists_mem_of_ne_nil _ hne
      have hrec : s.registry = some e.text := h e he
      have hnow : some c.id.text = some e.text := hag e (List.mem_append_left _ he)
      exact hnew b c hc (hrec.trans hnow.symm)
    · intro hall e he
      rw [(hall b c hc).1, List.nil_append, List.mem_singleton] at he
      rw [he]
  · rw [heq]
    constructor
    · intro hag
      have hrec : s.registry = some c.id.text := hag c.id (List.mem_append_right _ List.mem_cons_self)
      exact absurd hrec (hnew b c hc)
    · intro hall
      exact absurd (hall b c hc).2 hthrough
  · rw [heq]
    exact ⟨fun _ b c hc => absurd hc (hno b c), fun _ => h⟩

/-! ## Runs -/

inductive BcdCall where
  | modify (systemDrive : Bool) (o : Outcomes)
  | undo (o : Outcomes)

def BcdCall.run (info : BcdInfo) : BcdCall → BcdStore → BcdStore
  | .modify systemDrive o, s => (modifyBcd info systemDrive o s).2
  | .undo o, s => (undoBcd info o s).2

/-- Any calls in any order, from a store without entries. -/
def boots (info : BcdInfo) : LTS BcdStore BcdCall where
  init s := s.entries = []
  step s call s' := s' = call.run info s

/-- A call that creates an entry finds none and follows the creation through. -/
def Completes (info : BcdInfo) (s : BcdStore) : BcdCall → Prop
  | .modify systemDrive o =>
    ∀ b c, Creates info systemDrive o s b c → s.entries = [] ∧ FollowsThrough info o b c
  | .undo _ => True

/-- The registry can be read, `bcdedit` is there and its command succeeds. -/
def Outcomes.Works (o : Outcomes) (info : BcdInfo) : Prop :=
  o.readable = true ∧ (info.candidates.find? o.isFile).isSome ∧ ∀ cmd, o.succeeds cmd = true

/-- At most one entry, which is recorded and can be removed. -/
structure Sound (info : BcdInfo) (s : BcdStore) : Prop where
  agrees : Agrees s
  one : s.entries.length ≤ 1
  removable : ∀ o : Outcomes, o.Works info → (undoBcd info o s).2.entries = []

theorem Agrees.removable (h : Agrees s) (hworks : o.Works info) :
    (undoBcd info o s).2.entries = [] := by
  obtain ⟨hread, hfind, hsucceeds⟩ := hworks
  obtain ⟨bcdedit, hb⟩ := Option.isSome_iff_exists.1 hfind
  cases hentries : s.entries with
  | nil =>
    rcases @undoBcd_cases info o s with ⟨id, -, heq⟩ | heq
    · rw [heq, hentries]; rfl
    · rw [heq, hentries]
  | cons e es =>
    have hrec : s.registry = some e.text := h e (by rw [hentries]; exact List.mem_cons_self)
    have hvalue : getValue o s = some e.text := by rw [getValue, if_pos hread, hrec]
    have hne : e.text ≠ [] := List.cons_ne_nil _ _
    have hall : s.entries.filter (·.text ≠ e.text) = [] := by
      rw [List.filter_eq_nil_iff]
      intro g hg
      have := (h g hg).symm.trans hrec
      simp [Option.some.inj this]
    simp only [undoBcd, hb, hvalue, Option.getD_some, if_neg hne, hsucceeds, if_true]
    cases o.write <;> exact hall

theorem completes_step {s' : BcdStore} {call : BcdCall} (h : Agrees s) (hone : s.entries.length ≤ 1)
    (hstep : s' = call.run info s) (hcomplete : Completes info s call) :
    Agrees s' ∧ s'.entries.length ≤ 1 := by
  subst hstep
  cases call with
  | modify systemDrive o =>
    rcases @modifyBcd_cases info systemDrive o s with
      ⟨b, c, hc, hthrough, heq⟩ | ⟨b, c, hc, hthrough, heq⟩ | ⟨-, heq⟩
    · have hnil := (hcomplete b c hc).1
      rw [BcdCall.run, heq, hnil]
      refine ⟨fun e he => ?_, Nat.le_refl 1⟩
      rw [List.mem_singleton.1 he]
    · exact absurd (hcomplete b c hc).2 hthrough
    · rw [BcdCall.run, heq]
      exact ⟨h, hone⟩
  | undo o =>
    rcases @undoBcd_cases info o s with ⟨id, hvalue, heq⟩ | heq
    · have hnil : (undoBcd info o s).2.entries = [] := by
        rw [heq, List.filter_eq_nil_iff]
        intro g hg
        have hrec : s.registry = some id := by
          rw [getValue] at hvalue
          split at hvalue
          · exact hvalue
          · cases hvalue
        have := (h g hg).symm.trans hrec
        simp [Option.some.inj this]
      refine ⟨fun e he => ?_, ?_⟩
      · rw [BcdCall.run, hnil] at he
        cases he
      · rw [BcdCall.run, hnil]
        exact Nat.zero_le 1
    · rw [BcdCall.run, heq]
      exact ⟨h, hone⟩

/-- Where every call follows its creations through, every reached state is
sound. -/
theorem boots_sound (s : BcdStore) (h : ((boots info).restrict (Completes info)).Reachable s) :
    Sound info s := by
  obtain ⟨s₀, ls, hinit, hrun⟩ := h
  have hkeep : ∀ s l s', (Agrees s ∧ s.entries.length ≤ 1) →
      ((boots info).restrict (Completes info)).step s l s' → Agrees s' ∧ s'.entries.length ≤ 1 :=
    fun s l s' hs hstep => completes_step hs.1 hs.2 hstep.1 hstep.2
  have hstart : s₀.entries = [] := hinit
  have hs₀ : Agrees s₀ ∧ s₀.entries.length ≤ 1 := by
    rw [hstart]
    refine ⟨fun e he => ?_, Nat.zero_le 1⟩
    rw [hstart] at he
    cases he
  have hs := LTS.run_of_step hkeep hrun hs₀
  exact ⟨hs.1, hs.2, fun o ho => hs.1.removable ho⟩

/-! ## Two calls -/

/-- An installation whose `bcdedit` has the name `b`. -/
def smallInfo : BcdInfo := ⟨['A'], ['m'], ['C', ':'], [['b']]⟩

def firstEntry : Created :=
  ⟨⟨['1'], by decide, by decide⟩, [], [], by decide, by decide⟩

/-- Every command succeeds as long as `ok` does. -/
def outcomes (ok : List Str → Bool) : Outcomes :=
  ⟨false, fun _ => true, true, fun _ => some firstEntry, ok, .done⟩

theorem boots_sound_once : Sound smallInfo ⟨[firstEntry.id], some firstEntry.id.text⟩ := by
  refine boots_sound _ ⟨⟨[], none⟩, [.modify false (outcomes fun _ => true)], rfl, .cons ⟨?_, ?_⟩ (.nil _)⟩
  · rfl
  · intro b c hc
    exact ⟨rfl, by simp [outcomes], rfl⟩

/-- The entry is created, the first command behind it fails, and nothing
records it. -/
theorem failed_set_orphans : ∃ s, (boots smallInfo).Reachable s ∧
    s.entries = [firstEntry.id] ∧ s.registry = none ∧ ¬ Sound smallInfo s := by
  refine ⟨⟨[firstEntry.id], none⟩, ⟨⟨[], none⟩, [.modify false (outcomes fun _ => false)], rfl,
    .cons rfl (.nil _)⟩, rfl, rfl, fun h => ?_⟩
  have := h.agrees firstEntry.id List.mem_cons_self
  cases this

end Wubi.Boot
