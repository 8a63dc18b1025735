import Wubi.Core.LTS
import Wubi.Core.Text
import Wubi.Core.Wildcard

/-!
# Events and their handlers

`_add_event_handler` files a handler in four nested dictionaries, one for each
coordinate of its pattern, with `None` for a coordinate that may be anything.
`event_dispatcher` gathers what lies on the sixteen paths that an event leads to
and calls the handlers one after the other, until one returns a true result;
`DefWindowProcW` is called where none does.

**Parameters.** `Host` is what a handler's object answers: whether it has the
attribute, whether that can be called, what the call returns or raises, and the
handlers that are registered while it runs, for a call may create windows. A
result is of any type, with its truth value. The order in which Python goes
through a set is not fixed, so that it is an argument of `eventDispatcher`.

**Results.**
* `mem_collect`: the handlers gathered are those with a registered pattern that
  agrees with the event.
* `dispatched_loop`: no handler is visited twice, the first true result ends the
  loop and is returned, and `DefWindowProcW` is called if and only if nothing
  ended it.
* `dispatched_reachable`: this holds in every state that registrations and events
  lead to, in whatever order they come.
* `mem_collect_registerHandlers`: what a new window adds to the handlers of an
  event.
-/
namespace Wubi.Winui

/-- `(obj, handler_name)` -/
abbrev Handler (O : Type) := O × Str

structure Event (κ : Type) where
  hwnd : κ
  message : κ
  wparam : κ
  lparam : κ
deriving DecidableEq

/-- `handled_event`: a coordinate that is `none` stands for every value.
mirrors src/winui/ui.py:58-66 -/
structure HandledEvent (κ : Type) where
  hwnd : Option κ
  message : Option κ
  wparam : Option κ
  lparam : Option κ
deriving DecidableEq

/-- The pattern agrees with the event wherever it is not `None`. -/
def HandledEvent.Agrees {κ : Type} (p : HandledEvent κ) (ev : Event κ) : Prop :=
  Wubi.Agrees p.hwnd ev.hwnd ∧ Wubi.Agrees p.message ev.message ∧
    Wubi.Agrees p.wparam ev.wparam ∧ Wubi.Agrees p.lparam ev.lparam

abbrev Registration (O κ : Type) := Handler O × HandledEvent κ

/-- `_event_handlers_` -/
abbrev Table (O κ : Type) := Level κ (Level κ (Level κ (Level κ (Finset (Handler O)))))

variable {O κ V R X W : Type}

/-! ## The dictionary -/

section
variable [DecidableEq O] [DecidableEq κ]

/-- mirrors src/winui/ui.py:144-151 -/
def addEventHandler (eh : Table O κ) (r : Registration O κ) : Table O κ :=
  Level.update r.2.hwnd (Level.update r.2.message (Level.update r.2.wparam
    (Level.update r.2.lparam (insert r.1)))) eh

/-- What lies under a pattern. -/
def handlersAt (eh : Table O κ) (p : HandledEvent κ) : Finset (Handler O) :=
  (((eh.get p.hwnd).get p.message).get p.wparam).get p.lparam

/-- The dictionary after some registrations, in their order. -/
def registered (regs : List (Registration O κ)) : Table O κ := regs.foldl addEventHandler default

/-- The loops that gather the handlers of an event.
mirrors src/winui/ui.py:37-45 -/
def collect (eh : Table O κ) (ev : Event κ) : Finset (Handler O) :=
  (eh.both ev.hwnd).foldl (fun handlers eh =>
    (eh.both ev.message).foldl (fun handlers eh =>
      (eh.both ev.wparam).foldl (fun handlers eh =>
        handlers ∪ eh.get (some ev.lparam) ∪ eh.get none) handlers) handlers) ∅

theorem mem_handlersAt_add (eh : Table O κ) (r : Registration O κ) (h : Handler O)
    (p : HandledEvent κ) :
    h ∈ handlersAt (addEventHandler eh r) p ↔ (h, p) = r ∨ h ∈ handlersAt eh p := by
  have hset : Level.Adds (insert r.1) (fun s : Finset (Handler O) => h ∈ s) (h = r.1) :=
    fun _ => Finset.mem_insert
  have hlevels := (((hset.update r.2.lparam p.lparam).update r.2.wparam p.wparam).update
    r.2.message p.message).update r.2.hwnd p.hwnd
  refine (hlevels eh).trans (or_congr_left ?_)
  obtain ⟨h', p'⟩ := r
  cases p
  cases p'
  simp only [Prod.mk.injEq, HandledEvent.mk.injEq]
  tauto

/-- Under a pattern lie the handlers that were registered with it. -/
theorem mem_handlersAt (regs : List (Registration O κ)) (h : Handler O) (p : HandledEvent κ) :
    h ∈ handlersAt (registered regs) p ↔ (h, p) ∈ regs := by
  induction regs using List.reverseRecOn with
  | nil => exact iff_of_false (Finset.notMem_empty h) List.not_mem_nil
  | append_singleton regs r ih =>
    have hstep : registered (regs ++ [r]) = addEventHandler (registered regs) r := by
      simp [registered]
    rw [hstep, mem_handlersAt_add, ih, List.mem_append, List.mem_singleton, or_comm]

theorem mem_collect_iff (eh : Table O κ) (ev : Event κ) (h : Handler O) :
    h ∈ collect eh ev ↔ ∃ p : HandledEvent κ, p.Agrees ev ∧ h ∈ handlersAt eh p := by
  have hlevels := (((Level.gathers_sets h ev.lparam).both ev.wparam).both ev.message).both ev.hwnd
  refine (hlevels ∅ eh).trans ?_
  constructor
  · intro hin
    obtain hin | ⟨p₁, h₁, p₂, h₂, p₃, h₃, p₄, h₄, hin⟩ := hin
    · exact absurd hin (Finset.notMem_empty h)
    · exact ⟨⟨p₁, p₂, p₃, p₄⟩, ⟨h₁, h₂, h₃, h₄⟩, hin⟩
  · intro ⟨p, ⟨h₁, h₂, h₃, h₄⟩, hin⟩
    exact .inr ⟨_, h₁, _, h₂, _, h₃, _, h₄, hin⟩

/-- The handlers gathered are those with a pattern that agrees with the event. -/
theorem mem_collect (regs : List (Registration O κ)) (ev : Event κ) (h : Handler O) :
    h ∈ collect (registered regs) ev ↔ ∃ p, (h, p) ∈ regs ∧ p.Agrees ev := by
  simp only [mem_collect_iff, mem_handlersAt, and_comm]

/-- A handler under two patterns that agree with the event is gathered once. -/
example :
    collect (registered [(((7 : Nat), ['f']), ⟨none, some (273 : Nat), none, none⟩),
      ((7, ['f']), ⟨none, none, none, some 9⟩), ((8, ['g']), ⟨some 2, none, none, none⟩)])
      ⟨1, 273, 0, 9⟩ = {(7, ['f'])} := by
  decide

/-! ## A new window -/

/-- A coordinate as the class states it: a value, or what stands for something
that only an instance knows. -/
inductive Subkey (κ : Type)
  | value (k : κ)
  | selfHwnd
  | parentHwnd
  | applicationHinstance

structure Window (κ : Type) where
  hwnd : κ
  /-- `self.parent._hwnd`, where there is a parent -/
  parentHwnd : Option κ
  hinstance : κ

/-- An attribute that `dir(self)` lists, with its `_handled_event_`. -/
structure Attribute (κ : Type) where
  key : Str
  callable : Bool
  handledEvent : Option (HandledEvent (Subkey κ))

/-- `none` where `self.parent` is `None`, which has no `_hwnd`.
mirrors src/winui/ui.py:135-141 -/
def Subkey.resolve (w : Window κ) : Subkey κ → Option κ
  | .value k => some k
  | .selfHwnd => some w.hwnd
  | .parentHwnd => w.parentHwnd
  | .applicationHinstance => some w.hinstance

def resolveCoordinate (w : Window κ) : Option (Subkey κ) → Option (Option κ)
  | none => some none
  | some k => (k.resolve w).map some

def HandledEvent.resolve (w : Window κ) (p : HandledEvent (Subkey κ)) :
    Option (HandledEvent κ) := do
  let hwnd ← resolveCoordinate w p.hwnd
  let message ← resolveCoordinate w p.message
  let wparam ← resolveCoordinate w p.wparam
  let lparam ← resolveCoordinate w p.lparam
  return ⟨hwnd, message, wparam, lparam⟩

/-- `_register_handlers` of the window `obj` over the attributes in turn: the
dictionary behind it, and whether nothing was raised.
mirrors src/winui/ui.py:129-142 -/
def registerHandlers (obj : O) (w : Window κ) : Table O κ → List (Attribute κ) → Table O κ × Bool
  | eh, [] => (eh, true)
  | eh, a :: rest =>
    match a.handledEvent with
    | none => registerHandlers obj w eh rest
    | some p =>
      if a.callable then
        match p.resolve w with
        | some p => registerHandlers obj w (addEventHandler eh ((obj, a.key), p)) rest
        | none => (eh, false)
      else registerHandlers obj w eh rest

/-- The registration that an attribute calls for. -/
def Attribute.registration (obj : O) (w : Window κ) (a : Attribute κ) :
    Option (Registration O κ) := do
  let p ← a.handledEvent
  if a.callable then
    let p ← p.resolve w
    return ((obj, a.key), p)
  else none

/-- Where nothing is raised, the attributes' registrations are made in turn. -/
theorem registerHandlers_eq (obj : O) (w : Window κ) (attrs : List (Attribute κ))
    (eh : Table O κ) (h : (registerHandlers obj w eh attrs).2 = true) :
    (registerHandlers obj w eh attrs).1 =
      (attrs.filterMap (Attribute.registration obj w)).foldl addEventHandler eh := by
  induction attrs generalizing eh with
  | nil => rfl
  | cons a rest ih =>
    unfold registerHandlers at h ⊢
    rw [List.filterMap_cons]
    cases hp : a.handledEvent with
    | none =>
      simp only [hp] at h
      simp [Attribute.registration, hp, ih eh h]
    | some p =>
      simp only [hp] at h ⊢
      split at h
      · rename_i hcall
        cases hres : p.resolve w with
        | none => simp [hres] at h
        | some p' =>
          simp only [hres] at h
          simp [Attribute.registration, hp, hcall, hres, ih _ h]
      · rename_i hcall
        simp [Attribute.registration, hp, hcall, ih eh h]

/-- A new window adds, to the handlers of an event, those of its methods that are
marked with a pattern for it. -/
theorem mem_collect_registerHandlers (regs : List (Registration O κ)) (obj : O) (w : Window κ)
    (attrs : List (Attribute κ)) (ev : Event κ) (h : Handler O)
    (hdone : (registerHandlers obj w (registered regs) attrs).2 = true) :
    h ∈ collect (registerHandlers obj w (registered regs) attrs).1 ev ↔
      h ∈ collect (registered regs) ev ∨
        ∃ a ∈ attrs, ∃ p, a.registration obj w = some (h, p) ∧ p.Agrees ev := by
  have heq : (registerHandlers obj w (registered regs) attrs).1 =
      registered (regs ++ attrs.filterMap (Attribute.registration obj w)) := by
    rw [registerHandlers_eq obj w attrs _ hdone, registered, registered, List.foldl_append]
  rw [heq, mem_collect, mem_collect]
  simp only [List.mem_append, List.mem_filterMap]
  constructor
  · intro hin
    obtain ⟨p, hin | ⟨a, ha, hreg⟩, hp⟩ := hin
    · exact .inl ⟨p, hin, hp⟩
    · exact .inr ⟨a, ha, p, hreg, hp⟩
  · intro hin
    obtain ⟨p, hin, hp⟩ | ⟨a, ha, p, hreg, hp⟩ := hin
    · exact ⟨p, .inl hin, hp⟩
    · exact ⟨p, .inr ⟨a, ha, hreg⟩, hp⟩

end

/-! ## What is promised of a call -/

/-- What becomes of a handler that was gathered: it is not there or cannot be
called, or it was called. -/
inductive Visit (R X : Type)
  | notCallable
  | returned (r : R)
  | raised (x : X)

/-- How the function ends with this handler, if it does. -/
def Visit.ends (bool : R → Bool) : Visit R X → Option (Except X R)
  | .notCallable => none
  | .returned r => if bool r then some (.ok r) else none
  | .raised x => some (.error x)

structure State (O κ W : Type) where
  eventHandlers : Table O κ
  world : W
  /-- ghost: every registration so far -/
  registrations : List (Registration O κ)

/-- One call of `event_dispatcher`: what became of the handlers, in order,
whether `DefWindowProcW` was called, and what was returned or raised. -/
structure Run (O κ R X W : Type) where
  visits : List (Handler O × Visit R X)
  defWindowProc : Bool
  result : Except X R
  state : State O κ W

/-- An order in which Python may go through a set. -/
structure Iteration {α : Type} (s : Finset α) where
  list : List α
  nodup : list.Nodup
  mem_list : ∀ x, x ∈ list ↔ x ∈ s

theorem nonempty_iteration {α : Type} (s : Finset α) : Nonempty (Iteration s) :=
  ⟨⟨s.toList, s.nodup_toList, fun _ => Finset.mem_toList⟩⟩

/-- What is promised of the call for an event whose handlers were `handlers`. -/
structure Dispatched (bool : R → Bool) (handlers : Finset (Handler O)) (run : Run O κ R X W) :
    Prop where
  visited : ∀ v ∈ run.visits, v.1 ∈ handlers
  once : (run.visits.map Prod.fst).Nodup
  firstTrue : ∀ before h r behind, run.visits = before ++ (h, .returned r) :: behind →
    bool r = true → behind = [] ∧ run.result = .ok r ∧ run.defWindowProc = false
  raised : ∀ before h x behind, run.visits = before ++ (h, .raised x) :: behind →
    behind = [] ∧ run.result = .error x ∧ run.defWindowProc = false
  default : run.defWindowProc = true ↔ ∀ v ∈ run.visits, v.2.ends bool = none
  all : run.defWindowProc = true → ∀ h ∈ handlers, h ∈ run.visits.map Prod.fst

/-- How the loop over `hs` went: to its end, or up to a handler that ended it. -/
inductive Looped (bool : R → Bool) (hs : List (Handler O)) (run : Run O κ R X W) : Prop
  | default (hall : run.visits.map Prod.fst = hs)
      (hnone : ∀ v ∈ run.visits, v.2.ends bool = none) (hdef : run.defWindowProc = true)
  | ended (before : List (Handler O × Visit R X)) (last : Handler O × Visit R X)
      (hvisits : run.visits = before ++ [last]) (hpre : run.visits.map Prod.fst <+: hs)
      (hnone : ∀ v ∈ before, v.2.ends bool = none) (hlast : last.2.ends bool = some run.result)
      (hdef : run.defWindowProc = false)

/-- A visit that ends the loop is the last one, and what it ended with is the result. -/
theorem Looped.last_of_ends {bool : R → Bool} {hs : List (Handler O)} {run : Run O κ R X W}
    (hrun : Looped bool hs run) {before behind : List (Handler O × Visit R X)}
    {v : Handler O × Visit R X} {out : Except X R} (hvisits : run.visits = before ++ v :: behind)
    (hv : v.2.ends bool = some out) :
    behind = [] ∧ run.result = out ∧ run.defWindowProc = false := by
  cases hrun with
  | default hall hnone hdef =>
    have hin : v ∈ run.visits := by simp [hvisits]
    rw [hnone v hin] at hv
    cases hv
  | ended before' last hlast hpre hnone hout hdef =>
    rw [hlast] at hvisits
    rcases List.eq_nil_or_concat' behind with rfl | ⟨behind, w, rfl⟩
    · obtain ⟨rfl, heq⟩ := List.append_inj' hvisits rfl
      cases heq
      rw [hout] at hv
      exact ⟨rfl, Option.some_inj.1 hv, hdef⟩
    · have hsplit : before' ++ [last] = (before ++ v :: behind) ++ [w] := by
        rw [hvisits, List.append_assoc, List.cons_append]
      obtain ⟨rfl, -⟩ := List.append_inj' hsplit rfl
      rw [hnone v (by simp)] at hv
      cases hv

theorem Looped.fst_prefix {bool : R → Bool} {hs : List (Handler O)} {run : Run O κ R X W}
    (hrun : Looped bool hs run) : run.visits.map Prod.fst <+: hs := by
  cases hrun with
  | default hall => exact hall ▸ List.prefix_rfl
  | ended _ _ _ hpre => exact hpre

/-- `DefWindowProcW` is called if and only if no visit ended the loop. -/
theorem Looped.default_iff {bool : R → Bool} {hs : List (Handler O)} {run : Run O κ R X W}
    (hrun : Looped bool hs run) :
    run.defWindowProc = true ↔ ∀ v ∈ run.visits, v.2.ends bool = none := by
  cases hrun with
  | default hall hnone hdef => exact iff_of_true hdef hnone
  | ended before last hvisits hpre hnone hlast hdef =>
    refine iff_of_false (by simp [hdef]) fun hall => ?_
    rw [hall last (by simp [hvisits])] at hlast
    cases hlast

theorem Looped.dispatched {bool : R → Bool} {handlers : Finset (Handler O)}
    {order : Iteration handlers} {run : Run O κ R X W} (hrun : Looped bool order.list run) :
    Dispatched bool handlers run where
  visited v hv := by
    have hin := hrun.fst_prefix.subset (List.mem_map_of_mem hv)
    exact (order.mem_list v.1).1 hin
  once := hrun.fst_prefix.sublist.nodup order.nodup
  firstTrue before h r behind hvisits hr :=
    hrun.last_of_ends hvisits (by simp [Visit.ends, hr])
  raised before h x behind hvisits := hrun.last_of_ends hvisits rfl
  default := hrun.default_iff
  all hdef h hh := by
    cases hrun with
    | default hall => exact hall ▸ (order.mem_list h).2 hh
    | ended _ _ _ _ _ _ hdef' => simp [hdef] at hdef'

/-! ## The calls -/

variable [DecidableEq O] [DecidableEq κ]

/-- What the objects and Windows answer; a call also tells which handlers were
registered while it ran. -/
structure Host (O κ V R X W : Type) where
  getattr : W → O → Str → Option V
  callable : V → Bool
  call : W → V → Event κ → Except X R × List (Registration O κ) × W
  bool : R → Bool
  cInt : κ → BitVec 32
  defWindowProcW : W → BitVec 32 → BitVec 32 → BitVec 32 → BitVec 32 →
    R × List (Registration O κ) × W

/-- The state behind a call. -/
def State.after (s : State O κ W) (e : List (Registration O κ) × W) : State O κ W :=
  ⟨e.1.foldl addEventHandler s.eventHandlers, e.2, s.registrations ++ e.1⟩

/-- The body of the second loop.
mirrors src/winui/ui.py:47-51 -/
def visit (host : Host O κ V R X W) (ev : Event κ) (s : State O κ W) (h : Handler O) :
    Visit R X × State O κ W :=
  match host.getattr s.world h.1 h.2 with
  | none => (.notCallable, s)
  | some handler =>
    if host.callable handler then
      match host.call s.world handler ev with
      | (.ok result, e) => (.returned result, s.after e)
      | (.error x, e) => (.raised x, s.after e)
    else (.notCallable, s)

/-- The second loop, over the handlers in the order given, and what follows it.
mirrors src/winui/ui.py:46-56 -/
def loop (host : Host O κ V R X W) (ev : Event κ) : State O κ W → List (Handler O) → Run O κ R X W
  | s, [] =>
    let e := host.defWindowProcW s.world (host.cInt ev.hwnd) (host.cInt ev.message)
      (host.cInt ev.wparam) (host.cInt ev.lparam)
    ⟨[], true, .ok e.1, s.after e.2⟩
  | s, h :: hs =>
    let (v, s') := visit host ev s h
    match v.ends host.bool with
    | some out => ⟨[(h, v)], false, out, s'⟩
    | none =>
      let run := loop host ev s' hs
      { run with visits := (h, v) :: run.visits }

/-- mirrors src/winui/ui.py:36-56 -/
def eventDispatcher (host : Host O κ V R X W) (s : State O κ W) (ev : Event κ)
    (order : Iteration (collect s.eventHandlers ev)) : Run O κ R X W :=
  loop host ev s order.list

theorem looped_loop (host : Host O κ V R X W) (ev : Event κ) (hs : List (Handler O))
    (s : State O κ W) : Looped host.bool hs (loop host ev s hs) := by
  induction hs generalizing s with
  | nil => exact .default rfl (by simp [loop]) rfl
  | cons h hs ih =>
    rcases hv : visit host ev s h with ⟨v, s'⟩
    cases hend : v.ends host.bool with
    | some out =>
      simp only [loop, hv, hend]
      exact .ended [] (h, v) rfl (by simp) (by simp) hend rfl
    | none =>
      simp only [loop, hv, hend]
      cases ih s' with
      | default hall hnone hdef =>
        exact .default (by simp [hall]) (by simpa [hend] using hnone) hdef
      | ended before last hvisits hpre hnone hlast hdef =>
        exact .ended ((h, v) :: before) last (by simp [hvisits]) (by simpa using hpre)
          (by simpa [hend] using hnone) hlast hdef

theorem dispatched_loop (host : Host O κ V R X W) (s : State O κ W) (ev : Event κ)
    (order : Iteration (collect s.eventHandlers ev)) :
    Dispatched host.bool (collect s.eventHandlers ev) (eventDispatcher host s ev order) :=
  (looped_loop host ev order.list s).dispatched

/-- The visits are what the objects answered, each in the state that the one
before it left. -/
def Answers (host : Host O κ V R X W) (ev : Event κ) :
    State O κ W → List (Handler O × Visit R X) → Prop
  | _, [] => True
  | s, (h, v) :: rest => (visit host ev s h).1 = v ∧ Answers host ev (visit host ev s h).2 rest

inductive Label (O κ : Type)
  | register (r : Registration O κ)
  | event (ev : Event κ)

def system (host : Host O κ V R X W) : LTS (State O κ W) (Label O κ) where
  init s := s.eventHandlers = registered [] ∧ s.registrations = []
  step s l s' :=
    match l with
    | .register r => ∃ world, s' = s.after ([r], world)
    | .event ev => ∃ order, s' = (eventDispatcher host s ev order).state

/-- The dictionary is that of the registrations so far. -/
def State.Filed (s : State O κ W) : Prop := s.eventHandlers = registered s.registrations

theorem State.Filed.after {s : State O κ W} (h : s.Filed) (e : List (Registration O κ) × W) :
    (s.after e).Filed := by
  unfold State.Filed registered State.after
  rw [List.foldl_append, h, registered]

theorem State.Filed.visit {s : State O κ W} (hs : s.Filed) (host : Host O κ V R X W)
    (ev : Event κ) (h : Handler O) : (visit host ev s h).2.Filed := by
  unfold Winui.visit
  split
  · exact hs
  · split
    · split
      · exact hs.after _
      · exact hs.after _
    · exact hs

theorem State.Filed.loop (host : Host O κ V R X W) (ev : Event κ) (hs : List (Handler O))
    {s : State O κ W} (h : s.Filed) : (loop host ev s hs).state.Filed := by
  induction hs generalizing s with
  | nil => exact h.after _
  | cons x hs ih =>
    have hvisit := h.visit host ev x
    rw [Winui.loop]
    rcases hv : Winui.visit host ev s x with ⟨v, s'⟩
    rw [hv] at hvisit
    cases hend : v.ends host.bool with
    | some out => simpa [hend] using hvisit
    | none => simpa [hend] using ih hvisit

theorem filed_inductive (host : Host O κ V R X W) : (system host).Inductive State.Filed where
  init s h := by rw [State.Filed, h.1, h.2]
  step s l s' h hstep := by
    cases l with
    | register r =>
      obtain ⟨world, rfl⟩ := hstep
      exact h.after _
    | event ev =>
      obtain ⟨order, rfl⟩ := hstep
      exact State.Filed.loop host ev order.list h

/-- Wherever registrations and events have led, the next event goes to the
handlers registered until then. -/
theorem dispatched_reachable (host : Host O κ V R X W) {s : State O κ W}
    (hs : (system host).Reachable s) (ev : Event κ)
    (order : Iteration (collect s.eventHandlers ev)) :
    (∀ h, h ∈ collect s.eventHandlers ev ↔ ∃ p, (h, p) ∈ s.registrations ∧ p.Agrees ev) ∧
    Dispatched host.bool (collect s.eventHandlers ev) (eventDispatcher host s ev order) := by
  have hfiled : s.Filed := (filed_inductive host).reachable s hs
  refine ⟨fun h => ?_, dispatched_loop host s ev order⟩
  rw [hfiled]
  exact mem_collect s.registrations ev h

end Wubi.Winui
