/-!
# Labelled transition systems

A system is a predicate on initial states and a labelled step relation.
`Run s ls s'` is a finite execution from `s` to `s'` with the labels `ls` in
order. Two induction rules carry every invariant of this development:

* `Inductive`: a state predicate that holds initially and is kept by each
  step holds in every reachable state (`Inductive.reachable`);
* `History`: the same for a predicate on the labels so far and the state
  (`History.run`), for facts such as "how often did this label occur".

`restrict C` keeps the steps that meet `C`: its runs are the runs all of whose
steps satisfy the condition `C`.

A number that every step lowers bounds the runs (`Run.length_le`), and every
state then leads to one without a step (`exists_ended`).
-/
namespace Wubi

structure LTS (S L : Type) where
  init : S → Prop
  step : S → L → S → Prop

namespace LTS

variable {S L : Type}

inductive Run (M : LTS S L) : S → List L → S → Prop
  | nil (s : S) : Run M s [] s
  | cons {s s₁ s' : S} {l : L} {ls : List L} :
      M.step s l s₁ → Run M s₁ ls s' → Run M s (l :: ls) s'

variable {M : LTS S L}

/-- `s` is reached from an initial state. -/
def Reachable (M : LTS S L) (s : S) : Prop := ∃ s₀ ls, M.init s₀ ∧ M.Run s₀ ls s

/-! ## Invariants -/

structure Inductive (M : LTS S L) (I : S → Prop) : Prop where
  init : ∀ s, M.init s → I s
  step : ∀ s l s', I s → M.step s l s' → I s'

/-- A predicate kept by every step is kept by every run. -/
theorem run_of_step {I : S → Prop} (hI : ∀ s l s', I s → M.step s l s' → I s') {s s' : S}
    {ls : List L} (hr : M.Run s ls s') (h : I s) : I s' := by
  induction hr with
  | nil => exact h
  | cons hs _ ih => exact ih (hI _ _ _ h hs)

theorem Inductive.reachable {I : S → Prop} (h : M.Inductive I) (s : S) (hr : M.Reachable s) :
    I s := by
  obtain ⟨s₀, ls, hi, hrun⟩ := hr
  exact run_of_step h.step hrun (h.init s₀ hi)

/-- An invariant that may use another invariant `J` of the same system. -/
theorem Inductive.strengthen {I J : S → Prop} (hJ : M.Inductive J) (hi : ∀ s, M.init s → I s)
    (hs : ∀ s l s', J s → I s → M.step s l s' → I s') : M.Inductive fun s => J s ∧ I s where
  init s h := ⟨hJ.init s h, hi s h⟩
  step s l s' h hst := ⟨hJ.step s l s' h.1 hst, hs s l s' h.1 h.2 hst⟩

structure History (M : LTS S L) (I : List L → S → Prop) : Prop where
  init : ∀ s, M.init s → I [] s
  step : ∀ ls s l s', I ls s → M.step s l s' → I (ls ++ [l]) s'

/-- A predicate on the labels so far and the state, kept by every step, is kept
by every run. -/
theorem history_of_step {I : List L → S → Prop}
    (hI : ∀ ls s l s', I ls s → M.step s l s' → I (ls ++ [l]) s') {s s' : S} {ls : List L}
    (hr : M.Run s ls s') : ∀ {pre : List L}, I pre s → I (pre ++ ls) s' := by
  induction hr with
  | nil => intro pre h; simpa using h
  | cons hs _ ih => intro pre h; simpa using ih (hI _ _ _ _ h hs)

theorem History.from {I : List L → S → Prop} (h : M.History I) {s s' : S} {ls : List L}
    (hr : M.Run s ls s') {pre : List L} (hpre : I pre s) : I (pre ++ ls) s' :=
  history_of_step h.step hr hpre

theorem History.run {I : List L → S → Prop} (h : M.History I) {s₀ s : S} {ls : List L}
    (hi : M.init s₀) (hr : M.Run s₀ ls s) : I ls s := by
  simpa using h.from hr (h.init s₀ hi)

/-! ## Conditions on steps -/

/-- The steps of `M` that meet `C`. -/
def restrict (M : LTS S L) (C : S → L → Prop) : LTS S L where
  init := M.init
  step s l s' := M.step s l s' ∧ C s l

theorem Inductive.restrict {I : S → Prop} {C : S → L → Prop} (h : M.Inductive I) :
    (M.restrict C).Inductive I where
  init := h.init
  step s l s' hI hst := h.step s l s' hI hst.1

theorem Run.of_restrict {C : S → L → Prop} {s s' : S} {ls : List L}
    (h : (M.restrict C).Run s ls s') : M.Run s ls s' := by
  induction h with
  | nil => exact .nil _
  | cons hs _ ih => exact .cons hs.1 ih

theorem Run.restrict {C : S → L → Prop} {s s' : S} {ls : List L} (h : M.Run s ls s')
    (hC : ∀ l ∈ ls, ∀ s, C s l) : (M.restrict C).Run s ls s' := by
  induction h with
  | nil => exact .nil _
  | @cons s s' s'' l ls hs _ ih =>
    exact .cons ⟨hs, hC l List.mem_cons_self s⟩ (ih fun l' hl' => hC l' (List.mem_cons_of_mem l hl'))

/-! ## Systems that come to an end -/

/-- No step is possible. -/
def Ended (M : LTS S L) (s : S) : Prop := ∀ l s', ¬ M.step s l s'

theorem Run.trans {s s' s'' : S} {ls ls' : List L} (h : M.Run s ls s') (h' : M.Run s' ls' s'') :
    M.Run s (ls ++ ls') s'' := by
  induction h with
  | nil => exact h'
  | cons hs _ ih => exact .cons hs (ih h')

theorem Reachable.trans {s s' : S} {ls : List L} (h : M.Reachable s) (hr : M.Run s ls s') :
    M.Reachable s' := by
  obtain ⟨s₀, ls₀, hi, hrun⟩ := h
  exact ⟨s₀, ls₀ ++ ls, hi, hrun.trans hr⟩

/-- A number that every step lowers bounds the length of the runs. -/
theorem Run.length_le {μ : S → Nat} (hμ : ∀ s l s', M.step s l s' → μ s' < μ s) {s s' : S}
    {ls : List L} (h : M.Run s ls s') : ls.length + μ s' ≤ μ s := by
  induction h with
  | nil => simp
  | cons hs _ ih =>
    have := hμ _ _ _ hs
    rw [List.length_cons]
    omega

/-- Every run can then be continued to its end. -/
theorem exists_ended {μ : S → Nat} (hμ : ∀ s l s', M.step s l s' → μ s' < μ s) (s : S) :
    ∃ ls s', M.Run s ls s' ∧ M.Ended s' := by
  induction hn : μ s using Nat.strongRecOn generalizing s with
  | _ n ih =>
    by_cases hend : M.Ended s
    · exact ⟨[], s, .nil s, hend⟩
    · simp only [Ended, Classical.not_forall, Classical.not_not] at hend
      obtain ⟨l, s₁, hs⟩ := hend
      obtain ⟨ls, s', hrun, hended⟩ := ih (μ s₁) (hn ▸ hμ _ _ _ hs) s₁ rfl
      exact ⟨l :: ls, s', .cons hs hrun, hended⟩

/-- Where the next state is determined, no run is longer than one that has ended. -/
theorem Run.length_le_ended {I : S → Prop} (hI : ∀ s l s', I s → M.step s l s' → I s')
    (hdet : ∀ s l₁ s₁ l₂ s₂, I s → M.step s l₁ s₁ → M.step s l₂ s₂ → s₁ = s₂) {s s' s'' : S}
    {ls ms : List L} (h : M.Run s ls s') (hend : M.Ended s') (hs : I s) (h' : M.Run s ms s'') :
    ms.length ≤ ls.length := by
  induction h generalizing ms s'' with
  | nil =>
    cases h' with
    | nil => exact Nat.le_refl _
    | cons hst _ => exact absurd hst (hend _ _)
  | cons hst _ ih =>
    cases h' with
    | nil => exact Nat.zero_le _
    | cons hst' hrun =>
      cases hdet _ _ _ _ _ hs hst hst'
      exact Nat.succ_le_succ (ih hend (hI _ _ _ hs hst) hrun)

end LTS

end Wubi
