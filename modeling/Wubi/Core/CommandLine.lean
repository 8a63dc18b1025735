import Wubi.Core.Text

/-!
# Command lines

A Windows program gets one string and its C runtime makes `argv` of it:
arguments end at blanks outside quotes, backslashes are literal unless a quote
follows them, then two stand for one and an odd one makes the quote literal,
and a pair of quotes inside quotes is a literal one. The program name in front
has quotes but no escapes.

Results:
* `splitArgs_path`: a path in quotes is one argument.
* `splitArgs_tail`: arguments put behind blanks come back if they are plain.
* `weight_splitArgs`: splitting adds no characters, and a quote costs one.
-/
namespace Wubi.CommandLine

/-- Outside quotes, inside, or right behind a quote that may close them. -/
inductive Mode where
  | plain
  | quoted
  | closing
  deriving DecidableEq

namespace Mode

/-- Behind a character that is no quote. -/
def next : Mode → Mode
  | .quoted => .quoted
  | _ => .plain

/-- Behind a quote that is not escaped. -/
def quote : Mode → Mode
  | .quoted => .closing
  | _ => .quoted

/-- What such a quote stands for. -/
def quoteText : Mode → Str
  | .closing => ['"']
  | _ => []

end Mode

def isBlank (c : Char) : Bool := c == ' ' || c == '\t'

/-- The argument that ends here, if there is one. -/
def flush (cur : Option Str) (n : Nat) : List Str := (cur.map (· ++ List.replicate n '\\')).toList

/-- The arguments in a text. `cur` is the argument read so far, which `n`
backslashes follow. -/
def splitArgs (cur : Option Str) (mode : Mode) (n : Nat) : Str → List Str
  | [] => flush cur n
  | c :: s =>
    if c = '\\' then splitArgs (some (cur.getD [])) mode.next (n + 1) s
    else if c = '"' then
      if n % 2 = 1 then
        splitArgs (some (cur.getD [] ++ List.replicate (n / 2) '\\' ++ ['"'])) mode.next 0 s
      else
        splitArgs (some (cur.getD [] ++ List.replicate (n / 2) '\\' ++ mode.quoteText)) mode.quote 0 s
    else if isBlank c = true ∧ mode ≠ .quoted then flush cur n ++ splitArgs none .plain 0 s
    else splitArgs (some (cur.getD [] ++ List.replicate n '\\' ++ [c])) mode.next 0 s

/-- The program name and the text behind it. -/
def programName : Bool → Str → Str × Str
  | _, [] => ([], [])
  | quoted, c :: s =>
    if c = '"' then programName (!quoted) s
    else if isBlank c = true ∧ quoted = false then ([], s)
    else (c :: (programName quoted s).1, (programName quoted s).2)

def argvOf (cmd : Str) : List Str :=
  (programName false cmd).1 :: splitArgs none .plain 0 (programName false cmd).2

/-- Every argument behind a blank. -/
def tail (args : List Str) : Str := (args.map fun a => ' ' :: a).flatten

@[simp] theorem tail_nil : tail [] = [] := rfl

@[simp] theorem tail_cons {a : Str} {args : List Str} : tail (a :: args) = ' ' :: (a ++ tail args) :=
  rfl

/-! ## A path in quotes -/

variable {a p s : Str} {args : List Str} {n : Nat}

theorem programName_path (hq : '"' ∉ p) :
    programName false ('"' :: (p ++ '"' :: ' ' :: s)) = (p, s) := by
  have hinside : programName true (p ++ '"' :: ' ' :: s) = (p, s) := by
    induction p with
    | nil => simp [programName, isBlank]
    | cons c p ih =>
      simp only [List.mem_cons, not_or] at hq
      simp [programName, Ne.symm hq.1, ih hq.2]
  simpa [programName] using hinside

theorem splitArgs_inside (hq : '"' ∉ p) (hlast : p.getLast? ≠ some '\\') (hn : p ≠ [] ∨ n = 0) :
    splitArgs (some a) .quoted n (p ++ '"' :: s) =
      splitArgs (some (a ++ List.replicate n '\\' ++ p)) .closing 0 s := by
  induction p generalizing a n with
  | nil =>
    have hn0 : n = 0 := hn.resolve_left (fun h => h rfl)
    simp [splitArgs, hn0, Mode.quoteText, Mode.quote]
  | cons c p ih =>
    simp only [List.mem_cons, not_or] at hq
    have hlast' : p.getLast? ≠ some '\\' := by
      intro h
      apply hlast
      rw [List.getLast?_cons, h]
      rfl
    by_cases hc : c = '\\'
    · have hp : p ≠ [] := by
        intro h
        exact hlast (by rw [h, hc]; rfl)
      have hstep := @ih a (n + 1) hq.2 hlast' (.inl hp)
      simp [splitArgs, hc, Mode.next, hstep, List.replicate_succ']
    · have hstep := @ih (a ++ List.replicate n '\\' ++ [c]) 0 hq.2 hlast' (.inr rfl)
      simp [splitArgs, hc, Ne.symm hq.1, Mode.next] at hstep ⊢
      exact hstep

theorem splitArgs_blank : splitArgs none .plain 0 (' ' :: s) = splitArgs none .plain 0 s := by
  simp [splitArgs, flush, isBlank]

theorem splitArgs_closing : splitArgs (some a) .closing 0 (tail args) =
    a :: splitArgs none .plain 0 (tail args) := by
  cases args with
  | nil => simp [splitArgs, flush]
  | cons b args => simp [splitArgs, flush, isBlank]

/-- A path in quotes is one argument. -/
theorem splitArgs_path (hq : '"' ∉ p) (hlast : p.getLast? ≠ some '\\') :
    splitArgs none .plain 0 ('"' :: (p ++ '"' :: s)) = splitArgs (some p) .closing 0 s := by
  have hinside := @splitArgs_inside [] p s 0 hq hlast (.inr rfl)
  simpa [splitArgs, Mode.quoteText, Mode.quote] using hinside

/-! ## Plain arguments -/

/-- Neither empty nor with a blank or a quote. -/
structure Plain (a : Str) : Prop where
  ne : a ≠ []
  blank : ∀ c ∈ a, isBlank c = false
  quote : '"' ∉ a

theorem splitArgs_word (hblank : ∀ c ∈ p, isBlank c = false) (hq : '"' ∉ p) :
    splitArgs (some a) .plain n (p ++ tail args) =
      (a ++ List.replicate n '\\' ++ p) :: splitArgs none .plain 0 (tail args) := by
  induction p generalizing a n with
  | nil =>
    cases args with
    | nil => simp [splitArgs, flush]
    | cons b args => simp [splitArgs, flush, isBlank]
  | cons c p ih =>
    simp only [List.mem_cons, not_or] at hq
    have hrest : ∀ c ∈ p, isBlank c = false := fun x hx => hblank x (List.mem_cons_of_mem _ hx)
    by_cases hc : c = '\\'
    · have hstep := @ih a (n + 1) hrest hq.2
      simp [splitArgs, hc, Mode.next, hstep, List.replicate_succ']
    · have hstep := @ih (a ++ List.replicate n '\\' ++ [c]) 0 hrest hq.2
      have hcb := hblank c List.mem_cons_self
      simp [splitArgs, hc, Ne.symm hq.1, hcb, Mode.next] at hstep ⊢
      exact hstep

theorem splitArgs_tail (h : ∀ a ∈ args, Plain a) : splitArgs none .plain 0 (tail args) = args := by
  induction args with
  | nil => rfl
  | cons a args ih =>
    obtain ⟨hne, hblank, hq⟩ := h a List.mem_cons_self
    have hrest := ih fun b hb => h b (List.mem_cons_of_mem _ hb)
    obtain ⟨c, p, rfl⟩ := List.exists_cons_of_ne_nil hne
    -- the first character opens the argument as it would carry it on
    have hopen : splitArgs none .plain 0 (c :: p ++ tail args) =
        splitArgs (some []) .plain 0 (c :: p ++ tail args) := by
      simp [splitArgs, hblank c List.mem_cons_self]
    rw [tail_cons, splitArgs_blank, hopen, splitArgs_word hblank hq, hrest]
    simp

/-- What the argument read so far must be for a plain one. -/
def Growing (cur : Option Str) (n : Nat) : Prop :=
  ∀ a, cur = some a → (∀ c ∈ a, isBlank c = false) ∧ '"' ∉ a ∧ (a ≠ [] ∨ 0 < n)

theorem plain_flush {cur : Option Str} (h : Growing cur n) : ∀ a ∈ flush cur n, Plain a := by
  cases cur with
  | none =>
    intro a ha
    cases ha
  | some b =>
    intro a ha
    obtain ⟨hblank, hq, hne⟩ := h b rfl
    rw [List.mem_singleton.1 ha]
    refine ⟨?_, ?_, ?_⟩
    · intro hnil
      rw [List.append_eq_nil_iff, List.replicate_eq_nil_iff] at hnil
      rcases hne with hne | hne
      · exact hne hnil.1
      · omega
    · intro c hc
      rcases List.mem_append.1 hc with hc | hc
      · exact hblank c hc
      · rw [List.eq_of_mem_replicate hc]; decide
    · intro hc
      rcases List.mem_append.1 hc with hc | hc
      · exact hq hc
      · exact absurd (List.eq_of_mem_replicate hc) (by decide)

/-- Without quotes there are only plain arguments. -/
theorem plain_splitArgs {cur : Option Str} (hs : '"' ∉ s) (hcur : Growing cur n) :
    ∀ a ∈ splitArgs cur .plain n s, Plain a := by
  induction s generalizing cur n with
  | nil => exact plain_flush hcur
  | cons c s ih =>
    simp only [List.mem_cons, not_or] at hs
    have hgetD : (∀ c ∈ cur.getD [], isBlank c = false) ∧ '"' ∉ cur.getD [] := by
      cases cur with
      | none => exact ⟨(fun c hc => nomatch hc), List.not_mem_nil⟩
      | some b => exact ⟨(hcur b rfl).1, (hcur b rfl).2.1⟩
    rw [splitArgs]
    by_cases hc : c = '\\'
    · rw [if_pos hc]
      refine ih hs.2 fun a ha => ?_
      cases ha
      exact ⟨hgetD.1, hgetD.2, .inr (Nat.succ_pos n)⟩
    · rw [if_neg hc, if_neg (Ne.symm hs.1)]
      by_cases hb : isBlank c = true
      · rw [if_pos ⟨hb, (by decide)⟩]
        intro a ha
        rcases List.mem_append.1 ha with ha | ha
        · exact plain_flush hcur a ha
        · exact @ih 0 none hs.2 (fun a ha => nomatch ha) a ha
      · rw [if_neg (fun h => hb h.1)]
        refine ih hs.2 fun a ha => ?_
        cases ha
        rw [Bool.not_eq_true] at hb
        refine ⟨?_, ?_, .inl (by simp)⟩
        · intro x hx
          simp only [List.mem_append, List.mem_singleton] at hx
          rcases hx with (hx | hx) | rfl
          · exact hgetD.1 x hx
          · rw [List.eq_of_mem_replicate hx]; decide
          · exact hb
        · simp [hgetD.2, hs.1, List.mem_replicate]

/-! ## What quotes cost -/

theorem length_flush {cur : Option Str} : (tail (flush cur n)).length ≤ (cur.getD []).length + n + 1 := by
  cases cur with
  | none => simp [flush]
  | some a => simp [flush]

theorem tail_append {l m : List Str} : tail (l ++ m) = tail l ++ tail m := by simp [tail]

/-- Splitting adds no characters. -/
theorem weight_le {cur : Option Str} {mode : Mode} :
    (tail (splitArgs cur mode n s)).length ≤ (cur.getD []).length + n + 1 + s.length := by
  induction s generalizing cur mode n with
  | nil => simpa [splitArgs] using length_flush
  | cons c s ih =>
    rw [splitArgs]
    split
    · have := @ih (n + 1) (some (cur.getD [])) mode.next
      simp at this ⊢
      omega
    · split
      · split
        · have := @ih 0 (some (cur.getD [] ++ List.replicate (n / 2) '\\' ++ ['"'])) mode.next
          simp at this ⊢
          omega
        · have := @ih 0 (some (cur.getD [] ++ List.replicate (n / 2) '\\' ++ mode.quoteText)) mode.quote
          have hq : mode.quoteText.length ≤ 1 := by cases mode <;> simp [Mode.quoteText]
          simp at this ⊢
          omega
      · split
        · have := @ih 0 none .plain
          have := @length_flush n cur
          rw [tail_append]
          simp at *
          omega
        · have := @ih 0 (some (cur.getD [] ++ List.replicate n '\\' ++ [c])) mode.next
          simp at this ⊢
          omega

/-- The first quote is lost. -/
theorem weight_lt {cur : Option Str} {mode : Mode} (hmode : mode ≠ .closing) (hs : '"' ∈ s) :
    (tail (splitArgs cur mode n s)).length < (cur.getD []).length + n + 1 + s.length := by
  induction s generalizing cur mode n with
  | nil => cases hs
  | cons c s ih =>
    have hnext : mode.next ≠ .closing := by cases mode <;> decide
    have htail : c ≠ '"' → '"' ∈ s := fun hc => (List.mem_cons.1 hs).resolve_left (Ne.symm hc)
    rw [splitArgs]
    split
    · rename_i hc
      have := @ih (n + 1) (some (cur.getD [])) mode.next hnext (htail (by rw [hc]; decide))
      simp at this ⊢
      omega
    · split
      · split
        · have := @weight_le s 0 (some (cur.getD [] ++ List.replicate (n / 2) '\\' ++ ['"'])) mode.next
          simp at this ⊢
          omega
        · have := @weight_le s 0 (some (cur.getD [] ++ List.replicate (n / 2) '\\' ++ mode.quoteText))
            mode.quote
          have hq : mode.quoteText.length = 0 := by
            cases mode with
            | closing => exact absurd rfl hmode
            | _ => rfl
          simp at this ⊢
          omega
      · rename_i hc
        split
        · have := @ih 0 none .plain (by decide) (htail hc)
          have := @length_flush n cur
          rw [tail_append]
          simp at *
          omega
        · have := @ih 0 (some (cur.getD [] ++ List.replicate n '\\' ++ [c])) mode.next hnext (htail hc)
          simp at this ⊢
          omega

/-- Splitting what stands behind the blanks. -/
theorem weight_splitArgs :
    (tail (splitArgs none .plain 0 (tail args))).length ≤ (tail args).length ∧
      ((∃ a ∈ args, '"' ∈ a) →
        (tail (splitArgs none .plain 0 (tail args))).length < (tail args).length) := by
  cases args with
  | nil => simp [splitArgs, flush]
  | cons b args =>
    rw [tail_cons, splitArgs_blank]
    have hle := @weight_le (b ++ tail args) 0 none .plain
    constructor
    · simp at hle ⊢
      omega
    · intro ⟨a, ha, hq⟩
      have hin : '"' ∈ b ++ tail args := by
        rcases List.mem_cons.1 ha with rfl | ha
        · exact List.mem_append_left _ hq
        · refine List.mem_append_right _ (List.mem_flatten.2 ⟨' ' :: a, List.mem_map.2 ⟨a, ha, rfl⟩, ?_⟩)
          exact List.mem_cons_of_mem _ hq
      have := @weight_lt (b ++ tail args) 0 none .plain (by decide) hin
      simp at this ⊢
      omega

/-- Two programs in a row hand on plain arguments, and no others. -/
theorem splitArgs_twice_iff :
    splitArgs none .plain 0 (tail (splitArgs none .plain 0 (tail args))) = args ↔
      ∀ a ∈ args, Plain a := by
  constructor
  · intro h
    have hweight : (tail args).length ≤ (tail (splitArgs none .plain 0 (tail args))).length := by
      have hle := (@weight_splitArgs (splitArgs none .plain 0 (tail args))).1
      rwa [h] at hle
    have hno : ∀ a ∈ args, '"' ∉ a := by
      intro a ha hq
      have := (@weight_splitArgs args).2 ⟨a, ha, hq⟩
      omega
    have hno' : '"' ∉ tail args := by
      intro hq
      obtain ⟨t, ht, hq⟩ := List.mem_flatten.1 hq
      obtain ⟨a, ha, rfl⟩ := List.mem_map.1 ht
      rcases List.mem_cons.1 hq with hq | hq
      · exact absurd hq (by decide)
      · exact hno a ha hq
    have hplain := @plain_splitArgs (tail args) 0 none hno' (fun a ha => nomatch ha)
    rw [splitArgs_tail hplain] at h
    rwa [h] at hplain
  · intro h
    rw [splitArgs_tail h, splitArgs_tail h]

end Wubi.CommandLine
