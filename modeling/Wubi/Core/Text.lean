import Mathlib.Data.List.DropRight

/-!
# Python strings and `ntpath`

Byte strings as lists of characters, with the methods of `str` and the
functions of `ntpath` that the installer uses. A path keeps the spelling it
was given; `abspath` is not here, because it depends on the current directory.
-/
namespace Wubi

abbrev Str := List Char

namespace Str

def isSpace (c : Char) : Bool :=
  c == ' ' || c == '\t' || c == '\n' || c == '\r' || c == '\x0b' || c == '\x0c'

/-- `s.split()` -/
def words (s : Str) : List Str := (s.splitOnP isSpace).filter (· ≠ [])

/-- `s.split(sep)` for a separator of two characters. -/
def splitPair (a b : Char) : Str → List Str
  | [] => [[]]
  | [x] => [[x]]
  | x :: y :: s =>
    if x = a ∧ y = b then [] :: splitPair a b s
    else match splitPair a b (y :: s) with
      | [] => [[x]]
      | l :: ls => (x :: l) :: ls

def strip (s : Str) : Str := (s.dropWhile isSpace).rdropWhile isSpace

def lower (s : Str) : Str := s.map Char.toLower

/-! ## `ntpath` -/

def isSep (c : Char) : Bool := c == '/' || c == '\\'

/-- The length of a drive prefix such as `C:`. -/
def driveLen : Str → Nat
  | _ :: ':' :: _ => 2
  | _ => 0

/-- The text behind the last separator. -/
def basename (p : Str) : Str := (p.drop p.driveLen).rtakeWhile fun c => !isSep c

/-- The text before the last separator, without the separators at its end
unless there is nothing else. -/
def dirname (p : Str) : Str :=
  let head := (p.drop p.driveLen).rdropWhile fun c => !isSep c
  p.take p.driveLen ++ if head.rdropWhile isSep = [] then head else head.rdropWhile isSep

/-- The path starts from a drive or from the root. -/
def isRooted (p : Str) : Bool :=
  p.driveLen == 2 || match p with
    | [] => false
    | c :: _ => isSep c

/-- `os.path.join(a, b)`: a rooted `b` replaces `a`. -/
def join (a b : Str) : Str :=
  if a = [] ∨ b.isRooted then b
  else match a.getLast? with
    | some c => if isSep c || c == ':' then a ++ b else a ++ '\\' :: b
    | none => b

theorem join_ne {a : Str} (ha : a ≠ []) {b : Str} : a.join b ≠ [] := by
  unfold join
  split
  · rename_i h
    rcases h with h | h
    · exact absurd h ha
    · intro hb
      rw [hb] at h
      cases h
  · split
    · split
      · simp [ha]
      · simp
    · rename_i h
      exact absurd (List.getLast?_eq_none_iff.1 h) ha

/-! ## Runs -/

section
variable {α : Type} {p : α → Bool}

/-- A run of a class ends at the first letter outside it. -/
theorem append_cons_inj {a b x y : List α} {d e : α} (ha : ∀ z ∈ a, p z = true)
    (hb : ∀ z ∈ b, p z = true) (hd : p d = false) (he : p e = false)
    (h : a ++ d :: x = b ++ e :: y) : a = b ∧ d = e ∧ x = y := by
  have htake : ∀ {l m : List α} {z : α}, (∀ y ∈ l, p y = true) → p z = false →
      (l ++ z :: m).takeWhile p = l := by
    intro l m z hl hz
    rw [List.takeWhile_append_of_pos hl, List.takeWhile_cons_of_neg (by simp [hz]), List.append_nil]
  have hab : a = b := by rw [← htake (m := x) ha hd, h, htake hb he]
  subst hab
  exact ⟨rfl, List.cons.inj (List.append_cancel_left h)⟩

/-- A run of a class starts behind the last letter outside it. -/
theorem append_cons_inj_right {a b x y : List α} {d e : α} (hx : ∀ z ∈ x, p z = true)
    (hy : ∀ z ∈ y, p z = true) (hd : p d = false) (he : p e = false)
    (h : a ++ d :: x = b ++ e :: y) : a = b ∧ d = e ∧ x = y := by
  have hrev : x.reverse ++ d :: a.reverse = y.reverse ++ e :: b.reverse := by
    simpa using congrArg List.reverse h
  obtain ⟨hxy, hde, hab⟩ := append_cons_inj (p := p) (fun z hz => hx z (List.mem_reverse.1 hz))
    (fun z hz => hy z (List.mem_reverse.1 hz)) hd he hrev
  exact ⟨List.reverse_injective hab, hde, List.reverse_injective hxy⟩

theorem bne_of_not_mem {c : Char} {s : Str} (h : c ∉ s) : ∀ x ∈ s, (x != c) = true := by
  intro x hx
  rw [bne_iff_ne]
  rintro rfl
  exact h hx

end

/-! ## Reading in chunks -/

def chunksFuel (n : Nat) : Nat → Str → List Str
  | 0, _ => []
  | fuel + 1, s => if s = [] then [] else s.take n :: chunksFuel n fuel (s.drop n)

/-- What `read(n)` returns in turn, up to the empty string at the end. -/
def chunks (n : Nat) (s : Str) : List Str := chunksFuel n s.length s

theorem flatten_chunksFuel {n : Nat} (hn : 0 < n) {fuel : Nat} {s : Str} (h : s.length ≤ fuel) :
    (chunksFuel n fuel s).flatten = s := by
  induction fuel generalizing s with
  | zero => simp [chunksFuel, List.length_eq_zero_iff.1 (Nat.le_zero.1 h)]
  | succ fuel ih =>
    unfold chunksFuel
    split
    · simp [*]
    · have hdrop : (s.drop n).length ≤ fuel := by rw [List.length_drop]; omega
      rw [List.flatten_cons, ih hdrop, List.take_append_drop]

theorem length_chunksFuel {n : Nat} (hn : 0 < n) {fuel : Nat} {s : Str} (h : s.length ≤ fuel) :
    (chunksFuel n fuel s).length = (s.length + n - 1) / n := by
  induction fuel generalizing s with
  | zero =>
    have hnil := List.length_eq_zero_iff.1 (Nat.le_zero.1 h)
    simp [chunksFuel, hnil, Nat.div_eq_of_lt (Nat.sub_lt hn Nat.one_pos)]
  | succ fuel ih =>
    unfold chunksFuel
    split
    · rename_i hnil
      simp [hnil, Nat.div_eq_of_lt (Nat.sub_lt hn Nat.one_pos)]
    · rename_i hne
      have hpos : 0 < s.length := List.length_pos_of_ne_nil hne
      have hdrop : (s.drop n).length ≤ fuel := by rw [List.length_drop]; omega
      rw [List.length_cons, ih hdrop, List.length_drop]
      rcases Nat.lt_or_ge s.length n with hlt | hge
      · have hone : (s.length + n - 1) / n = 1 := by
          rw [Nat.div_eq_iff hn]
          omega
        have hzero : s.length - n + n - 1 < n := by omega
        rw [hone, Nat.div_eq_of_lt hzero]
      · have hsub : s.length + n - 1 = (s.length - n + n - 1) + n := by omega
        rw [hsub, Nat.add_div_right _ hn]

theorem take_chunksFuel {n : Nat} (hn : 0 < n) {fuel k : Nat} {s : Str} (h : s.length ≤ fuel) :
    ((chunksFuel n fuel s).take k).flatten = s.take (k * n) := by
  induction fuel generalizing k s with
  | zero => simp [chunksFuel, List.length_eq_zero_iff.1 (Nat.le_zero.1 h)]
  | succ fuel ih =>
    unfold chunksFuel
    split
    · simp [*]
    · cases k with
      | zero => simp
      | succ k =>
        have hdrop : (s.drop n).length ≤ fuel := by rw [List.length_drop]; omega
        rw [List.take_succ_cons, List.flatten_cons, ih hdrop, Nat.succ_mul, Nat.add_comm (k * n),
          List.take_add]

/-- The chunks are the whole file. -/
theorem flatten_chunks {n : Nat} (hn : 0 < n) (s : Str) : (chunks n s).flatten = s :=
  flatten_chunksFuel hn (Nat.le_refl _)

/-- The first `k` chunks. -/
theorem take_chunks {n : Nat} (hn : 0 < n) (k : Nat) (s : Str) :
    ((chunks n s).take k).flatten = s.take (k * n) :=
  take_chunksFuel hn (Nat.le_refl _)

theorem length_chunks {n : Nat} (hn : 0 < n) (s : Str) :
    (chunks n s).length = (s.length + n - 1) / n :=
  length_chunksFuel hn (Nat.le_refl _)

end Str

end Wubi
