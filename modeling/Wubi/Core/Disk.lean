import Mathlib.Data.List.Induction
import Mathlib.Data.List.Infix
import Mathlib.Data.List.Nodup
import Mathlib.Data.List.Perm.Subperm

/-!
# Trees of files

A disk is the list of its entries: the path of each, and whether it is a
directory. `TreeAt d p` says that what lies at `p` or below is a tree with the
directory `p` as its root: one entry for each path, and an entry's parent is a
directory. Everything below a path of it then lies at one of its children or
below one (`TreeAt.exists_child`), and a child that is a directory is the root
of a tree again (`TreeAt.child`).

`makedirs` makes the directories on the way to a path that are not there yet,
`write` a file in a directory that is. What they add is all that they change
(`mem_makedirs_file`, `mem_write`).
-/
namespace Wubi

abbrev Disk (ν : Type) := List (List ν × Bool)

namespace Disk

variable {ν : Type} [DecidableEq ν]

/-- The name in the directory `p` that the path `q` stands for. -/
def childName (p q : List ν) : Option ν := if q.dropLast = p then q.getLast? else none

/-- The names in the directory `p`, with their kinds. -/
def children (d : Disk ν) (p : List ν) : List (ν × Bool) :=
  d.filterMap fun e => (childName p e.1).map fun n => (n, e.2)

def remove (d : Disk ν) (p : List ν) : Disk ν := d.filter fun e => e.1 ≠ p

theorem childName_eq_some {p q : List ν} {n : ν} : childName p q = some n ↔ q = p ++ [n] := by
  unfold childName
  constructor
  · intro h
    split at h
    · rename_i hp
      obtain ⟨l, rfl⟩ := List.getLast?_eq_some_iff.1 h
      rw [List.dropLast_concat] at hp
      rw [hp]
    · cases h
  · rintro rfl
    simp

theorem mem_children {d : Disk ν} {p : List ν} {n : ν} {k : Bool} :
    (n, k) ∈ children d p ↔ (p ++ [n], k) ∈ d := by
  unfold children
  rw [List.mem_filterMap]
  constructor
  · intro hboth
    obtain ⟨⟨q, k'⟩, he, heq⟩ := hboth
    obtain ⟨n', hn, hpair⟩ := Option.map_eq_some_iff.1 heq
    cases hpair
    rwa [← childName_eq_some.1 hn]
  · exact fun h => ⟨_, h, by simp [childName]⟩

theorem mem_remove {d : Disk ν} {p : List ν} {e : List ν × Bool} :
    e ∈ remove d p ↔ e ∈ d ∧ e.1 ≠ p := by simp [remove]

theorem remove_sublist (d : Disk ν) (p : List ν) : (remove d p).Sublist d := List.filter_sublist

theorem children_sublist {d d' : Disk ν} (h : d'.Sublist d) (p : List ν) :
    (children d' p).Sublist (children d p) :=
  h.filterMap _

omit [DecidableEq ν] in
theorem prefix_of_child {p q : List ν} {n : ν} (h : p ++ [n] <+: q) : p <+: q :=
  (List.prefix_append p [n]).trans h

omit [DecidableEq ν] in
theorem child_not_above (p : List ν) (n : ν) : ¬ p ++ [n] <+: p := by
  intro h
  have hlen := h.length_le
  rw [List.length_append, List.length_singleton] at hlen
  omega

omit [DecidableEq ν] in
/-- Two children of one directory have nothing in common. -/
theorem child_inj {p q : List ν} {m n : ν} (hm : p ++ [m] <+: q) (hn : p ++ [n] <+: q) : m = n := by
  obtain ⟨s, rfl⟩ := hm
  obtain ⟨t, ht⟩ := hn
  rw [List.append_assoc, List.append_assoc, List.append_cancel_left_eq] at ht
  cases ht
  rfl

/-- What lies at `p` or below it is a tree. -/
structure TreeAt (d : Disk ν) (p : List ν) : Prop where
  root : (p, true) ∈ d
  nodup : (d.map Prod.fst).Nodup
  parent : ∀ q n k, p <+: q → (q ++ [n], k) ∈ d → (q, true) ∈ d

namespace TreeAt

variable {d d' : Disk ν} {p q : List ν}

omit [DecidableEq ν] in
/-- A path has one kind. -/
theorem kind_eq (h : TreeAt d p) {e e' : List ν × Bool} (he : e ∈ d) (he' : e' ∈ d)
    (hpath : e.1 = e'.1) : e = e' :=
  List.inj_on_of_nodup_map h.nodup he he' hpath

theorem child (h : TreeAt d p) {n : ν} (hn : (n, true) ∈ children d p) : TreeAt d (p ++ [n]) :=
  ⟨mem_children.1 hn, h.nodup, fun q m k hq he => h.parent q m k (prefix_of_child hq) he⟩

omit [DecidableEq ν] in
/-- Without one child and what is below it, it is a tree again. -/
theorem of_gone (h : TreeAt d p) {n : ν} (hsub : d'.Sublist d)
    (hsame : ∀ e ∈ d, ¬ p ++ [n] <+: e.1 → e ∈ d') (hgone : ∀ e ∈ d', ¬ p ++ [n] <+: e.1) :
    TreeAt d' p := by
  refine ⟨hsame _ h.root (child_not_above p n), h.nodup.sublist (hsub.map _), ?_⟩
  intro q m k hq he
  refine hsame _ (h.parent q m k hq (hsub.subset he)) fun hn => ?_
  exact hgone _ he (hn.trans (List.prefix_append q [m]))

/-- Everything below a path of the tree lies at one of its children or below it. -/
theorem exists_child (h : TreeAt d p) (hq : p <+: q) {e : List ν × Bool} (he : e ∈ d)
    (hp : q <+: e.1) (hne : e.1 ≠ q) : ∃ n k, (n, k) ∈ children d q ∧ q ++ [n] <+: e.1 := by
  obtain ⟨s, hs⟩ := hp
  obtain ⟨x, k⟩ := e
  dsimp only at hs hne
  subst hs
  induction s using List.reverseRecOn generalizing k with
  | nil => exact absurd (List.append_nil q) hne
  | append_singleton s n ih =>
    rw [← List.append_assoc] at he
    rcases eq_or_ne s [] with rfl | hs
    · rw [List.append_nil] at he
      exact ⟨n, k, mem_children.2 he, List.prefix_rfl⟩
    · have hparent := h.parent (q ++ s) n k (hq.trans (List.prefix_append q s)) he
      obtain ⟨m, k', hm, hpre⟩ := ih true hparent (by simpa using hs)
      exact ⟨m, k', hm, hpre.trans (by simp)⟩

/-- Nothing lies below a file. -/
theorem eq_of_file (h : TreeAt d p) (hq : p <+: q) (hfile : (q, false) ∈ d)
    {e : List ν × Bool} (he : e ∈ d) (hp : q <+: e.1) : e.1 = q := by
  by_contra hne
  obtain ⟨n, k, hn, -⟩ := h.exists_child hq he hp hne
  have hdir := h.parent q n k hq (mem_children.1 hn)
  cases h.kind_eq hfile hdir rfl

/-- A directory below the root lies at a child that is one, or below it. -/
theorem exists_directory (h : TreeAt d p) (hdir : (q, true) ∈ d) (hp : p <+: q) (hne : q ≠ p) :
    ∃ n, (n, true) ∈ children d p ∧ p ++ [n] <+: q := by
  obtain ⟨n, k, hn, hq⟩ := h.exists_child List.prefix_rfl hdir hp hne
  cases k with
  | true => exact ⟨n, hn, hq⟩
  | false =>
    have hfile := mem_children.1 hn
    have heq := h.eq_of_file (List.prefix_append p [n]) hfile hdir hq
    cases h.kind_eq hdir hfile heq

theorem nodup_children (h : TreeAt d p) (q : List ν) : ((children d q).map Prod.fst).Nodup := by
  have hnames : (children d q).map Prod.fst = (d.map Prod.fst).filterMap (childName q) := by
    simp [children, List.map_filterMap, List.filterMap_map, Function.comp_def]
  rw [hnames]
  refine List.Nodup.filterMap (fun x x' n hx hx' => ?_) h.nodup
  rw [childName_eq_some.1 hx, childName_eq_some.1 hx']

/-- Where all entries are kept, so is the number of children. -/
theorem length_children_le (h : TreeAt d p) {q : List ν}
    (hagree : ∀ e ∈ d, q <+: e.1 → e ∈ d') :
    (children d q).length ≤ (children d' q).length := by
  refine (List.Nodup.subperm (h.nodup_children q).of_map fun x hx => ?_).length_le
  exact mem_children.2 (hagree _ (mem_children.1 hx) (List.prefix_append _ _))

end TreeAt

/-! ## Making directories and files -/

/-- `os.mkdir(p)`; where it fails, nothing is changed. -/
def mkdir (d : Disk ν) (p : List ν) : Disk ν :=
  if p ∈ d.map Prod.fst ∨ (p.dropLast, true) ∉ d then d else d ++ [(p, true)]

/-- `os.makedirs(p)`, which makes what is missing from the top downwards. -/
def makedirs (d : Disk ν) (p : List ν) : Disk ν := p.inits.foldl mkdir d

/-- A file is written at `p`, whether there was one or not. -/
def write (d : Disk ν) (p : List ν) : Option (Disk ν) :=
  if (p, true) ∈ d then none
  else if (p, false) ∈ d then some d
  else if (p.dropLast, true) ∈ d then some (d ++ [(p, false)])
  else none

/-- The paths of the files. -/
def files (d : Disk ν) : List (List ν) := (d.filter fun e => !e.2).map Prod.fst

variable {d d' : Disk ν} {p q : List ν}

omit [DecidableEq ν] in
@[simp] theorem mem_files : p ∈ files d ↔ (p, false) ∈ d := by simp [files]

theorem mem_mkdir_file : (q, false) ∈ mkdir d p ↔ (q, false) ∈ d := by
  unfold mkdir
  split
  · rfl
  · simp

theorem subset_mkdir : d ⊆ mkdir d p := by
  unfold mkdir
  split
  · exact List.Subset.refl d
  · exact List.subset_append_left d _

theorem eq_or_mem_of_mkdir (h : (q, true) ∈ mkdir d p) : q = p ∨ (q, true) ∈ d := by
  unfold mkdir at h
  split at h
  · exact .inr h
  · rcases List.mem_append.1 h with h | h
    · exact .inr h
    · exact .inl (by simpa using h)

/-- A path does not become a file and a directory. -/
theorem mkdir_apart (h : ∀ q, (q, true) ∈ d → (q, false) ∉ d) (hq : (q, true) ∈ mkdir d p) :
    (q, false) ∉ mkdir d p := by
  rw [mem_mkdir_file]
  unfold mkdir at hq
  split at hq
  · exact h q hq
  · rename_i hnew
    rcases List.mem_append.1 hq with hq | hq
    · exact h q hq
    · cases List.mem_singleton.1 hq
      exact fun hfile => hnew (.inl (List.mem_map_of_mem hfile))

theorem makedirs_concat (d : Disk ν) (p : List ν) (n : ν) :
    makedirs d (p ++ [n]) = mkdir (makedirs d p) (p ++ [n]) := by
  unfold makedirs
  simp [List.inits_append]

theorem mem_makedirs_file : (q, false) ∈ makedirs d p ↔ (q, false) ∈ d := by
  induction p using List.reverseRecOn with
  | nil => exact mem_mkdir_file
  | append_singleton p n ih => rw [makedirs_concat, mem_mkdir_file, ih]

theorem subset_makedirs : d ⊆ makedirs d p := by
  induction p using List.reverseRecOn with
  | nil => exact subset_mkdir
  | append_singleton p n ih =>
    rw [makedirs_concat]
    exact List.Subset.trans ih subset_mkdir

theorem prefix_or_mem_of_makedirs (h : (q, true) ∈ makedirs d p) : q <+: p ∨ (q, true) ∈ d := by
  induction p using List.reverseRecOn with
  | nil =>
    rcases eq_or_mem_of_mkdir h with rfl | h
    · exact .inl List.prefix_rfl
    · exact .inr h
  | append_singleton p n ih =>
    rw [makedirs_concat] at h
    rcases eq_or_mem_of_mkdir h with rfl | h
    · exact .inl List.prefix_rfl
    · exact (ih h).imp_left fun hq => hq.trans (List.prefix_append p [n])

theorem makedirs_apart (h : ∀ q, (q, true) ∈ d → (q, false) ∉ d) :
    ∀ q, (q, true) ∈ makedirs d p → (q, false) ∉ makedirs d p := by
  induction p using List.reverseRecOn with
  | nil => exact fun q => mkdir_apart h
  | append_singleton p n ih =>
    rw [makedirs_concat]
    exact fun q => mkdir_apart ih

/-- Where no file is in the way, the directory is there afterwards. -/
theorem mem_makedirs (hroot : ([], true) ∈ d) (hfree : ∀ q, q <+: p → (q, false) ∉ d) :
    (p, true) ∈ makedirs d p := by
  induction p using List.reverseRecOn with
  | nil => exact subset_makedirs hroot
  | append_singleton p n ih =>
    have hparent := ih fun q hq => hfree q (hq.trans (List.prefix_append p [n]))
    rw [makedirs_concat, mkdir]
    split
    · rename_i hthere
      rw [List.dropLast_concat] at hthere
      obtain ⟨⟨x, k⟩, he, hx⟩ := List.mem_map.1 (hthere.resolve_right (not_not.2 hparent))
      dsimp only at hx
      subst hx
      cases k with
      | true => exact he
      | false => exact absurd (mem_makedirs_file.1 he) (hfree _ List.prefix_rfl)
    · simp

theorem mem_write (h : write d p = some d') {e : List ν × Bool} :
    e ∈ d' ↔ e ∈ d ∨ e = (p, false) := by
  unfold write at h
  split at h
  · cases h
  · split at h
    · rename_i hin
      cases h
      refine ⟨.inl, fun he => ?_⟩
      rcases he with he | rfl
      · exact he
      · exact hin
    · split at h
      · cases h
        simp
      · cases h

theorem not_dir_of_write (h : write d p = some d') : (p, true) ∉ d := by
  intro hdir
  rw [write, if_pos hdir] at h
  cases h

theorem exists_write (hp : (p, true) ∉ d) (hparent : (p.dropLast, true) ∈ d) :
    ∃ d', write d p = some d' := by
  by_cases hfile : (p, false) ∈ d
  · exact ⟨d, by rw [write, if_neg hp, if_pos hfile]⟩
  · exact ⟨d ++ [(p, false)], by rw [write, if_neg hp, if_neg hfile, if_pos hparent]⟩

end Disk

end Wubi
