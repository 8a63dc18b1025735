import Mathlib.Data.List.Forall2
import Mathlib.Data.List.Nodup
import Mathlib.Data.List.Perm.Subperm
import Wubi.Metalink.Document

/-!
# The pieces of a file

What `MetalinkHandler` makes of several `verification/pieces` elements of one
file. Each element has a list of its own: the texts of its hashes by their
number, if the numbers are 0 to n - 1 (`Lists`). The handler appends the lists,
empties what it has at an element that has none, and takes the type and the
length from the last element that names one.

Results:
* `foldl_afterPieces`: the hashes of the file are the lists of the elements
  behind the last one without a list.
* `pieceList_iff`: which list an element has.
* `eachOfOne_iff`: every file has the hashes, the type and the length of one
  element if and only if no two elements with hashes stand behind the last one
  without a list, and the element whose hashes these are names the type and the
  length that are named last.
-/
namespace Wubi.Metalink

variable (u : Unicode)

/-- The hashes of a `pieces` element numbered from 0, if no number is missing. -/
def pieceList (e : Attrs × List Node) : Option (List Str) :=
  (List.range (pieceDict u [] e.2).length).mapM fun i => (pieceDict u [] e.2).lookup (str i)

/-- The `hash` element that a number of a `pieces` element stands for: the last
one that has it. -/
def pieceElem (e : Attrs × List Node) (piece : Str) : Option (Attrs × List Node) :=
  (elems u "hash" e.2).reverse.find? fun t => t.1.get "piece" = some piece

/-- `l` are the hashes of a `pieces` element: its numbers are those from 0 on, one for
each of `l`, and a number that it has several times stands for the last. -/
structure Lists (e : Attrs × List Node) (l : List Str) : Prop where
  numbers : ∀ t ∈ elems u "hash" e.2, ∀ number ∈ t.1.get "piece", ∃ i < l.length, number = str i
  texts : ∀ i < l.length, (pieceElem u e (str i)).map (fun t => textOf u t.2) = l[i]?

def pieceTypeOf (e : Attrs × List Node) : Str := (e.1.get "type").getD "sha1".toList

def pieceLengthOf (e : Attrs × List Node) : Int := (intAttr u "length" e).getD (-1)

/-- The file has no pieces, or those of one of the elements. -/
def OfOne (file : MetalinkFile) (es : List (Attrs × List Node)) : Prop :=
  file.pieceHashes = [] ∨ ∃ e ∈ es, Lists u e file.pieceHashes ∧
    file.pieceType = pieceTypeOf e ∧ file.pieceLength = pieceLengthOf u e

/-- The `file` elements with a name. -/
def fileElems (root : Node) : List (Attrs × List Node) :=
  ((elems u "metalink" [root]).flatMap fun e => under u "files" "file" e.2).filter
    fun e => (e.1.get "name").getD [] ≠ []

/-- The `pieces` elements of a file. -/
def piecesElems (e : Attrs × List Node) : List (Attrs × List Node) :=
  under u "verification" "pieces" e.2

def EachOfOne (root : Node) (files : List MetalinkFile) : Prop :=
  List.Forall₂ (fun file e => OfOne u file (piecesElems u e)) files (fileElems u root)

/-- What the elements behind the last one without a list have together. -/
def listed (es : List (Attrs × List Node)) : List Str :=
  (es.rtakeWhile fun e => (pieceList u e).isSome).flatMap fun e => (pieceList u e).getD []

/-- What the elements name last is what `e` names. -/
def NamedLast {α : Type} (name : Attrs × List Node → Option α) (old : α)
    (es : List (Attrs × List Node)) (e : Attrs × List Node) : Prop :=
  ∀ pre d post a, es = pre ++ d :: post → name d = some a → (∀ x ∈ post, name x = none) →
    a = (name e).getD old

/-- The type and the length that are named last are those of `e`. -/
def Names (es : List (Attrs × List Node)) (e : Attrs × List Node) : Prop :=
  NamedLast (·.1.get "type") "sha1".toList es e ∧ NamedLast (intAttr u "length") (-1) es e

/-- `cur` are the elements behind the last one in which a number is missing. -/
structure Behind (es pre cur : List (Attrs × List Node)) : Prop where
  eq : es = pre ++ cur
  missing : ∀ d ∈ pre.getLast?, ∀ l, ¬Lists u d l
  lists : ∀ d ∈ cur, ∃ l, Lists u d l

/-- No element of `cur` has hashes; or one has, and these are the hashes of an element that
names what is named last; or several have, and an element before them all happens to have
their hashes together. -/
def Settled (es : List (Attrs × List Node)) : Prop :=
  ∃ pre cur, Behind u es pre cur ∧
    ((∀ d ∈ cur, Lists u d []) ∨
      (∃ a d b l, cur = a ++ d :: b ∧ (∀ x ∈ a ++ b, Lists u x []) ∧ Lists u d l ∧
        ∃ e ∈ es, Lists u e l ∧ Names u es e) ∨
      ∃ ls : List (List Str), List.Forall₂ (Lists u) cur ls ∧ 2 ≤ ls.countP (· ≠ []) ∧
        ∃ e ∈ pre, Lists u e ls.flatten ∧ Names u es e)

variable {u}

/-! ## The lists of the elements -/

theorem addPieces_eq {d : Dict} {is : List Nat} {hashes : List Str} :
    addPieces d is hashes =
      match is.mapM fun i => d.lookup (str i) with
      | some found => hashes ++ found
      | none => [] := by
  induction is generalizing hashes with
  | nil => simp [addPieces]
  | cons i is ih =>
    rw [addPieces, List.mapM_cons]
    cases d.lookup (str i) with
    | none => rfl
    | some hash =>
      simp only [ih]
      cases is.mapM fun i => d.lookup (str i) with
      | none => rfl
      | some found => simp

theorem afterPieces_eq {hashes : List Str} {e : Attrs × List Node} :
    afterPieces u hashes e =
      match pieceList u e with
      | some found => hashes ++ found
      | none => [] := addPieces_eq

theorem listed_concat {es : List (Attrs × List Node)} {e : Attrs × List Node} :
    listed u (es ++ [e]) =
      match pieceList u e with
      | some found => listed u es ++ found
      | none => [] := by
  unfold listed
  rw [List.rtakeWhile_concat]
  cases hlist : pieceList u e with
  | none => simp
  | some found => simp [hlist]

theorem foldl_afterPieces {es : List (Attrs × List Node)} :
    es.foldl (afterPieces u) [] = listed u es := by
  induction es using List.reverseRecOn with
  | nil => rfl
  | append_singleton es e ih =>
    rw [List.foldl_append, List.foldl_cons, List.foldl_nil, ih, afterPieces_eq, listed_concat]

/-! ## Each number once -/

theorem lookup_isSome_iff {d : Dict} {key : Str} :
    (d.lookup key).isSome = true ↔ key ∈ d.map Prod.fst := by
  induction d with
  | nil => simp
  | cons e d ih =>
    obtain ⟨k, v⟩ := e
    rw [List.lookup_cons, List.map_cons, List.mem_cons, ← ih]
    by_cases hk : key = k
    · simp [hk]
    · have hbeq : (key == k) = false := beq_eq_false_iff_ne.2 hk
      rw [hbeq]
      exact ⟨Or.inr, fun h => h.resolve_left hk⟩

theorem str_injective : Function.Injective str := by
  intro i j h
  have hread := congrArg (fun s => Nat.ofDigitChars 10 s 0) h
  simpa [str] using hread

theorem lookup_replace {d : Dict} {key value k : Str} :
    (d.map fun e => if e.1 = key then (key, value) else e).lookup k =
      if k = key then (d.lookup key).map fun _ => value else d.lookup k := by
  induction d with
  | nil => simp
  | cons e d ih =>
    obtain ⟨k', v⟩ := e
    rw [List.map_cons, List.lookup_cons]
    by_cases hk' : k' = key
    · subst hk'
      by_cases hk : k = k'
      · simp [hk]
      · have hbeq : (k == k') = false := beq_eq_false_iff_ne.2 hk
        simp [hk, hbeq, List.lookup_cons, ih]
    · have hkey : (key == k') = false := beq_eq_false_iff_ne.2 (Ne.symm hk')
      by_cases hk : k = key
      · subst hk
        simp [hk', hkey, List.lookup_cons, ih]
      · by_cases hkk' : k = k'
        · subst hkk'
          simp [hk]
        · have hbeq : (k == k') = false := beq_eq_false_iff_ne.2 hkk'
          simp [hk, hk', hbeq, List.lookup_cons, ih]

theorem Dict.lookup_set {d : Dict} {key value k : Str} :
    (d.set key value).lookup k = if k = key then some value else d.lookup k := by
  unfold Dict.set
  cases hkey : d.lookup key with
  | some old =>
    rw [Option.isSome_some, if_pos rfl, lookup_replace, hkey]
    rfl
  | none =>
    rw [Option.isSome_none, if_neg Bool.false_ne_true, List.lookup_append]
    by_cases hk : k = key
    · subst hk
      simp [hkey]
    · have hbeq : (k == key) = false := beq_eq_false_iff_ne.2 hk
      simp [hk, hbeq, List.lookup_cons]

theorem lookup_pieceDict {e : Attrs × List Node} {piece : Str} :
    (pieceDict u [] e.2).lookup piece = (pieceElem u e piece).map fun t => textOf u t.2 := by
  unfold pieceDict pieceElem
  generalize elems u "hash" e.2 = es
  induction es using List.reverseRecOn with
  | nil => rfl
  | append_singleton es t ih =>
    rw [List.foldl_append, List.reverse_append]
    simp only [List.foldl_cons, List.foldl_nil, List.reverse_singleton, List.singleton_append,
      List.find?_cons]
    cases hpiece : t.1.get "piece" with
    | none => simpa using ih
    | some number =>
      simp only [Dict.lookup_set, Option.some.injEq]
      by_cases hn : number = piece
      · simp [hn]
      · simp [hn, Ne.symm hn, ih]

theorem Dict.nodup_set {d : Dict} {key value : Str} (h : (d.map Prod.fst).Nodup) :
    ((d.set key value).map Prod.fst).Nodup := by
  unfold Dict.set
  split
  · have hkeys : (d.map fun e => if e.1 = key then (key, value) else e).map Prod.fst =
        d.map Prod.fst := by
      rw [List.map_map]
      refine List.map_congr_left fun e _ => ?_
      simp only [Function.comp_apply]
      split
      · rename_i heq
        exact heq.symm
      · rfl
    rw [hkeys]
    exact h
  · rename_i hnone
    rw [lookup_isSome_iff] at hnone
    rw [List.map_append, List.map_singleton]
    refine List.nodup_append.2 ⟨h, List.nodup_singleton _, fun a ha b hb hab => hnone ?_⟩
    obtain rfl : b = key := List.mem_singleton.1 hb
    exact hab ▸ ha

theorem nodup_pieceDict {d : Dict} {children : List Node} (h : (d.map Prod.fst).Nodup) :
    ((pieceDict u d children).map Prod.fst).Nodup := by
  unfold pieceDict
  generalize elems u "hash" children = es
  induction es generalizing d with
  | nil => exact h
  | cons e es ih =>
    rw [List.foldl_cons]
    apply ih
    split
    · exact Dict.nodup_set h
    · exact h

theorem mem_keys_pieceDict {e : Attrs × List Node} {number : Str} :
    number ∈ (pieceDict u [] e.2).map Prod.fst ↔
      ∃ t ∈ elems u "hash" e.2, t.1.get "piece" = some number := by
  rw [← lookup_isSome_iff, lookup_pieceDict, Option.isSome_map, pieceElem, List.find?_isSome]
  simp

theorem mapM_eq_some {α β : Type} {f : α → Option β} {l : List α} {found : List β} :
    l.mapM f = some found ↔ l.map f = found.map some := by
  induction l generalizing found with
  | nil =>
    cases found <;> simp
  | cons a l ih =>
    rw [List.mapM_cons, List.map_cons]
    cases f a with
    | none => cases found <;> simp
    | some b =>
      cases found with
      | nil => cases l.mapM f <;> simp
      | cons c found =>
        simp only [List.map_cons, List.cons.injEq, ← ih]
        cases l.mapM f <;> simp

theorem map_range_eq {α : Type} {f : Nat → Option α} {n : Nat} {l : List α} :
    (List.range n).map f = l.map some ↔ n = l.length ∧ ∀ i < l.length, f i = l[i]? := by
  constructor
  · intro h
    have hlen : n = l.length := by simpa using congrArg List.length h
    refine ⟨hlen, fun i hi => ?_⟩
    have hget := congrArg (·[i]?) h
    simpa [hlen, hi] using hget
  · rintro ⟨rfl, h⟩
    refine List.ext_getElem (by simp) fun i hi hi' => ?_
    rw [List.length_map] at hi'
    simp [h i hi']

/-- The list of an element, read off the document. -/
theorem pieceList_iff {e : Attrs × List Node} {l : List Str} :
    pieceList u e = some l ↔ Lists u e l := by
  have hnodup : ((List.range l.length).map str).Nodup :=
    List.Nodup.map str_injective List.nodup_range
  have hsub : (∀ i < l.length, (pieceElem u e (str i)).map (fun t => textOf u t.2) = l[i]?) →
      (List.range l.length).map str ⊆ (pieceDict u [] e.2).map Prod.fst := by
    intro h number hnumber
    obtain ⟨i, hi, rfl⟩ := List.mem_map.1 hnumber
    rw [List.mem_range] at hi
    rw [← lookup_isSome_iff, lookup_pieceDict, h i hi, List.getElem?_eq_getElem hi]
    rfl
  unfold pieceList
  rw [mapM_eq_some, map_range_eq]
  simp only [lookup_pieceDict]
  constructor
  · rintro ⟨hlen, htexts⟩
    have hperm : ((List.range l.length).map str).Perm ((pieceDict u [] e.2).map Prod.fst) :=
      (hnodup.subperm (hsub htexts)).perm_of_length_le (by simp [hlen])
    refine ⟨fun t ht number hnumber => ?_, htexts⟩
    have hkey := hperm.mem_iff.2 (mem_keys_pieceDict.2 ⟨t, ht, hnumber⟩)
    obtain ⟨i, hi, rfl⟩ := List.mem_map.1 hkey
    exact ⟨i, List.mem_range.1 hi, rfl⟩
  · rintro ⟨hnumbers, htexts⟩
    refine ⟨?_, htexts⟩
    have hback : (pieceDict u [] e.2).map Prod.fst ⊆ (List.range l.length).map str := by
      intro number hnumber
      obtain ⟨t, ht, hget⟩ := mem_keys_pieceDict.1 hnumber
      obtain ⟨i, hi, rfl⟩ := hnumbers t ht number hget
      exact List.mem_map_of_mem (List.mem_range.2 hi)
    have hle := (hnodup.subperm (hsub htexts)).length_le
    have hge := ((nodup_pieceDict (d := []) List.nodup_nil).subperm hback).length_le
    simp only [List.length_map, List.length_range] at hle hge
    exact Nat.le_antisymm hge hle

/-- An element has one list at most. -/
theorem Lists.unique {e : Attrs × List Node} {l l' : List Str} (h : Lists u e l)
    (h' : Lists u e l') : l = l' :=
  Option.some.inj ((pieceList_iff.2 h).symm.trans (pieceList_iff.2 h'))

theorem pieceList_isSome_iff {e : Attrs × List Node} :
    (pieceList u e).isSome = true ↔ ∃ l, Lists u e l := by
  simp only [Option.isSome_iff_exists, pieceList_iff]

/-! ## The elements that count -/

/-- Nothing is listed, or one element lists all of it and names the type and the
length that are named last. -/
def ListedByOne (u : Unicode) (es : List (Attrs × List Node)) : Prop :=
  listed u es = [] ∨ ∃ e ∈ es, pieceList u e = some (listed u es) ∧
    last "sha1".toList (es.filterMap (·.1.get "type")) = pieceTypeOf e ∧
    last (-1) (es.filterMap (intAttr u "length")) = pieceLengthOf u e

/-- The last value that is named. -/
theorem getLast_filterMap {α β : Type} {f : α → Option β} {l : List α} {b : β} :
    (l.filterMap f).getLast? = some b ↔
      ∃ pre d post, l = pre ++ d :: post ∧ f d = some b ∧ ∀ x ∈ post, f x = none := by
  constructor
  · induction l using List.reverseRecOn with
    | nil => simp
    | append_singleton l a ih =>
      intro h
      rw [List.filterMap_append] at h
      cases ha : f a with
      | none =>
        rw [List.filterMap_cons_none ha, List.filterMap_nil, List.append_nil] at h
        obtain ⟨pre, d, post, rfl, hd, hpost⟩ := ih h
        refine ⟨pre, d, post ++ [a], by simp, hd, fun x hx => ?_⟩
        rcases List.mem_append.1 hx with hx | hx
        · exact hpost x hx
        · rw [List.mem_singleton.1 hx, ha]
      | some c =>
        rw [List.filterMap_cons_some ha, List.filterMap_nil, List.getLast?_concat] at h
        exact ⟨l, a, [], rfl, ha.trans h, by simp⟩
  · rintro ⟨pre, d, post, rfl, hd, hpost⟩
    have hnil : post.filterMap f = [] := List.filterMap_eq_nil_iff.2 hpost
    rw [List.filterMap_append, List.filterMap_cons_some hd, hnil, List.getLast?_concat]

theorem last_eq_iff {α : Type} {name : Attrs × List Node → Option α} {old : α}
    {es : List (Attrs × List Node)} {e : Attrs × List Node} (he : e ∈ es) :
    last old (es.filterMap name) = (name e).getD old ↔ NamedLast name old es e := by
  unfold last
  constructor
  · intro h pre d post a heq hd hpost
    rw [getLast_filterMap.2 ⟨pre, d, post, heq, hd, hpost⟩] at h
    exact h
  · intro h
    cases hlast : (es.filterMap name).getLast? with
    | none =>
      rw [List.getLast?_eq_none_iff, List.filterMap_eq_nil_iff] at hlast
      rw [hlast e he]
    | some a =>
      obtain ⟨pre, d, post, heq, hd, hpost⟩ := getLast_filterMap.1 hlast
      exact h pre d post a heq hd hpost

theorem Behind.rtakeWhile {es pre cur : List (Attrs × List Node)} (h : Behind u es pre cur) :
    es.rtakeWhile (fun e => (pieceList u e).isSome) = cur := by
  have hcur : ∀ d ∈ cur.reverse, (pieceList u d).isSome = true := fun d hd =>
    pieceList_isSome_iff.2 (h.lists d (List.mem_reverse.1 hd))
  have hpre : pre.reverse.takeWhile (fun e => (pieceList u e).isSome) = [] := by
    cases hrev : pre.reverse with
    | nil => rfl
    | cons d rest =>
      refine List.takeWhile_cons_of_neg fun hd => ?_
      obtain ⟨l, hl⟩ := pieceList_isSome_iff.1 hd
      refine h.missing d ?_ l hl
      rw [← List.head?_reverse, hrev]
      rfl
  rw [h.eq, List.rtakeWhile, List.reverse_append, List.takeWhile_append_of_pos hcur, hpre,
    List.append_nil, List.reverse_reverse]

theorem exists_behind (es : List (Attrs × List Node)) : ∃ pre cur, Behind u es pre cur := by
  induction es using List.reverseRecOn with
  | nil => exact ⟨[], [], rfl, by simp, by simp⟩
  | append_singleton es e ih =>
    by_cases he : ∃ l, Lists u e l
    · obtain ⟨pre, cur, h⟩ := ih
      refine ⟨pre, cur ++ [e], ?_, h.missing, fun d hd => ?_⟩
      · rw [h.eq, List.append_assoc]
      · rcases List.mem_append.1 hd with hd | hd
        · exact h.lists d hd
        · rw [List.mem_singleton.1 hd]
          exact he
    · refine ⟨es ++ [e], [], by simp, fun d hd l hl => he ?_, by simp⟩
      rw [List.getLast?_concat, Option.mem_some_iff] at hd
      exact ⟨l, hd ▸ hl⟩

theorem Behind.listed {es pre cur : List (Attrs × List Node)} {ls : List (List Str)}
    (h : Behind u es pre cur) (hls : List.Forall₂ (Lists u) cur ls) :
    listed u es = ls.flatten := by
  unfold Metalink.listed
  rw [h.rtakeWhile]
  clear h
  induction hls with
  | nil => rfl
  | cons hl _ ih => rw [List.flatMap_cons, List.flatten_cons, pieceList_iff.2 hl, ih, Option.getD_some]

theorem exists_lists {cur : List (Attrs × List Node)} (h : ∀ d ∈ cur, ∃ l, Lists u d l) :
    ∃ ls, List.Forall₂ (Lists u) cur ls := by
  induction cur with
  | nil => exact ⟨[], .nil⟩
  | cons d cur ih =>
    obtain ⟨l, hl⟩ := h d List.mem_cons_self
    obtain ⟨ls, hls⟩ := ih fun d hd => h d (List.mem_cons_of_mem _ hd)
    exact ⟨l :: ls, .cons hl hls⟩

/-- One list of several that are not empty is not all of them. -/
theorem flatten_ne {α : Type} [DecidableEq α] {ls : List (List α)} {l : List α} (hl : l ∈ ls)
    (htwo : 2 ≤ ls.countP (· ≠ [])) : ls.flatten ≠ l := by
  obtain ⟨a, b, rfl⟩ := List.append_of_mem hl
  intro heq
  have hlen := congrArg List.length heq
  simp only [List.flatten_append, List.flatten_cons, List.length_append] at hlen
  have hnil : a.flatten = [] ∧ b.flatten = [] := by
    constructor <;> exact List.eq_nil_of_length_eq_zero (by omega)
  simp only [List.flatten_eq_nil_iff] at hnil
  have hcount : ∀ {ls : List (List α)}, (∀ l ∈ ls, l = []) → ls.countP (· ≠ []) = 0 := by
    intro ls h
    rw [List.countP_eq_zero]
    intro l hl
    simp [h l hl]
  rw [List.countP_append, List.countP_cons, hcount hnil.1, hcount hnil.2] at htwo
  split at htwo <;> omega

theorem names_iff {es : List (Attrs × List Node)} {e : Attrs × List Node} (he : e ∈ es) :
    last "sha1".toList (es.filterMap (·.1.get "type")) = pieceTypeOf e ∧
      last (-1) (es.filterMap (intAttr u "length")) = pieceLengthOf u e ↔ Names u es e := by
  unfold Names pieceTypeOf pieceLengthOf
  rw [last_eq_iff he, last_eq_iff he]

theorem exists_of_mem {cur : List (Attrs × List Node)} {ls : List (List Str)}
    (h : List.Forall₂ (Lists u) cur ls) {d : Attrs × List Node} (hd : d ∈ cur) :
    ∃ l ∈ ls, Lists u d l := by
  induction h with
  | nil => cases hd
  | cons hl _ ih =>
    rcases List.mem_cons.1 hd with rfl | hd
    · exact ⟨_, List.mem_cons_self, hl⟩
    · obtain ⟨l, hmem, hlists⟩ := ih hd
      exact ⟨l, List.mem_cons_of_mem _ hmem, hlists⟩

/-- At most one of the lists is not empty. -/
theorem one_of_countP {cur : List (Attrs × List Node)} {ls : List (List Str)}
    (h : List.Forall₂ (Lists u) cur ls) (hone : ls.countP (· ≠ []) < 2) :
    (∀ d ∈ cur, Lists u d []) ∨ ∃ a d b, cur = a ++ d :: b ∧ (∀ x ∈ a ++ b, Lists u x []) ∧
      Lists u d ls.flatten := by
  induction h with
  | nil => exact .inl (by simp)
  | @cons d l cur ls hl hls ih =>
    rw [List.countP_cons] at hone
    by_cases hnil : l = []
    · subst hnil
      rcases ih (by simpa using hone) with hall | ⟨a, x, b, rfl, hrest, hx⟩
      · exact .inl (List.forall_mem_cons.2 ⟨hl, hall⟩)
      · exact .inr ⟨d :: a, x, b, rfl, List.forall_mem_cons.2 ⟨hl, hrest⟩, hx⟩
    · have hzero : ls.countP (· ≠ []) = 0 := by
        rw [if_pos (by simpa using hnil)] at hone
        omega
      rw [List.countP_eq_zero] at hzero
      have hempty : ∀ x ∈ ls, x = [] := fun x hx => by simpa using hzero x hx
      refine .inr ⟨[], d, cur, rfl, fun x hx => ?_, ?_⟩
      · obtain ⟨m, hm, hlists⟩ := exists_of_mem hls hx
        rwa [hempty m hm] at hlists
      · rwa [List.flatten_cons, List.flatten_eq_nil_iff.2 hempty, List.append_nil]

theorem forall₂_empty {cur : List (Attrs × List Node)} (h : ∀ d ∈ cur, Lists u d []) :
    List.Forall₂ (Lists u) cur (cur.map fun _ => []) :=
  List.forall₂_map_right_iff.2 (List.forall₂_same.2 h)

theorem flatten_empty (cur : List (Attrs × List Node)) :
    (cur.map fun _ => ([] : List Str)).flatten = [] := by simp

/-- What is listed, and by whom, in terms of the elements that count. -/
theorem listedByOne_iff {es : List (Attrs × List Node)} : ListedByOne u es ↔ Settled u es := by
  constructor
  · intro h
    obtain ⟨pre, cur, hbehind⟩ := exists_behind (u := u) es
    obtain ⟨ls, hls⟩ := exists_lists hbehind.lists
    have hlisted := hbehind.listed hls
    refine ⟨pre, cur, hbehind, ?_⟩
    by_cases htwo : 2 ≤ ls.countP (· ≠ [])
    · obtain hnil | ⟨e, he, hlist, hnames⟩ := h
      · rw [hlisted, List.flatten_eq_nil_iff] at hnil
        have hzero : ls.countP (· ≠ []) = 0 := List.countP_eq_zero.2 fun l hl => by simp [hnil l hl]
        omega
      · rw [pieceList_iff, hlisted] at hlist
        refine .inr (.inr ⟨ls, hls, htwo, e, ?_, hlist, (names_iff he).1 hnames⟩)
        have hmem := he
        rw [hbehind.eq] at hmem
        -- an element behind has one of the lists, which is not all of them
        refine (List.mem_append.1 hmem).resolve_right fun hcur => ?_
        obtain ⟨l, hl, hlists⟩ := exists_of_mem hls hcur
        exact flatten_ne hl htwo (hlist.unique hlists)
    · rcases one_of_countP hls (Nat.lt_of_not_le htwo) with hall | ⟨a, d, b, hcur, hrest, hd⟩
      · exact .inl hall
      · obtain hnil | ⟨e, he, hlist, hnames⟩ := h
        · rw [hlisted] at hnil
          rw [hnil] at hd
          left
          rw [hcur]
          intro x hx
          rcases List.mem_append.1 hx with hx | hx
          · exact hrest x (List.mem_append_left _ hx)
          · rcases List.mem_cons.1 hx with rfl | hx
            · exact hd
            · exact hrest x (List.mem_append_right _ hx)
        · rw [pieceList_iff, hlisted] at hlist
          exact .inr (.inl ⟨a, d, b, _, hcur, hrest, hd, e, he, hlist, (names_iff he).1 hnames⟩)
  · rintro ⟨pre, cur, hbehind, hall | ⟨a, d, b, l, rfl, hrest, hd, e, he, hlist, hnames⟩ |
      ⟨ls, hls, -, e, he, hlist, hnames⟩⟩
    · exact .inl ((hbehind.listed (forall₂_empty hall)).trans (flatten_empty cur))
    · have hls : List.Forall₂ (Lists u) (a ++ d :: b)
          (a.map (fun _ => []) ++ l :: b.map fun _ => []) :=
        List.rel_append (forall₂_empty fun x hx => hrest x (List.mem_append_left _ hx))
          (.cons hd (forall₂_empty fun x hx => hrest x (List.mem_append_right _ hx)))
      have hlisted : listed u es = l := by
        rw [hbehind.listed hls, List.flatten_append, List.flatten_cons, flatten_empty,
          flatten_empty, List.nil_append, List.append_nil]
      exact .inr ⟨e, he, by rw [hlisted]; exact pieceList_iff.2 hlist, (names_iff he).2 hnames⟩
    · have hmem : e ∈ es := hbehind.eq ▸ List.mem_append_left _ he
      exact .inr ⟨e, hmem, by rw [hbehind.listed hls]; exact pieceList_iff.2 hlist,
        (names_iff hmem).2 hnames⟩

/-! ## The files of a document -/

theorem filesOf_eq {root : Node} :
    filesOf u root = (fileElems u root).map fun e =>
      extend u { name := (e.1.get "name").getD [] } e.2 := by
  unfold filesOf fileElems
  rw [← List.filterMap_flatMap]
  generalize (elems u "metalink" [root]).flatMap (fun e => under u "files" "file" e.2) = es
  induction es with
  | nil => rfl
  | cons e es ih =>
    by_cases hname : (e.1.get "name").getD [] = []
    · simp [fileOf, hname, ih]
    · simp [fileOf, hname, ih]

theorem ofOne_extend {name : Str} {e : Attrs × List Node} :
    OfOne u (extend u { name } e.2) (piecesElems u e) ↔ ListedByOne u (piecesElems u e) := by
  unfold OfOne ListedByOne extend
  simp only [← pieceList_iff, foldl_afterPieces]
  rfl

/-- Each file has the pieces of one element if and only if its `pieces` elements are
settled. -/
theorem eachOfOne_iff (u : Unicode) (root : Node) :
    ∃ files, parse u root = .ok files ∧
      (EachOfOne u root files ↔ ∀ e ∈ fileElems u root, Settled u (piecesElems u e)) := by
  refine ⟨filesOf u root, parse_root, ?_⟩
  unfold EachOfOne
  rw [filesOf_eq, List.forall₂_map_left_iff, List.forall₂_same]
  exact forall₂_congr fun e _ => ofOne_extend.trans listedByOne_iff

/-- So it is where a file has one `pieces` element at most. -/
theorem settled_of_length_le {es : List (Attrs × List Node)} (h : es.length ≤ 1) :
    Settled u es := by
  rw [← listedByOne_iff]
  cases es with
  | nil => exact .inl rfl
  | cons e es =>
    obtain rfl : es = [] := List.eq_nil_of_length_eq_zero (by simpa using h)
    unfold ListedByOne listed
    cases hlist : pieceList u e with
    | none =>
      left
      simp [List.rtakeWhile, hlist]
    | some found =>
      right
      refine ⟨e, List.mem_singleton_self e, ?_, ?_, ?_⟩
      · simp [List.rtakeWhile, hlist]
      · unfold pieceTypeOf
        cases htype : e.1.get "type" <;> simp [htype]
      · unfold pieceLengthOf
        cases hlen : intAttr u "length" e <;> simp [hlen]

/-- A `pieces` element of this type with one hash, number 0. -/
def onePiece (type hash : Char) : Node :=
  .elem (tag "pieces") [(tag "type", [type])]
    [.elem (tag "hash") [(tag "piece", ['0'])] [.text [[hash]]]]

/-- A file `a` with two of them. -/
def twoLists : Node :=
  .elem (tag "metalink") [] [.elem (tag "files") [] [.elem (tag "file") [(tag "name", ['a'])]
    [.elem (tag "verification") [] [onePiece 'm' 'x', onePiece 's' 'y']]]]

instance {es : List (Attrs × List Node)} : Decidable (ListedByOne u es) := by
  unfold ListedByOne
  infer_instance

theorem two_lists_not_eachOfOne :
    ¬ ∃ files, parse asciiTables twoLists = .ok files ∧ EachOfOne asciiTables twoLists files := by
  have hnot : ¬ ∀ e ∈ fileElems asciiTables twoLists,
      ListedByOne asciiTables (piecesElems asciiTables e) := by decide
  rintro ⟨files, hparse, hone⟩
  rw [parse_root] at hparse
  cases hparse
  unfold EachOfOne at hone
  rw [filesOf_eq, List.forall₂_map_left_iff, List.forall₂_same] at hone
  exact hnot fun e he => ofOne_extend.1 (hone e he)

end Wubi.Metalink
