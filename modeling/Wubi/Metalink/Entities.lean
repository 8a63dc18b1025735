import Wubi.Core.Replace
import Wubi.Metalink.Pieces

/-!
# Texts that look like entities

The parser has decoded the entities of a text before it passes the characters
on, and `endElement` decodes them again. `Stored` relates the texts that a file
holds to the elements they come from.

Results:
* `unescape_eq_self_iff`: a text stays as it is if and only if it contains none
  of `&lt;`, `&gt;` and `&amp;`, since decoding one makes it shorter.
* `stored_extend`: each text of a file is the decoded text of its element.
* `stored_iff`: in every document and however its text is cut, an element whose
  characters are `w` is stored as `w` if and only if `w` contains none of them.
-/
namespace Wubi.Metalink

def entities : List Str := ["&gt;".toList, "&lt;".toList, "&amp;".toList]

def NoEntity (w : Str) : Prop := ∀ m ∈ entities, ¬ m <:+: w

/-! ## Decoding a text that is decoded already -/

theorem noEntity_iff {w : Str} :
    NoEntity w ↔ ¬ "&gt;".toList <:+: w ∧ ¬ "&lt;".toList <:+: w ∧ ¬ "&amp;".toList <:+: w := by
  unfold NoEntity entities
  simp only [List.forall_mem_cons, List.not_mem_nil, false_imp_iff, implies_true, and_true]

open Str in
theorem unescape_eq_self_iff {w : Str} : unescape w = w ↔ NoEntity w := by
  rw [noEntity_iff]
  constructor
  · intro h
    -- each of the three steps leaves the length as it is
    have hlen := congrArg List.length h
    unfold unescape at hlen
    have hgt := @Str.length_replace_le "&gt;".toList ['>'] w (by decide) (by decide)
    have hlt := @Str.length_replace_le "&lt;".toList ['<'] (Str.replace "&gt;".toList ['>'] w)
      (by decide) (by decide)
    have hamp := @Str.length_replace_le "&amp;".toList ['&']
      (Str.replace "&lt;".toList ['<'] (Str.replace "&gt;".toList ['>'] w)) (by decide) (by decide)
    have hnoGt : ¬ "&gt;".toList <:+: w := by
      intro hin
      have hless := Str.length_replace_lt (r := ['>']) (by decide) (by decide) hin
      omega
    rw [ replace_of_not_infix hnoGt] at hlen hlt hamp
    have hnoLt : ¬ "&lt;".toList <:+: w := by
      intro hin
      have hless := Str.length_replace_lt (r := ['<']) (by decide) (by decide) hin
      omega
    rw [ replace_of_not_infix hnoLt] at hlen hamp
    refine ⟨hnoGt, hnoLt, ?_⟩
    intro hin
    have hless := Str.length_replace_lt (r := ['&']) (by decide) (by decide) hin
    omega
  · rintro ⟨hgt, hlt, hamp⟩
    unfold unescape
    rw [ replace_of_not_infix hgt, replace_of_not_infix hlt, replace_of_not_infix hamp]

/-! ## The texts of a file and their elements -/

variable (u : Unicode)

/-- The `hash` elements numbered from 0, if no number is missing. -/
def pieceElems (e : Attrs × List Node) : Option (List (Attrs × List Node)) :=
  (List.range (pieceDict u [] e.2).length).mapM fun i => pieceElem u e (str i)

/-- Those of the elements behind the last one where a number is missing. -/
def listedElems (es : List (Attrs × List Node)) : List (Attrs × List Node) :=
  (es.rtakeWhile fun e => (pieceElems u e).isSome).flatMap fun e => (pieceElems u e).getD []

/-- The children whose text alone sets an attribute. -/
def MetalinkFile.leaves (file : MetalinkFile) : List (String × Str) :=
  [("identity", file.identity), ("version", file.version), ("description", file.description),
    ("language", file.language), ("os", file.os)]

/-- `R` holds between every text of the file and the element that it comes from. -/
structure Stored (R : Str → Attrs × List Node → Prop) (file : MetalinkFile)
    (e : Attrs × List Node) : Prop where
  leaves : ∀ leaf ∈ file.leaves, ∀ t ∈ (elems u leaf.1 e.2).getLast?, R leaf.2 t
  urls : List.Forall₂ R (file.urls.map (·.url)) (under u "resources" "url" e.2)
  hashes : List.Forall₂ R (file.hashes.map (·.hash))
    ((under u "verification" "hash" e.2).filter fun t => (t.1.get "type").isSome)
  pieceHashes : List.Forall₂ R file.pieceHashes (listedElems u (piecesElems u e))

/-- The characters of the element are a text without space at its ends, which is
stored as it is if and only if nothing in it looks like an entity. -/
def KeptIff (s : Str) (e : Attrs × List Node) : Prop :=
  ∀ w, textFrom [] e.2 = w → u.strip w = w → (s = w ↔ NoEntity w)

variable {u}

theorem Stored.imp {R R' : Str → Attrs × List Node → Prop} {file : MetalinkFile}
    {e : Attrs × List Node} (h : Stored u R file e) (hR : ∀ s t, R s t → R' s t) :
    Stored u R' file e where
  leaves leaf hleaf t ht := hR _ _ (h.leaves leaf hleaf t ht)
  urls := h.urls.imp hR
  hashes := h.hashes.imp hR
  pieceHashes := h.pieceHashes.imp hR

theorem keptIff_textOf {e : Attrs × List Node} : KeptIff u (textOf u e.2) e := by
  intro w hw hstrip
  unfold textOf
  rw [hw, hstrip]
  exact unescape_eq_self_iff

/-! ## The elements of the pieces -/

theorem mapM_map {α β γ : Type} {f : α → Option β} {g : β → γ} {l : List α} :
    (l.mapM fun a => (f a).map g) = (l.mapM f).map (List.map g) := by
  induction l with
  | nil => rfl
  | cons a l ih =>
    rw [List.mapM_cons, List.mapM_cons, ih]
    cases f a with
    | none => rfl
    | some b => cases l.mapM f <;> rfl

theorem pieceList_eq {e : Attrs × List Node} :
    pieceList u e = (pieceElems u e).map (List.map fun t => textOf u t.2) := by
  unfold pieceList pieceElems
  simp only [lookup_pieceDict, mapM_map]

theorem listed_eq {es : List (Attrs × List Node)} :
    listed u es = (listedElems u es).map fun t => textOf u t.2 := by
  unfold listed listedElems
  rw [List.map_flatMap]
  simp only [pieceList_eq, Option.isSome_map]
  congr 1
  funext e
  cases pieceElems u e <;> rfl

/-! ## Every text is decoded -/

theorem last_map {α : Type} {old : Str} {f : α → Str} {l : List α} :
    ∀ t ∈ l.getLast?, last old (l.map f) = f t := by
  intro t ht
  unfold last
  rw [List.getLast?_map, Option.mem_def.1 ht]
  rfl

theorem hashes_extend {es : List (Attrs × List Node)} :
    (es.filterMap (hashOf u)).map (·.hash) =
      (es.filter fun t => (t.1.get "type").isSome).map fun t => textOf u t.2 := by
  induction es with
  | nil => rfl
  | cons t es ih =>
    rw [List.filterMap_cons, List.filter_cons]
    cases htype : t.1.get "type" with
    | none => simpa [hashOf, htype] using ih
    | some type => simpa [hashOf, htype] using ih

/-- Each text is that of its element, stripped and decoded once more. -/
theorem stored_extend {name : Str} {e : Attrs × List Node} :
    Stored u (fun s t => s = textOf u t.2) (extend u { name } e.2) e := by
  have hself : ∀ l : List (Attrs × List Node),
      List.Forall₂ (fun s t => s = textOf u t.2) (l.map fun t => textOf u t.2) l := by
    intro l
    rw [List.forall₂_map_left_iff, List.forall₂_same]
    exact fun t _ => rfl
  constructor
  · intro leaf hleaf
    simp only [MetalinkFile.leaves, List.mem_cons, List.not_mem_nil, or_false] at hleaf
    rcases hleaf with rfl | rfl | rfl | rfl | rfl
    all_goals exact last_map
  · unfold extend
    simp only [List.nil_append, List.map_map]
    exact hself _
  · have hhashes := @hashes_extend u (under u "verification" "hash" e.2)
    unfold extend
    simp only [List.nil_append, hhashes]
    exact hself _
  · unfold extend
    simp only [foldl_afterPieces, listed_eq]
    exact hself _

/-- In every document each text of each file is what its element says if and
only if nothing in it looks like an entity. -/
theorem stored_iff (u : Unicode) (root : Node) :
    ∃ files, parse u root = .ok files ∧
      List.Forall₂ (Stored u (KeptIff u)) files (fileElems u root) := by
  refine ⟨filesOf u root, parse_root, ?_⟩
  rw [filesOf_eq, List.forall₂_map_left_iff, List.forall₂_same]
  intro e _
  refine stored_extend.imp ?_
  rintro s t rfl
  exact keptIff_textOf

/-- A file with a `url` element whose text is `&amp;` in two pieces; in the
document it is `&amp;amp;`. -/
def entityDocument : Node :=
  .elem (tag "metalink") [] [.elem (tag "files") [] [.elem (tag "file") [(tag "name", ['a'])]
    [.elem (tag "resources") [] [.elem (tag "url") [] [.text ["&am".toList, "p;".toList]]]]]]

theorem entity_decoded_twice : Str.strip "&amp;".toList = "&amp;".toList ∧
    ∀ files, parse asciiTables entityDocument = .ok files →
      files.map (fun file => file.urls.map (·.url)) ≠ [["&amp;".toList]] := by
  refine ⟨by decide, ?_⟩
  intro files hparse
  rw [parse_root] at hparse
  cases hparse
  decide

end Wubi.Metalink
