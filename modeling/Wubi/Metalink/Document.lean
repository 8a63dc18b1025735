import Wubi.Metalink.Handler

/-!
# What a document contributes

`filesOf root` reads the metalink's files off the tree: a file for each
element `metalink/files/file` with a name, its lists in document order, and
for the rest the last element that says something. `parse_eq_filesOf`: the
handler returns just that, on every document and however its text is cut.

The handler also reads the attributes of `resources` and what
`verification/pieces` holds.
-/
namespace Wubi.Metalink

variable (u : Unicode)

/-- The child elements with a name: their attributes and children. -/
def elems (name : String) (children : List Node) : List (Attrs × List Node) :=
  children.filterMap fun
    | .elem n attrs cs => if u.lower n = tag name then some (attrs, cs) else none
    | .text _ => none

/-- The last value, or the one there was. -/
def last {α : Type} (old : α) (values : List α) : α := values.getLast?.getD old

def texts (name : String) (children : List Node) : List Str :=
  (elems u name children).map fun e => textOf u e.2

def hashOf (e : Attrs × List Node) : Option MetalinkHash :=
  (e.1.get "type").map fun type => ⟨type, textOf u e.2⟩

def intAttr (key : String) (e : Attrs × List Node) : Option Int := (e.1.get key).bind u.int

/-- The pieces of one `pieces` element by their number. -/
def pieceDict (d : Dict) (children : List Node) : Dict :=
  (elems u "hash" children).foldl (fun d e => match e.1.get "piece" with
    | some piece => d.set piece (textOf u e.2)
    | none => d) d

/-- The hashes of the pieces behind such an element. -/
def afterPieces (hashes : List Str) (e : Attrs × List Node) : List Str :=
  addPieces (pieceDict u [] e.2) (List.range (pieceDict u [] e.2).length) hashes

/-- The file behind the children of a `verification` element. -/
def verified (file : MetalinkFile) (children : List Node) : MetalinkFile :=
  { file with
    hashes := file.hashes ++ (elems u "hash" children).filterMap (hashOf u)
    pieceType := last file.pieceType ((elems u "pieces" children).filterMap (·.1.get "type"))
    pieceLength := last file.pieceLength ((elems u "pieces" children).filterMap (intAttr u "length"))
    pieceHashes := (elems u "pieces" children).foldl (afterPieces u) file.pieceHashes }

def under (name sub : String) (children : List Node) : List (Attrs × List Node) :=
  (elems u name children).flatMap fun e => elems u sub e.2

/-- The file behind the children of a `file` element. -/
def extend (file : MetalinkFile) (children : List Node) : MetalinkFile where
  name := file.name
  identity := last file.identity (texts u "identity" children)
  version := last file.version (texts u "version" children)
  size := last file.size ((texts u "size" children).filterMap u.int)
  description := last file.description (texts u "description" children)
  language := last file.language (texts u "language" children)
  os := last file.os (texts u "os" children)
  hashes := file.hashes ++ (under u "verification" "hash" children).filterMap (hashOf u)
  pieceHashes := (under u "verification" "pieces" children).foldl (afterPieces u) file.pieceHashes
  pieceLength := last file.pieceLength
    ((under u "verification" "pieces" children).filterMap (intAttr u "length"))
  pieceType := last file.pieceType
    ((under u "verification" "pieces" children).filterMap (·.1.get "type"))
  urls := file.urls ++ (under u "resources" "url" children).map fun e => urlOf u e.1 (textOf u e.2)
  maxconnections := last file.maxconnections
    ((elems u "resources" children).filterMap (intAttr u "maxconnections"))

/-- A `file` element; without a name it is none. -/
def fileOf (e : Attrs × List Node) : Option MetalinkFile :=
  let name := (e.1.get "name").getD []
  if name ≠ [] then some (extend u { name } e.2) else none

/-- The files of a document. -/
def filesOf (root : Node) : List MetalinkFile :=
  (elems u "metalink" [root]).flatMap fun e => (under u "files" "file" e.2).filterMap (fileOf u)

/-! ## Composition -/

variable {u}

@[simp] theorem last_nil {α : Type} {old : α} : last old [] = old := rfl

@[simp] theorem last_singleton {α : Type} {old a : α} : last old [a] = a := rfl

theorem last_append {α : Type} {old : α} {l m : List α} : last old (l ++ m) = last (last old l) m := by
  rw [last, last, last, List.getLast?_append]
  cases m.getLast? <;> rfl

theorem elems_cons {name : String} {c : Node} {cs : List Node} :
    elems u name (c :: cs) = elems u name [c] ++ elems u name cs := by
  rw [elems, elems, elems, ← List.filterMap_append]
  rfl

@[simp] theorem elems_nil {name : String} : elems u name [] = [] := rfl

@[simp] theorem elems_text {name : String} {pieces : List Str} : elems u name [.text pieces] = [] := rfl

theorem elems_elem {name : String} {n : Str} {attrs : Attrs} {cs : List Node} :
    elems u name [.elem n attrs cs] = if u.lower n = tag name then [(attrs, cs)] else [] := by
  rw [elems, List.filterMap_cons]
  by_cases h : u.lower n = tag name <;> simp [h]

theorem verified_cons {file : MetalinkFile} {c : Node} {cs : List Node} :
    verified u (verified u file [c]) cs = verified u file (c :: cs) := by
  simp [verified, @elems_cons u _ c cs, last_append]

theorem extend_cons {file : MetalinkFile} {c : Node} {cs : List Node} :
    extend u (extend u file [c]) cs = extend u file (c :: cs) := by
  simp [extend, texts, under, @elems_cons u _ c cs, last_append]

/-! ## The levels of the tree -/

variable {cs : List Node} {files : List MetalinkFile} {file : MetalinkFile} {pieces : Dict}

theorem next_eq : next [] = List.replicate 12 (tag "metalink") ∧
    next [tag "metalink"] = List.replicate 12 (tag "files") ∧
    next [tag "metalink", tag "files"] = List.replicate 12 (tag "file") := by decide

theorem next_leaf : next urlPath = [] ∧ next hashPath = [] ∧ next pieceHashPath = [] ∧
    ∀ name ∈ ["identity", "version", "size", "description", "language", "os"],
      next (leafPath name) = [] := by decide

theorem next_inner : next piecesPath = [tag "hash"] ∧ next resourcesPath = [tag "url"] ∧
    next verificationPath = [tag "hash", tag "pieces", tag "pieces"] := by decide

def childNames : List String :=
  ["resources", "verification", "identity", "version", "size", "description", "language", "os"]

theorem next_file : (∀ x ∈ next filePath, x ∈ childNames.map tag) ∧
    ∀ name ∈ childNames, tag name ∈ next filePath := by decide

/-- The text of an element whose children lead nowhere decides alone. -/
theorem eval_named {path : List Str} {n : Str} {attrs : Attrs} {ch : List Node} {d : Data}
    {name : String} (hn : u.lower n = tag name) (h : next (path ++ [tag name]) = []) :
    eval u path (.elem n attrs ch) d =
      (openAt u (path ++ [tag name]) attrs d).bind
        (closeAt u (path ++ [tag name]) attrs (textOf u ch)) := by
  have hleaf : next (path ++ [u.lower n]) = [] := by rw [hn]; exact h
  rw [eval_leaf hleaf, hn]

theorem evalAll_cons {path : List Str} {c : Node} {d d' : Data} (h : eval u path c d = .ok d') :
    evalAll u path (c :: cs) d = evalAll u path cs d' := by
  rw [evalAll, h]
  rfl

theorem evalAll_pieces {d : Data} :
    evalAll u piecesPath cs d = .ok { d with pieces := pieceDict u d.pieces cs } := by
  induction cs generalizing d with
  | nil => rfl
  | cons c cs ih =>
    have hc : eval u piecesPath c d = .ok { d with pieces := pieceDict u d.pieces [c] } := by
      cases c with
      | text pieces => rfl
      | elem n attrs ch =>
        by_cases hn : u.lower n = tag "hash"
        · rw [eval_named hn next_leaf.2.2.1, pieceDict, elems_elem, if_pos hn]
          show closeAt u pieceHashPath attrs (textOf u ch) d = _
          have hclose : closeAt u pieceHashPath attrs (textOf u ch) d =
              match attrs.get "piece" with
              | some piece => .ok { d with pieces := d.pieces.set piece (textOf u ch) }
              | none => .ok d := rfl
          rw [hclose, List.foldl_cons]
          cases attrs.get "piece" <;> rfl
        · have hdead : u.lower n ∉ next piecesPath := by
            rw [next_inner.1]
            exact fun h => hn (List.mem_singleton.1 h)
          rw [eval_dead hdead, pieceDict, elems_elem, if_neg hn]
          rfl
    rw [evalAll_cons hc, ih, pieceDict, pieceDict, pieceDict, @elems_cons u _ c cs, List.foldl_append]

theorem evalAll_resources : evalAll u resourcesPath cs ⟨files, some file, pieces⟩ =
    .ok ⟨files, some { file with
      urls := file.urls ++ (elems u "url" cs).map fun e => urlOf u e.1 (textOf u e.2) }, pieces⟩ := by
  induction cs generalizing file with
  | nil => simp [evalAll]
  | cons c cs ih =>
    have hc : eval u resourcesPath c ⟨files, some file, pieces⟩ = .ok ⟨files, some { file with
        urls := file.urls ++ (elems u "url" [c]).map fun e => urlOf u e.1 (textOf u e.2) }, pieces⟩ := by
      cases c with
      | text pieces => simp [eval]
      | elem n attrs ch =>
        by_cases hn : u.lower n = tag "url"
        · rw [eval_named hn next_leaf.1, elems_elem, if_pos hn]
          rfl
        · have hdead : u.lower n ∉ next resourcesPath := by
            rw [next_inner.2.1]
            exact fun h => hn (List.mem_singleton.1 h)
          rw [eval_dead hdead, elems_elem, if_neg hn]
          simp
    rw [evalAll_cons hc, ih, @elems_cons u _ c cs]
    simp

theorem openAt_pieces {attrs : Attrs} : openAt u piecesPath attrs ⟨files, some file, pieces⟩ =
    .ok ⟨files, some { file with
      pieceType := (attrs.get "type").getD file.pieceType
      pieceLength := ((attrs.get "length").bind u.int).getD file.pieceLength }, []⟩ := by
  rw [openAt, if_neg (by decide), if_neg (by decide), if_pos rfl]
  cases attrs.get "type" <;> cases (attrs.get "length").bind u.int <;> rfl

theorem closeAt_pieces {attrs : Attrs} {content : Str} :
    closeAt u piecesPath attrs content ⟨files, some file, pieces⟩ = .ok ⟨files, some { file with
      pieceHashes := addPieces pieces (List.range pieces.length) file.pieceHashes }, []⟩ := by
  cases pieces with
  | nil => rfl
  | cons e pieces => rfl

theorem eval_verification {c : Node} : ∃ pieces',
    eval u verificationPath c ⟨files, some file, pieces⟩ =
      .ok ⟨files, some (verified u file [c]), pieces'⟩ := by
  cases c with
  | text pieces => exact ⟨_, by simp [eval, verified]; rfl⟩
  | elem n attrs ch =>
    by_cases hhash : u.lower n = tag "hash"
    · refine ⟨pieces, ?_⟩
      have hne : tag "hash" ≠ tag "pieces" := by decide
      rw [eval_named hhash next_leaf.2.1]
      show closeAt u hashPath attrs (textOf u ch) ⟨files, some file, pieces⟩ = _
      have hclose : closeAt u hashPath attrs (textOf u ch) ⟨files, some file, pieces⟩ =
          match attrs.get "type" with
          | some type => Data.onFile ⟨files, some file, pieces⟩ fun file =>
            { file with hashes := file.hashes ++ [⟨type, textOf u ch⟩] }
          | none => .ok ⟨files, some file, pieces⟩ := rfl
      rw [hclose]
      cases htype : attrs.get "type" with
      | none => simp [verified, elems_elem, hhash, hne, hashOf, htype]
      | some type => simp [verified, elems_elem, hhash, hne, hashOf, htype, Data.onFile]
    · by_cases hpieces : u.lower n = tag "pieces"
      · refine ⟨[], ?_⟩
        have hne : tag "pieces" ≠ tag "hash" := by decide
        have hpath : verificationPath ++ [u.lower n] = piecesPath := by rw [hpieces]; rfl
        rw [eval, hpath, openAt_pieces]
        show (evalAll u piecesPath ch _).bind (closeAt u piecesPath attrs (textOf u ch)) = _
        rw [evalAll_pieces]
        show closeAt u piecesPath attrs (textOf u ch) ⟨files, some _, _⟩ = _
        rw [closeAt_pieces]
        simp only [verified, elems_elem, hpieces, if_neg hne]
        cases htype : attrs.get "type" <;> cases hlen : (attrs.get "length").bind u.int <;>
          simp [intAttr, htype, hlen, afterPieces]
      · have hdead : u.lower n ∉ next verificationPath := by
          rw [next_inner.2.2]
          simp [hhash, hpieces]
        refine ⟨pieces, ?_⟩
        rw [eval_dead hdead]
        simp [verified, elems_elem, hhash, hpieces]

theorem evalAll_verification : ∃ pieces',
    evalAll u verificationPath cs ⟨files, some file, pieces⟩ =
      .ok ⟨files, some (verified u file cs), pieces'⟩ := by
  induction cs generalizing file pieces with
  | nil => exact ⟨pieces, by simp [evalAll, verified]⟩
  | cons c cs ih =>
    obtain ⟨p, hc⟩ := @eval_verification u files file pieces c
    obtain ⟨p', hcs⟩ := @ih (verified u file [c]) p
    exact ⟨p', by rw [evalAll_cons hc, hcs, verified_cons]⟩

theorem tag_inj {a b : String} : tag a = tag b ↔ a = b := String.toList_inj

/-- A child with only a text sets its field. -/
theorem eval_text_child {n : Str} {attrs : Attrs} {ch : List Node} {name : String}
    (hname : name ∈ ["identity", "version", "size", "description", "language", "os"])
    (hn : u.lower n = tag name) : eval u filePath (.elem n attrs ch) ⟨files, some file, pieces⟩ =
      .ok ⟨files, some (extend u file [.elem n attrs ch]), pieces⟩ := by
  rw [eval_named hn (next_leaf.2.2.2 name hname)]
  simp only [List.mem_cons, List.not_mem_nil, or_false] at hname
  rcases hname with rfl | rfl | rfl | rfl | rfl | rfl
  · show Except.ok (⟨files, some { file with identity := textOf u ch }, pieces⟩ : Data) = _
    simp [extend, texts, under, elems_elem, hn, tag_inj]
  · show Except.ok (⟨files, some { file with version := textOf u ch }, pieces⟩ : Data) = _
    simp [extend, texts, under, elems_elem, hn, tag_inj]
  · show Except.ok (Data.tryInt ⟨files, some file, pieces⟩ (u.int (textOf u ch)) fun n file =>
      { file with size := n }) = _
    cases hint : u.int (textOf u ch) <;>
      simp [extend, texts, under, elems_elem, hn, tag_inj, hint, Data.tryInt]
  · show Except.ok (⟨files, some { file with description := textOf u ch }, pieces⟩ : Data) = _
    simp [extend, texts, under, elems_elem, hn, tag_inj]
  · show Except.ok (⟨files, some { file with language := textOf u ch }, pieces⟩ : Data) = _
    simp [extend, texts, under, elems_elem, hn, tag_inj]
  · show Except.ok (⟨files, some { file with os := textOf u ch }, pieces⟩ : Data) = _
    simp [extend, texts, under, elems_elem, hn, tag_inj]

theorem eval_resources {n : Str} {attrs : Attrs} {ch : List Node}
    (hn : u.lower n = tag "resources") :
    eval u filePath (.elem n attrs ch) ⟨files, some file, pieces⟩ =
      .ok ⟨files, some (extend u file [.elem n attrs ch]), pieces⟩ := by
  have hpath : filePath ++ [u.lower n] = resourcesPath := by rw [hn]; rfl
  have hopen : openAt u resourcesPath attrs ⟨files, some file, pieces⟩ =
      .ok ⟨files, some { file with
        maxconnections := ((attrs.get "maxconnections").bind u.int).getD file.maxconnections },
          pieces⟩ := by
    rw [openAt, if_neg (by decide), if_pos rfl]
    cases (attrs.get "maxconnections").bind u.int <;> rfl
  rw [eval, hpath, hopen]
  show (evalAll u resourcesPath ch _).bind (closeAt u resourcesPath attrs (textOf u ch)) = _
  rw [evalAll_resources]
  show Except.ok (⟨files, some _, pieces⟩ : Data) = _
  cases hint : (attrs.get "maxconnections").bind u.int <;>
    simp [extend, texts, under, elems_elem, hn, tag_inj, intAttr, hint]

theorem eval_file {c : Node} : ∃ pieces', eval u filePath c ⟨files, some file, pieces⟩ =
    .ok ⟨files, some (extend u file [c]), pieces'⟩ := by
  cases c with
  | text ps => exact ⟨pieces, by simp [eval, extend, texts, under]⟩
  | elem n attrs ch =>
    by_cases hnext : u.lower n ∈ next filePath
    · have hnames := next_file.1 _ hnext
      rw [childNames, List.map_cons, List.map_cons, List.mem_cons, List.mem_cons] at hnames
      rcases hnames with hn | hn | hn
      · exact ⟨pieces, eval_resources hn⟩
      · have hpath : filePath ++ [u.lower n] = verificationPath := by rw [hn]; rfl
        have hunknown : verificationPath ∉ known := by decide
        obtain ⟨p, hall⟩ := @evalAll_verification u ch files file pieces
        refine ⟨p, ?_⟩
        rw [eval, hpath, openAt_unknown hunknown]
        show (evalAll u verificationPath ch _).bind (closeAt u verificationPath attrs (textOf u ch)) = _
        rw [hall]
        show closeAt u verificationPath attrs (textOf u ch) _ = _
        rw [closeAt_unknown hunknown]
        simp [extend, verified, texts, under, elems_elem, hn, tag_inj]
      · obtain ⟨name, hname, heq⟩ := List.mem_map.1 hn
        exact ⟨pieces, eval_text_child hname heq.symm⟩
    · refine ⟨pieces, ?_⟩
      have hne : ∀ name, name ∈ childNames → u.lower n ≠ tag name := by
        intro name hname heq
        exact hnext (by rw [heq]; exact next_file.2 name hname)
      simp only [childNames, List.mem_cons, List.not_mem_nil, or_false, forall_eq_or_imp,
        forall_eq] at hne
      rw [eval_dead hnext]
      simp [extend, texts, under, elems_elem, hne]

theorem evalAll_file : ∃ pieces', evalAll u filePath cs ⟨files, some file, pieces⟩ =
    .ok ⟨files, some (extend u file cs), pieces'⟩ := by
  induction cs generalizing file pieces with
  | nil => exact ⟨pieces, by simp [evalAll, extend, texts, under]⟩
  | cons c cs ih =>
    obtain ⟨p, hc⟩ := @eval_file u files file pieces c
    obtain ⟨p', hcs⟩ := @ih (extend u file [c]) p
    exact ⟨p', by rw [evalAll_cons hc, hcs, extend_cons]⟩

variable {cur : Option MetalinkFile}

theorem eval_files {c : Node} : ∃ cur' pieces',
    eval u [tag "metalink", tag "files"] c ⟨files, cur, pieces⟩ =
      .ok ⟨files ++ (elems u "file" [c]).filterMap (fileOf u), cur', pieces'⟩ := by
  cases c with
  | text ps => exact ⟨cur, pieces, by simp [eval]⟩
  | elem n attrs ch =>
    by_cases hn : u.lower n = tag "file"
    · have hpath : [tag "metalink", tag "files"] ++ [u.lower n] = filePath := by rw [hn]; rfl
      obtain ⟨p, hall⟩ := @evalAll_file u ch files { name := (attrs.get "name").getD [] } pieces
      refine ⟨some (extend u { name := (attrs.get "name").getD [] } ch), p, ?_⟩
      rw [eval, hpath]
      show (evalAll u filePath ch ⟨files, some _, pieces⟩).bind (closeAt u filePath attrs (textOf u ch)) = _
      rw [hall]
      show Except.ok (if (attrs.get "name").getD [] ≠ [] then _ else _) = _
      rw [elems_elem, if_pos hn]
      by_cases hname : (attrs.get "name").getD [] = [] <;> simp [fileOf, hname]
    · have hdead : u.lower n ∉ next [tag "metalink", tag "files"] := by
        rw [next_eq.2.2]
        exact fun h => hn (List.eq_of_mem_replicate h)
      refine ⟨cur, pieces, ?_⟩
      rw [eval_dead hdead, elems_elem, if_neg hn]
      simp

theorem evalAll_files : ∃ cur' pieces',
    evalAll u [tag "metalink", tag "files"] cs ⟨files, cur, pieces⟩ =
      .ok ⟨files ++ (elems u "file" cs).filterMap (fileOf u), cur', pieces'⟩ := by
  induction cs generalizing files cur pieces with
  | nil => exact ⟨cur, pieces, by simp [evalAll]⟩
  | cons c cs ih =>
    obtain ⟨f, p, hc⟩ := @eval_files u files pieces cur c
    obtain ⟨f', p', hcs⟩ := @ih (files ++ (elems u "file" [c]).filterMap (fileOf u)) p f
    refine ⟨f', p', ?_⟩
    rw [evalAll_cons hc, hcs, @elems_cons u _ c cs]
    simp

theorem evalAll_metalink : ∃ cur' pieces',
    evalAll u [tag "metalink"] cs ⟨files, cur, pieces⟩ =
      .ok ⟨files ++ (under u "files" "file" cs).filterMap (fileOf u), cur', pieces'⟩ := by
  induction cs generalizing files cur pieces with
  | nil => exact ⟨cur, pieces, by simp [evalAll, under]⟩
  | cons c cs ih =>
    have hc : ∃ cur' pieces', eval u [tag "metalink"] c ⟨files, cur, pieces⟩ =
        .ok ⟨files ++ (under u "files" "file" [c]).filterMap (fileOf u), cur', pieces'⟩ := by
      cases c with
      | text ps => exact ⟨cur, pieces, by simp [eval, under]⟩
      | elem n attrs ch =>
        by_cases hn : u.lower n = tag "files"
        · have hunknown : [tag "metalink", tag "files"] ∉ known := by decide
          obtain ⟨f, p, hall⟩ := @evalAll_files u ch files pieces cur
          refine ⟨f, p, ?_⟩
          rw [eval, hn, List.cons_append, List.nil_append, openAt_unknown hunknown]
          show (evalAll u _ ch _).bind (closeAt u _ attrs (textOf u ch)) = _
          rw [hall]
          show closeAt u _ attrs (textOf u ch) _ = _
          rw [closeAt_unknown hunknown, under, elems_elem, if_pos hn]
          simp
        · have hdead : u.lower n ∉ next [tag "metalink"] := by
            rw [next_eq.2.1]
            exact fun h => hn (List.eq_of_mem_replicate h)
          refine ⟨cur, pieces, ?_⟩
          rw [eval_dead hdead, under, elems_elem, if_neg hn]
          simp
    obtain ⟨f, p, hc⟩ := hc
    obtain ⟨f', p', hcs⟩ := @ih (files ++ (under u "files" "file" [c]).filterMap (fileOf u)) p f
    refine ⟨f', p', ?_⟩
    rw [evalAll_cons hc, hcs, under, under, under, @elems_cons u _ c cs]
    simp

theorem parse_root {root : Node} : parse u root = .ok (filesOf u root) := by
  rw [parse_eq]
  cases root with
  | text ps => rfl
  | elem n attrs ch =>
    by_cases hn : u.lower n = tag "metalink"
    · have hunknown : [tag "metalink"] ∉ known := by decide
      obtain ⟨f, p, hall⟩ := @evalAll_metalink u ch [] [] none
      rw [eval, hn, List.nil_append, openAt_unknown hunknown]
      show ((evalAll u _ ch _).bind (closeAt u _ attrs (textOf u ch))).map _ = _
      rw [hall]
      show (closeAt u _ attrs (textOf u ch) _).map _ = _
      rw [closeAt_unknown hunknown, filesOf, elems_elem, if_pos hn]
      simp [Except.map]
    · have hdead : u.lower n ∉ next [] := by
        rw [next_eq.1]
        exact fun h => hn (List.eq_of_mem_replicate h)
      rw [eval_dead hdead, filesOf, elems_elem, if_neg hn]
      rfl

/-! ## However the text is cut -/

mutual

/-- The same tree with every text in one piece. -/
def Node.whole : Node → Node
  | .elem name attrs children => .elem name attrs (Node.wholeAll children)
  | .text pieces => .text [pieces.flatten]

def Node.wholeAll : List Node → List Node
  | [] => []
  | n :: ns => n.whole :: Node.wholeAll ns

end

def wholeElem (e : Attrs × List Node) : Attrs × List Node := (e.1, Node.wholeAll e.2)

theorem textOf_whole : textOf u (Node.wholeAll cs) = textOf u cs := by
  have hfrom : ∀ acc, textFrom acc (Node.wholeAll cs) = textFrom acc cs := by
    induction cs with
    | nil => exact fun acc => rfl
    | cons c cs ih =>
      intro acc
      cases c with
      | text ps => simp [Node.wholeAll, Node.whole, textFrom, ih]
      | elem n attrs ch => simp [Node.wholeAll, Node.whole, textFrom, ih]
  rw [textOf, textOf, hfrom]

theorem elems_whole {name : String} :
    elems u name (Node.wholeAll cs) = (elems u name cs).map wholeElem := by
  induction cs with
  | nil => rfl
  | cons c cs ih =>
    rw [Node.wholeAll, elems_cons, @elems_cons u _ c cs, List.map_append, ih]
    congr 1
    cases c with
    | text ps => rfl
    | elem n attrs ch =>
      rw [Node.whole, elems_elem, elems_elem]
      split <;> rfl

theorem under_whole {name sub : String} :
    under u name sub (Node.wholeAll cs) = (under u name sub cs).map wholeElem := by
  simp [under, elems_whole, wholeElem, List.flatMap_map, List.map_flatMap]

theorem extend_whole : extend u file (Node.wholeAll cs) = extend u file cs := by
  have hhash : hashOf u ∘ wholeElem = hashOf u := by
    funext e
    simp [hashOf, wholeElem, textOf_whole]
  have hint : ∀ key, intAttr u key ∘ wholeElem = intAttr u key := fun key => rfl
  have hpieces : ∀ hashes e, afterPieces u hashes (e.1, Node.wholeAll e.2) =
      afterPieces u hashes e := by
    intro hashes e
    have hdict : pieceDict u [] (Node.wholeAll e.2) = pieceDict u [] e.2 := by
      simp [pieceDict, elems_whole, List.foldl_map, wholeElem, textOf_whole]
    simp [afterPieces, hdict]
  simp [extend, texts, elems_whole, under_whole, List.filterMap_map, List.foldl_map, hhash, hint,
    hpieces, Function.comp_def, wholeElem, textOf_whole]

theorem filesOf_whole {root : Node} : filesOf u root.whole = filesOf u root := by
  have hfile : fileOf u ∘ wholeElem = fileOf u := by
    funext e
    simp [fileOf, wholeElem, extend_whole]
  have hroot : [root.whole] = Node.wholeAll [root] := rfl
  rw [filesOf, filesOf, hroot, elems_whole]
  simp [List.flatMap_map, wholeElem, under_whole, List.filterMap_map, hfile]

/-- The handler raises nothing and returns the files of the document. -/
theorem parse_document {root : Node} : parse u root = .ok (filesOf u root.whole) := by
  rw [filesOf_whole]
  exact parse_root

/-! ## What `pieces` contributes -/

/-- The file as it would be from `url`, `hash` and the text children alone. -/
def MetalinkFile.withoutPieces (file : MetalinkFile) : MetalinkFile :=
  { file with pieceHashes := [], pieceLength := -1, pieceType := "sha1".toList, maxconnections := -1 }

def asciiTables : Unicode where
  lower := Str.lower
  strip := Str.strip
  int s := (String.ofList s).toInt?

/-- A file `a` with `<verification><pieces type="m"/></verification>`. -/
def piecesDocument : Node :=
  .elem (tag "metalink") [] [.elem (tag "files") [] [.elem (tag "file") [(tag "name", ['a'])]
    [.elem (tag "verification") [] [.elem (tag "pieces") [(tag "type", ['m'])] []]]]]

theorem pieces_contribute : parse asciiTables piecesDocument ≠
    .ok ((filesOf asciiTables piecesDocument.whole).map MetalinkFile.withoutPieces) := by
  have hfiles : filesOf asciiTables piecesDocument.whole ≠
      (filesOf asciiTables piecesDocument.whole).map MetalinkFile.withoutPieces := by decide
  rw [parse_root, ← filesOf_whole]
  intro h
  exact hfiles (Except.ok.inj h)

end Wubi.Metalink
