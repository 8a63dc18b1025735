import Wubi.Core.Find
import Wubi.Backend.Model

/-!
# The metalink handler

Model of `MetalinkHandler` of `src/wubi/backends/common/metalink.py`: SAX
events change a stack of element names, a stack of attributes, the characters
read since the last tag, and `Data`, what the metalink is made of. A document
is a tree whose texts carry the pieces in which the parser passes them.

SAX passes unicode strings. `Unicode` has the operations on them that the
interpreter's tables decide; nothing is assumed about them.

Results:
* `run_events`: on the events of a tree the stacks come back as they were, and
  `Data` changes as the evaluation of the tree from its path says.
* `evalAll_dead`: below a path that leads to no known element nothing changes.
-/
namespace Wubi.Metalink

open Backend (PyErr)

structure Unicode where
  lower : Str → Str
  strip : Str → Str
  int : Str → Option Int

/-- mirrors src/wubi/backends/common/metalink.py:32-95 -/
structure MetalinkHash where
  type : Str := []
  hash : Str := []
  deriving DecidableEq

structure MetalinkUrl where
  url : Str := []
  type : Str := []
  location : Str := []
  preference : Int := -1
  maxconnections : Int := -1
  deriving DecidableEq

structure MetalinkFile where
  name : Str := []
  identity : Str := []
  version : Str := []
  size : Int := -1
  description : Str := []
  language : Str := []
  os : Str := []
  hashes : List MetalinkHash := []
  pieceHashes : List Str := []
  pieceLength : Int := -1
  pieceType : Str := "sha1".toList
  urls : List MetalinkUrl := []
  maxconnections : Int := -1
  deriving DecidableEq

abbrev Attrs := List (Str × Str)

/-- `attrs[key]` where `attrs.has_key(key)`. -/
def Attrs.get (attrs : Attrs) (key : String) : Option Str := attrs.lookup key.toList

/-- A dictionary in the order of insertion. -/
abbrev Dict := List (Str × Str)

/-- `d[key] = value` -/
def Dict.set (d : Dict) (key value : Str) : Dict :=
  if (d.lookup key).isSome then d.map fun e => if e.1 = key then (key, value) else e
  else d ++ [(key, value)]

/-- `metalink.files`, `_file` and `_pieces`. -/
structure Data where
  files : List MetalinkFile := []
  file : Option MetalinkFile := none
  pieces : Dict := []

/-- An assignment to an attribute of `self._file`, which may be None. -/
def Data.onFile (d : Data) (f : MetalinkFile → MetalinkFile) : Except PyErr Data :=
  match d.file with
  | some file => .ok { d with file := some (f file) }
  | none => .error .attributeError

/-- An assignment of a number under `try` with a bare `except`. -/
def Data.tryInt (d : Data) (n : Option Int) (f : Int → MetalinkFile → MetalinkFile) : Data :=
  match n with
  | some n => { d with file := d.file.map (f n) }
  | none => d

/-- `unescape` of `xml.sax.saxutils` without further entities. -/
def unescape (s : Str) : Str :=
  Str.replace "&amp;".toList ['&']
    (Str.replace "&lt;".toList ['<'] (Str.replace "&gt;".toList ['>'] s))

/-! ## The paths the handler knows -/

def tag (name : String) : Str := name.toList

def filePath : List Str := [tag "metalink", tag "files", tag "file"]

def resourcesPath : List Str := filePath ++ [tag "resources"]

def urlPath : List Str := resourcesPath ++ [tag "url"]

def verificationPath : List Str := filePath ++ [tag "verification"]

def hashPath : List Str := verificationPath ++ [tag "hash"]

def piecesPath : List Str := verificationPath ++ [tag "pieces"]

def pieceHashPath : List Str := piecesPath ++ [tag "hash"]

/-- A child of the file that has only a text. -/
def leafPath (name : String) : List Str := filePath ++ [tag name]

variable (u : Unicode)

/-- What `startElement` does for an element at the path `elements`.
mirrors src/wubi/backends/common/metalink.py:118-137 -/
def openAt (elements : List Str) (attrs : Attrs) (d : Data) : Except PyErr Data :=
  if elements = filePath then
    .ok { d with file := some { name := (attrs.get "name").getD [] } }
  else if elements = resourcesPath then
    .ok (d.tryInt ((attrs.get "maxconnections").bind u.int) fun n file =>
      { file with maxconnections := n })
  else if elements = piecesPath then do
    let d ← match attrs.get "type" with
      | some type => d.onFile fun file => { file with pieceType := type }
      | none => .ok d
    let d := d.tryInt ((attrs.get "length").bind u.int) fun n file => { file with pieceLength := n }
    .ok { d with pieces := [] }
  else .ok d

/-- The `url` element as an object.
mirrors src/wubi/backends/common/metalink.py:152-166 -/
def urlOf (attrs : Attrs) (content : Str) : MetalinkUrl where
  url := content
  type := (attrs.get "type").getD []
  location := (attrs.get "location").getD []
  maxconnections := ((attrs.get "maxconnections").bind u.int).getD (-1)
  preference := ((attrs.get "preference").bind u.int).getD (-1)

/-- `str(i)` -/
def str (i : Nat) : Str := Nat.toDigits 10 i

/-- The loop over `range(len(self._pieces))`.
mirrors src/wubi/backends/common/metalink.py:194-200 -/
def addPieces (pieces : Dict) : List Nat → List Str → List Str
  | [], hashes => hashes
  | i :: is, hashes => match pieces.lookup (str i) with
    | none => []
    | some hash => addPieces pieces is (hashes ++ [hash])

/-- What `endElement` does for an element at the path `elements`.
mirrors src/wubi/backends/common/metalink.py:147-201 -/
def closeAt (elements : List Str) (attrs : Attrs) (content : Str) (d : Data) : Except PyErr Data :=
  if elements = filePath then
    match d.file with
    | some file => .ok (if file.name ≠ [] then { d with files := d.files ++ [file] } else d)
    | none => .error .attributeError
  else if elements = urlPath then
    d.onFile fun file => { file with urls := file.urls ++ [urlOf u attrs content] }
  else if elements = leafPath "identity" then d.onFile fun file => { file with identity := content }
  else if elements = leafPath "version" then d.onFile fun file => { file with version := content }
  else if elements = leafPath "size" then
    .ok (d.tryInt (u.int content) fun n file => { file with size := n })
  else if elements = leafPath "description" then
    d.onFile fun file => { file with description := content }
  else if elements = leafPath "language" then d.onFile fun file => { file with language := content }
  else if elements = leafPath "os" then d.onFile fun file => { file with os := content }
  else if elements = hashPath then
    match attrs.get "type" with
    | some type => d.onFile fun file => { file with hashes := file.hashes ++ [⟨type, content⟩] }
    | none => .ok d
  else if elements = pieceHashPath then
    match attrs.get "piece" with
    | some piece => .ok { d with pieces := d.pieces.set piece content }
    | none => .ok d
  else if elements = piecesPath then do
    let d ← if d.pieces = [] then .ok d
      else d.onFile fun file => { file with
        pieceHashes := addPieces d.pieces (List.range d.pieces.length) file.pieceHashes }
    .ok { d with pieces := [] }
  else .ok d

/-! ## Events -/

structure Handler where
  elements : List Str := []
  attrs : List Attrs := []
  content : Str := []
  data : Data := {}

inductive Event where
  | startElement (name : Str) (attrs : Attrs)
  | endElement (name : Str)
  | characters (content : Str)

/-- mirrors src/wubi/backends/common/metalink.py:112-117,139-146,202-206 -/
def step (h : Handler) : Event → Except PyErr Handler
  | .startElement name attrs => do
    let elements := h.elements ++ [u.lower name]
    let data ← openAt u elements attrs h.data
    .ok { elements, attrs := h.attrs ++ [attrs], content := [], data }
  | .endElement _ =>
    match h.attrs.getLast? with
    | some attrs => do
      let data ← closeAt u h.elements attrs (unescape (u.strip h.content)) h.data
      if h.elements = [] then .error .indexError
      else .ok { elements := h.elements.dropLast, attrs := h.attrs.dropLast, content := [], data }
    | none => .error .indexError
  | .characters content => .ok { h with content := h.content ++ content }

def run (h : Handler) (events : List Event) : Except PyErr Handler := events.foldlM (step u) h

/-! ## Documents -/

/-- An element, or the text between two tags in the pieces that
`characters` gets. -/
inductive Node where
  | elem (name : Str) (attrs : Attrs) (children : List Node)
  | text (pieces : List Str)

mutual

def Node.events : Node → List Event
  | .elem name attrs children =>
    .startElement name attrs :: (Node.eventsAll children ++ [.endElement name])
  | .text pieces => pieces.map .characters

def Node.eventsAll : List Node → List Event
  | [] => []
  | n :: ns => n.events ++ Node.eventsAll ns

end

/-- `parse_metalink` on a document with this root.
mirrors src/wubi/backends/common/metalink.py:208-217 -/
def parse (root : Node) : Except PyErr (List MetalinkFile) :=
  (run u {} root.events).map fun h => h.data.files

/-- The characters behind the last child element, where `acc` has been read. -/
def textFrom (acc : Str) : List Node → Str
  | [] => acc
  | .text pieces :: ns => textFrom (acc ++ pieces.flatten) ns
  | .elem _ _ _ :: ns => textFrom [] ns

/-- The text of an element with these children. -/
def textOf (children : List Node) : Str := unescape (u.strip (textFrom [] children))

mutual

/-- `Data` behind a node whose parent is at `path`. -/
def eval (path : List Str) : Node → Data → Except PyErr Data
  | .elem name attrs children, d => do
    let d ← openAt u (path ++ [u.lower name]) attrs d
    let d ← evalAll (path ++ [u.lower name]) children d
    closeAt u (path ++ [u.lower name]) attrs (textOf u children) d
  | .text _, d => .ok d

def evalAll (path : List Str) : List Node → Data → Except PyErr Data
  | [], d => .ok d
  | n :: ns, d => do
    let d ← eval path n d
    evalAll path ns d

end

/-! ## The stacks come back -/

variable {u}

theorem run_append {h : Handler} {xs ys : List Event} :
    run u h (xs ++ ys) = (run u h xs).bind fun h => run u h ys := by
  rw [run, List.foldlM_append]
  rfl

theorem textFrom_cons {acc : Str} {n : Node} {ns : List Node} :
    textFrom acc (n :: ns) = textFrom (textFrom acc [n]) ns := by
  cases n <;> rfl

theorem run_characters {h : Handler} {pieces : List Str} :
    run u h (pieces.map .characters) = .ok { h with content := h.content ++ pieces.flatten } := by
  induction pieces generalizing h with
  | nil => simp [run, pure, Except.pure]
  | cons s pieces ih =>
    show run u { h with content := h.content ++ s } (pieces.map .characters) = _
    rw [ih]
    simp

mutual

/-- The events of a tree leave the stacks as they were. -/
theorem run_events : ∀ (n : Node) (h : Handler), run u h n.events =
    (eval u h.elements n h.data).map fun d => { h with content := textFrom h.content [n], data := d }
  | .text pieces, h => by
    rw [Node.events, run_characters, eval]
    rfl
  | .elem name attrs children, h => by
    rw [Node.events, eval]
    show (step u h (.startElement name attrs)).bind (fun h => run u h _) = _
    rw [step]
    cases hopen : openAt u (h.elements ++ [u.lower name]) attrs h.data with
    | error e => rfl
    | ok d =>
      show run u ⟨h.elements ++ [u.lower name], h.attrs ++ [attrs], [], d⟩ _ = _
      rw [run_append, run_eventsAll children]
      show _ = ((evalAll u (h.elements ++ [u.lower name]) children d).bind _).map _
      cases hall : evalAll u (h.elements ++ [u.lower name]) children d with
      | error e => rfl
      | ok d' =>
        show run u _ [.endElement name] = (closeAt u _ attrs (textOf u children) d').map _
        rw [run, List.foldlM_cons, step]
        have hlast : (h.attrs ++ [attrs]).getLast? = some attrs := List.getLast?_concat
        simp only [hlast]
        show (((closeAt u _ attrs (textOf u children) d').bind _).bind _) = _
        cases closeAt u (h.elements ++ [u.lower name]) attrs (textOf u children) d' with
        | error e => rfl
        | ok d'' =>
          simp [Except.bind, Except.map, textFrom, pure, Except.pure]

theorem run_eventsAll : ∀ (ns : List Node) (h : Handler), run u h (Node.eventsAll ns) =
    (evalAll u h.elements ns h.data).map fun d => { h with content := textFrom h.content ns, data := d }
  | [], h => rfl
  | n :: ns, h => by
    rw [Node.eventsAll, run_append, run_events n, evalAll]
    show _ = ((eval u h.elements n h.data).bind _).map _
    cases heval : eval u h.elements n h.data with
    | error e => rfl
    | ok d =>
      show run u { h with content := textFrom h.content [n], data := d } _ = _
      rw [run_eventsAll ns, @textFrom_cons h.content n ns]
      rfl

end

theorem parse_eq {root : Node} : parse u root = (eval u [] root {}).map Data.files := by
  rw [parse, run_events]
  show ((eval u [] root {}).map _).map _ = _
  cases eval u [] root {} <;> rfl

/-! ## Paths that lead nowhere -/

/-- Where the handler does anything. -/
def known : List (List Str) :=
  [filePath, resourcesPath, urlPath, hashPath, piecesPath, pieceHashPath] ++
    ["identity", "version", "size", "description", "language", "os"].map leafPath

/-- The names that lead on from a path. -/
def next (path : List Str) : List Str :=
  known.filterMap fun k => if path <+: k then k[path.length]? else none

def Dead (path : List Str) : Prop := ∀ r, path ++ r ∉ known

variable {path : List Str} {attrs : Attrs} {content : Str} {d : Data} {x : Str}

theorem Dead.child (h : Dead path) : Dead (path ++ [x]) := by
  intro r
  rw [List.append_assoc]
  exact h _

theorem dead_of_next (h : x ∉ next path) : Dead (path ++ [x]) := by
  intro r hr
  apply h
  refine List.mem_filterMap.2 ⟨_, hr, ?_⟩
  rw [List.append_assoc, if_pos (List.prefix_append _ _)]
  simp

theorem Dead.unknown (h : Dead path) : path ∉ known := by
  have hpath := h []
  rwa [List.append_nil] at hpath

theorem openAt_unknown (h : path ∉ known) : openAt u path attrs d = .ok d := by
  simp only [known, List.cons_append, List.mem_cons, not_or] at h
  simp [openAt, h]

theorem closeAt_unknown (h : path ∉ known) : closeAt u path attrs content d = .ok d := by
  simp only [known, List.cons_append, List.nil_append, List.map_cons, List.mem_cons, not_or] at h
  simp [closeAt, h]

mutual

theorem eval_below_dead : ∀ (n : Node) {path : List Str} {d : Data}, (∀ x, Dead (path ++ [x])) →
    eval u path n d = .ok d
  | .text _, _, _, _ => rfl
  | .elem name attrs children, path, d, h => by
    have hdead : Dead (path ++ [u.lower name]) := h (u.lower name)
    rw [eval, openAt_unknown hdead.unknown]
    show ((evalAll u _ children d).bind _) = _
    rw [evalAll_below_dead children fun x => hdead.child]
    exact closeAt_unknown hdead.unknown

theorem evalAll_below_dead : ∀ (ns : List Node) {path : List Str} {d : Data},
    (∀ x, Dead (path ++ [x])) → evalAll u path ns d = .ok d
  | [], _, _, _ => rfl
  | n :: ns, path, d, h => by
    rw [evalAll, eval_below_dead n h]
    exact evalAll_below_dead ns h

end

/-- An element at a dead path contributes nothing. -/
theorem eval_dead {name : Str} {children : List Node} (h : u.lower name ∉ next path) :
    eval u path (.elem name attrs children) d = .ok d := by
  have hdead : Dead (path ++ [u.lower name]) := dead_of_next h
  rw [eval, openAt_unknown hdead.unknown]
  show ((evalAll u _ children d).bind _) = _
  rw [evalAll_below_dead children fun x => hdead.child]
  exact closeAt_unknown hdead.unknown

/-- An element whose children lead nowhere is opened and closed. -/
theorem eval_leaf {name : Str} {children : List Node} (h : next (path ++ [u.lower name]) = []) :
    eval u path (.elem name attrs children) d =
      (openAt u (path ++ [u.lower name]) attrs d).bind
        (closeAt u (path ++ [u.lower name]) attrs (textOf u children)) := by
  rw [eval]
  congr 1
  funext d
  rw [evalAll_below_dead children fun x => dead_of_next (by rw [h]; exact List.not_mem_nil)]
  rfl

end Wubi.Metalink
