import Offside.Editor.Symbol
import Offside.Editor.Uri
import Offside.Files
import Offside.Text.Quoted

/-!
# The editor service

Documents are checked and indexed when they are opened or changed; the index answers where a name is
declared and how it is described.  The first question also indexes the program files of the workspace that
have not been indexed yet.

The index keeps documents in the order in which they were first indexed, and depends only on the latest text
of each.  Beside it, a table keeps all symbols under their names; it is made anew from the index whenever a
document is indexed.
-/

set_option autoImplicit false

namespace Offside.Editor

/-- The files that the service can read, and whether their directory is the root of the workspace. -/
structure Workspace where
  files : FileTree
  isRoot : Bool

/-- The end of the names of program files. -/
def fileSuffix : String := ".craft"

/-- Why a question cannot be answered. -/
inductive Failure where
  /-- The URI is not well formed. -/
  | badUri
  /-- The file cannot be reached. -/
  | unreachable (obstacle : FileTree.Obstacle)
  /-- The file cannot be read. -/
  | unreadable (reason : String)
  | isDirectory
  | notText
  /-- A document that is not open cannot be changed. -/
  | notOpen
  deriving DecidableEq, Repr

/-- What the system tells of a directory that is read as a file. -/
def directoryReason (path : String) : String :=
  "[Errno 21] Is a directory: " ++ Text.quoted path

namespace Workspace

/-- The path of a place. -/
def pathOf (w : Workspace) (place : List String) : String :=
  w.files.path ++ "/" ++ "/".intercalate place

/-- The URI of a place. -/
def uriOf (w : Workspace) (place : List String) : String :=
  "file://" ++ Text.percentEncode (w.pathOf place)

/-- The places whose names are those of program files, at any depth. -/
def programPlaces (w : Workspace) : List (List String) :=
  w.files.places.filter fun place => (place.getLastD "").endsWith fileSuffix

/-- What the system tells of a place that cannot be read. -/
def reasonAt (w : Workspace) (place : List String) : String :=
  match w.files.at? place with
  | some (.unreadable reason) => reason
  | _ => directoryReason (w.pathOf place)

/-- The text of the file to which a path leads. -/
def readPath (w : Workspace) (path : String) : Except Failure String :=
  match w.files.find path with
  | .error obstacle => .error (.unreachable obstacle)
  | .ok (.unreadable reason) => .error (.unreadable reason)
  | .ok .directory => .error .isDirectory
  | .ok (.file bytes) =>
    match Text.ofBytes? bytes with
    | some text => .ok text
    | none => .error .notText

/-- The text of the file that a URI stands for. -/
def read (w : Workspace) (uri : String) : Except Failure String :=
  match Uri.parse? uri with
  | some u => w.readPath u.filePath
  | none => .error .badUri

end Workspace

/-- What the service tells on its own. -/
inductive Event where
  | publish (uri : String) (marks : List Mark)
  | warn (message : String)
  deriving DecidableEq, Repr

/-! ## The table of names -/

/-- Symbols under their names; the names in the order in which they came up. -/
abbrev Table := Bindings (List Outline)

namespace Table

/-- Puts a symbol behind those of its name. -/
def add (table : Table) (outline : Outline) : Table :=
  let name := outline.symbol.name
  table.put name ((table.get? name).getD [] ++ [outline])

/-- All symbols of some documents in order, a class in front of its methods; each with the methods it owns. -/
def entries (index : Bindings (List Outline)) : List Outline :=
  index.flatMap fun document =>
    document.2.flatMap fun outline => outline :: outline.methods.map fun m => ⟨m, []⟩

/-- The table of the symbols of some documents. -/
def ofIndex (index : Bindings (List Outline)) : Table :=
  (entries index).foldl add []

end Table
end Editor

open Editor

/-- The state of the service: the open documents, the symbols of each document, the table of their names, and
whether the workspace has been indexed. -/
structure Editor where
  documents : Bindings String
  index : Bindings (List Outline)
  table : Table
  workspaceIndexed : Bool

namespace Editor

/-- The service at its start. -/
def start : Editor :=
  ⟨[], [], [], false⟩

/-! ## The index -/

/-- The symbols of a name. -/
def named (e : Editor) (name : String) : List Outline :=
  (e.table.get? name).getD []

/-- The names that have symbols. -/
def names (e : Editor) : List String :=
  e.table.names

/-- Indexes a text in place of the one indexed before, and tells its problems. -/
def update (e : Editor) (uri text : String) : Editor × List Mark :=
  let checked := Checked.ofSource text
  let index := e.index.put uri (outlines uri checked.statements)
  ({ e with index := index, table := .ofIndex index }, marks checked.log)

/-- The message about a program file that could not be read, and why. -/
def unreadWarning (path reason : String) : String :=
  "Failed to index " ++ path ++ ": " ++ reason

/-- Indexes the places that have not been indexed.  What cannot be read is told of; a file that is not text ends the
indexing early. -/
def indexPlaces (w : Workspace) (e : Editor) : List (List String) → Editor × List Event × Option Failure
  | [] => ({ e with workspaceIndexed := true }, [], none)
  | place :: more =>
    let uri := w.uriOf place
    if (e.index.get? uri).isSome then e.indexPlaces w more
    else
      match w.files.at? place with
      | some (.file bytes) =>
        match Text.ofBytes? bytes with
        | some text => (e.update uri text).1.indexPlaces w more
        | none => (e, [], some .notText)
      | _ =>
        let r := e.indexPlaces w more
        (r.1, .warn (unreadWarning (w.pathOf place) (w.reasonAt place)) :: r.2.1, r.2.2)

/-- Indexes the workspace, unless that has been done. -/
def indexWorkspace (w : Workspace) (e : Editor) : Editor × List Event × Option Failure :=
  if e.workspaceIndexed then (e, [], none)
  else e.indexPlaces w (if w.isRoot then w.programPlaces else [])

/-! ## Answers -/

/-- What a request leads to: the state behind it, what the service tells, and the answer. -/
structure Reply (α : Type) where
  editor : Editor
  events : List Event
  answer : Except Failure α

/-- A document gets a text, is checked and indexed, and its problems are told. -/
def setText (e : Editor) (uri text : String) : Reply Unit :=
  let r := { e with documents := e.documents.put uri text }.update uri text
  ⟨r.1, [.publish uri r.2], .ok ()⟩

/-- A document is opened; its URI has to be well formed. -/
def openText (e : Editor) (uri text : String) : Reply Unit :=
  if (Uri.parse? uri).isSome then e.setText uri text else ⟨e, [], .error .badUri⟩

/-- An open document gets a new text. -/
def changeText (e : Editor) (uri text : String) : Reply Unit :=
  if (e.documents.get? uri).isSome then e.setText uri text else ⟨e, [], .error .notOpen⟩

/-- A text is indexed without being opened. -/
def indexText (e : Editor) (uri text : String) : Reply (List Mark) :=
  let r := e.update uri text
  ⟨r.1, [], .ok r.2⟩

/-- The symbols of a document. -/
def symbols (e : Editor) (uri : String) : List Outline :=
  (e.index.get? uri).getD []

/-- The first symbol of a name. -/
def lookup (w : Workspace) (e : Editor) (name : String) : Reply (Option Outline) :=
  match e.indexWorkspace w with
  | (after, events, none) => ⟨after, events, .ok (after.named name).head?⟩
  | (after, events, some failure) => ⟨after, events, .error failure⟩

/-- The text of a document: the open one, or else the file. -/
def textOf (w : Workspace) (e : Editor) (uri : String) : Except Failure String :=
  match e.documents.get? uri with
  | some text => .ok text
  | none => w.read uri

/-- The first symbol of the name at a position. -/
def symbolAtPosition (w : Workspace) (e : Editor) (uri : String) (p : Position) :
    Reply (Option Symbol) :=
  match e.textOf w uri with
  | .error failure => ⟨e, [], .error failure⟩
  | .ok text =>
    let word := wordAt text p
    if word.isEmpty then ⟨e, [], .ok none⟩
    else
      let r := e.lookup w word
      ⟨r.editor, r.events, r.answer.map fun found => found.map Outline.symbol⟩

end Editor
end Offside
