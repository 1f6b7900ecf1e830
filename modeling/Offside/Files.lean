import Offside.Text.Lines

/-!
# File trees

A directory with the files and directories in it, and the place of that directory among all others.  Paths
are read segment by segment, from that directory or, behind a leading slash, from the top: an empty segment
or a dot stays where it is, two dots go up, and every other segment goes down.  Outside of the tree only the
directories that lead to it are known.

* `FileTree.walk_append` — a path is walked in parts.
-/

set_option autoImplicit false

namespace Offside

namespace FileTree

/-- What a path leads to. -/
inductive Entry where
  | file (bytes : ByteArray)
  /-- A file that cannot be read, with what the system tells of the attempt. -/
  | unreadable (reason : String)
  | directory

/-- Why a path leads nowhere. -/
inductive Obstacle where
  | missing
  /-- A segment follows something that is not a directory. -/
  | notDirectory
  /-- A segment, or the whole path, is too long. -/
  | tooLong
  /-- The path holds a character that no path can hold. -/
  | malformed
  deriving DecidableEq, Repr

end FileTree

/-- The place of a directory, from the top, and its entries, each with the segments of its path.  No slash
is part of a segment. -/
structure FileTree where
  root : List String
  entries : List (List String × FileTree.Entry)
  named : ∀ e ∈ entries, ∀ segment ∈ e.1, '/' ∉ segment.toList

namespace FileTree

/-- The segments of a path. -/
def segments (path : String) : List String :=
  (Text.splitAt '/' path.toList).map String.ofList

theorem not_mem_of_mem_segments {path segment : String} (h : segment ∈ segments path) :
    '/' ∉ segment.toList := by
  obtain ⟨part, hpart, rfl⟩ := List.mem_map.1 h
  rw [String.toList_ofList]
  exact Text.not_mem_of_mem_splitAt hpart

/-- Whether a segment stays where it is. -/
def stays (segment : String) : Bool :=
  segment == "" || segment == "."

/-- A tree from paths with their contents; the directories on the way are part of the tree. -/
def ofList (root : List String) (contents : List (String × Entry)) : FileTree :=
  { root := root
    entries := contents.map fun c => ((segments c.1).filter fun s => !stays s, c.2)
    named := by
      intro e he segment hsegment
      obtain ⟨c, -, rfl⟩ := List.mem_map.1 he
      exact not_mem_of_mem_segments (List.mem_filter.1 hsegment).1 }

/-- The path of the directory. -/
def path (tree : FileTree) : String :=
  "/" ++ "/".intercalate tree.root

/-- The directories that lead to an entry. -/
def parents (tree : FileTree) : List (List String) :=
  tree.entries.flatMap fun e => (List.range e.1.length).map fun n => e.1.take n

/-- What is found at a place inside the tree. -/
def at? (tree : FileTree) (place : List String) : Option Entry :=
  match tree.entries.find? fun e => e.1 == place with
  | some e => some e.2
  | none => if place.isEmpty || tree.parents.contains place then some .directory else none

/-- What is found at a place that is given from the top. -/
def atTop? (tree : FileTree) (place : List String) : Option Entry :=
  if tree.root.isPrefixOf place then tree.at? (place.drop tree.root.length)
  else if place.isPrefixOf tree.root then some .directory
  else none

/-- The largest number of bytes in a segment. -/
def segmentLimit : Nat := 255

/-- The largest number of bytes in a path. -/
def pathLimit : Nat := 4095

/-- One segment from the place of a directory. -/
def step (place : List String) (segment : String) : Except Obstacle (List String) :=
  if stays segment then .ok place
  else if segment == ".." then .ok place.dropLast
  else if segmentLimit < segment.utf8ByteSize then .error .tooLong
  else .ok (place ++ [segment])

/-- Follows segments from a place; what stands in front of a segment has to be a directory. -/
def walk (tree : FileTree) (place : List String) : List String → Except Obstacle (List String)
  | [] => .ok place
  | segment :: more =>
    match tree.atTop? place with
    | none => .error .missing
    | some (.file _) | some (.unreadable _) => .error .notDirectory
    | some .directory => do tree.walk (← step place segment) more

/-- What a path leads to. -/
def find (tree : FileTree) (path : String) : Except Obstacle Entry :=
  if path.isEmpty then .error .missing
  else if path.contains '\x00' then .error .malformed
  else if pathLimit < path.utf8ByteSize then .error .tooLong
  else do
    let place ← tree.walk (if path.startsWith "/" then [] else tree.root) (segments path)
    match tree.atTop? place with
    | some entry => .ok entry
    | none => .error .missing

/-- All places in the tree: entries and the directories that lead to them, without repetition. -/
def places (tree : FileTree) : List (List String) :=
  ((tree.entries.map Prod.fst ++ tree.parents).filter fun p => !p.isEmpty).eraseDups

theorem walk_append (tree : FileTree) (place front back : List String) :
    tree.walk place (front ++ back) =
      tree.walk place front >>= fun middle => tree.walk middle back := by
  induction front generalizing place with
  | nil => rfl
  | cons segment more ih =>
    simp only [List.cons_append, walk]
    split
    · rfl
    · rfl
    · rfl
    · cases step place segment with
      | error obstacle => rfl
      | ok next => exact ih next

end FileTree
end Offside
