import EffectScript.Error
import EffectScript.Storage.Path

/-!
# File trees

The files that a program sees, as a value: what is at each location, and the location from which
relative paths start.  A location is the list of the names from the root down.  The operations
follow a path name by name, so that a path through something that is no directory, or through
something that is not there, fails with the cause that a file system would give.

Making directories may fail on the way.  What was made before stays, so its result is a tree in
any case.
-/

namespace EffectScript

/-- What can be at a location. -/
inductive FileNode where
  | directory
  | file (content : Bytes)
  /-- Something that can be opened and is no regular file. -/
  | device
  deriving DecidableEq, Repr

/-- Files, and the directory in which a program works. -/
structure FileTree where
  nodes : List (List Bytes × FileNode)
  /-- The location from which relative paths start. -/
  here : List Bytes
  deriving DecidableEq, Repr

namespace FileTree

/-! ## 1. Locations -/

/-- What is at a location; the root is a directory. -/
def node? (t : FileTree) (location : List Bytes) : Option FileNode :=
  if location = [] then some .directory else t.nodes.lookup location

/-- The number of bytes that a name can have. -/
def nameLimit : Nat := 255

/-- The number of bytes that a path can have. -/
def pathLimit : Nat := 4095

/-- What is wrong with a path by itself, whatever the files are. -/
def pathDefect? (path : Bytes) : Option FileDefect :=
  if path = [] then some .missing
  else if path.contains 0 then some .unusable
  else if pathLimit < path.length then some .tooLong
  else none

/-- The location that the names of a path lead to.  Every name but the last has to lead to a
directory. -/
def follow (t : FileTree) (location : List Bytes) : List Bytes → Except FileDefect (List Bytes)
  | [] => .ok location
  | name :: names =>
    match t.node? location with
    | some .directory =>
      if name = [] || name = [Path.dot] then t.follow location names
      else if name = [Path.dot, Path.dot] then t.follow location.dropLast names
      else if nameLimit < name.length then .error .tooLong
      else t.follow (location ++ [name]) names
    | some _ => .error .notDirectory
    | none => .error .missing

/-- The location of a path, which need not hold anything. -/
def locate (t : FileTree) (path : Bytes) : Except FileDefect (List Bytes) :=
  match pathDefect? path with
  | some d => .error d
  | none => t.follow (if Path.isAbsolute path then [] else t.here) (Path.split path)

/-- What is at a path. -/
def stat (t : FileTree) (path : Bytes) : Except FileDefect FileNode :=
  match t.locate path with
  | .error d => .error d
  | .ok location =>
    match t.node? location with
    | some node => .ok node
    | none => .error .missing

/-- Whether there is something at a path that is no directory. -/
def isFile (t : FileTree) (path : Bytes) : Bool :=
  match t.stat path with
  | .ok .directory => false
  | .ok _ => true
  | .error _ => false

/-- The content of the file at a path. -/
def read? (t : FileTree) (path : Bytes) : Option Bytes :=
  match t.stat path with
  | .ok (.file content) => some content
  | .ok .device => some []
  | _ => none

/-! ## 2. Changes -/

/-- The tree with `node` at a location. -/
def put (t : FileTree) (location : List Bytes) (node : FileNode) : FileTree :=
  { t with nodes := (location, node) :: t.nodes.filter (·.1 != location) }

/-- The tree in which the file at a path has the given content. -/
def write (t : FileTree) (path content : Bytes) : Except Cause FileTree :=
  let failed (d : FileDefect) : Except Cause FileTree :=
    .error (.file (Bytes.ofString "open") path d)
  match t.locate path with
  | .error d => failed d
  | .ok location =>
    match t.node? location with
    | some .directory => failed .isDirectory
    | some .device => .ok t
    | _ => .ok (t.put location (.file content))

/-- The path without trailing slashes, of which the root keeps one. -/
def withoutTrailing (path : Bytes) : Bytes :=
  let trimmed := Bytes.trimRight (· == Path.slash) path
  if trimmed = [] then path.take 1 else trimmed

/-- The tree with a new directory at a path, trailing slashes disregarded. -/
def makeDirectory (t : FileTree) (path : Bytes) : Except FileDefect FileTree :=
  match pathDefect? path with
  | some d => .error d
  | none =>
    match t.locate (withoutTrailing path) with
    | .error d => .error d
    | .ok location =>
      match t.node? location with
      | some _ => .error .exists
      | none => .ok (t.put location .directory)

/-- The path of the directory in which the last name of a path is, as it is written; nothing when
the path has one name only. -/
def parent? (path : Bytes) : Option Bytes :=
  let trimmed := Bytes.trimRight (· != Path.slash) (Bytes.trimRight (· == Path.slash) path)
  if 1 < trimmed.length then some trimmed.dropLast else none

theorem length_trimRight_le (p : UInt8 → Bool) (text : Bytes) :
    (Bytes.trimRight p text).length ≤ text.length := by
  unfold Bytes.trimRight
  simpa using (List.dropWhile_sublist p (l := text.reverse)).length_le

/-- A parent is shorter than the path. -/
theorem length_parent? {path parent : Bytes} (h : parent? path = some parent) :
    parent.length < path.length := by
  unfold parent? at h
  dsimp only at h
  have h1 := length_trimRight_le (· == Path.slash) path
  have h2 := length_trimRight_le (· != Path.slash) (Bytes.trimRight (· == Path.slash) path)
  split at h
  · cases h
    simp only [List.length_dropLast]
    omega
  · cases h

/-- The tree with a directory at a path, and with all the directories above it; or the cause that
it cannot be made, and the tree with those above it that were made before. -/
def makeDirectories (t : FileTree) (path : Bytes) : FileTree × Option Cause :=
  let failed (t : FileTree) (d : FileDefect) : FileTree × Option Cause :=
    (t, some (.file (Bytes.ofString "mkdir") path d))
  match t.stat path with
  | .ok .directory => (t, none)
  | .ok _ => failed t .notDirectory
  | .error _ =>
    let above :=
      match _h : parent? path with
      | some parent => t.makeDirectories parent
      | none => (t, none)
    match above with
    | (t, some c) => (t, some c)
    | (t, none) =>
      match t.makeDirectory path with
      | .ok t => (t, none)
      | .error d =>
        match t.stat path with
        | .ok .directory => (t, none)
        | _ => failed t d
termination_by path.length
decreasing_by exact length_parent? _h

/-- The path itself and the paths of the directories above it, the highest first. -/
def pathsDownTo (path : Bytes) : List Bytes :=
  match _h : parent? path with
  | some parent => pathsDownTo parent ++ [path]
  | none => [path]
termination_by path.length
decreasing_by exact length_parent? _h

/-- The tree without what is at a path, and without all below it, trailing slashes disregarded.  A
path that ends in `.` is refused. -/
def remove (t : FileTree) (path : Bytes) : FileTree :=
  if (Path.split path).getLast? = some [Path.dot] then t
  else
    match t.locate (withoutTrailing path) with
    | .error _ => t
    | .ok location => { t with nodes := t.nodes.filter fun (l, _) => !location.isPrefixOf l }

/-- The order of names by their bytes. -/
def nameLe : Bytes → Bytes → Bool
  | [], _ => true
  | _ :: _, [] => false
  | a :: as, b :: bs => a < b || (a == b && nameLe as bs)

/-- The names in the directory at a path, in order. -/
def names (t : FileTree) (path : Bytes) : List Bytes :=
  match t.locate path with
  | .error _ => []
  | .ok location =>
    (t.nodes.filterMap fun (l, _) =>
      if l.dropLast = location then l.getLast? else none).mergeSort nameLe

/-- The number of bytes of all files together. -/
def size (t : FileTree) : Nat :=
  t.nodes.foldr (fun (_, node) n => match node with
    | .file content => content.length + n
    | _ => n) 0

end FileTree

end EffectScript
