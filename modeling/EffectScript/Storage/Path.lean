import EffectScript.Text.Bytes

/-!
# File paths

Paths are byte strings with `/` between their elements.  `clean` is the shortest path that means
the same by the text alone: no empty elements, no `.`, and no `..` that could be taken back.
-/

namespace EffectScript.Path

/-- The byte between two elements. -/
def slash : UInt8 := 0x2F

/-- The byte before an extension. -/
def dot : UInt8 := 0x2E

/-- The elements between the slashes, empty ones included. -/
def split : Bytes → List Bytes
  | [] => [[]]
  | c :: rest =>
    if c = slash then [] :: split rest
    else
      match split rest with
      | [] => [[c]]
      | element :: elements => (c :: element) :: elements

/-- Whether the path starts at the root. -/
def isAbsolute (path : Bytes) : Bool := path.head? == some slash

/-- The elements left when each is read after the `kept` ones, which come last first: `.` and the
empty element stay in place, `..` takes an element back.  Above the start of a relative path `..`
is kept, above the root it is dropped. -/
def reduce (rooted : Bool) : List Bytes → List Bytes → List Bytes
  | kept, [] => kept.reverse
  | kept, element :: elements =>
    if element = [] || element = [dot] then reduce rooted kept elements
    else if element = [dot, dot] then
      match kept with
      | [] => if rooted then reduce rooted [] elements else reduce rooted [[dot, dot]] elements
      | above :: others =>
        if above = [dot, dot] then reduce rooted ([dot, dot] :: kept) elements
        else reduce rooted others elements
    else reduce rooted (element :: kept) elements

/-- The shortest path equal to the given one by its text. -/
def clean (path : Bytes) : Bytes :=
  let elements := Bytes.joinWith [slash] (reduce (isAbsolute path) [] (split path))
  if isAbsolute path then slash :: elements
  else if elements = [] then [dot]
  else elements

/-- The path of `name` below `directory`. -/
def join (directory name : Bytes) : Bytes :=
  if directory = [] then (if name = [] then [] else clean name)
  else clean (directory ++ slash :: name)

/-- The last element of a path, trailing slashes disregarded. -/
def base (path : Bytes) : Bytes :=
  if path = [] then [dot]
  else
    let trimmed := Bytes.trimRight (· == slash) path
    let element := (trimmed.reverse.takeWhile (· != slash)).reverse
    if element = [] then [slash] else element

/-- The path of the directory that holds the last element. -/
def directory (path : Bytes) : Bytes := clean (Bytes.trimRight (· != slash) path)

/-- The path without the extension: what stands before the last dot of the last element. -/
def stripExtension (path : Bytes) : Bytes :=
  match path.reverse.dropWhile fun c => c != dot && c != slash with
  | c :: stem => if c = dot then stem.reverse else path
  | [] => path

end EffectScript.Path
