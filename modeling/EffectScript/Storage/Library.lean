import EffectScript.Conditional.PassState
import EffectScript.Storage.Bin
import EffectScript.Storage.FileTree

/-!
# Libraries of bins

A library finds bins by name.  A name that was found or added before is in memory.  Any other is
looked for among the files: an absolute name by itself, a relative one in each include directory,
each time with no extension and then with the known ones.  With a cache directory the stored form
of a bin is kept there, and used again as long as the source has the same checksum; a cache that
cannot be read or written is reported and otherwise of no consequence.

In the tool a library is a `Repository`.  `empty` is `NewRepository`, `add` is `Add`, `find` is
`Resolve` and `spellings` is `Merged`.  `sourcePath?` is `resolveAsFile`, `source` is that and
`readSource`, `storedPath` is `cachePath`, and `loadStored` and `store` are `loadCached` and
`storeCached`.
-/

namespace EffectScript

/-- The extensions of source files, in the order in which they are tried. -/
def sourceExtensions : List Bytes := ["", ".cfi", ".cfx"].map Bytes.ofString

/-- The extension of stored bins. -/
def storedExtension : Bytes := Bytes.ofString ".fxb"

/-- A library: where it looks, what it has found, and the files it sees. -/
structure Library where
  /-- The include directories, in the order in which they are searched. -/
  directories : List Bytes
  /-- The directory of the stored forms; the empty path for none. -/
  cache : Bytes
  /-- The byte order in which bins are stored. -/
  order : ByteOrder
  /-- The bins in memory. -/
  bins : List (Bytes × Bin)
  files : FileTree
  deriving Repr

/-- What looking for a bin gave. -/
structure Found where
  answer : Except Error Bin
  /-- The lines reported. -/
  log : List Bytes
  /-- The library afterwards. -/
  library : Library

namespace Library

/-- A library that knows no bins. -/
def empty (directories : List Bytes) (cache : Bytes) (order : ByteOrder) (files : FileTree) :
    Library := ⟨directories, cache, order, [], files⟩

/-- The bin in memory under a name. -/
def inMemory? (lib : Library) (name : Bytes) : Option Bin := lib.bins.lookup name

/-- The library with a bin in memory under a name, in place of an earlier one. -/
def remember (lib : Library) (name : Bytes) (b : Bin) : Library :=
  { lib with bins := lib.bins.filter (·.1 != name) ++ [(name, b)] }

/-- The bin of a source text, put into memory. -/
def add (lib : Library) (name source : Bytes) : Except Error (Bin × Library) :=
  match Bin.ofSource name source with
  | .error e => .error e
  | .ok b => .ok (b, lib.remember name b)

/-- The paths at which the source of a bin may be, in the order in which they are tried. -/
def candidates (lib : Library) (name : Bytes) : List Bytes :=
  if Path.isAbsolute name then sourceExtensions.map (name ++ ·)
  else lib.directories.flatMap fun d => sourceExtensions.map fun e => Path.join d (name ++ e)

/-- The path of the source of a bin. -/
def sourcePath? (lib : Library) (name : Bytes) : Option Bytes :=
  ((lib.candidates name).find? lib.files.isFile).map Path.clean

/-- The source of a bin. -/
def source (lib : Library) (name : Bytes) : Except Cause Bytes :=
  match lib.sourcePath? name with
  | none => .error (.binNotFound name)
  | some path =>
    match lib.files.stat path with
    | .ok (.file content) => .ok content
    | .ok _ => .error (.notRegularFile path)
    | .error d => .error (.file (Bytes.ofString "stat") path d)

/-- The path of the stored form of a bin. -/
def storedPath (lib : Library) (name : Bytes) : Bytes :=
  Path.join lib.cache (Path.base name ++ storedExtension)

/-- The line that reports a cause without consequence. -/
def warning (e : Error) : Bytes := Bytes.ofString "warning: " ++ e.message

/-- The stored bin of that name, if it was made from `source`, and the lines reported. -/
def loadStored (lib : Library) (name source : Bytes) : Option Bin × List Bytes :=
  if lib.cache = [] then (none, [])
  else
    match lib.files.read? (lib.storedPath name) with
    | none => (none, [])
    | some data =>
      match Bin.decode name data with
      | .error e => (none, [warning e])
      | .ok b => (if b.sourceChecksum = Crc32.checksum source then some b else none, [])

/-- The library after a bin is stored, and the lines reported. -/
def store (lib : Library) (b : Bin) : Library × List Bytes :=
  if lib.cache = [] then (lib, [])
  else
    match b.encode lib.order with
    | .error e => (lib, [warning e])
    | .ok data =>
      match lib.files.makeDirectories lib.cache with
      | (files, some c) => ({ lib with files }, [warning (Error.ofCause c)])
      | (files, none) =>
        match files.write (lib.storedPath b.name) data with
        | .error c => ({ lib with files }, [warning (Error.ofCause c)])
        | .ok files => ({ lib with files }, [])

/-- The bin of that name. -/
def find (lib : Library) (name : Bytes) : Found :=
  match lib.inMemory? name with
  | some b => ⟨.ok b, [], lib⟩
  | none =>
    match lib.source name with
    | .error c => ⟨.error (Error.ofCause c), [], lib⟩
    | .ok source =>
      match lib.loadStored name source with
      | (some b, log) => ⟨.ok b, log, lib.remember name b⟩
      | (none, log) =>
        match Bin.ofSource name source with
        | .error e => ⟨.error e, log, lib⟩
        | .ok b =>
          let (lib, more) := lib.store b
          ⟨.ok b, log ++ more, lib.remember name b⟩

/-- The spellings of all bins in memory. -/
def spellings (lib : Library) : SpellingTable :=
  lib.bins.foldl (fun table (_, b) => table.merge b.table) .empty

/-- The library as the source of included files. -/
def resolver : Resolver Library where
  resolve name lib :=
    let found := lib.find name
    ⟨found.answer.map fun b => ⟨b.tokens, b.table⟩, found.log, found.library⟩
  capacity lib :=
    lib.bins.length + lib.bins.foldr (fun (_, b) n => b.table.entries.length + n) 0 + lib.files.size

end Library

end EffectScript
