import EffectScript.CommandLine.Run

/-!
# The program

A run works on a file tree as a value.  The program loads the files that the run can ask for into
such a tree, runs, prints, and writes back the files that the run changed.

A run can ask for the file of its argument and for the files whose names its scripts spell, so
these are loaded one script after the other, together with what is stored of them in the cache.

The printer of lists is part of this layer too.
-/

namespace EffectScript.Main

/-- A byte string as a text, if it is one. -/
def toText? (b : Bytes) : Option String := String.fromUTF8? (ByteArray.mk b.toArray)

/-- What is at a path on the disk. -/
def probe (path : Bytes) : IO (Option FileNode) := do
  let some name := toText? path | return none
  try
    let resolved ← IO.FS.realPath name
    match (← resolved.metadata).type with
    | .dir => return some .directory
    | .file => return some (.file (← IO.FS.readBinFile name).toList)
    | _ => return some .device
  catch _ => return none

/-- The tree with what is at a path on the disk, and whether there is something that is no
directory. -/
def load (files : FileTree) (path : Bytes) : IO (FileTree × Option FileNode) := do
  match ← probe path with
  | none => return (files, none)
  | some node =>
    let made := (files.makeDirectories (Path.directory path)).1
    match made.locate path with
    | .ok location => return (made.put location node, some node)
    | .error _ => return (made, none)

/-- The tree with the first file among some paths, and the names that it spells. -/
def loadFirst (files : FileTree) : List Bytes → IO (FileTree × List Bytes)
  | [] => return (files, [])
  | path :: rest => do
    match ← load files path with
    | (files, some (.file source)) =>
      let names := match Script.read source with
        | .ok script => script.table.entries.map (·.spelling)
        | .error _ => []
      return (files, names)
    | (files, some .device) => return (files, [])
    | (files, _) => loadFirst files rest

/-- The tree with the files of some names, and of the names that they spell. -/
partial def gather (lib : Library) (files : FileTree) (seen : List Bytes) :
    List Bytes → IO FileTree
  | [] => return files
  | name :: rest => do
    if seen.contains name then gather lib files seen rest
    else
      let (files, names) ← loadFirst files (lib.candidates name)
      let files ←
        if lib.cache.isEmpty then pure files else pure (← load files (lib.storedPath name)).1
      gather lib files (name :: seen) (names ++ rest)

/-- The names that seeds spell. -/
def seedNames (o : Options) : List Bytes :=
  (o.defines ++ o.statics).flatMap fun text =>
    match Script.read text with
    | .ok script => script.table.entries.map (·.spelling)
    | .error _ => []

/-- The tree of the working directory and of what is above it, without any files. -/
def emptyTree : IO FileTree := do
  let here := (Path.split (Bytes.ofString (← IO.currentDir).toString)).filter (· != [])
  return ⟨(List.range here.length).map fun n => (here.take (n + 1), .directory), here⟩

/-- The tree with what is on the way to the cache directory, as the path is written and as it is
by its text alone. -/
def loadCache (files : FileTree) (cache : Bytes) : IO FileTree := do
  if cache.isEmpty then return files
  (FileTree.pathsDownTo cache).foldlM (fun files path => do
    return (← load (← load files path).1 (Path.clean path)).1) files

/-- The tree of the files that a run with the given arguments can ask for. -/
def treeFor (arguments : List Bytes) : IO FileTree := do
  let files ← emptyTree
  match Options.read .initial arguments with
  | .done o [file] =>
    let lib := Run.library files o file
    let files ← loadCache files o.cache
    gather lib files [] (Run.effectName file :: seedNames o ++ Vocabulary.spellings)
  | _ => return files

/-- Write the files that are new or changed in the second tree. -/
def save (before after : FileTree) : IO Unit := do
  for (location, node) in after.nodes.reverse do
    if before.node? location != some node then
      if let some path := toText? (location.flatMap (Path.slash :: ·)) then
        match node with
        | .directory => IO.FS.createDirAll path
        | .file content => IO.FS.writeBinFile path (ByteArray.mk content.toArray)
        | .device => pure ()

/-- The printer of lists: a count and a line for each text, and nothing for no texts. -/
def fragmentListing (texts : List Bytes) : Bytes :=
  let item := fun (text, number) =>
    Bytes.ofString "· " ++ Bytes.decimal number ++ Bytes.ofString ": " ++ text ++
      Bytes.ofString ",\n"
  if texts.isEmpty then []
  else
    Bytes.ofString "[]slicer.Fragment\x7b // len " ++ Bytes.decimal texts.length ++
      Bytes.ofString "\n" ++ texts.zipIdx.flatMap item ++ Bytes.ofString "\x7d"

end EffectScript.Main

/-- Compile one effect and print it. -/
def main (arguments : List String) : IO UInt32 := do
  let arguments := arguments.map EffectScript.Bytes.ofString
  let files ← EffectScript.Main.treeFor arguments
  let outcome := EffectScript.Run.withArguments EffectScript.Main.fragmentListing files arguments
  (← IO.getStdout).write (ByteArray.mk outcome.output.toArray)
  (← IO.getStderr).write (ByteArray.mk outcome.errors.toArray)
  EffectScript.Main.save files outcome.files
  return UInt32.ofNat outcome.code
