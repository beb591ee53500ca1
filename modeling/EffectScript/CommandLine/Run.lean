import EffectScript.CommandLine.Options
import EffectScript.Effect
import EffectScript.Text.Blank

/-!
# Runs of the command line

A run reads its options, compiles one effect, and gives what it prints, its exit code, and the
files as it leaves them.  The effect is the file named by the only argument: it is looked for,
without its extension, in the directory of that file first and then in the include directories.

What the run reports and the error that ends it go to the error output, in this order.

The fragments of an effect are printed as a list.  The texts of the list are made here, and how a
list of texts is set out is left to a printer (`listing`), which a run is given.
-/

namespace EffectScript

/-- A name and a value written as `NAME=VALUE`; a name alone has the value `1`. -/
def parseDefinition (text : Bytes) : Except Cause (Bytes × Bytes) :=
  let name := Text.trimBlank (text.takeWhile (· != 0x3D))
  if name = [] then .error (.badDefinition text)
  else
    match text.dropWhile (· != 0x3D) with
    | [] => .ok (name, Bytes.ofString "1")
    | _ :: value => .ok (name, value)

/-- The seeds of a pass, or the cause that one of them is none. -/
def parseSeeds (pass : Int) : List Bytes → Except Cause (List Seed)
  | [] => .ok []
  | text :: rest =>
    match parseDefinition text with
    | .error c => .error c
    | .ok (name, value) =>
      match parseSeeds pass rest with
      | .error c => .error c
      | .ok seeds => .ok (⟨pass, name, value⟩ :: seeds)

/-- Why a run failed. -/
inductive Failure where
  | option (e : OptionError)
  /-- The usage was asked for. -/
  | help
  /-- There is not exactly one file. -/
  | arguments
  | error (e : Error)
  deriving DecidableEq, Repr

/-- What a run gives. -/
structure Outcome where
  code : Nat
  output : Bytes
  errors : Bytes
  files : FileTree

namespace Run

/-- A reported line with its end, unless it has one. -/
def logLine (line : Bytes) : Bytes := if line.getLast? = some 0x0A then line else line ++ [0x0A]

/-- What a failure adds to the error output, and the exit code. -/
def closing : Failure → Bytes × Nat
  | .option e => (e.message ++ [0x0A] ++ Options.usage ++ e.message ++ [0x0A], 1)
  | .help => (Options.usage, 2)
  | .arguments => (Bytes.ofString "usage: fxpp [flags] <file.cfx>\n", 1)
  | .error e => (e.message ++ [0x0A], 1)

/-- The outcome of a run that fails. -/
def fail (files : FileTree) (log : List Bytes) (failure : Failure) : Outcome :=
  let (text, code) := closing failure
  ⟨code, [], log.flatMap logLine ++ text, files⟩

/-- The outcome of a run that succeeds. -/
def succeed (files : FileTree) (log : List Bytes) (output : Bytes) : Outcome :=
  ⟨0, output, log.flatMap logLine, files⟩

/-- The platform that the options ask for. -/
def platform (o : Options) : Except Error Platform :=
  match PlatformKind.parse o.platform with
  | .error c => .error (Error.ofCause c)
  | .ok kind =>
    match Target.parse o.target with
    | .error c => .error (Error.ofCause c)
    | .ok target => Platform.build kind target o.features []

/-- The seeds that the options ask for, those of the first pass first. -/
def seeds (o : Options) : Except Cause (List Seed) :=
  match parseSeeds 0 o.defines with
  | .error c => .error c
  | .ok early =>
    match parseSeeds 1 o.statics with
    | .error c => .error c
    | .ok late => .ok (early ++ late)

/-- The library in which the effect of a file is looked for. -/
def library (files : FileTree) (o : Options) (file : Bytes) : Library :=
  Library.empty (Path.directory file :: o.includes) o.cache .little files

/-- The name of the effect of a file. -/
def effectName (file : Bytes) : Bytes := Path.stripExtension (Path.base file)

/-- Print a compiled effect. -/
def print (listing : List Bytes → Bytes) (o : Options) (files : FileTree) (log : List Bytes)
    (effect : Effect) : Outcome :=
  if o.dump then succeed files log (effect.slice.dump listing)
  else
    match effect.source o.skipped with
    | (text, none) => succeed files log text
    | (_, some c) => fail files log (.error (Error.ofCause c))

/-- Compile the effect of a file and print it. -/
def onFile (listing : List Bytes → Bytes) (files : FileTree) (o : Options) (file : Bytes) :
    Outcome :=
  match platform o with
  | .error e => fail files [] (.error e)
  | .ok p =>
    match seeds o with
    | .error c => fail files [] (.error (Error.ofCause c))
    | .ok seeds =>
      let compiled :=
        Effect.compile (library files o file) (some p) (effectName file) (fun _ => none) seeds
      match compiled.answer with
      | .error e => fail compiled.library.files compiled.log (.error e)
      | .ok effect => print listing o compiled.library.files compiled.log effect

/-- Run with the given arguments. -/
def withArguments (listing : List Bytes → Bytes) (files : FileTree) (arguments : List Bytes) :
    Outcome :=
  match Options.read .initial arguments with
  | .help => fail files [] .help
  | .failed e => fail files [] (.option e)
  | .done o [file] => onFile listing files o file
  | .done _ _ => fail files [] .arguments

end Run

end EffectScript
