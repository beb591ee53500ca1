import EffectScript.Text.Quoted

/-!
# Command-line options

Options come before the file.  An option starts with one or two minus signs; its value follows an
equals sign or is the next argument.  Switches take a value only after an equals sign.  Reading
stops at the first argument that is no option, at a lone minus sign, and behind two minus signs
that stand alone.
-/

namespace EffectScript

/-- What the command line asks for. -/
structure Options where
  /-- The include directories. -/
  includes : List Bytes
  /-- The macros of the first pass. -/
  defines : List Bytes
  /-- The macros of the second pass. -/
  statics : List Bytes
  features : List Bytes
  platform : Bytes
  target : Bytes
  /-- The directory of stored bins. -/
  cache : Bytes
  /-- Whether hidden tokens are part of the output. -/
  skipped : Bool
  /-- Whether the fragments are the output. -/
  dump : Bool
  deriving DecidableEq, Repr

/-- What is wrong with an option. -/
inductive OptionError where
  | undefined (name : Bytes)
  | needsArgument (name : Bytes)
  | badForm (argument : Bytes)
  | badSwitch (value name : Bytes)
  deriving DecidableEq, Repr

/-- The wording of an error in an option. -/
def OptionError.message : OptionError → Bytes
  | .undefined name => Bytes.ofString "flag provided but not defined: -" ++ name
  | .needsArgument name => Bytes.ofString "flag needs an argument: -" ++ name
  | .badForm argument => Bytes.ofString "bad flag syntax: " ++ argument
  | .badSwitch value name =>
    Bytes.ofString "invalid boolean value " ++ Text.quoted value ++ Bytes.ofString " for -" ++
      name ++ Bytes.ofString ": parse error"

namespace Options

/-- What holds without options. -/
def initial : Options := ⟨[], [], [], [], Bytes.ofString "d3d11", [], [], false, false⟩

/-- The options after one that takes a value; nothing when there is none of that name. -/
def setValue? (o : Options) (name value : Bytes) : Option Options :=
  if name = Bytes.ofString "I" then some { o with includes := o.includes ++ [value] }
  else if name = Bytes.ofString "D" then some { o with defines := o.defines ++ [value] }
  else if name = Bytes.ofString "S" then some { o with statics := o.statics ++ [value] }
  else if name = Bytes.ofString "feature" then some { o with features := o.features ++ [value] }
  else if name = Bytes.ofString "platform" then some { o with platform := value }
  else if name = Bytes.ofString "target" then some { o with target := value }
  else if name = Bytes.ofString "cache" then some { o with cache := value }
  else none

/-- The options after a switch; nothing when there is none of that name. -/
def setSwitch? (o : Options) (name : Bytes) (value : Bool) : Option Options :=
  if name = Bytes.ofString "skipped" then some { o with skipped := value }
  else if name = Bytes.ofString "dump" then some { o with dump := value }
  else none

/-- The truth value of a switch as it is written. -/
def switch? (text : Bytes) : Option Bool :=
  if ["1", "t", "T", "true", "TRUE", "True"].any (Bytes.ofString · == text) then some true
  else if ["0", "f", "F", "false", "FALSE", "False"].any (Bytes.ofString · == text) then some false
  else none

/-- An argument as reading sees it. -/
inductive Argument where
  /-- The end of the options, the argument not being one. -/
  | other
  /-- The mark of the end of the options. -/
  | stop
  | malformed
  /-- An option, with the value behind its equals sign. -/
  | option (name : Bytes) (value : Option Bytes)
  deriving DecidableEq, Repr

/-- What an argument is. -/
def classify (argument : Bytes) : Argument :=
  match argument with
  | 0x2D :: second :: rest =>
    if second = 0x2D ∧ rest = [] then .stop
    else
      let body := if second = 0x2D then rest else second :: rest
      if body.head? = some 0x2D ∨ body.head? = some 0x3D then .malformed
      else
        let name := body.takeWhile (· != 0x3D)
        match body.dropWhile (· != 0x3D) with
        | [] => .option name none
        | _ :: value => .option name (some value)
  | _ => .other

/-- How reading the options ended. -/
inductive Reading where
  /-- With these options, and these arguments left. -/
  | done (o : Options) (arguments : List Bytes)
  /-- With a request for the usage. -/
  | help
  | failed (e : OptionError)
  deriving DecidableEq, Repr

/-- Whether a name asks for the usage. -/
def asksHelp (name : Bytes) : Bool := name == Bytes.ofString "help" || name == Bytes.ofString "h"

/-- Read the options at the start of the arguments. -/
def read (o : Options) : List Bytes → Reading
  | [] => .done o []
  | argument :: rest =>
    match classify argument with
    | .other => .done o (argument :: rest)
    | .stop => .done o rest
    | .malformed => .failed (.badForm argument)
    | .option name value =>
      match o.setSwitch? name true with
      | some on =>
        match value with
        | none => read on rest
        | some text =>
          match (switch? text).bind (o.setSwitch? name) with
          | some o => read o rest
          | none => .failed (.badSwitch text name)
      | none =>
        match o.setValue? name [] with
        | none => if asksHelp name then .help else .failed (.undefined name)
        | some _ =>
          match value with
          | some text => read ((o.setValue? name text).getD o) rest
          | none =>
            match rest with
            | [] => .failed (.needsArgument name)
            | text :: rest => read ((o.setValue? name text).getD o) rest

/-- The explanation of the options. -/
def usage : Bytes := Bytes.ofString (String.join [
  "Usage of fxpp:\n",
  "  -D value\n    \tpass 0 define NAME[=VALUE] (repeatable)\n",
  "  -I value\n    \tinclude directory (repeatable)\n",
  "  -S value\n    \tpass 1 define NAME[=VALUE] (repeatable)\n",
  "  -cache string\n    \tdirectory for cached token bins\n",
  "  -dump\n    \tprint the declaration fragments instead of the source\n",
  "  -feature value\n    \toptional platform feature define (repeatable)\n",
  "  -platform string\n    \ttarget platform: d3d11, gl4, gles3, metal, orbis, jasper ",
  "(default \"d3d11\")\n",
  "  -skipped\n    \tkeep hidden tokens in the output\n",
  "  -target string\n    \tmetal target: osx or ios\n"])

end Options

end EffectScript
