import EffectScript.Script.Token
import EffectScript.Text.Quoted

/-!
# Errors

Every failure of the library has a *cause*, and gathers on its way out the *places* it passed:
the bin, the file and the token at which it arose, the directive or the seed that led there.  The
wording of both is in this module and nowhere else; a message is the places from the outside in,
and then the cause.
-/

namespace EffectScript

/-! ## 1. Causes -/

/-- What is wrong with the name after `#include`.  Offsets count the bytes of the source. -/
inductive IncludeDefect where
  /-- The source ends before the name. -/
  | missing
  /-- The name is not in quotes or angle brackets. -/
  | unbracketed (offset : Nat)
  /-- The name holds a blank or a control. -/
  | badByte (offset : Nat)
  /-- The source ends inside the name. -/
  | unterminated
  /-- There is nothing between the brackets. -/
  | empty
  deriving DecidableEq, Repr

/-- What is wrong with the stored form of a bin whose header is in order. -/
inductive BinDefect where
  /-- The tokens or the spellings lie outside the data or not where they have to. -/
  | badOffsets
  /-- A spelling entry is too short to be one. -/
  | truncatedStrings
  /-- A spelling has no end. -/
  | unterminatedString
  deriving DecidableEq, Repr

/-- Why an operation on a file failed. -/
inductive FileDefect where
  | missing
  | notDirectory
  | isDirectory
  | exists
  /-- The path holds a byte that no path can hold. -/
  | unusable
  /-- The path, or a name in it, is longer than it can be. -/
  | tooLong
  deriving DecidableEq, Repr

/-- Why something failed. -/
inductive Cause where
  | badInclude (defect : IncludeDefect)
  /-- A `#define` without a name, noticed at `offset`. -/
  | unnamedDefine (offset : Nat)
  /-- Two spellings with one hash. -/
  | hashCollision (known new : Bytes) (id : TokenId)
  | unknownPlatform (name : Bytes)
  | unknownPlatformCode (code : Int)
  /-- The platform needs a target of its own. -/
  | metalTarget
  | unknownTarget (name : Bytes)
  /-- The data do not start as a bin does. -/
  | notBin
  | binVersion (high low : UInt16)
  | corruptBin (defect : BinDefect)
  /-- A skip mark, which has no stored form. -/
  | unstorable (index : Nat) (mark : Token)
  | binNotFound (name : Bytes)
  | notRegularFile (path : Bytes)
  | file (operation : Bytes) (path : Bytes) (defect : FileDefect)
  /-- A branch or an end of no conditional of the same file. -/
  | noMatchingIf (directive : Bytes)
  | missingEndif
  | elseAfterElse
  | includeCycle (name : Bytes)
  | noResolver
  | unspelledInclude (id : TokenId)
  /-- More files inside each other than there are names to include. -/
  | includeDepth
  /-- The tokens end inside a directive. -/
  | truncated
  | badPass (pass : Int)
  /-- A seed for a pass that does not exist. -/
  | badSeedPass (pass : Int) (name : Bytes)
  | tooComplex
  | missingTerm (index : Nat)
  | unbalanced (index : Nat)
  /-- A token that has no text. -/
  | unspelled (id : TokenId) (index : Nat)
  /-- A definition without a name among the command line's arguments. -/
  | badDefinition (text : Bytes)
  deriving DecidableEq, Repr

/-- The wording of a defect of an included name. -/
def IncludeDefect.message : IncludeDefect → Bytes
  | .missing => Bytes.ofString "missing name"
  | .unbracketed offset =>
    Bytes.ofString "expected \" or < at offset " ++ Bytes.decimal offset
  | .badByte offset =>
    Bytes.ofString "invalid character inside include brackets at offset " ++ Bytes.decimal offset
  | .unterminated => Bytes.ofString "unterminated name"
  | .empty => Bytes.ofString "empty name"

/-- The wording of a defect of a stored bin. -/
def BinDefect.message : BinDefect → Bytes
  | .badOffsets => Bytes.ofString "bad offsets"
  | .truncatedStrings => Bytes.ofString "truncated string table"
  | .unterminatedString => Bytes.ofString "unterminated string"

/-- The wording of a defect of a file. -/
def FileDefect.message : FileDefect → Bytes
  | .missing => Bytes.ofString "no such file or directory"
  | .notDirectory => Bytes.ofString "not a directory"
  | .isDirectory => Bytes.ofString "is a directory"
  | .exists => Bytes.ofString "file exists"
  | .unusable => Bytes.ofString "invalid argument"
  | .tooLong => Bytes.ofString "file name too long"

/-- The wording of a cause. -/
def Cause.message : Cause → Bytes
  | .badInclude defect => Bytes.ofString "bad #include syntax: " ++ defect.message
  | .unnamedDefine offset =>
    Bytes.ofString "bad #define: missing name at offset " ++ Bytes.decimal offset
  | .hashCollision known new id =>
    Bytes.ofString "token hash collision: " ++ Text.quoted known ++ Bytes.ofString " and " ++
      Text.quoted new ++ Bytes.ofString " both hash to " ++ id.name
  | .unknownPlatform name => Bytes.ofString "unknown platform " ++ Text.quoted name
  | .unknownPlatformCode code =>
    Bytes.ofString "unknown platform Kind(" ++ Bytes.signedDecimal code ++ Bytes.ofString ")"
  | .metalTarget => Bytes.ofString "METAL requires an OSX or IOS target"
  | .unknownTarget name => Bytes.ofString "unknown target " ++ Text.quoted name
  | .notBin => Bytes.ofString "not a shader bin"
  | .binVersion high low =>
    Bytes.ofString "shader bin version mismatch: have " ++ Bytes.decimal high.toNat ++
      Bytes.ofString "." ++ Bytes.decimal low.toNat ++ Bytes.ofString ", want 1.4"
  | .corruptBin defect => Bytes.ofString "corrupt shader bin: " ++ defect.message
  | .unstorable index mark =>
    Bytes.ofString "token " ++ Bytes.decimal index ++ Bytes.ofString ": cannot encode " ++
      mark.name
  | .binNotFound name => Text.quoted name ++ Bytes.ofString ": shader bin not found"
  | .notRegularFile path => path ++ Bytes.ofString " is not a regular file"
  | .file operation path defect =>
    operation ++ Bytes.ofString " " ++ path ++ Bytes.ofString ": " ++ defect.message
  | .noMatchingIf directive => directive ++ Bytes.ofString ": directive without matching #if"
  | .missingEndif => Bytes.ofString "couldn't find #endif"
  | .elseAfterElse => Bytes.ofString "#else or #elif after #else"
  | .includeCycle name => Bytes.ofString "include cycle at " ++ Text.quoted name
  | .noResolver => Bytes.ofString "no include resolver"
  | .unspelledInclude id => Bytes.ofString "#include: no spelling for " ++ id.name
  | .includeDepth => Bytes.ofString "includes nested too deep"
  | .truncated => Bytes.ofString "truncated directive"
  | .badPass pass => Bytes.ofString "invalid pass " ++ Bytes.signedDecimal pass
  | .badSeedPass pass name =>
    Bytes.ofString "invalid pass " ++ Bytes.signedDecimal pass ++ Bytes.ofString " for " ++ name
  | .tooComplex => Bytes.ofString "conditional expression too complex"
  | .missingTerm index =>
    Bytes.ofString "malformed conditional expression: missing term at " ++ Bytes.decimal index
  | .unbalanced index =>
    Bytes.ofString "malformed conditional expression: unbalanced parenthesis at " ++
      Bytes.decimal index
  | .unspelled id index =>
    Bytes.ofString "no spelling for token " ++ id.name ++ Bytes.ofString " at " ++
      Bytes.decimal index
  | .badDefinition text =>
    Bytes.ofString "bad define " ++ Text.quoted text ++ Bytes.ofString ": missing name"

/-! ## 2. Errors -/

/-- A place an error passed on its way out. -/
inductive Place where
  /-- The bin or file of that name. -/
  | named (name : Bytes)
  /-- The token at `index` of a file; the input itself has the empty name. -/
  | token (file : Bytes) (index : Nat)
  /-- The insertion of a file. -/
  | inclusion (name : Bytes)
  /-- The value of a macro given from outside. -/
  | definition (name : Bytes)
  /-- A pass over an effect. -/
  | pass (effect : Bytes) (number : Nat)
  deriving DecidableEq, Repr

/-- The wording of a place. -/
def Place.message : Place → Bytes
  | .named name => name ++ Bytes.ofString ": "
  | .token file index =>
    (if file = [] then Bytes.ofString "<input>" else file) ++ Bytes.ofString ":" ++
      Bytes.decimal index ++ Bytes.ofString ": "
  | .inclusion name => Bytes.ofString "#include " ++ Text.quoted name ++ Bytes.ofString ": "
  | .definition name => Bytes.ofString "define " ++ name ++ Bytes.ofString ": "
  | .pass effect number =>
    effect ++ Bytes.ofString ": pass " ++ Bytes.decimal number ++ Bytes.ofString ": "

/-- A cause with the places it passed, the outermost first. -/
structure Error where
  places : List Place
  cause : Cause
  deriving DecidableEq, Repr

/-- The error of a cause where it arises. -/
def Error.ofCause (cause : Cause) : Error := ⟨[], cause⟩

/-- The error seen from outside `place`. -/
def Error.within (place : Place) (error : Error) : Error :=
  { error with places := place :: error.places }

/-- The wording of an error. -/
def Error.message (error : Error) : Bytes :=
  error.places.flatMap Place.message ++ error.cause.message

/-- A result whose error, if it is one, passes `place`. -/
def Error.atPlace {α : Type} (place : Place) : Except Error α → Except Error α
  | .ok a => .ok a
  | .error e => .error (e.within place)

/-- A result whose cause of failure, if it has one, becomes an error. -/
def Error.raise {α : Type} : Except Cause α → Except Error α
  | .ok a => .ok a
  | .error c => .error (Error.ofCause c)

end EffectScript
