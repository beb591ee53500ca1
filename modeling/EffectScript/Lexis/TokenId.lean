import EffectScript.Text.Crc32

/-!
# Token ids

A token id is a 32-bit word.  The words below `firstHashed` are reserved: `0` ends the body of a
macro definition and the next ones are the keywords.  Every other spelling has the CRC-32 of its
bytes as its id, moved out of the reserved words when it falls among them.

Section 1 names the reserved ids that the rest of the library asks for, section 2 sorts the ids of
directives by what they ask of a preprocessor, section 3 has the hash.
-/

namespace EffectScript

/-- The identity of a lexical unit. -/
abbrev TokenId := UInt32

namespace TokenId

/-! ## 1. Reserved ids -/

/-- The end of the body of a macro definition. -/
def eol : TokenId := 0
/-- The directive that names a file to insert. -/
def includeFile : TokenId := 1
/-- The directive that defines a macro. -/
def define : TokenId := 2
/-- The directive that defines a macro of the second pass. -/
def defineLate : TokenId := 4
def ifTest : TokenId := 6
def ifdef : TokenId := 7
def ifndef : TokenId := 8
def ifLate : TokenId := 9
def ifdefLate : TokenId := 10
def ifndefLate : TokenId := 11
def elseBranch : TokenId := 13
def endif : TokenId := 12
def elifTest : TokenId := 14
def warning : TokenId := 15
def registerEnv : TokenId := 16
/-- The last of the directives. -/
def elifVar : TokenId := 19
def orSign : TokenId := 20
def andSign : TokenId := 21
def leftParen : TokenId := 22
def rightParen : TokenId := 23
def leftBracket : TokenId := 24
def rightBracket : TokenId := 25
def leftBrace : TokenId := 26
def rightBrace : TokenId := 27
def less : TokenId := 28
def greater : TokenId := 29
def colon : TokenId := 32
def semicolon : TokenId := 33
def notSign : TokenId := 34
def quote : TokenId := 35
def singleQuote : TokenId := 36
def equals : TokenId := 39
def zero : TokenId := 44
def one : TokenId := 45
def yes : TokenId := 46
def no : TokenId := 47
def constant : TokenId := 48
def static : TokenId := 49
def shared : TokenId := 50
def groupshared : TokenId := 51

/-- The least id that a hash may be. -/
def firstHashed : TokenId := 0x400

/-- Whether an id is reserved, so that no spelling hashes to it. -/
def isReserved (id : TokenId) : Bool := id < firstHashed

/-! ## 2. Directives -/

/-- Whether an id is one of the directives. -/
def isDirective (id : TokenId) : Bool := includeFile ≤ id && id ≤ elifVar

end TokenId

/-- What a directive asks of a preprocessor. -/
inductive Directive where
  /-- Insert a file. -/
  | includeFile
  /-- Define a macro; a late one belongs to the second pass. -/
  | define (late : Bool)
  /-- Forget a macro. -/
  | undefine
  /-- Open a conditional on an expression; a late one is for the second pass to decide. -/
  | ifTest (negated late : Bool)
  /-- Open a conditional on a runtime variable. -/
  | ifVar (negated : Bool)
  /-- Go on with an expression when no branch was taken. -/
  | elifTest
  /-- Go on with a runtime variable when no branch was taken. -/
  | elifVar
  /-- Go on without a condition. -/
  | elseBranch
  /-- Close a conditional. -/
  | endif
  /-- Report a text. -/
  | warning
  /-- Hand a text to the environment. -/
  | registerEnv
  deriving DecidableEq, Repr

/-- The directive with the given id.  The second way of opening a conditional, by the existence
of a macro, asks for the same as the first: a macro holds exactly when it exists. -/
def Directive.ofId? (id : TokenId) : Option Directive :=
  match id with
  | 1 => some .includeFile
  | 2 => some (.define false)
  | 3 => some .undefine
  | 4 => some (.define true)
  | 6 => some (.ifTest false false)
  | 7 => some (.ifTest false false)
  | 8 => some (.ifTest true false)
  | 9 => some (.ifTest false true)
  | 10 => some (.ifTest false true)
  | 11 => some (.ifTest true true)
  | 12 => some .endif
  | 13 => some .elseBranch
  | 14 => some .elifTest
  | 15 => some .warning
  | 16 => some .registerEnv
  | 17 => some (.ifVar false)
  | 18 => some (.ifVar true)
  | 19 => some .elifVar
  | _ => none

/-- Whether a directive opens a conditional. -/
def Directive.opens : Directive → Bool
  | .ifTest _ _ => true
  | .ifVar _ => true
  | _ => false

/-- Whether a directive starts another branch of the innermost conditional. -/
def Directive.divides : Directive → Bool
  | .elifTest => true
  | .elifVar => true
  | .elseBranch => true
  | _ => false

/-- The form of a conditional that leaves the decision to the second pass. -/
def TokenId.deferred (id : TokenId) : TokenId :=
  if id = ifTest then ifLate
  else if id = ifdef then ifdefLate
  else if id = ifndef then ifndefLate
  else id

/-- Whether an id opens a conditional on an expression that the first pass decides. -/
def TokenId.isEarlyTest (id : TokenId) : Bool := id = ifTest || id = ifdef || id = ifndef

/-! ## 3. Hashed ids -/

/-- The id of a spelling that is no keyword. -/
def TokenId.hash (spelling : Bytes) : TokenId :=
  let h := Crc32.checksum spelling
  if h < firstHashed then h ||| 0x80000000 else h

end EffectScript
