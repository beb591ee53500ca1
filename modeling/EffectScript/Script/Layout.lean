import EffectScript.Lexis.Lexeme
import EffectScript.Lexis.SpellingTable

/-!
# Tokens as text

Three ways to write tokens.  `layout` gives a source text again: words apart, braces and
semicolons with line breaks and two blanks of indentation a level.  `runText` puts the spellings
side by side, with a blank only between two words.  `dotted` is for diagnostics and shows the skip
marks too.

`layout` fails on an id without a spelling and then gives the text up to it.
-/

namespace EffectScript

/-! ## 1. Laid-out text -/

/-- Whether two texts that meet need a blank between them: the first does not end, and the second
does not start, with a delimiter.  `last` is the last byte of the first text. -/
def needsBlank (last : Option UInt8) (text : Bytes) : Bool :=
  match last, text.head? with
  | some a, some b => !Lexeme.isDelimiter a && !Lexeme.isDelimiter b
  | _, _ => false

/-- A new line at the given level. -/
def lineBreak (level : Nat) : Bytes := Lexeme.newline :: List.replicate (2 * level) 0x20

/-- The text of one token with all around it, and the level after it.  `next` is the id after it
and `last` the last byte before it. -/
def layoutToken (id : TokenId) (spelling : Bytes) (next : Option TokenId) (level : Nat)
    (last : Option UInt8) : Bytes × Nat :=
  if id = TokenId.leftBrace then
    let after := if next.isSome && next != some TokenId.rightBrace then lineBreak (level + 1)
      else []
    (lineBreak level ++ spelling ++ after, level + 1)
  else if id = TokenId.semicolon then
    let after := if next = some TokenId.rightBrace then lineBreak (level - 1) else lineBreak level
    (spelling ++ after, level)
  else
    let before := if needsBlank last spelling then [0x20] else []
    if id = TokenId.rightBrace then
      let after :=
        if next.isSome && next != some TokenId.semicolon then lineBreak (level - 1) else []
      (before ++ spelling ++ after, level - 1)
    else (before ++ spelling, level)

/-- The last byte after `text` is written behind a text that ends in `last`. -/
def lastByte (last : Option UInt8) (text : Bytes) : Option UInt8 := text.getLast?.or last

/-- The text of the ids from `index` on, and the cause if one of them has no spelling. -/
def layoutFrom (table : SpellingTable) (index level : Nat) (last : Option UInt8) :
    List TokenId → Bytes × Option Cause
  | [] => ([], none)
  | id :: rest =>
    if id = TokenId.eol then
      let (text, cause) := layoutFrom table (index + 1) level (some Lexeme.newline) rest
      (Lexeme.newline :: text, cause)
    else
      match table.spelling? id with
      | none => ([], some (.unspelled id index))
      | some [] => ([], some (.unspelled id index))
      | some spelling =>
        let (here, level) := layoutToken id spelling rest.head? level last
        let (text, cause) := layoutFrom table (index + 1) level (lastByte last here) rest
        (here ++ text, cause)

/-- The source text of some ids, and the cause if it could not be written to its end. -/
def layout (table : SpellingTable) (ids : List TokenId) : Bytes × Option Cause :=
  layoutFrom table 0 0 none ids

/-- The source text of some tokens: of all of them, or only of the visible ones. -/
def sourceText (table : SpellingTable) (withHidden : Bool) (tokens : List Token) :
    Bytes × Option Cause :=
  layout table (if withHidden then unmarked tokens else visible tokens)

/-! ## 2. Text on one line -/

/-- The spellings of some ids side by side, after a text that ends in `last`. -/
def runTextFrom (table : SpellingTable) (last : Option UInt8) : List TokenId → Bytes
  | [] => []
  | id :: rest =>
    let spelling := table.spellingOrName id
    let here := if needsBlank last spelling then 0x20 :: spelling else spelling
    here ++ runTextFrom table (lastByte last here) rest

/-- The spellings of some ids side by side, with a blank between two words. -/
def runText (table : SpellingTable) (ids : List TokenId) : Bytes := runTextFrom table none ids

/-- A token in a dotted text: its spelling, a line break for the end of a definition, and the name
of a mark. -/
def dottedToken (table : SpellingTable) : Token → Bytes
  | .lit id => if id = TokenId.eol then [Lexeme.newline] else table.spellingOrName id
  | mark => mark.name

/-- The text `soFar`, the next one, and a dot between them unless nothing came before. -/
def addDotted (soFar text : Bytes) : Bytes :=
  if soFar = [] then text else soFar ++ 0x2E :: text

/-- The tokens with dots between them, marks included or only the visible ones. -/
def dotted (table : SpellingTable) (withHidden : Bool) (tokens : List Token) : Bytes :=
  let shown := if withHidden then tokens else (visible tokens).map .lit
  (shown.map (dottedToken table)).foldl addDotted []

end EffectScript
