import EffectScript.Lexis.Vocabulary

/-!
# Tokens and hidden tokens

A script in memory is a flat list of tokens.  Preprocessing deletes nothing: what it consumes or
disables stays in the list, hidden by *skip marks*.  `skipOne` hides the token after it, and
`skipOpen … skipClose` hide all between them; such regions nest.  These are the four kinds of token
of section 3 of the specification (`Literal`, `SkipOne`, `SkipBegin` and `SkipEnd`), and there are
no others: `kindName` has a name for every code, but no token has another code than these.

A *unit* is a shortest hidden stretch of the list, marks included.  `hiddenLength` measures the
unit at the start of a list and is `0` exactly when the list starts with a visible token.  Section
2 has the two views of a list: its visible tokens, and all its tokens less the marks.
-/

namespace EffectScript

/-! ## 1. The type -/

/-- A token of a script: a literal one, or a skip mark. -/
inductive Token where
  /-- The lexical unit `id`. -/
  | lit (id : TokenId)
  /-- Hides the token that follows. -/
  | skipOne
  /-- Opens a hidden region. -/
  | skipOpen
  /-- Closes a hidden region. -/
  | skipClose
  deriving DecidableEq, Repr, Inhabited

namespace Token

/-- The id of a token; a mark has that of the end of a definition. -/
def id : Token → TokenId
  | lit i => i
  | _ => TokenId.eol

/-- Whether a token is a literal one. -/
def isLit : Token → Bool
  | lit _ => true
  | _ => false

/-- The names of the kinds of token, in the order of their codes. -/
def kindNames : List String := ["literal", "#skip", "#skip_(", "#skip_)"]

/-- The code of the kind of a token. -/
def kindCode : Token → Nat
  | lit _ => 0
  | skipOne => 1
  | skipOpen => 2
  | skipClose => 3

/-- The name of the kind of token with the given code. -/
def kindName (code : Nat) : Bytes :=
  match kindNames[code]? with
  | some name => Bytes.ofString name
  | none => Bytes.ofString "Kind(" ++ Bytes.decimal code ++ Bytes.ofString ")"

/-- How messages show a token. -/
def name : Token → Bytes
  | lit i => i.name
  | t => kindName t.kindCode

end Token

/-! ## 2. Hidden units and the two views -/

/-- The length of the part of the list that belongs to the open region, of which `depth + 1`
levels are still open; all of the list when it never closes. -/
def regionLength : Nat → List Token → Nat
  | _, [] => 0
  | depth, .lit _ :: rest => regionLength depth rest + 1
  | _, [.skipOne] => 1
  | depth, .skipOne :: _ :: rest => regionLength depth rest + 2
  | depth, .skipOpen :: rest => regionLength (depth + 1) rest + 1
  | 0, .skipClose :: _ => 1
  | depth + 1, .skipClose :: rest => regionLength depth rest + 1

/-- The length of the hidden unit at the start of a list, `0` when the first token is visible or
there is none.  A closing mark without its opening one is a unit by itself. -/
def hiddenLength : List Token → Nat
  | [] => 0
  | .lit _ :: _ => 0
  | [.skipOne] => 1
  | .skipOne :: _ :: _ => 2
  | .skipOpen :: rest => regionLength 0 rest + 1
  | .skipClose :: _ => 1

/-- The ids of the visible tokens. -/
def visible : List Token → List TokenId
  | [] => []
  | .lit id :: rest => id :: visible rest
  | mark :: rest => visible (rest.drop (hiddenLength (mark :: rest) - 1))
termination_by tokens => tokens.length
decreasing_by
  all_goals
    simp only [List.length_cons, List.length_drop]
    omega

/-- The ids of all literal tokens, hidden or not. -/
def unmarked (tokens : List Token) : List TokenId :=
  tokens.filterMap fun
    | .lit id => some id
    | _ => none

/-- The tokens behind skip marks: nothing for no token, the short form for one literal token, and
a region for all else. -/
def hide : List Token → List Token
  | [] => []
  | [.lit id] => [.skipOne, .lit id]
  | tokens => .skipOpen :: tokens ++ [.skipClose]

end EffectScript
