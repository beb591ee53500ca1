import EffectScript.Script.Item

/-!
# Scripts

A script is a source text as token ids, together with the spellings of those that are no keywords.
Each item becomes a few ids: a word its own, an inclusion the directive and the id of the name, a
definition the directive, the id of the name, those of the body, and the mark of its end.

`Script.read` takes the items one by one and interns their spellings, so the first fault of the
text is the one reported, be it of an item or a collision of two spellings.
-/

namespace EffectScript

/-- A source text as token ids and their spellings. -/
structure Script where
  ids : List TokenId
  table : SpellingTable
  deriving DecidableEq, Repr

namespace Script

/-- The script as tokens, none of them hidden. -/
def tokens (s : Script) : List Token := s.ids.map .lit

/-- The id of a word, and the table that knows its spelling. -/
def internWord (table : SpellingTable) (w : Word) : Except Cause (TokenId × SpellingTable) :=
  match table.intern w.spelling with
  | .error e => .error e
  | .ok (id, table) => .ok (if w.late then id.deferred else id, table)

/-- The ids of some words, and the table that knows their spellings. -/
def internWords (table : SpellingTable) : List Word → Except Cause (List TokenId × SpellingTable)
  | [] => .ok ([], table)
  | w :: rest =>
    match internWord table w with
    | .error e => .error e
    | .ok (id, table) =>
      match internWords table rest with
      | .error e => .error e
      | .ok (ids, table) => .ok (id :: ids, table)

/-- The directive that defines a macro called `name`: a name that starts with a percent sign
belongs to the second pass. -/
def defineId (name : Bytes) : TokenId :=
  if name.head? = some 0x25 then TokenId.defineLate else TokenId.define

/-- The ids of an item, and the table that knows their spellings. -/
def internItem (table : SpellingTable) : Item → Except Cause (List TokenId × SpellingTable)
  | .word w =>
    match internWord table w with
    | .error e => .error e
    | .ok (id, table) => .ok ([id], table)
  | .inclusion name =>
    match table.intern name with
    | .error e => .error e
    | .ok (id, table) => .ok ([TokenId.includeFile, id], table)
  | .definition name body =>
    match table.intern name with
    | .error e => .error e
    | .ok (id, table) =>
      match internWords table body with
      | .error e => .error e
      | .ok (ids, table) => .ok (defineId name :: id :: ids ++ [TokenId.eol], table)

/-- The ids of the rest of a source of `total` bytes, after what gave `table`. -/
def readFrom (total : Nat) (text : Bytes) (table : SpellingTable) :
    Except Cause (List TokenId × SpellingTable) :=
  match _h : Item.next? total text with
  | .error e => .error e
  | .ok none => .ok ([], table)
  | .ok (some (item, rest)) =>
    match internItem table item with
    | .error e => .error e
    | .ok (ids, table) =>
      match readFrom total rest table with
      | .error e => .error e
      | .ok (more, table) => .ok (ids ++ more, table)
termination_by text.length
decreasing_by exact length_itemNext? _h

/-- The script of a source text.  Carriage returns are no part of the text. -/
def read (source : Bytes) : Except Cause Script :=
  let text := source.filter (· != 0x0D)
  match readFrom text.length text SpellingTable.empty with
  | .error e => .error e
  | .ok (ids, table) => .ok ⟨ids, table⟩

end Script

end EffectScript
