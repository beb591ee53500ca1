import EffectScript.Error

/-!
# Spelling tables

A hashed id does not give its spelling back, so every script carries a table of the spellings of
its ids.  A table is a list of entries that all operations of this module keep in ascending order
of ids, one entry an id.  Nothing forces that order on a table that comes from outside: looking an
id up is a bisection, which on a list out of order finds what it happens to meet.

Inserting refuses a second spelling of an id (`Cause.hashCollision`).  Merging does not: of two
entries with one id the one of the second table stays.
-/

namespace EffectScript

/-- A spelling and its id. -/
structure SpellingEntry where
  id : TokenId
  spelling : Bytes
  deriving DecidableEq, Repr

/-- The spellings of a script. -/
structure SpellingTable where
  entries : List SpellingEntry
  deriving DecidableEq, Repr

/-- The least index from `low` up to `high` at which `p` holds, `high` when there is none, for a
`p` that once true stays true: the interval is halved until nothing is left of it. -/
def bisect (p : Nat → Bool) (low high : Nat) : Nat :=
  if low < high then
    let middle := (low + high) / 2
    if p middle then bisect p low middle else bisect p (middle + 1) high
  else low
termination_by high - low

namespace SpellingTable

/-- The table without entries. -/
def empty : SpellingTable := ⟨[]⟩

/-- The index at which an entry for `id` is, or would have to be inserted. -/
def position (table : SpellingTable) (id : TokenId) : Nat :=
  bisect (fun i => match table.entries[i]? with
    | some e => decide (id ≤ e.id)
    | none => true) 0 table.entries.length

/-- The entry of an id. -/
def find? (table : SpellingTable) (id : TokenId) : Option SpellingEntry :=
  match table.entries[table.position id]? with
  | some e => if e.id = id then some e else none
  | none => none

/-- The spelling that the table has for an id. -/
def lookup? (table : SpellingTable) (id : TokenId) : Option Bytes :=
  (table.find? id).map (·.spelling)

/-- The table with `spelling` for `id`.  The same spelling twice changes nothing; another one for
the same id is a collision. -/
def insert (table : SpellingTable) (id : TokenId) (spelling : Bytes) :
    Except Cause SpellingTable :=
  match table.find? id with
  | some e =>
    if e.spelling = spelling then .ok table else .error (.hashCollision e.spelling spelling id)
  | none =>
    let i := table.position id
    .ok ⟨table.entries.take i ++ ⟨id, spelling⟩ :: table.entries.drop i⟩

/-- The id of a spelling, and the table that knows it.  Keywords need no entry. -/
def intern (table : SpellingTable) (spelling : Bytes) : Except Cause (TokenId × SpellingTable) :=
  match Vocabulary.find? spelling with
  | some id => .ok (id, table)
  | none =>
    let id := TokenId.hash spelling
    (table.insert id spelling).map (id, ·)

/-- Whether the ids of a list of entries ascend strictly. -/
def ascending : List SpellingEntry → Bool
  | [] => true
  | [_] => true
  | a :: b :: rest => a.id < b.id && ascending (b :: rest)

/-- Whether the table is in the order that its operations keep. -/
def isSorted (table : SpellingTable) : Bool := ascending table.entries

/-- The entries less those that follow another one with the same id. -/
def collapse : List SpellingEntry → List SpellingEntry
  | [] => []
  | [e] => [e]
  | a :: b :: rest => if a.id = b.id then collapse (a :: rest) else a :: collapse (b :: rest)

/-- The union of two tables.  For an id of both, the entry of the second comes first and stays. -/
def merge (first second : SpellingTable) : SpellingTable :=
  ⟨collapse (first.entries.merge second.entries fun a b => a.id < b.id)⟩

end SpellingTable

/-- The spelling of an id: a keyword by itself, a hashed id by the table. -/
def SpellingTable.spelling? (table : SpellingTable) (id : TokenId) : Option Bytes :=
  if id.isReserved then id.keyword? else table.lookup? id

/-- The spelling of an id, or how messages show an id without one. -/
def SpellingTable.spellingOrName (table : SpellingTable) (id : TokenId) : Bytes :=
  (table.spelling? id).getD id.name

end EffectScript
