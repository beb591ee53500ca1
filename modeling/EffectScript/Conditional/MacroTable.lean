import EffectScript.Script.Token

/-!
# Macro tables

A macro is a list of replacement tokens, together with the condition bits that its definition
depended on.  A table holds at most one definition an id: defining an id again replaces the old
one.  A *scope* is a list of tables; an id means what the first table that knows it says.
-/

namespace EffectScript

/-- The meaning of a macro.  A macro without tokens is defined, but has no value. -/
structure Definition where
  tokens : List Token
  /-- The condition bits the definition depended on. -/
  mask : UInt64
  deriving DecidableEq, Repr

/-- One namespace of macros. -/
structure MacroTable where
  entries : List (TokenId × Definition)
  deriving DecidableEq, Repr

namespace MacroTable

/-- The table without macros. -/
def empty : MacroTable := ⟨[]⟩

/-- The definition of an id. -/
def lookup? (t : MacroTable) (id : TokenId) : Option Definition := t.entries.lookup id

/-- The table without the macro `id`. -/
def erase (t : MacroTable) (id : TokenId) : MacroTable := ⟨t.entries.filter (·.1 != id)⟩

/-- The table in which `id` means `definition`. -/
def define (t : MacroTable) (id : TokenId) (definition : Definition) : MacroTable :=
  ⟨(id, definition) :: (t.erase id).entries⟩

/-- Whether the table has a definition of an id. -/
def defines (t : MacroTable) (id : TokenId) : Bool := (t.lookup? id).isSome

/-- The number of macros. -/
def size (t : MacroTable) : Nat := t.entries.length

end MacroTable

/-- Macro tables in the order in which they are asked. -/
abbrev Scope := List MacroTable

namespace Scope

/-- The first definition of an id along a scope. -/
def lookup? (scope : Scope) (id : TokenId) : Option Definition :=
  scope.findSome? (·.lookup? id)

/-- The condition bits that asking for an id brings in: those of the definition found, if any. -/
def maskOf (scope : Scope) (id : TokenId) : UInt64 :=
  match lookup? scope id with
  | some d => d.mask
  | none => 0

end Scope

end EffectScript
