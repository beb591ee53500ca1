import EffectScript.Conditional.Branch
import EffectScript.Conditional.MacroTable
import EffectScript.Lexis.SpellingTable
import EffectScript.Text.Numeral

/-!
# The state of a pass

There are two passes.  The first decides the ordinary conditionals, with the runtime macros; the
second decides those on late flags, with the macros of the second pass.  A pass carries the macros
of both, the spellings met so far, the open conditionals, and what it has reported.  The files it
includes come from a *resolver*, which may keep a state of its own, of type `σ`.
-/

namespace EffectScript

/-! ## 1. Passes and their surroundings -/

/-- The passes over a script. -/
inductive Pass where
  | first
  | second
  deriving DecidableEq, Repr

/-- The pass with the given number. -/
def Pass.ofNumber? (number : Int) : Option Pass :=
  if number = 0 then some .first else if number = 1 then some .second else none

/-- The number of a pass. -/
def Pass.number : Pass → Nat
  | .first => 0
  | .second => 1

/-- A file to insert, as tokens with their spellings. -/
structure Included where
  tokens : List Token
  table : SpellingTable
  deriving DecidableEq, Repr

/-- What asking a resolver for a file gave. -/
structure Resolution (σ : Type) where
  answer : Except Error Included
  /-- The lines it reported. -/
  log : List Bytes
  /-- The resolver's state afterwards. -/
  source : σ

/-- A source of files by name. -/
structure Resolver (σ : Type) where
  resolve : Bytes → σ → Resolution σ
  /-- At least the number of its files that can lie inside each other. -/
  capacity : σ → Nat

/-- What a pass is given beside its input. -/
structure Surroundings (σ : Type) where
  /-- The macros of the platform; none without one. -/
  platform : MacroTable
  /-- The runtime variables. -/
  runtime : Bytes → Option Int
  resolver : Option (Resolver σ)

/-! ## 2. The state -/

/-- What a pass carries from token to token. -/
structure PassState (σ : Type) where
  /-- The macros of the first pass. -/
  early : MacroTable
  /-- The macros of the second pass. -/
  late : MacroTable
  table : SpellingTable
  /-- The open conditionals, the innermost first. -/
  branches : List Branch
  /-- The lines reported, in order. -/
  log : List Bytes
  /-- The texts registered with the environment, in order. -/
  env : List Bytes
  source : σ

namespace PassState

variable {σ : Type}

/-- The macros that a pass replaces in the text. -/
def current (pass : Pass) (s : PassState σ) : MacroTable :=
  match pass with
  | .first => s.early
  | .second => s.late

/-- The state in which the macros that a pass replaces are others. -/
def setCurrent (pass : Pass) (s : PassState σ) (macros : MacroTable) : PassState σ :=
  match pass with
  | .first => { s with early := macros }
  | .second => { s with late := macros }

/-- The tables that a condition consults.  The platform comes after the macros of the pass itself,
and in the first pass before those of the second. -/
def scope (around : Surroundings σ) (pass : Pass) (s : PassState σ) : Scope :=
  match pass with
  | .first => [s.early, around.platform, s.late]
  | .second => [s.late, around.platform]

/-- The state after reporting a line. -/
def report (s : PassState σ) (line : Bytes) : PassState σ := { s with log := s.log ++ [line] }

/-- The state after a warning. -/
def warn (s : PassState σ) (text : Bytes) : PassState σ :=
  s.report (Bytes.ofString "warning: " ++ text)

/-- The state after opening a conditional. -/
def push (s : PassState σ) (b : Branch) : PassState σ := { s with branches := b :: s.branches }

/-- The state in which the innermost conditional is another. -/
def setTop (s : PassState σ) (b : Branch) : PassState σ :=
  { s with branches := b :: s.branches.tail }

/-- The number that a body starts with, as condition bits; none when it does not start so. -/
def leadingMask (s : PassState σ) (body : List Token) : UInt64 :=
  match body with
  | [] => 0
  | t :: _ =>
    match s.table.spelling? t.id with
    | some text => (Numeral.unsigned? text).getD 0
    | none => 0

/-- Whether a runtime variable is set to a number other than zero, after a warning when there is no
such variable. -/
def testVariable (around : Surroundings σ) (s : PassState σ) (id : TokenId) :
    Bool × PassState σ :=
  let name := s.table.spellingOrName id
  match around.runtime name with
  | some v => (v != 0, s)
  | none => (false, s.warn (Bytes.ofString "couldn't find variable " ++ Text.quoted name))

end PassState

end EffectScript
