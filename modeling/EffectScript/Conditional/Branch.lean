import EffectScript.Script.Token

/-!
# Open conditionals

A conditional that has been opened and not yet closed is a *branch record* on a stack, the
innermost first.  It knows whether one of its branches was taken, whether an `#else` has shut it,
and where it was opened.  A *deferred* conditional belongs to the other pass: its directives are
passed through as they are.

A branch that does not hold is dead text up to the next directive of the same level that divides
or ends the conditional; `deadLength?` measures it.
-/

namespace EffectScript

/-- A conditional that is open. -/
structure Branch where
  /-- Whether the conditional is for the other pass to decide. -/
  deferred : Bool
  /-- Whether one of its branches was taken. -/
  taken : Bool
  /-- Whether an `#else` came after a branch that was taken, so that nothing may follow it. -/
  closed : Bool
  /-- The condition bits of the branch. -/
  mask : UInt64
  /-- The index of the token that opened it. -/
  start : Nat
  deriving DecidableEq, Repr

/-- The condition bits of all open conditionals together. -/
def Branch.maskAll (branches : List Branch) : UInt64 :=
  branches.foldr (fun b mask => b.mask ||| mask) 0

/-- The outermost conditional above the `base` outer ones, when there is one. -/
def Branch.outermostAbove? (base : Nat) (branches : List Branch) : Option Branch :=
  (branches.take (branches.length - base)).getLast?

/-- The `base` outer conditionals. -/
def Branch.outer (base : Nat) (branches : List Branch) : List Branch :=
  branches.drop (branches.length - base)

/-- The number of tokens before the directive that ends the dead text at the start of a list,
inside `level` conditionals that were opened in it; nothing when the list ends first.  Hidden
units are passed over. -/
def deadLength? (level : Nat) (tokens : List Token) : Option Nat :=
  match tokens with
  | [] => none
  | .lit id :: rest =>
    match Directive.ofId? id with
    | some d =>
      if d.opens then (deadLength? (level + 1) rest).map (· + 1)
      else if d = .endif then
        match level with
        | 0 => some 0
        | level + 1 => (deadLength? level rest).map (· + 1)
      else if d.divides && level = 0 then some 0
      else (deadLength? level rest).map (· + 1)
    | none => (deadLength? level rest).map (· + 1)
  | mark :: rest =>
    let hidden := hiddenLength (mark :: rest)
    (deadLength? level (rest.drop (hidden - 1))).map (· + hidden)
termination_by tokens.length
decreasing_by
  all_goals
    simp only [List.length_cons, List.length_drop]
    omega

end EffectScript
