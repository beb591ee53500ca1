import EffectScript.Conditional.MacroTable
import EffectScript.Error

/-!
# Conditional expressions

The condition of `#if` and its kin is a sequence of terms with `|` or `&`, single or double,
between them.  A term is an id or a group in parentheses, after `!` its negation.  An id holds
when the scope defines it, whatever its value, and the id of `1` always holds.  Terms are joined
strictly from left to right: neither sign binds tighter.

An expression ends where no sign follows a term, and what comes after it is no concern of its
value.  A level has at most `maxTerms` terms, and at most `maxTerms` levels lie inside each other.

Every answer, also a failing one, comes with the condition bits of the macros that were consulted
and with the place at which reading stopped.
-/

namespace EffectScript

/-- The most terms of a level, and the most levels of an expression. -/
def maxTerms : Nat := 64

/-- What reading an expression, or a part of one, gave. -/
structure Verdict where
  value : Except Cause Bool
  /-- The condition bits of the macros consulted. -/
  mask : UInt64
  /-- The index at which reading stopped. -/
  stop : Nat
  /-- The tokens from there on. -/
  rest : List Token
  deriving Repr

/-- How a term is joined to those before it. -/
inductive Joint where
  /-- There are none. -/
  | first
  | or
  | and
  deriving DecidableEq, Repr

/-- The value of the terms so far and one more. -/
def Joint.combine : Joint → Bool → Bool → Bool
  | .first, _, v => v
  | .or, acc, v => acc || v
  | .and, acc, v => acc && v

/-- The sign between two terms, how many tokens it takes, and the tokens after it. -/
def joint? : List Token → Option (Joint × Nat × List Token)
  | .lit a :: rest =>
    let doubled := rest.head? == some (.lit a)
    if a = TokenId.orSign || a = TokenId.andSign then
      let joint := if a = TokenId.orSign then Joint.or else Joint.and
      if doubled then some (joint, 2, rest.tail) else some (joint, 1, rest)
    else none
  | _ => none

/-- The term without a negation that starts the tokens.  `group` reads what is inside a
parenthesis. -/
def evalOperand (scope : Scope) (group : Nat → List Token → Verdict) (index : Nat)
    (tokens : List Token) : Verdict :=
  match tokens with
  | .lit id :: rest =>
    if id = TokenId.rightParen || id = TokenId.eol then
      ⟨.error (.missingTerm index), 0, index, tokens⟩
    else if id = TokenId.leftParen then
      let inner := group (index + 1) rest
      match inner.value with
      | .error c => ⟨.error c, inner.mask, inner.stop, inner.rest⟩
      | .ok v =>
        if inner.rest.head? = some (.lit TokenId.rightParen) then
          ⟨.ok v, inner.mask, inner.stop + 1, inner.rest.tail⟩
        else ⟨.error (.unbalanced index), inner.mask, inner.stop, inner.rest⟩
    else
      ⟨.ok ((scope.lookup? id).isSome || id = TokenId.one), scope.maskOf id, index + 1, rest⟩
  | _ => ⟨.error (.missingTerm index), 0, index, tokens⟩

/-- The term that starts the tokens. -/
def evalTerm (scope : Scope) (group : Nat → List Token → Verdict) (index : Nat)
    (tokens : List Token) : Verdict :=
  if tokens.head? = some (.lit TokenId.notSign) then
    let operand := evalOperand scope group (index + 1) tokens.tail
    { operand with value := operand.value.map (!·) }
  else evalOperand scope group index tokens

/-- The terms from here to the end of their level, of which `left` more are allowed: the next one
is joined by `joint` to those before it, whose value is `acc` and whose condition bits are
`mask`. -/
def evalTerms (scope : Scope) (group : Nat → List Token → Verdict) :
    (left : Nat) → (joint : Joint) → (acc : Bool) → (mask : UInt64) → (index : Nat) →
      List Token → Verdict
  | 0, _, _, mask, index, tokens => ⟨.error .tooComplex, mask, index, tokens⟩
  | left + 1, joint, acc, mask, index, tokens =>
    let term := evalTerm scope group index tokens
    let mask := mask ||| term.mask
    match term.value with
    | .error c => ⟨.error c, mask, term.stop, term.rest⟩
    | .ok v =>
      let acc := joint.combine acc v
      match joint? term.rest with
      | some (joint, used, rest) =>
        evalTerms scope group left joint acc mask (term.stop + used) rest
      | none => ⟨.ok acc, mask, term.stop, term.rest⟩

/-- The expression that starts the tokens, when `levels` of them may lie inside each other. -/
def evalLevel (scope : Scope) : (levels : Nat) → (index : Nat) → List Token → Verdict
  | 0, index, tokens => ⟨.error .tooComplex, 0, index, tokens⟩
  | levels + 1, index, tokens =>
    evalTerms scope (evalLevel scope levels) maxTerms .first false 0 index tokens

/-- The expression that starts the tokens, the first of which has the given index. -/
def evaluate (scope : Scope) (index : Nat) (tokens : List Token) : Verdict :=
  evalLevel scope maxTerms index tokens

end EffectScript
