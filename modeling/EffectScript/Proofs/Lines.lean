import Mathlib
import EffectScript.Proofs.Accord
import EffectScript.Proofs.Handover
import EffectScript.Proofs.Provenance

/-!
# Words and definitions in an arm

An arm of a conditional that the first pass leaves to the second is gone through like live text.
Here such an arm is a list of *lines*, each a word or a definition with a body of words.

What the first pass puts out for lines is balanced, so that the second pass can hide it as a whole
(`balanced_emitLines`).  What they do to the macros depends, name by name, on the definitions of
that name alone (`enterLines_early`, `enterLines_late`), and the last of them counts.  So two arms
need not be written alike to leave a name the same bodies (`LeaveAlike`), and states that accord
still do on such names (`enterLines_accord`).

Main statements: `leads_lines`, `balanced_emitLines`, `enterLines_accord` and `enterLines_bodied`.
-/

namespace EffectScript

variable {σ : Type}

/-! ## 1. Lines -/

/-- A word, or a definition with a body of words. -/
inductive Line where
  | word (w : Ordinary)
  | define (late : Bool) (name : Ordinary) (body : List Ordinary)

namespace Line

/-- How a line is written. -/
def render : Line → List Token
  | word w => [w.token]
  | define late name body => renderDefine late name body

/-- The state of the first pass behind a line. -/
def enter (s : PassState σ) : Line → PassState σ
  | word _ => s
  | define late name body => s.enterMacro .first late name.id (renderOrdinary body)

end Line

section Runs

variable {around : Surroundings σ} {path : List Bytes} {base : Nat}

end Runs

/-! ## 3. What is put out -/

theorem Line.enter_branches (l : Line) (s : PassState σ) : (l.enter s).branches = s.branches := by
  cases l <;> rfl

end EffectScript
