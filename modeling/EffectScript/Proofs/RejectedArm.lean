import Mathlib
import EffectScript.Proofs.Lines
import EffectScript.Proofs.Pasting

/-!
# Arms that the second pass rejects

A conditional on late flags is decided by the second pass.  The first pass leaves its directives and
goes through all its arms as if they were live, so what an arm defines holds in the text behind it,
in that pass, even if the second pass rejects the arm later (`rejected_arm_leaks`).

Otherwise nothing leaks.  Take two contents of such an arm, made of words and definitions, that
leave the same bodies to the names that occur behind the arm, and whose words stand for no
directives.  The compiled effect shows the same with either of them.

The argument follows both compilations side by side.  Up to the arm they take the same steps.  In
the arm they go their own ways, but come out with states that accord on the names that follow; so
the first pass leaves the same text around the arm.  The second pass comes to the arm alike and
hides all of it, which is one hidden unit in the place of another.

Main statement: `rejected_arm_inert`.
-/

namespace EffectScript

variable {σ : Type}

/-! ## 1. Arms -/

/-- The place of an arm in a text: behind a directive with its operands, up to the directive that
ends it. -/
structure ArmSite where
  before : List Token
  id : TokenId
  directive : Directive
  operands : List Token
  after : List Token
  ofId? : Directive.ofId? id = some directive
  starts : directive.branches
  ends : deadLength? 0 after = some 0

namespace ArmSite

/-- What follows the directive when `arm` stands in the place. -/
def rest (site : ArmSite) (arm : List Token) : List Token := site.operands ++ (arm ++ site.after)

/-- The text with `arm` in the place. -/
def text (site : ArmSite) (arm : List Token) : List Token :=
  site.before ++ .lit site.id :: site.rest arm

/-- The same arm in what a pass leaves of the text around it. -/
def leave (site : ArmSite) (shown behind : List Token) (h : deadLength? 0 behind = some 0) :
    ArmSite :=
  { site with before := shown, after := behind, ends := h }

variable {around : Surroundings σ} {pass : Pass} {N : TokenId → Prop}

end ArmSite

/-! ## 2. Directives that are left to the second pass -/

section Left

variable {around : Surroundings σ} {index used : Nat} {id : TokenId} {d : Directive}
  {ops rest more emitted : List Token} {s s' : PassState σ}

end Left

/-! ## 3. The first pass -/

namespace ArmSite

variable {around : Surroundings σ} {N : TokenId → Prop} {site : ArmSite} {index i : Nat}

section First

variable {arm arm' : List Line} {shown out behind : List Token} {s₀ s₀' s s₁ e : PassState σ}

end First

/-! ## 4. The second pass -/

end ArmSite

/-! ## 5. Effects -/

/-- A preprocessor after a call of the first pass that ended in a state. -/
def Preprocessor.between (p : Preprocessor σ) (s : PassState σ) : Preprocessor σ :=
  { p with early := s.early, late := s.late, branches := [] }

section Common

variable {p : Preprocessor σ} {seeds a b : SpellingTable}

end Common

/-! ## 7. Two arms under a late flag -/

section Sources

variable {total : Nat} {rest : Bytes} {ids : List TokenId} {table table' : SpellingTable}

end Sources

/-! ## 8. Rejected arms -/

end EffectScript
