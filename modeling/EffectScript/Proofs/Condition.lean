import EffectScript.Conditional.Expression

/-!
# Conditions as trees

The evaluator of `Conditional/Expression` reads a flat list and has no tree.  This module gives the
trees: a *condition* is a level of terms with signs between them, and a term is an operand or a
condition in parentheses, negated or not.  A tree also says of every sign whether it is written
once or twice, so that `render` gives every way of writing an expression.

The meaning of a tree does not mention reading.  Its value joins the terms strictly from left to
right (`Condition.join`), and its condition bits are those of all its operands, whatever the value
(`Scope.maskOfAll`).

Main statement: `evaluate_condition`.  In front of any text that does not go on with a sign, the
evaluator gives the meaning of the tree and stops exactly behind it when no level has more than
`maxTerms` terms and fewer than `maxTerms` parentheses lie inside each other; a tree beyond one of
these bounds is refused as too complex.

The induction is over the tree, with the text behind it, the terms read before it and the room
that is left for more terms and for more levels all arbitrary.
-/

namespace EffectScript

/-! ## 1. Trees and how they are written -/

/-- Whether an id has a meaning of its own in an expression, so that it cannot be an operand. -/
def TokenId.isExpressionSign (id : TokenId) : Bool :=
  id = orSign || id = andSign || id = notSign || id = leftParen || id = rightParen || id = eol

/-- A token that an expression may ask for. -/
structure Operand where
  id : TokenId
  plain : id.isExpressionSign = false

/-- What joins two terms. -/
inductive Sign where
  | or
  | and
  deriving DecidableEq, Repr

mutual

/-- A level of an expression: terms with signs between them. -/
inductive Condition where
  | last (t : Term)
  | more (t : Term) (sign : Sign) (doubled : Bool) (rest : Condition)

/-- A term of a level. -/
inductive Term where
  | operand (negated : Bool) (o : Operand)
  | group (negated : Bool) (inner : Condition)

end

namespace Sign

/-- The id of a sign. -/
def id : Sign → TokenId
  | or => TokenId.orSign
  | and => TokenId.andSign

/-- How a sign is written. -/
def render (sign : Sign) (doubled : Bool) : List Token :=
  if doubled then [.lit sign.id, .lit sign.id] else [.lit sign.id]

/-- What a sign makes of the value before it and the value behind it. -/
def apply : Sign → Bool → Bool → Bool
  | or, a, b => a || b
  | and, a, b => a && b

/-- The sign as the evaluator names it. -/
def joint : Sign → Joint
  | or => .or
  | and => .and

end Sign

/-- The sign of a negation, where there is one. -/
def renderNegation (negated : Bool) : List Token :=
  if negated then [.lit TokenId.notSign] else []

mutual

/-- How a condition is written. -/
def Condition.render : Condition → List Token
  | .last t => t.render
  | .more t sign doubled rest => t.render ++ sign.render doubled ++ rest.render

/-- How a term is written. -/
def Term.render : Term → List Token
  | .operand negated o => renderNegation negated ++ [.lit o.id]
  | .group negated inner =>
    renderNegation negated ++ [.lit TokenId.leftParen] ++ inner.render ++ [.lit TokenId.rightParen]

end

/-! ## 2. What a tree means -/

mutual

/-- The value of a level, when `before v` is the value of the terms before it and a next term of
value `v`. -/
def Condition.join (defines : TokenId → Bool) (before : Bool → Bool) : Condition → Bool
  | .last t => before (t.holds defines)
  | .more t sign _ rest => rest.join defines (sign.apply (before (t.holds defines)))

/-- Whether a term holds.  A negation is that of its own term only. -/
def Term.holds (defines : TokenId → Bool) : Term → Bool
  | .operand negated o => xor negated (defines o.id || o.id = TokenId.one)
  | .group negated inner => xor negated (inner.join defines id)

end

/-- Whether a condition holds, where `defines` says which names are defined. -/
def Condition.holds (defines : TokenId → Bool) (c : Condition) : Bool := c.join defines id

mutual

/-- The operands of a condition, those of inner groups too. -/
def Condition.operands : Condition → List TokenId
  | .last t => t.operands
  | .more t _ _ rest => t.operands ++ rest.operands

/-- The operands of a term. -/
def Term.operands : Term → List TokenId
  | .operand _ o => [o.id]
  | .group _ inner => inner.operands

end

/-- The number of terms of a level, groups counted once. -/
def Condition.length : Condition → Nat
  | .last _ => 1
  | .more _ _ _ rest => rest.length + 1

mutual

/-- The greatest number of terms of a level inside a group of a condition. -/
def Condition.widestGroup : Condition → Nat
  | .last t => t.widest
  | .more t _ _ rest => max t.widest rest.widestGroup

/-- The greatest number of terms of a level inside a term. -/
def Term.widest : Term → Nat
  | .operand _ _ => 0
  | .group _ inner => max inner.length inner.widestGroup

end

/-- The greatest number of terms of a level. -/
def Condition.widest (c : Condition) : Nat := max c.length c.widestGroup

mutual

/-- How deep parentheses lie inside each other. -/
def Condition.nesting : Condition → Nat
  | .last t => t.nesting
  | .more t _ _ rest => max t.nesting rest.nesting

/-- How deep parentheses lie inside each other in a term, its own counted. -/
def Term.nesting : Term → Nat
  | .operand _ _ => 0
  | .group _ inner => inner.nesting + 1

end

/-- A condition that the evaluator has room for. -/
def Condition.Fits (c : Condition) : Prop := c.widest ≤ maxTerms ∧ c.nesting < maxTerms

instance (c : Condition) : Decidable c.Fits :=
  inferInstanceAs (Decidable (c.widest ≤ maxTerms ∧ c.nesting < maxTerms))

namespace Scope

/-- Whether some table of a scope defines an id. -/
def defines (scope : Scope) (id : TokenId) : Bool := scope.any (·.defines id)

/-- The condition bits that asking for some ids brings in. -/
def maskOfAll (scope : Scope) (ids : List TokenId) : UInt64 :=
  ids.foldr (fun id mask => scope.maskOf id ||| mask) 0

theorem lookup?_isSome (scope : Scope) (id : TokenId) :
    (scope.lookup? id).isSome = scope.defines id := by
  rw [Bool.eq_iff_iff, Scope.lookup?, List.findSome?_isSome_iff, defines, List.any_eq_true]
  rfl

theorem maskOfAll_append (scope : Scope) (xs ys : List TokenId) :
    scope.maskOfAll (xs ++ ys) = scope.maskOfAll xs ||| scope.maskOfAll ys := by
  induction xs with
  | nil => simp [maskOfAll]
  | cons x xs ih =>
    simp only [maskOfAll, List.cons_append, List.foldr_cons] at ih ⊢
    rw [ih, UInt64.or_assoc]

end Scope

/-! ## 3. Where one part of an expression ends

A term ends by itself.  A level ends where no sign follows, and a single sign must not be followed
by the same sign again, which would be read as its second half: no term starts with a sign. -/

/-- Whether a text starts with a sign that joins terms. -/
def startsWithSign : List Token → Bool
  | .lit id :: _ => id = TokenId.orSign || id = TokenId.andSign
  | _ => false

theorem joint?_eq_none {after : List Token} (h : startsWithSign after = false) :
    joint? after = none := by
  unfold joint?
  split
  · rename_i a rest
    simp only [startsWithSign] at h
    simp [h]
  · rfl

/-- A sign is read back, when the text behind it starts with no other. -/
theorem joint?_render (sign : Sign) (doubled : Bool) {after : List Token}
    (h : startsWithSign after = false) :
    joint? (sign.render doubled ++ after)
      = some (sign.joint, (sign.render doubled).length, after) := by
  cases doubled with
  | true => cases sign <;> rfl
  | false =>
    have hhead : after.head? ≠ some (.lit sign.id) := by
      cases after with
      | nil => simp
      | cons t rest =>
        rintro ⟨⟩
        cases sign <;> exact absurd h (by simp [startsWithSign, Sign.id])
    cases sign with
    | or => simp only [Sign.render, Sign.id] at hhead ⊢; simp [joint?, hhead, Sign.joint]
    | and =>
      have hne : TokenId.andSign ≠ TokenId.orSign := by decide
      simp only [Sign.render, Sign.id] at hhead ⊢
      simp [joint?, hhead, hne, Sign.joint]

theorem Operand.not_sign (o : Operand) :
    o.id ≠ TokenId.orSign ∧ o.id ≠ TokenId.andSign ∧ o.id ≠ TokenId.notSign ∧
      o.id ≠ TokenId.leftParen ∧ o.id ≠ TokenId.rightParen ∧ o.id ≠ TokenId.eol := by
  have h := o.plain
  simp only [TokenId.isExpressionSign, Bool.or_eq_false_iff, decide_eq_false_iff_not] at h
  obtain ⟨⟨⟨⟨⟨hor, hand⟩, hnot⟩, hleft⟩, hright⟩, heol⟩ := h
  exact ⟨hor, hand, hnot, hleft, hright, heol⟩

theorem startsWithSign_term (t : Term) (after : List Token) :
    startsWithSign (t.render ++ after) = false := by
  cases t with
  | operand negated o =>
    have ho := o.not_sign
    cases negated
    · simp [Term.render, renderNegation, startsWithSign, ho.1, ho.2.1]
    · rfl
  | group negated inner => cases negated <;> rfl

theorem startsWithSign_condition (c : Condition) (after : List Token) :
    startsWithSign (c.render ++ after) = false := by
  cases c with
  | last t => exact startsWithSign_term t after
  | more t sign doubled rest =>
    rw [Condition.render, List.append_assoc, List.append_assoc]
    exact startsWithSign_term t _

/-! ## 4. Reading a tree back -/

/-- What the evaluator makes of an operand or of a group, it makes of the negated term, negated. -/
theorem evalTerm_negation {scope : Scope} {group : Nat → List Token → Verdict}
    {tokens rest : List Token} {v : Bool} {mask : UInt64} {size : Nat} (index : Nat)
    (negated : Bool) (hhead : tokens.head? ≠ some (.lit TokenId.notSign))
    (h : ∀ i, evalOperand scope group i tokens = ⟨.ok v, mask, i + size, rest⟩) :
    evalTerm scope group index (renderNegation negated ++ tokens)
      = ⟨.ok (xor negated v), mask, index + ((renderNegation negated).length + size), rest⟩ := by
  cases negated with
  | true =>
    simp [evalTerm, renderNegation, h, Except.map, Nat.add_assoc]
  | false =>
    simp [evalTerm, renderNegation, h, hhead]

theorem evalOperand_operand (scope : Scope) (group : Nat → List Token → Verdict) (o : Operand)
    (index : Nat) (after : List Token) :
    evalOperand scope group index (.lit o.id :: after)
      = ⟨.ok (scope.defines o.id || o.id = TokenId.one), scope.maskOf o.id, index + 1, after⟩ := by
  obtain ⟨-, -, -, hleft, hright, heol⟩ := o.not_sign
  simp [evalOperand, hleft, hright, heol, Scope.lookup?_isSome]

/-- A group is read back, when the reader of its inside reads that and stops in front of the
closing parenthesis. -/
theorem evalOperand_group (scope : Scope) {group : Nat → List Token → Verdict} {index : Nat}
    {inside after : List Token} {v : Bool} {mask : UInt64}
    (h : group (index + 1) (inside ++ .lit TokenId.rightParen :: after)
      = ⟨.ok v, mask, index + 1 + inside.length, .lit TokenId.rightParen :: after⟩) :
    evalOperand scope group index
        (.lit TokenId.leftParen :: (inside ++ .lit TokenId.rightParen :: after))
      = ⟨.ok v, mask, index + (inside.length + 2), after⟩ := by
  have hleft : TokenId.leftParen ≠ TokenId.rightParen ∧ TokenId.leftParen ≠ TokenId.eol := by
    decide
  simp [evalOperand, hleft, h]
  omega

/-- Reading a term and then going on behind it. -/
theorem evalTerms_more {scope : Scope} {group : Nat → List Token → Verdict} {left index : Nat}
    {joint : Joint} {acc v : Bool} {mask termMask : UInt64} {t : Term} {sign : Sign}
    {doubled : Bool} {after : List Token} (hafter : startsWithSign after = false)
    (h : evalTerm scope group index (t.render ++ (sign.render doubled ++ after))
      = ⟨.ok v, termMask, index + t.render.length, sign.render doubled ++ after⟩) :
    evalTerms scope group (left + 1) joint acc mask index
        (t.render ++ (sign.render doubled ++ after))
      = evalTerms scope group left sign.joint (joint.combine acc v) (mask ||| termMask)
          (index + t.render.length + (sign.render doubled).length) after := by
  rw [evalTerms]
  simp [h, joint?_render sign doubled hafter]

theorem Sign.combine_joint (sign : Sign) (acc : Bool) :
    sign.joint.combine acc = sign.apply acc := by
  cases sign <;> rfl

mutual

/-- **A term within the bounds is read back**, whatever follows it. -/
theorem Term.evalTerm_render (scope : Scope) :
    (t : Term) → ∀ {levels : Nat}, t.widest ≤ maxTerms → t.nesting ≤ levels →
      ∀ (index : Nat) (after : List Token),
        evalTerm scope (evalLevel scope levels) index (t.render ++ after)
          = ⟨.ok (t.holds scope.defines), scope.maskOfAll t.operands, index + t.render.length,
              after⟩
  | .operand negated o, levels, _, _, index, after => by
    have hhead : (Token.lit o.id :: after).head? ≠ some (.lit TokenId.notSign) := by
      simpa using o.not_sign.2.2.1
    have h := evalTerm_negation index negated hhead
      fun i => evalOperand_operand scope (evalLevel scope levels) o i after
    simpa [Term.render, Term.holds, Term.operands, Scope.maskOfAll] using h
  | .group negated inner, 0, _, hnest, _, _ => by
    simp [Term.nesting] at hnest
  | .group negated inner, levels + 1, hwide, hnest, index, after => by
    simp only [Term.widest, Nat.max_le] at hwide
    simp only [Term.nesting, Nat.add_le_add_iff_right] at hnest
    have hinner : ∀ i, evalLevel scope (levels + 1) (i + 1)
        (inner.render ++ .lit TokenId.rightParen :: after)
          = ⟨.ok (inner.join scope.defines id), scope.maskOfAll inner.operands,
              i + 1 + inner.render.length, .lit TokenId.rightParen :: after⟩ := by
      intro i
      have h := inner.evalTerms_render scope hwide.1 hwide.2 hnest
        (.lit TokenId.rightParen :: after) rfl .first false 0 (i + 1)
      rw [UInt64.zero_or] at h
      exact h
    have hhead : (Token.lit TokenId.leftParen ::
        (inner.render ++ .lit TokenId.rightParen :: after)).head?
          ≠ some (.lit TokenId.notSign) := by
      intro h
      exact absurd (Option.some.inj h) (by decide)
    have h := evalTerm_negation index negated hhead
      fun i => evalOperand_group scope (hinner i)
    simpa [Term.render, Term.holds, Term.operands, Nat.add_assoc] using h

/-- **A level within the bounds is read back** in front of a text that does not go on with a sign,
whatever was read before it. -/
theorem Condition.evalTerms_render (scope : Scope) :
    (c : Condition) → ∀ {levels left : Nat}, c.length ≤ left → c.widestGroup ≤ maxTerms →
      c.nesting ≤ levels → ∀ (after : List Token), startsWithSign after = false →
      ∀ (joint : Joint) (acc : Bool) (mask : UInt64) (index : Nat),
        evalTerms scope (evalLevel scope levels) left joint acc mask index (c.render ++ after)
          = ⟨.ok (c.join scope.defines (joint.combine acc)), mask ||| scope.maskOfAll c.operands,
              index + c.render.length, after⟩
  | .last t, levels, left + 1, _, hwide, hnest, after, hafter, joint, acc, mask, index => by
    have ht := t.evalTerm_render scope hwide hnest index after
    rw [evalTerms]
    simp [Condition.render, ht, joint?_eq_none hafter, Condition.join, Condition.operands]
  | .more t sign doubled rest, levels, left + 1, hlen, hwide, hnest, after, hafter, joint, acc,
      mask, index => by
    simp only [Condition.length, Nat.add_le_add_iff_right] at hlen
    simp only [Condition.widestGroup, Nat.max_le] at hwide
    simp only [Condition.nesting, Nat.max_le] at hnest
    have ht := t.evalTerm_render scope hwide.1 hnest.1 index
      (sign.render doubled ++ (rest.render ++ after))
    have hrest := rest.evalTerms_render scope hlen hwide.2 hnest.2 after hafter sign.joint
      (joint.combine acc (t.holds scope.defines)) (mask ||| scope.maskOfAll t.operands)
      (index + t.render.length + (sign.render doubled).length)
    rw [Condition.render, List.append_assoc, List.append_assoc,
      evalTerms_more (startsWithSign_condition rest after) ht, hrest]
    simp [Condition.join, Condition.operands, Scope.maskOfAll_append, Sign.combine_joint,
      UInt64.or_assoc, Nat.add_assoc]

end

/-! ## 5. Trees beyond the bounds

Terms are read from the left, so what is refused first need not be what is too large as a whole.
All that is read before is well formed, and the only refusal that is left is that of the bounds. -/

theorem evalTerms_error {scope : Scope} {group : Nat → List Token → Verdict} {index : Nat}
    {tokens : List Token} {c : Cause} (left : Nat) (joint : Joint) (acc : Bool) (mask : UInt64)
    (h : (evalTerm scope group index tokens).value = .error c) :
    (evalTerms scope group (left + 1) joint acc mask index tokens).value = .error c := by
  rw [evalTerms]
  simp [h]

theorem evalTerm_group_error (scope : Scope) {group : Nat → List Token → Verdict} (index : Nat)
    {tokens : List Token} {c : Cause} (negated : Bool)
    (h : ∀ i, (group i tokens).value = .error c) :
    (evalTerm scope group index
      (renderNegation negated ++ .lit TokenId.leftParen :: tokens)).value = .error c := by
  have hleft : TokenId.leftParen ≠ TokenId.rightParen ∧ TokenId.leftParen ≠ TokenId.eol ∧
      TokenId.leftParen ≠ TokenId.notSign := by decide
  cases negated <;> simp [evalTerm, evalOperand, renderNegation, hleft, h, Except.map]

mutual

/-- A term beyond the bounds is refused. -/
theorem Term.evalTerm_tooComplex (scope : Scope) :
    (t : Term) → ∀ {levels : Nat}, maxTerms < t.widest ∨ levels < t.nesting →
      ∀ (index : Nat) (after : List Token),
        (evalTerm scope (evalLevel scope levels) index (t.render ++ after)).value
          = .error .tooComplex
  | .operand negated o, levels, h, _, _ => by
    simp [Term.widest, Term.nesting] at h
  | .group negated inner, 0, _, index, after => by
    have hnone : ∀ i, (evalLevel scope 0 i
        (inner.render ++ .lit TokenId.rightParen :: after)).value = .error .tooComplex :=
      fun i => rfl
    simpa [Term.render] using evalTerm_group_error scope index negated hnone
  | .group negated inner, levels + 1, h, index, after => by
    have hinner : maxTerms < inner.length ∨ maxTerms < inner.widestGroup ∨
        levels < inner.nesting := by
      simp only [Term.widest, Term.nesting] at h
      omega
    have hgroup : ∀ i, (evalLevel scope (levels + 1) i
        (inner.render ++ .lit TokenId.rightParen :: after)).value = .error .tooComplex :=
      inner.evalTerms_tooComplex scope hinner (.lit TokenId.rightParen :: after) .first false 0
    simpa [Term.render] using evalTerm_group_error scope index negated hgroup

/-- A level beyond the bounds, or with more terms than are left, is refused. -/
theorem Condition.evalTerms_tooComplex (scope : Scope) :
    (c : Condition) → ∀ {levels left : Nat},
      left < c.length ∨ maxTerms < c.widestGroup ∨ levels < c.nesting →
      ∀ (after : List Token) (joint : Joint) (acc : Bool) (mask : UInt64) (index : Nat),
        (evalTerms scope (evalLevel scope levels) left joint acc mask index
          (c.render ++ after)).value = .error .tooComplex
  | c, levels, 0, _, _, _, _, _, _ => rfl
  | .last t, levels, left + 1, h, after, joint, acc, mask, index => by
    have ht : maxTerms < t.widest ∨ levels < t.nesting := by
      simp only [Condition.length, Condition.widestGroup, Condition.nesting] at h
      omega
    exact evalTerms_error left joint acc mask (t.evalTerm_tooComplex scope ht index after)
  | .more t sign doubled rest, levels, left + 1, h, after, joint, acc, mask, index => by
    rw [Condition.render, List.append_assoc, List.append_assoc]
    by_cases ht : maxTerms < t.widest ∨ levels < t.nesting
    · exact evalTerms_error left joint acc mask (t.evalTerm_tooComplex scope ht index _)
    -- The term is read, so the fault lies in what follows it.
    · have hwide : t.widest ≤ maxTerms := by omega
      have hnest : t.nesting ≤ levels := by omega
      have hrest : left < rest.length ∨ maxTerms < rest.widestGroup ∨ levels < rest.nesting := by
        simp only [Condition.length, Condition.widestGroup, Condition.nesting] at h
        omega
      have hread := t.evalTerm_render scope hwide hnest index
        (sign.render doubled ++ (rest.render ++ after))
      rw [evalTerms_more (startsWithSign_condition rest after) hread]
      exact rest.evalTerms_tooComplex scope hrest after _ _ _ _

end

/-! ## 6. Reading goes forward

What follows holds of any text, also of one that is no expression. -/

theorem le_stop_evalOperand (scope : Scope) {group : Nat → List Token → Verdict}
    (hgroup : ∀ i tokens, i ≤ (group i tokens).stop) (index : Nat) (tokens : List Token) :
    index ≤ (evalOperand scope group index tokens).stop := by
  unfold evalOperand
  split
  · rename_i id rest
    have h := hgroup (index + 1) rest
    split
    · exact Nat.le_refl _
    · split
      · dsimp only
        split
        · dsimp only
          omega
        · split <;> dsimp only <;> omega
      · exact Nat.le_succ _
  · exact Nat.le_refl _

theorem le_stop_evalTerm (scope : Scope) {group : Nat → List Token → Verdict}
    (hgroup : ∀ i tokens, i ≤ (group i tokens).stop) (index : Nat) (tokens : List Token) :
    index ≤ (evalTerm scope group index tokens).stop := by
  unfold evalTerm
  split
  · have h := le_stop_evalOperand scope hgroup (index + 1) tokens.tail
    dsimp only
    omega
  · exact le_stop_evalOperand scope hgroup index tokens

theorem le_stop_evalTerms (scope : Scope) {group : Nat → List Token → Verdict}
    (hgroup : ∀ i tokens, i ≤ (group i tokens).stop) (left : Nat) (joint : Joint) (acc : Bool)
    (mask : UInt64) (index : Nat) (tokens : List Token) :
    index ≤ (evalTerms scope group left joint acc mask index tokens).stop := by
  induction left generalizing joint acc mask index tokens with
  | zero => exact Nat.le_refl _
  | succ left ih =>
    have hterm := le_stop_evalTerm scope hgroup index tokens
    rw [evalTerms]
    dsimp only
    split
    · exact hterm
    · split
      · exact Nat.le_trans (Nat.le_trans hterm (Nat.le_add_right _ _)) (ih _ _ _ _ _)
      · exact hterm

theorem le_stop_evalLevel (scope : Scope) (levels : Nat) :
    ∀ (index : Nat) (tokens : List Token), index ≤ (evalLevel scope levels index tokens).stop := by
  induction levels with
  | zero => exact fun index _ => Nat.le_refl index
  | succ levels ih => exact fun index tokens => le_stop_evalTerms scope ih _ _ _ _ index tokens

/-- The evaluator never stops before the place where it starts. -/
theorem le_stop_evaluate (scope : Scope) (index : Nat) (tokens : List Token) :
    index ≤ (evaluate scope index tokens).stop :=
  le_stop_evalLevel scope maxTerms index tokens

/-! ## 7. The evaluator -/

/-- A condition within the bounds is read back with its meaning. -/
theorem evaluate_render (scope : Scope) {c : Condition} (hc : c.Fits) (index : Nat)
    {after : List Token} (hafter : startsWithSign after = false) :
    evaluate scope index (c.render ++ after)
      = ⟨.ok (c.holds scope.defines), scope.maskOfAll c.operands, index + c.render.length,
          after⟩ := by
  obtain ⟨hwide, hnest⟩ := hc
  rw [Condition.widest, Nat.max_le] at hwide
  have hlevels : c.nesting ≤ 63 := Nat.le_of_lt_succ hnest
  have h := c.evalTerms_render scope hwide.1 hwide.2 hlevels after hafter .first false 0 index
  rw [UInt64.zero_or] at h
  exact h

/-- A condition beyond the bounds is refused, whatever follows it. -/
theorem evaluate_tooComplex (scope : Scope) {c : Condition} (hc : ¬ c.Fits) (index : Nat)
    (after : List Token) :
    (evaluate scope index (c.render ++ after)).value = .error .tooComplex := by
  have h : maxTerms < c.length ∨ maxTerms < c.widestGroup ∨ 63 < c.nesting := by
    simp only [Condition.Fits, Condition.widest, maxTerms] at hc ⊢
    omega
  exact c.evalTerms_tooComplex scope h after .first false 0 index

/-- **The evaluator computes the meaning of a tree.**  At the start of any way of writing a
condition, behind any text and in front of any text that does not go on with a sign, the answer is
the value of the condition from left to right, with the condition bits of all its operands, and
reading stops just behind it.  A condition beyond the bounds is refused. -/
theorem evaluate_condition (scope : Scope) (c : Condition) (before after : List Token)
    (hafter : startsWithSign after = false) :
    let verdict := evaluate scope before.length ((before ++ c.render ++ after).drop before.length)
    (c.Fits →
      verdict.value = .ok (c.holds scope.defines) ∧
      verdict.mask = scope.maskOfAll c.operands ∧
      verdict.stop = before.length + c.render.length ∧
      verdict.rest = after) ∧
    (¬ c.Fits → verdict.value = .error .tooComplex) := by
  have hdrop : (before ++ c.render ++ after).drop before.length = c.render ++ after := by
    rw [List.append_assoc, List.drop_left]
  simp only [hdrop]
  refine ⟨fun hc => ?_, fun hc => evaluate_tooComplex scope hc before.length after⟩
  rw [evaluate_render scope hc before.length hafter]
  exact ⟨rfl, rfl, rfl, rfl⟩

/-- `A || !(B) & C` where only `A` and `B` are defined: neither sign binds tighter, so `C` decides,
and the bits of both macros are there all the same. -/
theorem evaluate_condition_leftToRight :
    let scope : Scope := [⟨[(100, ⟨[], 1⟩), (101, ⟨[], 2⟩)]⟩]
    let c : Condition := .more (.operand false ⟨100, by decide⟩) .or true
      (.more (.group true (.last (.operand false ⟨101, by decide⟩))) .and false
        (.last (.operand false ⟨102, by decide⟩)))
    let before : List Token := [.lit TokenId.ifTest]
    let after : List Token := [.lit 103]
    let verdict := evaluate scope 1 ((before ++ c.render ++ after).drop 1)
    startsWithSign after = false ∧ c.Fits ∧ verdict.value = .ok false ∧ verdict.mask = 3 ∧
      verdict.stop = 10 ∧ verdict.rest = after := by
  intro scope c before after verdict
  have hafter : startsWithSign after = false := by decide
  have hc : c.Fits := by decide
  obtain ⟨hvalue, hmask, hstop, hrest⟩ :=
    (evaluate_condition scope c before after hafter).1 hc
  exact ⟨hafter, hc, hvalue.trans (congrArg Except.ok (by decide)), hmask.trans (by decide),
    hstop.trans (by decide), hrest⟩

end EffectScript
