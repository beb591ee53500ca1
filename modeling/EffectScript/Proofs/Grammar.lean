import EffectScript.Proofs.Reading

/-!
# The grammar of the evaluator

`Proofs/Condition` has the expressions as trees, whose operands are no signs, and says that the
evaluator reads them back.  Here is the other direction: what the evaluator takes, and what it
refuses.

It takes more than the trees.  Where an operand should stand it refuses parentheses and the end of a
definition, but a sign there is an operand like any other.  So the grammar of the evaluator
(`IsOperand`, `IsTerm`, `IsLevel`) is the one of the trees with a wider class of operands, and with
two conditions that tell how a sign is read which could be either: a `!` in front of an operand
negates it, and a `|` behind another `|` is its second half.

Main statement: `evaluate_takes_grammar`.  The evaluator takes the texts of its grammar and no
others, and where no sign is an operand such a text is that of a tree.  `evaluate_takes_sign` is a
text that is not.
-/

namespace EffectScript

/-! ## 1. The grammar -/

/-- Whether the evaluator takes an id for an operand, where an operand should be. -/
def TokenId.standsAsOperand (id : TokenId) : Bool :=
  !(id = leftParen || id = rightParen || id = eol)

mutual

/-- A text that is taken for a term without its negation.  At most `levels` levels lie inside each
other in it, and `operands` are its operands. -/
inductive IsOperand : (levels : Nat) → (operands : List TokenId) → List Token → Prop
  | id {levels : Nat} {id : TokenId} (hid : id.standsAsOperand) : IsOperand levels [id] [.lit id]
  | group {levels : Nat} {operands : List TokenId} {inside : List Token}
      (h : IsLevel levels maxTerms operands inside) :
      IsOperand (levels + 1) operands
        (.lit TokenId.leftParen :: (inside ++ [.lit TokenId.rightParen]))

/-- A text that is taken for a term. -/
inductive IsTerm : (levels : Nat) → (operands : List TokenId) → List Token → Prop
  | plain {levels : Nat} {operands : List TokenId} {read : List Token}
      (h : IsOperand levels operands read) (hnot : read.head? ≠ some (.lit TokenId.notSign)) :
      IsTerm levels operands read
  | negated {levels : Nat} {operands : List TokenId} {read : List Token}
      (h : IsOperand levels operands read) : IsTerm levels operands (.lit TokenId.notSign :: read)

/-- A text that is taken for a level of at most `left` terms. -/
inductive IsLevel : (levels left : Nat) → (operands : List TokenId) → List Token → Prop
  | last {levels left : Nat} {operands : List TokenId} {read : List Token}
      (h : IsTerm levels operands read) : IsLevel levels (left + 1) operands read
  | more {levels left : Nat} {operands others : List TokenId} {read rest : List Token}
      (h : IsTerm levels operands read) (sign : Sign) (doubled : Bool)
      (hsign : doubled = false → rest.head? ≠ some (.lit sign.id))
      (hrest : IsLevel levels left others rest) :
      IsLevel levels (left + 1) (operands ++ others) (read ++ (sign.render doubled ++ rest))

end

/-- A text that is taken for an expression. -/
def IsWritten (operands : List TokenId) (read : List Token) : Prop :=
  IsLevel (maxTerms - 1) maxTerms operands read

/-- A text in front of another has the same first token. -/
theorem IsOperand.head?_append {levels : Nat} {operands : List TokenId} {read : List Token}
    (h : IsOperand levels operands read) (rest : List Token) :
    (read ++ rest).head? = read.head? := by
  cases h <;> rfl

theorem IsTerm.head?_append {levels : Nat} {operands : List TokenId} {read : List Token}
    (h : IsTerm levels operands read) (rest : List Token) : (read ++ rest).head? = read.head? := by
  cases h with
  | plain h _ => exact h.head?_append rest
  | negated h => rfl

theorem IsLevel.head?_append {levels left : Nat} {operands : List TokenId} {read : List Token}
    (h : IsLevel levels left operands read) (rest : List Token) :
    (read ++ rest).head? = read.head? := by
  cases h with
  | last h => exact h.head?_append rest
  | more h sign doubled _ _ => rw [List.append_assoc, h.head?_append, h.head?_append]

/-! ## 2. Where no sign is an operand -/

/-- No operand is a sign. -/
def SignFree (operands : List TokenId) : Prop := ∀ id ∈ operands, id.isExpressionSign = false

theorem IsTerm.exists_term {levels : Nat} {operands : List TokenId} {read : List Token}
    (h : IsTerm levels operands read) (hoperands : SignFree operands)
    (hlevel : ∀ inner inside, levels = inner + 1 → IsLevel inner maxTerms operands inside →
      ∃ c : Condition, c.render = inside ∧ c.length ≤ maxTerms ∧ c.widestGroup ≤ maxTerms ∧
        c.nesting ≤ inner) :
    ∃ t : Term, t.render = read ∧ t.widest ≤ maxTerms ∧ t.nesting ≤ levels := by
  -- A negation is a part of the tree, so both kinds of term come from what stands behind it.
  have hoperand : ∀ {read}, IsOperand levels operands read → ∀ negated, ∃ t : Term,
      t.render = renderNegation negated ++ read ∧ t.widest ≤ maxTerms ∧ t.nesting ≤ levels := by
    intro read h negated
    cases h with
    | @id _ id hid =>
      have hplain := hoperands id List.mem_cons_self
      exact ⟨.operand negated ⟨id, hplain⟩, by simp [Term.render], Nat.zero_le _, Nat.zero_le _⟩
    | @group inner _ inside hinside =>
      obtain ⟨c, rfl, hlength, hwide, hnest⟩ := hlevel inner inside rfl hinside
      refine ⟨.group negated c, by simp [Term.render], ?_, ?_⟩
      · rw [Term.widest, Nat.max_le]
        exact ⟨hlength, hwide⟩
      · rw [Term.nesting]
        omega
  cases h with
  | plain h _ => exact hoperand h false
  | negated h => exact hoperand h true

/-- **A text without a sign for an operand is that of a tree**, within the bounds of the text. -/
theorem IsLevel.exists_condition {levels left : Nat} {operands : List TokenId} {read : List Token}
    (h : IsLevel levels left operands read) (hoperands : SignFree operands) :
    ∃ c : Condition, c.render = read ∧ c.length ≤ left ∧ c.widestGroup ≤ maxTerms ∧
      c.nesting ≤ levels := by
  induction levels using Nat.strongRecOn generalizing left operands read with
  | ind levels ih =>
    have hlevel : ∀ others, SignFree others → ∀ inner inside, levels = inner + 1 →
        IsLevel inner maxTerms others inside →
        ∃ c : Condition, c.render = inside ∧ c.length ≤ maxTerms ∧ c.widestGroup ≤ maxTerms ∧
          c.nesting ≤ inner := by
      intro others hothers inner inside heq hinside
      exact ih inner (by omega) hinside hothers
    clear ih
    induction left generalizing operands read with
    | zero => cases h
    | succ left ih =>
      cases h with
      | last h =>
        obtain ⟨t, rfl, hwide, hnest⟩ := h.exists_term hoperands (hlevel _ hoperands)
        exact ⟨.last t, rfl, Nat.succ_pos _, hwide, hnest⟩
      | @more _ _ first others _ rest h sign doubled _ hrest =>
        obtain ⟨hfirst, hothers⟩ := List.forall_mem_append.mp hoperands
        obtain ⟨t, rfl, hwide, hnest⟩ := h.exists_term hfirst (hlevel _ hfirst)
        obtain ⟨c, rfl, hlength, hwide', hnest'⟩ := ih hrest hothers
        refine ⟨.more t sign doubled c, by simp [Condition.render],
          Nat.succ_le_succ hlength, ?_, ?_⟩
        · rw [Condition.widestGroup, Nat.max_le]
          exact ⟨hwide, hwide'⟩
        · rw [Condition.nesting, Nat.max_le]
          exact ⟨hnest, hnest'⟩

/-- No tree starts with a sign, so a sign in front of one is not the half of a doubled one. -/
theorem Condition.head?_ne_sign (c : Condition) (sign : Sign) :
    c.render.head? ≠ some (.lit sign.id) := by
  intro hhead
  obtain ⟨tail, htail⟩ := List.head?_eq_some_iff.mp hhead
  have hstart := startsWithSign_condition c []
  rw [List.append_nil, htail] at hstart
  cases sign <;> cases hstart

mutual

theorem Term.isTerm :
    (t : Term) → ∀ {levels : Nat}, t.widest ≤ maxTerms → t.nesting ≤ levels →
      IsTerm levels t.operands t.render ∧ SignFree t.operands
  | .operand negated o, levels, _, _ => by
    obtain ⟨-, -, hnot, hleft, hright, heol⟩ := o.not_sign
    have hid : IsOperand levels [o.id] [.lit o.id] :=
      .id (by simp [TokenId.standsAsOperand, hleft, hright, heol])
    refine ⟨?_, List.forall_mem_singleton.mpr o.plain⟩
    cases negated with
    | true => exact .negated hid
    | false => exact .plain hid (by simpa [Term.render, renderNegation] using hnot)
  | .group negated inner, 0, _, hnest => by
    simp [Term.nesting] at hnest
  | .group negated inner, levels + 1, hwide, hnest => by
    simp only [Term.widest, Nat.max_le] at hwide
    simp only [Term.nesting, Nat.add_le_add_iff_right] at hnest
    obtain ⟨hinner, hoperands⟩ := inner.isLevel hwide.1 hwide.2 hnest
    have hgroup := IsOperand.group hinner
    refine ⟨?_, hoperands⟩
    cases negated with
    | true => simpa [Term.render, Term.operands, renderNegation] using IsTerm.negated hgroup
    | false =>
      have hplain := IsTerm.plain hgroup (by simp [TokenId.leftParen, TokenId.notSign])
      simpa [Term.render, Term.operands, renderNegation] using hplain

theorem Condition.isLevel :
    (c : Condition) → ∀ {levels left : Nat}, c.length ≤ left → c.widestGroup ≤ maxTerms →
      c.nesting ≤ levels → IsLevel levels left c.operands c.render ∧ SignFree c.operands
  | .last t, levels, left + 1, _, hwide, hnest => by
    obtain ⟨hterm, hoperands⟩ := t.isTerm hwide hnest
    exact ⟨.last hterm, hoperands⟩
  | .more t sign doubled rest, levels, left + 1, hlen, hwide, hnest => by
    simp only [Condition.length, Nat.add_le_add_iff_right] at hlen
    simp only [Condition.widestGroup, Nat.max_le] at hwide
    simp only [Condition.nesting, Nat.max_le] at hnest
    obtain ⟨hterm, hoperands⟩ := t.isTerm hwide.1 hnest.1
    obtain ⟨hrest, hothers⟩ := rest.isLevel hlen hwide.2 hnest.2
    refine ⟨?_, List.forall_mem_append.mpr ⟨hoperands, hothers⟩⟩
    rw [Condition.render, List.append_assoc]
    exact .more hterm sign doubled (fun _ => rest.head?_ne_sign sign) hrest

end

/-- **The texts without a sign for an operand are those of the trees.** -/
theorem isWritten_signFree_iff {read : List Token} :
    (∃ operands, IsWritten operands read ∧ SignFree operands) ↔
      ∃ c : Condition, c.Fits ∧ c.render = read := by
  constructor
  · rintro ⟨operands, hread, hoperands⟩
    obtain ⟨c, hrender, hlength, hwide, hnest⟩ := IsLevel.exists_condition hread hoperands
    refine ⟨c, ⟨?_, ?_⟩, hrender⟩
    · rw [Condition.widest, Nat.max_le]
      exact ⟨hlength, hwide⟩
    · exact Nat.lt_of_le_of_lt hnest (by decide)
  · rintro ⟨c, ⟨hwide, hnest⟩, rfl⟩
    rw [Condition.widest, Nat.max_le] at hwide
    exact ⟨c.operands, c.isLevel hwide.1 hwide.2 (Nat.le_sub_one_of_lt hnest)⟩

/-! ## 3. Readers that take the texts of a grammar -/

/-- The reader takes a text of `P` off the front of its tokens exactly where one stands there in
front of a text of `Behind`, and stops behind it. -/
structure TakesExactly (reader : Nat → List Token → Verdict) (P : List TokenId → List Token → Prop)
    (Behind : List Token → Prop) : Prop where
  sound : ∀ index tokens v, (reader index tokens).value = .ok v →
    ∃ operands read rest mask, tokens = read ++ rest ∧ P operands read ∧ Behind rest ∧
      reader index tokens = ⟨.ok v, mask, index + read.length, rest⟩
  complete : ∀ index operands read rest, P operands read → Behind rest →
    ∃ v mask, reader index (read ++ rest) = ⟨.ok v, mask, index + read.length, rest⟩

section Terms

variable {scope : Scope} {group : Nat → List Token → Verdict} {levels : Nat}

/-- The inside of a group is a level, where there is room for one. -/
def IsInside (levels : Nat) (operands : List TokenId) (read : List Token) : Prop :=
  ∃ inner, levels = inner + 1 ∧ IsLevel inner maxTerms operands read

theorem evalOperand_id {id : TokenId} (hid : id.standsAsOperand) (index : Nat) (rest : List Token) :
    ∃ v, evalOperand scope group index (.lit id :: rest)
      = ⟨.ok v, scope.maskOf id, index + 1, rest⟩ := by
  simp only [TokenId.standsAsOperand, Bool.not_eq_true', Bool.or_eq_false_iff,
    decide_eq_false_iff_not] at hid
  obtain ⟨⟨hleft, hright⟩, heol⟩ := hid
  refine ⟨(scope.lookup? id).isSome || id = TokenId.one, ?_⟩
  simp only [evalOperand, hleft, hright, heol, decide_false, Bool.or_self,
    Bool.false_eq_true, if_false]

/-- What stands for an operand is an id that may, or a group with its end. -/
theorem evalOperand_eq_ok {index : Nat} {tokens : List Token} {v : Bool}
    (h : (evalOperand scope group index tokens).value = .ok v) :
    (∃ id rest, tokens = .lit id :: rest ∧ id.standsAsOperand) ∨
      ∃ inside rest, tokens = .lit TokenId.leftParen :: inside ∧
        (group (index + 1) inside).value = .ok v ∧
        (group (index + 1) inside).rest = .lit TokenId.rightParen :: rest := by
  unfold evalOperand at h
  split at h
  · rename_i id rest
    split at h
    · cases h
    · rename_i hend
      split at h
      · rename_i hleft
        subst hleft
        dsimp only at h
        split at h
        · cases h
        · rename_i w hvalue
          split at h
          · rename_i hclose
            obtain ⟨tail, htail⟩ := List.head?_eq_some_iff.mp hclose
            cases h
            exact .inr ⟨rest, tail, rfl, hvalue, htail⟩
          · cases h
      · rename_i hleft
        refine .inl ⟨id, rest, rfl, ?_⟩
        simp only [Bool.or_eq_true, decide_eq_true_eq, not_or] at hend
        simp [TokenId.standsAsOperand, hleft, hend]
  · cases h

theorem evalOperand_exactly
    (hgroup : TakesExactly group (IsInside levels) (startsWithSign · = false)) :
    TakesExactly (evalOperand scope group) (IsOperand levels) fun _ => True := by
  constructor
  · intro index tokens v h
    rcases evalOperand_eq_ok h with ⟨id, rest, rfl, hid⟩ | ⟨tokens, rest, rfl, hvalue, hclose⟩
    · obtain ⟨w, heq⟩ := @evalOperand_id scope group id hid index rest
      rw [heq] at h
      cases h
      exact ⟨[id], [.lit id], rest, _, rfl, .id hid, trivial, heq⟩
    · obtain ⟨operands, inside, left, mask, rfl, ⟨inner, rfl, hinside⟩, -, heq⟩ :=
        hgroup.sound _ _ _ hvalue
      rw [heq] at hclose
      cases hclose
      refine ⟨operands, .lit TokenId.leftParen :: (inside ++ [.lit TokenId.rightParen]),
        rest, mask, ?_, .group hinside, trivial, ?_⟩
      · simp
      · rw [evalOperand_group scope heq]
        simp
  · intro index operands read rest h _
    cases h with
    | @id _ id hid =>
      obtain ⟨v, heq⟩ := @evalOperand_id scope group id hid index rest
      exact ⟨v, _, heq⟩
    | @group inner _ inside hinside =>
      obtain ⟨v, mask, heq⟩ := hgroup.complete (index + 1) operands inside
        (.lit TokenId.rightParen :: rest) ⟨inner, rfl, hinside⟩ rfl
      have hoperand := evalOperand_group scope heq
      refine ⟨v, mask, ?_⟩
      simpa using hoperand

theorem evalTerm_exactly
    (hgroup : TakesExactly group (IsInside levels) (startsWithSign · = false)) :
    TakesExactly (evalTerm scope group) (IsTerm levels) fun _ => True := by
  have hoperand := @evalOperand_exactly scope group levels hgroup
  constructor
  · intro index tokens v h
    by_cases hnot : tokens.head? = some (.lit TokenId.notSign)
    · obtain ⟨tail, rfl⟩ := List.head?_eq_some_iff.mp hnot
      simp only [evalTerm, hnot, if_true, List.tail_cons] at h ⊢
      cases hvalue : (evalOperand scope group (index + 1) tail).value with
      | error c =>
        rw [hvalue] at h
        cases h
      | ok w =>
        rw [hvalue] at h
        cases h
        obtain ⟨operands, read, rest, mask, rfl, hread, -, heq⟩ := hoperand.sound _ _ _ hvalue
        refine ⟨operands, .lit TokenId.notSign :: read, rest, mask, rfl, .negated hread,
          trivial, ?_⟩
        rw [heq]
        simp only [Except.map, List.length_cons]
        congr 1
        omega
    · simp only [evalTerm, hnot, if_false] at h ⊢
      obtain ⟨operands, read, rest, mask, rfl, hread, -, heq⟩ := hoperand.sound _ _ _ h
      refine ⟨operands, read, rest, mask, rfl, .plain hread ?_, trivial, heq⟩
      rw [hread.head?_append] at hnot
      exact hnot
  · intro index operands read rest h _
    cases h with
    | plain h hnot =>
      obtain ⟨v, mask, heq⟩ := hoperand.complete index operands read rest h trivial
      have hhead : (read ++ rest).head? ≠ some (.lit TokenId.notSign) := by
        rw [h.head?_append]
        exact hnot
      exact ⟨v, mask, by rw [evalTerm, if_neg hhead, heq]⟩
    | @negated _ _ read h =>
      obtain ⟨v, mask, heq⟩ := hoperand.complete (index + 1) operands read rest h trivial
      refine ⟨!v, mask, ?_⟩
      simp only [evalTerm, List.cons_append, List.head?_cons, if_true, List.tail_cons,
        heq, Except.map, List.length_cons]
      congr 1
      omega

end Terms

/-! ## 4. Levels -/

/-- A sign is read, and not taken for the half of a doubled one, when the same sign does not follow
it. -/
theorem joint?_sign (sign : Sign) (doubled : Bool) {rest : List Token}
    (h : doubled = false → rest.head? ≠ some (.lit sign.id)) :
    joint? (sign.render doubled ++ rest)
      = some (sign.joint, (sign.render doubled).length, rest) := by
  have hne : TokenId.andSign ≠ TokenId.orSign := by decide
  cases doubled with
  | true => cases sign <;> rfl
  | false =>
    have hhead := h rfl
    cases sign <;> simp_all [Sign.render, Sign.id, joint?, Sign.joint]

theorem exists_sign_of_joint? {tokens rest : List Token} {joint : Joint} {used : Nat}
    (h : joint? tokens = some (joint, used, rest)) :
    ∃ (sign : Sign) (doubled : Bool), tokens = sign.render doubled ++ rest ∧ joint = sign.joint ∧
      used = (sign.render doubled).length ∧
      (doubled = false → rest.head? ≠ some (.lit sign.id)) := by
  rcases tokens with _ | ⟨⟨id⟩ | _ | _ | _, tail⟩
  · cases h
  · simp only [joint?] at h
    split at h
    · rename_i hid
      -- The id is that of one of the two signs, and names it.
      obtain ⟨sign, rfl, hjoint⟩ : ∃ sign : Sign, id = sign.id ∧
          (if id = TokenId.orSign then Joint.or else Joint.and) = sign.joint := by
        simp only [Bool.or_eq_true, decide_eq_true_eq] at hid
        rcases hid with rfl | rfl
        · exact ⟨.or, rfl, rfl⟩
        · exact ⟨.and, rfl, rfl⟩
      rw [hjoint] at h
      split at h
      · rename_i hdoubled
        obtain ⟨more, rfl⟩ := List.head?_eq_some_iff.mp (beq_iff_eq.mp hdoubled)
        cases h
        exact ⟨sign, true, rfl, rfl, rfl, by simp⟩
      · rename_i hsingle
        cases h
        refine ⟨sign, false, rfl, rfl, rfl, fun _ hhead => hsingle ?_⟩
        rw [hhead]
        exact beq_self_eq_true _
    · cases h
  · cases h
  · cases h
  · cases h

theorem evalTerms_exactly {scope : Scope} {group : Nat → List Token → Verdict} {levels : Nat}
    (hgroup : TakesExactly group (IsInside levels) (startsWithSign · = false)) (left : Nat) :
    ∀ joint acc mask, TakesExactly (evalTerms scope group left joint acc mask) (IsLevel levels left)
      (startsWithSign · = false) := by
  have hterm := @evalTerm_exactly scope group levels hgroup
  induction left with
  | zero =>
    intro joint acc mask
    constructor
    · intro index tokens v h
      cases h
    · intro index operands read rest h
      cases h
  | succ left ih =>
    intro joint acc mask
    constructor
    · intro index tokens v h
      rw [evalTerms] at h ⊢
      dsimp only at h ⊢
      split at h
      · cases h
      · rename_i w hw
        obtain ⟨operands, read, rest, termMask, rfl, hread, -, heq⟩ := hterm.sound _ _ _ hw
        simp only [heq] at h ⊢
        split at h
        · rename_i joint' used tail hjoint
          -- A sign follows the term, and the level goes on behind it.
          obtain ⟨sign, doubled, rfl, rfl, rfl, hsign⟩ := exists_sign_of_joint? hjoint
          obtain ⟨others, more, rest', mask', rfl, hmore, hbehind, heq'⟩ := (ih _ _ _).sound _ _ _ h
          refine ⟨operands ++ others, read ++ (sign.render doubled ++ more), rest', mask', by simp,
            .more hread sign doubled ?_ hmore, hbehind, ?_⟩
          · intro hsingle
            have hne := hsign hsingle
            rwa [hmore.head?_append] at hne
          · rw [heq']
            simp only [List.length_append]
            congr 1
            omega
        · rename_i hjoint
          cases h
          exact ⟨operands, read, rest, mask ||| termMask, rfl, .last hread,
            startsWithSign_of_joint? hjoint, rfl⟩
    · intro index operands read rest h hbehind
      cases h with
      | last h =>
        obtain ⟨v, termMask, heq⟩ := hterm.complete index operands read rest h trivial
        refine ⟨joint.combine acc v, mask ||| termMask, ?_⟩
        simp only [evalTerms, heq, joint?_eq_none hbehind]
      | @more _ _ first others read more h sign doubled hsign hmore =>
        obtain ⟨v, termMask, heq⟩ :=
          hterm.complete index first read (sign.render doubled ++ (more ++ rest)) h trivial
        have hsingle : doubled = false → (more ++ rest).head? ≠ some (.lit sign.id) := by
          intro hsingle
          rw [hmore.head?_append]
          exact hsign hsingle
        have hjoint := joint?_sign sign doubled hsingle
        obtain ⟨v', mask', heq'⟩ :=
          (ih sign.joint (joint.combine acc v) (mask ||| termMask)).complete
          (index + read.length + (sign.render doubled).length) others more rest hmore hbehind
        refine ⟨v', mask', ?_⟩
        simp only [List.append_assoc, evalTerms, heq, hjoint, heq', List.length_append]
        congr 1
        omega

theorem evalLevel_exactly (scope : Scope) (levels : Nat) :
    TakesExactly (evalLevel scope levels) (IsInside levels) (startsWithSign · = false) := by
  induction levels with
  | zero =>
    constructor
    · intro index tokens v h
      cases h
    · rintro index operands read rest ⟨inner, hinner, -⟩
      cases hinner
  | succ levels ih =>
    have hterms := @evalTerms_exactly scope _ levels ih maxTerms .first false 0
    constructor
    · intro index tokens v h
      obtain ⟨operands, read, rest, mask, htokens, hread, hbehind, heq⟩ := hterms.sound _ _ _ h
      exact ⟨operands, read, rest, mask, htokens, ⟨levels, rfl, hread⟩, hbehind, heq⟩
    · rintro index operands read rest ⟨inner, hinner, hread⟩ hbehind
      cases hinner
      exact hterms.complete index operands read rest hread hbehind

/-! ## 5. What is refused -/

/-- What can be wrong with an expression. -/
inductive Cause.IsOfExpression : Cause → Prop
  | tooComplex : IsOfExpression .tooComplex
  | missingTerm (index : Nat) : IsOfExpression (.missingTerm index)
  | unbalanced (index : Nat) : IsOfExpression (.unbalanced index)

/-- A reader that refuses a text for nothing but what is wrong with an expression. -/
def RefusesExpressions (reader : Nat → List Token → Verdict) : Prop :=
  ∀ index tokens c, (reader index tokens).value = .error c → c.IsOfExpression

section Refusals

variable {scope : Scope} {group : Nat → List Token → Verdict}

theorem evalOperand_refuses (hgroup : RefusesExpressions group) :
    RefusesExpressions (evalOperand scope group) := by
  intro index tokens c h
  unfold evalOperand at h
  split at h
  · split at h
    · cases h
      exact .missingTerm index
    · split at h
      · dsimp only at h
        split at h
        · rename_i hvalue
          cases h
          exact hgroup _ _ _ hvalue
        · split at h
          · cases h
          · cases h
            exact .unbalanced index
      · cases h
  · cases h
    exact .missingTerm index

theorem evalTerm_refuses (hgroup : RefusesExpressions group) :
    RefusesExpressions (evalTerm scope group) := by
  intro index tokens c h
  unfold evalTerm at h
  split at h
  · dsimp only at h
    cases hvalue : (evalOperand scope group (index + 1) tokens.tail).value with
    | error c' =>
      rw [hvalue] at h
      cases h
      exact evalOperand_refuses hgroup _ _ _ hvalue
    | ok v =>
      rw [hvalue] at h
      cases h
  · exact evalOperand_refuses hgroup _ _ _ h

theorem evalTerms_refuses (hgroup : RefusesExpressions group) (left : Nat) :
    ∀ joint acc mask, RefusesExpressions (evalTerms scope group left joint acc mask) := by
  induction left with
  | zero =>
    intro joint acc mask index tokens c h
    cases h
    exact .tooComplex
  | succ left ih =>
    intro joint acc mask index tokens c h
    rw [evalTerms] at h
    dsimp only at h
    split at h
    · rename_i hvalue
      cases h
      exact evalTerm_refuses hgroup _ _ _ hvalue
    · split at h
      · exact ih _ _ _ _ _ _ h
      · cases h

theorem evalLevel_refuses (scope : Scope) (levels : Nat) :
    RefusesExpressions (evalLevel scope levels) := by
  induction levels with
  | zero =>
    intro index tokens c h
    cases h
    exact .tooComplex
  | succ levels ih => exact evalTerms_refuses ih maxTerms .first false 0

end Refusals

/-! ## 6. The evaluator -/

/-- **The evaluator takes the texts of its grammar and no others.**  Where it succeeds, the tokens
from the start to the end that it gives are an expression of its grammar, and no sign follows.
Where such an expression stands, and no sign follows, it succeeds and ends there.  All else is
refused as malformed or as too complex.  The grammar is that of the trees within the bounds, but for
operands that are signs. -/
theorem evaluate_takes_grammar (scope : Scope) (buffer : List Token) (pos : Nat) :
    let verdict := evaluate scope pos (buffer.drop pos)
    (∀ v, verdict.value = .ok v → ∃ read after operands, buffer.drop pos = read ++ after ∧
      verdict.stop = pos + read.length ∧ startsWithSign after = false ∧ IsWritten operands read) ∧
    (∀ read after operands, buffer.drop pos = read ++ after → startsWithSign after = false →
      IsWritten operands read →
        ∃ v, verdict.value = .ok v ∧ verdict.stop = pos + read.length) ∧
    (∀ c, verdict.value = .error c → c.IsOfExpression) ∧
    ∀ read, (∃ operands, IsWritten operands read ∧ SignFree operands) ↔
      ∃ c : Condition, c.Fits ∧ c.render = read := by
  intro verdict
  have htakes := evalLevel_exactly scope maxTerms
  refine ⟨fun v h => ?_, fun read after operands hsplit hafter hread => ?_,
    evalLevel_refuses scope maxTerms _ _, fun read => isWritten_signFree_iff⟩
  · obtain ⟨operands, read, after, mask, hsplit, ⟨inner, hinner, hread⟩, hafter, heq⟩ :=
      htakes.sound _ _ _ h
    cases hinner
    exact ⟨read, after, operands, hsplit, congrArg Verdict.stop heq, hafter, hread⟩
  · obtain ⟨v, mask, heq⟩ := htakes.complete pos operands read after ⟨_, rfl, hread⟩ hafter
    have hverdict : verdict = ⟨.ok v, mask, pos + read.length, after⟩ := by
      rw [← heq, ← hsplit]
      rfl
    exact ⟨v, by rw [hverdict], by rw [hverdict]⟩

/-- A sign in the place of the second operand: `A |||` and a name behind it.  The first two signs
are one, the third is its operand, and the name is no part of the expression. -/
theorem evaluate_takes_grammar_thirdSign :
    let read : List Token :=
      [.lit 100, .lit TokenId.orSign, .lit TokenId.orSign, .lit TokenId.orSign]
    let after : List Token := [.lit 101]
    let verdict := evaluate [] 1 ((.lit TokenId.ifTest :: (read ++ after)).drop 1)
    IsWritten [100, TokenId.orSign] read ∧ startsWithSign after = false ∧
      ∃ v, verdict.value = .ok v ∧ verdict.stop = 5 := by
  intro read after verdict
  have hterm : ∀ id : TokenId, id.standsAsOperand → id ≠ TokenId.notSign →
      IsTerm (maxTerms - 1) [id] [.lit id] := by
    intro id hid hnot
    exact .plain (.id hid) (by simpa using hnot)
  have hread : IsWritten [100, TokenId.orSign] read :=
    .more (hterm 100 rfl (by decide)) .or true (by simp) (.last (hterm _ rfl (by decide)))
  obtain ⟨-, htakes, -⟩ := evaluate_takes_grammar [] (.lit TokenId.ifTest :: (read ++ after)) 1
  exact ⟨hread, rfl, htakes read after _ rfl rfl hread⟩

/-- **A negation in front of a negation is taken for an operand**, which no tree has: `!!A` holds,
whatever is defined, and `A` is left to the text behind the expression. -/
theorem evaluate_takes_sign :
    let scope : Scope := [⟨[(100, ⟨[], 1⟩)]⟩]
    let tokens : List Token := [.lit TokenId.notSign, .lit TokenId.notSign, .lit 100]
    let verdict := evaluate scope 0 (tokens.drop 0)
    verdict.value = .ok true ∧ verdict.stop = 2 ∧ verdict.mask = 0 ∧
      ¬ ∃ c : Condition, c.render = tokens.take 2 := by
  intro scope tokens verdict
  refine ⟨rfl, rfl, by decide, ?_⟩
  have hterm : ∀ (t : Term) (behind : List Token), t.render ++ behind ≠ tokens.take 2 := by
    have hleft : TokenId.leftParen ≠ TokenId.notSign := by decide
    intro t behind heq
    rcases t with ⟨negated, o⟩ | ⟨negated, inner⟩
    · cases negated <;> simp [Term.render, renderNegation, tokens, o.not_sign] at heq
    · cases negated <;> simp [Term.render, renderNegation, tokens, hleft] at heq
  rintro ⟨t | ⟨t, sign, doubled, rest⟩, heq⟩
  · exact hterm t [] (by simpa [Condition.render] using heq)
  · exact hterm t _ (by simpa [Condition.render] using heq)

end EffectScript
