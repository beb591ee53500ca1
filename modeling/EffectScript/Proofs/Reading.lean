import EffectScript.Proofs.Condition

/-!
# What the evaluator reads

`Proofs/Condition` says what the evaluator makes of the text of a tree.  Here the text is any list
of tokens, and all that is known is that the evaluator took it.

Main statement: `exists_expression_of_evaluate`.  What was read is an *expression*
(`IsExpression`): a stretch of words, without marks or the end of a definition, that is read as a
whole in every scope, at every index, and in front of every text that does not go on with a sign.
So neither the macros nor the text behind an expression decide where it ends, and two texts that
start with the same expression are read alike.

The operands of such a stretch may be signs, which no tree has: a sign where a term should be is
read as an operand.  That is why the induction is over the evaluator and not over trees.
-/

namespace EffectScript

/-! ## 1. Stretches that a reader takes

A term ends by itself, so what follows it is arbitrary.  A level ends where no sign follows. -/

/-- Reading the stretch succeeds in every scope and stops behind it, in front of any text of `P`. -/
def ReadAs (P : List Token → Prop) (reader : Scope → Nat → List Token → Verdict)
    (read : List Token) : Prop :=
  ∀ scope, ∃ (v : Bool) (mask : UInt64), ∀ (index : Nat) (after : List Token), P after →
    reader scope index (read ++ after) = ⟨.ok v, mask, index + read.length, after⟩

/-- A text that the evaluator reads as a whole, in front of any text that does not go on with a
sign. -/
def IsExpression (read : List Token) : Prop :=
  ReadAs (startsWithSign · = false) evaluate read

/-- A reader takes a stretch off a text, when it succeeds: it holds neither a mark nor the end of a
definition, the text that is left is one of `P`, and the stretch is read the same elsewhere. -/
def TakesStretch (P : List Token → Prop) (reader : Scope → Nat → List Token → Verdict) : Prop :=
  ∀ (scope : Scope) (index : Nat) (tokens : List Token) (v : Bool),
    (reader scope index tokens).value = .ok v →
      ∃ read rest : List Token, tokens = read ++ rest ∧ read ≠ [] ∧
        (∀ t ∈ read, t.id ≠ TokenId.eol) ∧
        P rest ∧ ReadAs P reader read

/-- What a stretch that is read leaves of the text that it starts. -/
theorem ReadAs.rest_eq {P : List Token → Prop} {reader : Scope → Nat → List Token → Verdict}
    {read : List Token} (h : ReadAs P reader read) (rest : List Token) (hrest : P rest)
    (scope : Scope) (index : Nat) :
    ∃ (v : Bool) (mask : UInt64),
      reader scope index (read ++ rest) = ⟨.ok v, mask, index + read.length, rest⟩ := by
  obtain ⟨v, mask, hread⟩ := h scope
  exact ⟨v, mask, hread index rest hrest⟩

/-! ## 2. Terms -/

section Terms

variable {group : Scope → Nat → List Token → Verdict}

/-- A group that the reader of its inside takes, up to the closing parenthesis. -/
theorem readAs_group {read : List Token}
    (h : ReadAs (startsWithSign · = false) group read) :
    ReadAs (fun _ => True) (fun scope => evalOperand scope (group scope))
      (.lit TokenId.leftParen :: (read ++ [.lit TokenId.rightParen])) := by
  intro scope
  obtain ⟨v, mask, hread⟩ := h scope
  refine ⟨v, mask, fun index after _ => ?_⟩
  have hinside := hread (index + 1) (.lit TokenId.rightParen :: after) rfl
  have hoperand := evalOperand_group scope hinside
  simpa using hoperand

theorem evalOperand_takes (hgroup : TakesStretch (startsWithSign · = false) group) :
    TakesStretch (fun _ => True) fun scope => evalOperand scope (group scope) := by
  intro scope index tokens v h
  dsimp only at h
  unfold evalOperand at h
  split at h
  · rename_i id rest
    split at h
    · cases h
    · rename_i hend
      split at h
      · rename_i hleft
        subst hleft
        dsimp only at h
        split at h
        · cases h
        · rename_i w hvalue
          split at h
          · rename_i hclose
            obtain ⟨read, inner, rfl, -, hwords, hsign, hread⟩ :=
              hgroup scope (index + 1) rest w hvalue
            obtain ⟨w', mask, heq⟩ := hread.rest_eq inner hsign scope (index + 1)
            rw [heq] at hclose
            obtain ⟨tail, rfl⟩ := List.head?_eq_some_iff.mp hclose
            have hwords' : ∀ t ∈ read ++ [Token.lit TokenId.rightParen], t.id ≠ TokenId.eol :=
              List.forall_mem_append.mpr ⟨hwords, by decide⟩
            refine ⟨.lit TokenId.leftParen :: (read ++ [.lit TokenId.rightParen]), tail, by simp,
              List.cons_ne_nil _ _, ?_, trivial, readAs_group hread⟩
            exact List.forall_mem_cons.mpr ⟨by decide, hwords'⟩
          · cases h
      · rename_i hleft
        have hword : id ≠ TokenId.eol := by
          rintro rfl
          simp at hend
        refine ⟨[.lit id], rest, rfl, List.cons_ne_nil _ _, ?_, trivial, ?_⟩
        · rintro t ht
          rw [List.mem_singleton.mp ht]
          exact hword
        intro scope'
        refine ⟨(scope'.lookup? id).isSome || id = TokenId.one, scope'.maskOf id,
          fun i after _ => ?_⟩
        simp only [evalOperand, List.singleton_append, hend, Bool.false_eq_true, if_false, hleft,
          List.length_singleton]
  · cases h

theorem evalTerm_takes (hgroup : TakesStretch (startsWithSign · = false) group) :
    TakesStretch (fun _ => True) fun scope => evalTerm scope (group scope) := by
  intro scope index tokens v h
  have hoperand := evalOperand_takes hgroup
  dsimp only at h
  unfold evalTerm at h
  split at h
  · rename_i hnot
    obtain ⟨tail, rfl⟩ := List.head?_eq_some_iff.mp hnot
    dsimp only at h
    obtain ⟨w, hw⟩ : ∃ w, (evalOperand scope (group scope) (index + 1) tail).value = .ok w := by
      rw [List.tail_cons] at h
      cases hvalue : (evalOperand scope (group scope) (index + 1) tail).value with
      | ok w => exact ⟨w, rfl⟩
      | error c =>
        rw [hvalue] at h
        cases h
    obtain ⟨read, rest, rfl, -, hwords, -, hread⟩ := hoperand scope (index + 1) tail w hw
    refine ⟨.lit TokenId.notSign :: read, rest, rfl, List.cons_ne_nil _ _,
      List.forall_mem_cons.mpr ⟨by decide, hwords⟩, trivial, ?_⟩
    intro scope'
    obtain ⟨v', mask', hread'⟩ := hread scope'
    refine ⟨!v', mask', fun i after _ => ?_⟩
    have hafter := hread' (i + 1) after trivial
    dsimp only at hafter
    simp only [evalTerm, List.cons_append, List.head?_cons, if_true, List.tail_cons, hafter,
      Except.map, List.length_cons]
    congr 1
    omega
  · rename_i hnot
    obtain ⟨read, rest, rfl, hne, hwords, -, hread⟩ := hoperand scope index tokens v h
    refine ⟨read, rest, rfl, hne, hwords, trivial, ?_⟩
    intro scope'
    obtain ⟨v', mask', hread'⟩ := hread scope'
    refine ⟨v', mask', fun i after hafter => ?_⟩
    have hhead : (read ++ after).head? ≠ some (.lit TokenId.notSign) := by
      cases read with
      | nil => exact absurd rfl hne
      | cons t tail => exact hnot
    simp only [evalTerm, hhead, if_false]
    exact hread' i after hafter

end Terms

/-! ## 3. Levels -/

theorem startsWithSign_of_joint? {tokens : List Token} (h : joint? tokens = none) :
    startsWithSign tokens = false := by
  cases tokens with
  | nil => rfl
  | cons t rest =>
    cases t with
    | lit id =>
      simp only [joint?] at h
      split at h
      · split at h <;> cases h
      · rename_i hsign
        exact Bool.eq_false_iff.mpr hsign
    | skipOne => rfl
    | skipOpen => rfl
    | skipClose => rfl

/-- A sign that was read is read the same in front of every text with the same first token. -/
theorem joint?_eq_some {tokens rest : List Token} {joint : Joint} {used : Nat}
    (h : joint? tokens = some (joint, used, rest)) :
    ∃ signs : List Token, tokens = signs ++ rest ∧ signs.length = used ∧
      (∀ t ∈ signs, t.id ≠ TokenId.eol) ∧
      ∀ other : List Token, other.head? = rest.head? →
        joint? (signs ++ other) = some (joint, used, other) := by
  cases tokens with
  | nil => cases h
  | cons t tail =>
    cases t with
    | lit id =>
      simp only [joint?] at h
      split at h
      · rename_i hsign
        have hword : id ≠ TokenId.eol := by
          rintro rfl
          cases hsign
        split at h
        · rename_i hdoubled
          cases h
          obtain ⟨tail, rfl⟩ := List.head?_eq_some_iff.mp (beq_iff_eq.mp hdoubled)
          refine ⟨[.lit id, .lit id], rfl, rfl, by simpa [Token.id] using hword, ?_⟩
          intro other _
          simp [joint?, hsign]
        · rename_i hsingle
          cases h
          refine ⟨[.lit id], rfl, rfl, by simpa [Token.id] using hword, ?_⟩
          intro other hother
          simp only [List.singleton_append, joint?, hother, hsign, if_true, hsingle]
          rfl
      · cases h
    | skipOne => cases h
    | skipOpen => cases h
    | skipClose => cases h

theorem evalTerms_takes {group : Scope → Nat → List Token → Verdict}
    (hgroup : TakesStretch (startsWithSign · = false) group) (left : Nat) :
    ∀ (joint : Joint) (acc : Bool) (mask : UInt64) (scope : Scope) (index : Nat)
      (tokens : List Token) (v : Bool),
      (evalTerms scope (group scope) left joint acc mask index tokens).value = .ok v →
        ∃ read rest : List Token, tokens = read ++ rest ∧ read ≠ [] ∧
          (∀ t ∈ read, t.id ≠ TokenId.eol) ∧
          startsWithSign rest = false ∧
          ∀ (joint : Joint) (acc : Scope → Bool) (mask : Scope → UInt64),
            ReadAs (startsWithSign · = false)
              (fun scope => evalTerms scope (group scope) left joint (acc scope) (mask scope))
              read := by
  have hterm := evalTerm_takes hgroup
  induction left with
  | zero =>
    intro joint acc mask scope index tokens v h
    cases h
  | succ left ih =>
    intro joint acc mask scope index tokens v h
    rw [evalTerms] at h
    dsimp only at h
    split at h
    · cases h
    · rename_i w hw
      obtain ⟨read, rest, rfl, hne, hwords, -, hread⟩ := hterm scope index tokens w hw
      obtain ⟨w', termMask, heq⟩ := hread.rest_eq rest trivial scope index
      simp only [heq] at h
      split at h
      · rename_i joint' used tail hjoint
        -- A sign follows the term, and the level goes on behind it.
        obtain ⟨more, rest', rfl, hmore, hwords', hsign, hreadMore⟩ := ih _ _ _ _ _ _ _ h
        obtain ⟨signs, rfl, hlen, hsigns, hjoint'⟩ := joint?_eq_some hjoint
        have hwords'' : ∀ t ∈ read ++ (signs ++ more), t.id ≠ TokenId.eol :=
          List.forall_mem_append.mpr ⟨hwords, List.forall_mem_append.mpr ⟨hsigns, hwords'⟩⟩
        refine ⟨read ++ (signs ++ more), rest', by simp, by simp [hne], hwords'', hsign, ?_⟩
        intro joint₁ acc₁ mask₁ scope'
        obtain ⟨v₁, m₁, hterm'⟩ := hread scope'
        obtain ⟨v₂, m₂, hmore'⟩ := hreadMore joint'
          (fun _ => joint₁.combine (acc₁ scope') v₁) (fun _ => mask₁ scope' ||| m₁) scope'
        refine ⟨v₂, m₂, fun i after hafter => ?_⟩
        have hhead : (more ++ after).head? = (more ++ rest').head? := by
          cases more with
          | nil => exact absurd rfl hmore
          | cons t more => rfl
        have hfirst := hterm' i (signs ++ (more ++ after)) trivial
        have hthen := hmore' (i + read.length + used) after hafter
        have hnext := hjoint' (more ++ after) hhead
        dsimp only at hfirst
        simp only [List.append_assoc, evalTerms, hfirst, hnext, hthen, List.length_append, hlen]
        congr 1
        omega
      · rename_i hjoint
        refine ⟨read, rest, rfl, hne, hwords, startsWithSign_of_joint? hjoint, ?_⟩
        intro joint₁ acc₁ mask₁ scope'
        obtain ⟨v₁, m₁, hterm'⟩ := hread scope'
        refine ⟨joint₁.combine (acc₁ scope') v₁, mask₁ scope' ||| m₁, fun i after hafter => ?_⟩
        have hfirst := hterm' i after trivial
        dsimp only at hfirst
        simp only [evalTerms, hfirst, joint?_eq_none hafter]

theorem evalLevel_takes (levels : Nat) :
    TakesStretch (startsWithSign · = false) fun scope => evalLevel scope levels := by
  induction levels with
  | zero =>
    intro scope index tokens v h
    cases h
  | succ levels ih =>
    intro scope index tokens v h
    obtain ⟨read, rest, htokens, hne, hwords, hsign, hread⟩ :=
      evalTerms_takes ih maxTerms .first false 0 scope index tokens v h
    exact ⟨read, rest, htokens, hne, hwords, hsign, hread .first (fun _ => false) (fun _ => 0)⟩

/-! ## 4. Expressions -/

/-- **What the evaluator takes is an expression**, made of literal tokens, and no sign follows
it. -/
theorem exists_expression_of_evaluate {scope : Scope} {index : Nat} {tokens : List Token} {v : Bool}
    (h : (evaluate scope index tokens).value = .ok v) :
    ∃ read rest : List Token, tokens = read ++ rest ∧ (∀ t ∈ read, t.id ≠ TokenId.eol) ∧
      startsWithSign rest = false ∧ IsExpression read := by
  obtain ⟨read, rest, htokens, -, hwords, hsign, hread⟩ :=
    evalLevel_takes maxTerms scope index tokens v h
  exact ⟨read, rest, htokens, hwords, hsign, hread⟩

end EffectScript
