import EffectScript.Proofs.Grammar
import EffectScript.Proofs.Standing

/-!
# The extent of a condition

Two readers have to know where the condition of a directive ends.  The evaluator reads it term by
term, level inside level.  The slicer does not read it: it goes over a term by counting parentheses,
whatever stands between them, and looks for a sign behind it.

Where the evaluator succeeds, the two come to the same place.  Between the parentheses of what it
reads every parenthesis has its partner (`IsLevel.enclosed`), since none of them can be an operand,
and so counting them comes out where reading does (`Enclosed.groupSpan_eq`).  Signs are told apart
alike by both.

Main statement: `expressionEnd_of_evaluate`.
-/

namespace EffectScript

/-! ## 1. Texts in which parentheses have partners -/

/-- A text in which every parenthesis has its partner. -/
inductive Enclosed : List Token → Prop
  | nil : Enclosed []
  | other {t : Token} {rest : List Token} (hleft : t ≠ .lit TokenId.leftParen)
      (hright : t ≠ .lit TokenId.rightParen) : Enclosed rest → Enclosed (t :: rest)
  | group {inner rest : List Token} : Enclosed inner → Enclosed rest →
      Enclosed (.lit TokenId.leftParen :: (inner ++ .lit TokenId.rightParen :: rest))

theorem Enclosed.append {xs ys : List Token} (hx : Enclosed xs) (hy : Enclosed ys) :
    Enclosed (xs ++ ys) := by
  induction hx with
  | nil => exact hy
  | other hleft hright _ ih => exact .other hleft hright ih
  | group hinner _ _ ih =>
    rw [List.cons_append, List.append_assoc, List.cons_append]
    exact .group hinner ih

theorem Sign.enclosed_render (sign : Sign) (doubled : Bool) : Enclosed (sign.render doubled) := by
  have hone : ∀ {rest}, Enclosed rest → Enclosed (.lit sign.id :: rest) := by
    intro rest
    cases sign <;> exact .other (by decide) (by decide)
  cases doubled
  · exact hone .nil
  · exact hone (hone .nil)

/-- **In what the evaluator reads every parenthesis has its partner.** -/
theorem IsLevel.enclosed {levels left : Nat} {operands : List TokenId} {read : List Token}
    (h : IsLevel levels left operands read) : Enclosed read := by
  -- The three kinds of text are defined together, so the induction is over all of them.
  refine @IsLevel.rec (fun _ _ read _ => Enclosed read) (fun _ _ read _ => Enclosed read)
    (fun _ _ _ read _ => Enclosed read) ?_ ?_ ?_ ?_ ?_ ?_ levels left operands read h
  · intro levels id hid
    simp only [TokenId.standsAsOperand, Bool.not_eq_true', Bool.or_eq_false_iff,
      decide_eq_false_iff_not] at hid
    exact .other (by simp [hid]) (by simp [hid]) .nil
  · intro levels operands inside _ hinside
    exact .group hinside .nil
  · intro levels operands read _ _ hread
    exact hread
  · intro levels operands read _ hread
    exact .other (by decide) (by decide) hread
  · intro levels left operands read _ hread
    exact hread
  · intro levels left operands others read rest _ sign doubled _ _ hread hrest
    exact hread.append ((sign.enclosed_render doubled).append hrest)

/-! ## 2. Counting parentheses -/

section Counting

variable {tokens : List Token} {last i : Int} {text after : List Token}

/-- **The count goes over an enclosed text as a whole**, at any depth inside a group. -/
theorem Enclosed.groupSpan_eq (h : Enclosed text) (depth : Nat)
    (hrest : Rest tokens i (text ++ after)) (hlast : i + text.length ≤ last + 1) :
    groupSpan tokens last (depth + 1) i
      = text.length + groupSpan tokens last (depth + 1) (i + text.length) := by
  induction h generalizing depth i after with
  | nil => simp
  | @other t rest hleft hright _ ih =>
    rw [List.length_cons] at hlast ⊢
    have hnext := ih depth hrest.tail (by omega)
    rw [groupSpan, dif_pos (by omega), hrest.tokenAt_eq]
    rw [show (t :: rest ++ after).head?.getD (.lit TokenId.eol) = t from rfl, if_neg hleft,
      if_neg hright, hnext, show i + 1 + (rest.length : Int)
        = i + ((rest.length + 1 : Nat) : Int) by omega]
    omega
  | @group inner rest _ _ ihinner ih =>
    simp only [List.length_cons, List.length_append] at hlast ⊢
    rw [List.cons_append, List.append_assoc] at hrest
    have hopen := ihinner (depth + 1) hrest.tail (by omega)
    have hclose := hrest.tail.append
    have hnext := ih depth hclose.tail (by omega)
    rw [groupSpan, dif_pos (by omega), hrest.tokenAt_eq, List.head?_cons,
      Option.getD_some, if_pos rfl, hopen, groupSpan, dif_pos (by omega), hclose.tokenAt_eq]
    rw [show (.lit TokenId.rightParen :: rest ++ after).head?.getD (.lit TokenId.eol)
      = Token.lit TokenId.rightParen from rfl, if_neg (by decide), if_pos rfl, if_neg (by omega),
      Nat.add_sub_cancel, hnext, show i + 1 + (inner.length : Int) + 1 + rest.length
        = i + ((inner.length + (rest.length + 1) + 1 : Nat) : Int) by omega]
    omega

/-- The end of a group, counted from its opening parenthesis. -/
theorem Enclosed.groupSpan_group (h : Enclosed text)
    (hrest : Rest tokens i (.lit TokenId.leftParen :: (text ++ .lit TokenId.rightParen :: after)))
    (hlast : i + text.length + 1 ≤ last) : groupSpan tokens last 0 i = text.length + 1 := by
  have hclose := hrest.tail.append
  rw [groupSpan, dif_pos (by omega), hrest.tokenAt_eq, List.head?_cons,
    Option.getD_some, if_pos rfl,
    h.groupSpan_eq 0 hrest.tail (by omega), groupSpan, dif_pos (by omega), hclose.tokenAt_eq,
    List.head?_cons, Option.getD_some, if_neg (by decide), if_pos rfl, if_pos (by omega)]

/-! ## 3. Terms and levels -/

/-- The index behind an operand, be it an id or a group. -/
theorem IsOperand.end_eq {levels : Nat} {operands : List TokenId} {read : List Token}
    (h : IsOperand levels operands read) (hrest : Rest tokens i (read ++ after))
    (hlast : i + read.length ≤ last + 1) :
    (if tokenAt tokens i = .lit TokenId.leftParen then i + groupSpan tokens last 0 i + 1 else i + 1)
      = i + read.length := by
  cases h with
  | id hid =>
    simp only [TokenId.standsAsOperand, Bool.not_eq_true', Bool.or_eq_false_iff,
      decide_eq_false_iff_not] at hid
    rw [hrest.tokenAt_eq, if_neg (by simpa using hid.1.1)]
    rfl
  | @group _ _ inside hinside =>
    rw [List.cons_append, List.append_assoc, List.singleton_append] at hrest
    simp only [List.length_cons, List.length_append, List.length_nil] at hlast ⊢
    rw [hrest.tokenAt_eq, List.head?_cons, Option.getD_some, if_pos rfl,
      hinside.enclosed.groupSpan_group hrest (by omega)]
    omega

/-- **Both come to the same end of a term.** -/
theorem IsTerm.termEnd_eq {levels : Nat} {operands : List TokenId} {read : List Token}
    (h : IsTerm levels operands read) (hrest : Rest tokens i (read ++ after))
    (hlast : i + read.length ≤ last + 1) : termEnd tokens last i = i + read.length := by
  unfold termEnd
  dsimp only
  cases h with
  | plain h hnot =>
    have hhead : tokenAt tokens i ≠ .lit TokenId.notSign := by
      rw [hrest.tokenAt_eq, h.head?_append]
      cases h <;> simpa using hnot
    rw [if_neg hhead]
    exact h.end_eq hrest hlast
  | @negated _ _ read h =>
    rw [List.length_cons] at hlast ⊢
    rw [hrest.tokenAt_eq, List.cons_append, List.head?_cons, Option.getD_some, if_pos rfl,
      h.end_eq hrest.tail (by omega)]
    omega

/-- Both tell alike whether a sign follows. -/
theorem isJoint_eq (hrest : Rest tokens i after) :
    isJoint (tokenAt tokens i) = startsWithSign after := by
  rw [hrest.tokenAt_eq]
  rcases after with _ | ⟨⟨id⟩ | _ | _ | _, rest⟩
  · rfl
  · rw [List.head?_cons, Option.getD_some, isJoint, startsWithSign, Bool.eq_iff_iff]
    simp
  · rfl
  · rfl
  · rfl

/-- A sign, single or doubled, carries the expression on behind it. -/
theorem expressionEnd_sign {stop : Int} {more : List Token} (sign : Sign) (doubled : Bool)
    (hle : i ≤ last) (hstop : termEnd tokens last i = stop)
    (hrest : Rest tokens stop (sign.render doubled ++ more))
    (hsign : doubled = false → more.head? ≠ some (.lit sign.id)) :
    expressionEnd tokens last i
      = expressionEnd tokens last (stop + (sign.render doubled).length) := by
  rw [expressionEnd, dif_pos hle]
  dsimp only
  rw [hstop, isJoint_eq hrest]
  cases doubled with
  | true =>
    have hsecond := hrest.tail.tokenAt_eq
    rw [hrest.tokenAt_eq, hsecond]
    cases sign <;> rfl
  | false =>
    have hsecond : tokenAt tokens (stop + 1) ≠ .lit sign.id := by
      have hne := hsign rfl
      rw [hrest.tail.tokenAt_eq]
      rcases more with _ | ⟨t, rest⟩
      · cases sign <;> decide
      · simpa using hne
    rw [hrest.tokenAt_eq]
    cases sign <;> exact (if_pos rfl).trans (if_neg hsecond)

/-- **Both come to the same end of a level**, when no sign carries it on. -/
theorem IsLevel.expressionEnd_eq {levels left : Nat} {operands : List TokenId} {read : List Token}
    (h : IsLevel levels left operands read) (hrest : Rest tokens i (read ++ after))
    (hafter : startsWithSign after = false) (hlast : i + read.length ≤ last + 1) :
    expressionEnd tokens last i = i + read.length := by
  have hpos := lt_termEnd tokens last i
  induction left generalizing i operands read with
  | zero => cases h
  | succ left ih =>
    cases h with
    | last h =>
      have hend := h.termEnd_eq hrest hlast
      rw [expressionEnd, dif_pos (by omega)]
      dsimp only
      rw [hend, isJoint_eq hrest.append, hafter, if_neg Bool.false_ne_true]
    | @more _ _ first others read more h sign doubled hsign hmore =>
      rw [List.append_assoc, List.append_assoc] at hrest
      simp only [List.length_append] at hlast ⊢
      have hend : termEnd tokens last i = i + read.length := h.termEnd_eq hrest (by omega)
      have hbehind := hrest.append
      have hsingle : doubled = false → (more ++ after).head? ≠ some (.lit sign.id) := by
        intro hdoubled
        rw [hmore.head?_append]
        exact hsign hdoubled
      rw [expressionEnd_sign sign doubled (by omega) hend hbehind hsingle,
        ih hmore hbehind.append (by omega) (lt_termEnd tokens last _)]
      omega

end Counting

/-! ## 4. The whole buffer -/

/-- **The slicer and the evaluator agree on the extent of a condition.**  Where the evaluator
succeeds, in any scope, the slicer takes the condition to end where reading it did. -/
theorem expressionEnd_of_evaluate (s : Slicer) (hspan : s.frame.last = s.tokens.length - 1)
    (scope : Scope) (pos : Nat) (v : Bool)
    (h : (evaluate scope pos (s.tokens.drop pos)).value = .ok v) :
    expressionEnd s.tokens s.frame.last pos = (evaluate scope pos (s.tokens.drop pos)).stop := by
  obtain ⟨operands, read, after, mask, hsplit, ⟨inner, -, hread⟩, hafter, heq⟩ :=
    (evalLevel_exactly scope maxTerms).sound _ _ _ h
  have hrest : Rest s.tokens pos (read ++ after) := hsplit ▸ Rest.drop s.tokens pos
  have hstop : (evaluate scope pos (s.tokens.drop pos)).stop = pos + read.length :=
    congrArg Verdict.stop heq
  have hne : read ≠ [] := by
    rintro rfl
    have hhead := hread.head?_append [.skipOne]
    cases hhead
  have hlength := congrArg List.length hsplit
  rw [List.length_drop, List.length_append] at hlength
  have hpos := List.length_pos_iff.mpr hne
  rw [hstop, hread.expressionEnd_eq hrest hafter (by omega), Int.natCast_add]

/-- `!(A | B) && C` behind a directive: the slicer goes over the group by its parentheses. -/
theorem expressionEnd_of_evaluate_group :
    let tokens : List Token := [.lit TokenId.ifTest, .lit TokenId.notSign, .lit TokenId.leftParen,
      .lit 100, .lit TokenId.orSign, .lit 101, .lit TokenId.rightParen, .lit TokenId.andSign,
      .lit TokenId.andSign, .lit 102, .lit 103]
    let s := Slicer.ofTokens tokens ⟨[]⟩
    s.frame.last = s.tokens.length - 1 ∧ (evaluate [] 1 (s.tokens.drop 1)).value = .ok false ∧
      expressionEnd s.tokens s.frame.last 1 = 10 := by
  intro tokens s
  have hvalue : (evaluate [] 1 (s.tokens.drop 1)).value = .ok false := rfl
  exact ⟨rfl, hvalue, expressionEnd_of_evaluate s rfl [] 1 false hvalue⟩

end EffectScript
