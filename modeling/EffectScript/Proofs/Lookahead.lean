import EffectScript.Proofs.Tiling

/-!
# Looking ahead by index

The end of a directive is searched for index by index, hidden units or not.  So the search gives in
a text what it gives in the visible text only where no mark is among the tokens that it looks at.
Here the search is shown to depend on these tokens alone, and the places of a text are compared with
those of its visible text.

* `definitionEnd_local` and `expressionEnd_local`: where two texts agree as far as a search looks,
  it gives the same in both;
* `Clear`, the stretches without a mark, with `Clear.tokenAt_eq` and `Clear.stands`;
* `Stands.indexOf?_alike` and `Stands.closingBrace?_alike`: the searches that do step over hidden
  units.
-/

namespace EffectScript

/-! ## 1. What a search depends on -/

section Searches

variable {X Y : List Token} {d lastX lastY : Int}

/-- The end of a definition.  At the end itself the texts need not agree if the range ends there. -/
theorem definitionEnd_local (i : Int)
    (hagree : ∀ m, i ≤ m → m < definitionEnd X lastX i →
      tokenAt Y (m + d) = tokenAt X m ∧ (m < lastX ↔ m + d < lastY))
    (htoken : definitionEnd X lastX i < lastX →
      tokenAt Y (definitionEnd X lastX i + d) = tokenAt X (definitionEnd X lastX i))
    (hlast : lastX ≤ definitionEnd X lastX i → lastY ≤ definitionEnd X lastX i + d) :
    definitionEnd Y lastY (i + d) = definitionEnd X lastX i + d := by
  fun_induction definitionEnd X lastX i with
  | case1 i hmore ih =>
    have hle := le_definitionEnd X lastX (i + 1)
    obtain ⟨heq, hbound⟩ := hagree i (Int.le_refl i) (by omega)
    rw [definitionEnd, if_pos ⟨hbound.mp hmore.1, by rw [heq]; exact hmore.2⟩,
      show i + d + 1 = i + 1 + d by omega]
    exact ih (fun m hm => hagree m (by omega)) htoken hlast
  | case2 i hend =>
    rw [definitionEnd, if_neg]
    rintro ⟨hlt, hother⟩
    by_cases hinside : i < lastX
    · rw [htoken hinside] at hother
      exact hend ⟨hinside, hother⟩
    · have := hlast (by omega)
      omega

/-- A definition that ends inside a text ends there whatever the range is, and so it does in a text
that agrees with it up to there. -/
theorem definitionEnd_inside {i : Int} (hinside : definitionEnd X X.length i < X.length)
    (hagree : ∀ m, i ≤ m → m ≤ definitionEnd X X.length i → tokenAt Y (m + d) = tokenAt X m)
    (hlast : definitionEnd X X.length i + d ≤ lastY) :
    definitionEnd Y lastY (i + d) = definitionEnd X X.length i + d :=
  definitionEnd_local i (fun m hm hm' => ⟨hagree m hm (Int.le_of_lt hm'), by omega⟩)
    (fun _ => hagree _ (le_definitionEnd X X.length i) (Int.le_refl _)) (by omega)

theorem definitionEnd_last {i : Int} (hinside : definitionEnd X X.length i < X.length) :
    definitionEnd X (X.length - 1) i = definitionEnd X X.length i := by
  have hsame := definitionEnd_inside (d := 0) hinside (fun m _ _ => by rw [Int.add_zero])
    (show _ ≤ (X.length : Int) - 1 by omega)
  rwa [Int.add_zero, Int.add_zero] at hsame

/-- The length of a group up to its closer. -/
theorem groupSpan_local (depth : Nat) (i : Int)
    (hagree : ∀ m, i ≤ m → m ≤ i + groupSpan X lastX depth i →
      tokenAt Y (m + d) = tokenAt X m ∧ (m ≤ lastX ↔ m + d ≤ lastY)) :
    groupSpan Y lastY depth (i + d) = groupSpan X lastX depth i := by
  fun_induction groupSpan X lastX depth i with
  | case1 depth i hle hopen ih =>
    obtain ⟨heq, hbound⟩ := hagree i (Int.le_refl i) (by omega)
    rw [groupSpan, dif_pos (hbound.mp hle), if_pos (heq.trans hopen),
      show i + d + 1 = i + 1 + d by omega, ih fun m hm hm' => hagree m (by omega) (by omega)]
  | case2 depth i hle hopen hclose hdepth =>
    obtain ⟨heq, hbound⟩ := hagree i (Int.le_refl i) (by omega)
    rw [groupSpan, dif_pos (hbound.mp hle), heq, if_neg hopen, if_pos hclose, if_pos hdepth]
  | case3 depth i hle hopen hclose hdepth ih =>
    obtain ⟨heq, hbound⟩ := hagree i (Int.le_refl i) (by omega)
    rw [groupSpan, dif_pos (hbound.mp hle), heq, if_neg hopen, if_pos hclose, if_neg hdepth,
      show i + d + 1 = i + 1 + d by omega, ih fun m hm hm' => hagree m (by omega) (by omega)]
  | case4 depth i hle hopen hclose ih =>
    obtain ⟨heq, hbound⟩ := hagree i (Int.le_refl i) (by omega)
    rw [groupSpan, dif_pos (hbound.mp hle), heq, if_neg hopen, if_neg hclose,
      show i + d + 1 = i + 1 + d by omega, ih fun m hm hm' => hagree m (by omega) (by omega)]
  | case5 depth i hlt =>
    obtain ⟨-, hbound⟩ := hagree i (Int.le_refl i) (by omega)
    rw [groupSpan, dif_neg (by omega)]

/-- The end of a term. -/
theorem termEnd_local (i : Int)
    (hagree : ∀ m, i ≤ m → m < termEnd X lastX i →
      tokenAt Y (m + d) = tokenAt X m ∧ (m ≤ lastX ↔ m + d ≤ lastY)) :
    termEnd Y lastY (i + d) = termEnd X lastX i + d := by
  -- The operand starts at `start`, behind a negation or not.
  have hoperand : ∀ start, (∀ m, start ≤ m → m < (if tokenAt X start = .lit TokenId.leftParen then
        start + groupSpan X lastX 0 start + 1 else start + 1) →
      tokenAt Y (m + d) = tokenAt X m ∧ (m ≤ lastX ↔ m + d ≤ lastY)) →
      (if tokenAt Y (start + d) = .lit TokenId.leftParen then
        start + d + groupSpan Y lastY 0 (start + d) + 1 else start + d + 1) =
      (if tokenAt X start = .lit TokenId.leftParen then
        start + groupSpan X lastX 0 start + 1 else start + 1) + d := by
    intro start hstart
    have hfirst : start < (if tokenAt X start = .lit TokenId.leftParen then
        start + groupSpan X lastX 0 start + 1 else start + 1) := by split <;> omega
    rw [(hstart start (Int.le_refl start) hfirst).1]
    split
    · rename_i hparen
      rw [if_pos hparen] at hstart
      rw [groupSpan_local 0 start fun m hm hm' => hstart m hm (by omega)]
      omega
    · omega
  have hlt := lt_termEnd X lastX i
  unfold termEnd at hagree hlt ⊢
  dsimp only at hagree hlt ⊢
  rw [(hagree i (Int.le_refl i) hlt).1]
  by_cases hnot : tokenAt X i = .lit TokenId.notSign
  · rw [if_pos hnot] at hagree
    rw [if_pos hnot, if_pos hnot, show i + d + 1 = i + 1 + d by omega]
    exact hoperand (i + 1) fun m hm => hagree m (by omega)
  · rw [if_neg hnot] at hagree
    rw [if_neg hnot, if_neg hnot]
    exact hoperand i hagree

/-- The end of an expression.  The token there is looked at, but it only matters whether it goes on
with the expression. -/
theorem expressionEnd_local (i : Int)
    (hagree : ∀ m, i ≤ m → m < expressionEnd X lastX i →
      tokenAt Y (m + d) = tokenAt X m ∧ (m ≤ lastX ↔ m + d ≤ lastY))
    (htoken : isJoint (tokenAt Y (expressionEnd X lastX i + d)) = true →
      tokenAt Y (expressionEnd X lastX i + d) = tokenAt X (expressionEnd X lastX i))
    (hlast : lastX < expressionEnd X lastX i → lastY < expressionEnd X lastX i + d) :
    expressionEnd Y lastY (i + d) = expressionEnd X lastX i + d := by
  fun_induction expressionEnd X lastX i with
  | case1 i hle stop sign hjoint hdouble ih =>
    have hend := le_expressionEnd X lastX (stop + 2)
    have hterm : termEnd Y lastY (i + d) = stop + d :=
      termEnd_local i fun m hm hm' => hagree m hm (by omega)
    have hfirst := lt_termEnd X lastX i
    have hsign : tokenAt Y (stop + d) = sign := (hagree stop (by omega) (by omega)).1
    have hnext : tokenAt Y (stop + d + 1) = sign := by
      rw [show stop + d + 1 = stop + 1 + d by omega, (hagree (stop + 1) (by omega) (by omega)).1]
      exact hdouble
    rw [expressionEnd, dif_pos ((hagree i (Int.le_refl i) (by omega)).2.mp hle)]
    dsimp only
    rw [hterm, hsign, if_pos hjoint, if_pos hnext, show stop + d + 2 = stop + 2 + d by omega]
    exact ih (fun m hm => hagree m (by omega)) htoken hlast
  | case2 i hle stop sign hjoint hsingle ih =>
    have hend := le_expressionEnd X lastX (stop + 1)
    have hterm : termEnd Y lastY (i + d) = stop + d :=
      termEnd_local i fun m hm hm' => hagree m hm (by omega)
    have hfirst := lt_termEnd X lastX i
    have hsign : tokenAt Y (stop + d) = sign := (hagree stop (by omega) (by omega)).1
    have hnext : tokenAt Y (stop + d + 1) ≠ sign := by
      intro heq
      rw [show stop + d + 1 = stop + 1 + d by omega] at heq
      rcases Int.lt_or_eq_of_le hend with hlt | heq'
      · exact hsingle ((hagree (stop + 1) (by omega) hlt).1.symm.trans heq)
      · rw [← heq'] at htoken
        exact hsingle ((htoken (by rw [heq]; exact hjoint)).symm.trans heq)
    rw [expressionEnd, dif_pos ((hagree i (Int.le_refl i) (by omega)).2.mp hle)]
    dsimp only
    rw [hterm, hsign, if_pos hjoint, if_neg hnext, show stop + d + 1 = stop + 1 + d by omega]
    exact ih (fun m hm => hagree m (by omega)) htoken hlast
  | case3 i hle stop sign hother =>
    have hterm : termEnd Y lastY (i + d) = stop + d := termEnd_local i hagree
    have hfirst := lt_termEnd X lastX i
    have hsign : ¬ isJoint (tokenAt Y (stop + d)) = true := by
      intro hjoint
      rw [htoken hjoint] at hjoint
      exact hother hjoint
    rw [expressionEnd, dif_pos ((hagree i (Int.le_refl i) hfirst).2.mp hle)]
    dsimp only
    rw [hterm, if_neg hsign]
  | case4 i hlt =>
    have := hlast (by omega)
    rw [expressionEnd, dif_neg (by omega)]

/-- An expression that ends inside a text, in the same way.  A token behind it in the other text
must not go on with it. -/
theorem expressionEnd_inside {i : Int} (hinside : expressionEnd X X.length i ≤ X.length)
    (hagree : ∀ m, i ≤ m → m < expressionEnd X X.length i → tokenAt Y (m + d) = tokenAt X m)
    (htoken : isJoint (tokenAt Y (expressionEnd X X.length i + d)) = true →
      tokenAt Y (expressionEnd X X.length i + d) = tokenAt X (expressionEnd X X.length i))
    (hlast : expressionEnd X X.length i + d ≤ lastY + 1) :
    expressionEnd Y lastY (i + d) = expressionEnd X X.length i + d :=
  expressionEnd_local i (fun m hm hm' => ⟨hagree m hm hm', by omega⟩) htoken (by omega)

theorem expressionEnd_last {i : Int} (hinside : expressionEnd X X.length i ≤ X.length) :
    expressionEnd X (X.length - 1) i = expressionEnd X X.length i := by
  have hsame := expressionEnd_inside (d := 0) hinside (fun m _ _ => by rw [Int.add_zero])
    (fun _ => by rw [Int.add_zero]) (show _ ≤ (X.length : Int) - 1 + 1 by omega)
  rwa [Int.add_zero, Int.add_zero] at hsame

end Searches

/-! ## 2. The visible text -/

/-- The visible tokens of a text, as a text. -/
def shown (tokens : List Token) : List Token := (visible tokens).map .lit

theorem tokenAt_shown_isLit (tokens : List Token) (i : Int) :
    (tokenAt (shown tokens) i).isLit = true := by
  unfold tokenAt shown
  split
  · rfl
  · rw [List.getElem?_map]
    cases (visible tokens)[i.toNat]? <;> rfl

theorem hiddenAt_shown (tokens : List Token) (i : Int) : hiddenAt (shown tokens) i = 0 :=
  hiddenAt_eq_zero_iff.mpr (tokenAt_shown_isLit tokens i)

/-- The tokens from an index on start with `n` that are no marks. -/
def Clear (tokens : List Token) (i : Int) (n : Nat) : Prop :=
  ∀ m : Nat, m < n → (tokenAt tokens (i + m)).isLit = true

/-- A clear stretch goes on with a token that is no mark. -/
theorem Clear.snoc {tokens : List Token} {i : Int} {n : Nat} (hclear : Clear tokens i n)
    (hlit : (tokenAt tokens (i + n)).isLit = true) : Clear tokens i (n + 1) := by
  intro m hm
  rcases Nat.lt_succ_iff_lt_or_eq.mp hm with hlt | rfl
  · exact hclear m hlt
  · exact hlit

theorem isLit_of_isJoint {t : Token} (h : isJoint t = true) : t.isLit = true := by
  cases t with
  | lit id => rfl
  | _ => cases h

section Places

variable {tokens : List Token} {i : Int} {n : Nat} {seen ahead : List TokenId}

/-- The place of a standing index in the visible text. -/
theorem Stands.in_shown (h : Stands tokens i seen ahead) :
    Stands (shown tokens) seen.length seen ahead := by
  have hlits : ∀ ids : List TokenId, WellMarked (ids.map .lit) := by
    intro ids
    refine wellMarked_of_lits ?_
    simp [Token.isLit]
  refine ⟨seen.map .lit, ahead.map .lit, ?_, by simp, hlits seen, visible_map_lit seen, hlits ahead,
    visible_map_lit ahead⟩
  rw [shown, h.visible_eq, List.map_append]

theorem Stands.length_shown (h : Stands tokens i seen ahead) :
    (shown tokens).length = seen.length + ahead.length := by
  rw [shown, List.length_map, h.visible_eq, List.length_append]

/-- In the visible text an index stands behind as many tokens as it counts. -/
theorem Stands.eq_length {k : Int} (h : Stands (shown tokens) k seen ahead) : k = seen.length := by
  have hvisible := h.visible_eq
  have hlow := h.length_seen_le
  have hhigh := h.add_length_le
  rw [shown, visible_map_lit] at hvisible
  rw [shown, List.length_map, hvisible, List.length_append] at hhigh
  omega

/-- Each index of a clear stretch stands behind the visible tokens before it. -/
theorem Clear.stands (hclear : Clear tokens i n) (h : Stands tokens i seen ahead) {m : Nat}
    (hm : m ≤ n)
    (hahead : m ≤ ahead.length) : Stands tokens (i + m) (seen ++ ahead.take m) (ahead.drop m) := by
  induction m with
  | zero => simpa using h
  | succ m ih =>
    have hstands := ih (by omega) (by omega)
    have hzero := hiddenAt_eq_zero_iff.mpr (hclear m (by omega))
    rw [List.drop_eq_getElem_cons (by omega)] at hstands
    obtain ⟨-, hnext⟩ := hstands.at_visible hzero
    rw [List.append_assoc, ← List.take_succ_eq_append_getElem (by omega)] at hnext
    rw [Int.natCast_succ, ← Int.add_assoc]
    exact hnext

/-- A clear stretch that is longer than what is visible goes to the end of the text. -/
theorem Clear.length_eq (hclear : Clear tokens i n) (h : Stands tokens i seen ahead)
    (hn : ahead.length < n) : (tokens.length : Int) = i + ahead.length := by
  have hstands := hclear.stands h (Nat.le_of_lt hn) (Nat.le_refl _)
  rw [List.drop_length] at hstands
  exact (hstands.at_end (hiddenAt_eq_zero_iff.mpr (hclear _ hn))).symm

/-- A clear stretch is the same in the visible text. -/
theorem Clear.tokenAt_eq (hclear : Clear tokens i n) (h : Stands tokens i seen ahead) {m : Nat}
    (hm : m < n) : tokenAt tokens (i + m) = tokenAt (shown tokens) (seen.length + m) := by
  rcases Nat.lt_or_ge m ahead.length with hlt | hge
  · have hstands := hclear.stands h (Nat.le_of_lt hm) (Nat.le_of_lt hlt)
    have hplace := hstands.in_shown.tokenAt_eq (hiddenAt_shown _ _)
    rw [List.length_append, List.length_take, Nat.min_eq_left (Nat.le_of_lt hlt)] at hplace
    rw [hstands.tokenAt_eq (hiddenAt_eq_zero_iff.mpr (hclear m hm))]
    exact hplace.symm
  · have hend := hclear.length_eq h (by omega)
    have hlength := h.length_shown
    rw [tokenAt_of_length_le (by omega), tokenAt_of_length_le (by omega)]

theorem Clear.agree (hclear : Clear tokens i n) (h : Stands tokens i seen ahead) (m : Int)
    (hlow : seen.length ≤ m) (hhigh : m < seen.length + n ∨ ahead.length < n) :
    tokenAt tokens (m + (i - seen.length)) = tokenAt (shown tokens) m := by
  by_cases hm : m < seen.length + n
  · have heq := hclear.tokenAt_eq h (show (m - seen.length).toNat < n by omega)
    rw [show i + ((m - seen.length).toNat : Int) = m + (i - seen.length) by omega,
      show (seen.length : Int) + ((m - seen.length).toNat : Int) = m by omega] at heq
    exact heq
  · have hend := hclear.length_eq h (by omega)
    have hlength := h.length_shown
    rw [tokenAt_of_length_le (by omega), tokenAt_of_length_le (by omega)]

/-! ## 3. Ends of directives -/

/-- A part of a text that starts where `ahead` stands ends at `e`, and in the visible text at
`f`. -/
def EndsAlike (tokens : List Token) (seen ahead : List TokenId) (e f : Int) : Prop :=
  ∃ xs rest, ahead = xs ++ rest ∧ Stands tokens (e + 1) (seen ++ xs) rest ∧
    f + 1 = (seen ++ xs).length

/-- An end that is as far away in the text as in the visible text, and not beyond a clear
stretch. -/
theorem Clear.endsAlike (hclear : Clear tokens i n) (h : Stands tokens i seen ahead)
    (hne : ahead ≠ [])
    {stop stop' : Int} (hlow : seen.length ≤ stop') (hshift : stop = stop' + (i - seen.length))
    (hreach : n ≤ ahead.length → stop' < seen.length + n) :
    EndsAlike tokens seen ahead (min stop (tokens.length - 1))
      (min stop' ((shown tokens).length - 1)) := by
  have hlength := h.length_shown
  have hfits := h.add_length_le
  have hpos := List.length_pos_iff.mpr hne
  obtain ⟨p, hp⟩ : ∃ p : Nat, min stop' ((shown tokens).length - 1) = seen.length + p :=
    ⟨(min stop' ((shown tokens).length - 1) - seen.length).toNat, by omega⟩
  have hpahead : p < ahead.length := by omega
  have hbounds : p < n ∧ min stop (tokens.length - 1) = i + p := by
    rcases Nat.lt_or_ge ahead.length n with hlt | hge
    · have hend := hclear.length_eq h hlt
      omega
    · have := hreach hge
      omega
  refine ⟨ahead.take (p + 1), ahead.drop (p + 1), (List.take_append_drop _ _).symm, ?_, ?_⟩
  · rw [hbounds.2, Int.add_assoc]
    exact hclear.stands h (show p + 1 ≤ n by omega) (show p + 1 ≤ ahead.length by omega)
  · rw [hp, List.length_append, List.length_take]
    omega

/-- The end of a definition, when all tokens of the visible text up to it follow each other in the
text. -/
theorem Clear.definitionEnd_eq (h : Stands tokens i seen ahead) (hne : ahead ≠ [])
    (hclear : Clear tokens i
      (definitionEnd (shown tokens) (shown tokens).length (seen.length + 1) + 1
        - seen.length).toNat) :
    definitionEnd tokens (tokens.length - 1) (i + 1) =
      definitionEnd (shown tokens) ((shown tokens).length - 1) (seen.length + 1)
        + (i - seen.length) := by
  have hlength := h.length_shown
  have hfits := h.add_length_le
  have hpos := List.length_pos_iff.mpr hne
  have hagree := hclear.agree h
  have hend := le_definitionEnd (shown tokens) (shown tokens).length (seen.length + 1)
  rw [show i + 1 = seen.length + 1 + (i - seen.length) by omega]
  by_cases hinside : definitionEnd (shown tokens) (shown tokens).length (seen.length + 1)
      < (shown tokens).length
  · rw [definitionEnd_last hinside]
    exact definitionEnd_inside hinside (fun m hm hm' => hagree m (by omega) (.inl (by omega)))
      (by omega)
  · have hwhole := hclear.length_eq h (by omega)
    refine definitionEnd_local _ (fun m hm hm' => ⟨hagree m (by omega) (.inr (by omega)), by omega⟩)
      ?_ ?_
    · have hstart := le_definitionEnd (shown tokens) ((shown tokens).length - 1) (seen.length + 1)
      exact fun _ => hagree _ (by omega) (.inr (by omega))
    · omega

/-- The end of an expression, when all tokens of the visible text up to it follow each other in the
text. -/
theorem Clear.expressionEnd_eq (h : Stands tokens i seen ahead) (hne : ahead ≠ [])
    (hclear : Clear tokens i
      (expressionEnd (shown tokens) (shown tokens).length (seen.length + 1) - seen.length).toNat) :
    expressionEnd tokens (tokens.length - 1) (i + 1) =
      expressionEnd (shown tokens) ((shown tokens).length - 1) (seen.length + 1)
        + (i - seen.length) := by
  have hlength := h.length_shown
  have hfits := h.add_length_le
  have hpos := List.length_pos_iff.mpr hne
  have hagree := hclear.agree h
  have hend := le_expressionEnd (shown tokens) (shown tokens).length (seen.length + 1)
  rw [show i + 1 = seen.length + 1 + (i - seen.length) by omega]
  by_cases hinside : expressionEnd (shown tokens) (shown tokens).length (seen.length + 1)
      ≤ (shown tokens).length
  · rw [expressionEnd_last hinside]
    refine expressionEnd_inside hinside (fun m hm hm' => hagree m (by omega) (.inl (by omega)))
      (fun hjoint => ?_) (by omega)
    -- A sign behind it is no mark, so it is a visible one.
    refine (hclear.snoc ?_).agree h _ (by omega) (.inl (by omega))
    rw [show i + ((expressionEnd (shown tokens) (shown tokens).length (seen.length + 1)
        - seen.length).toNat : Int)
      = expressionEnd (shown tokens) (shown tokens).length (seen.length + 1)
        + (i - seen.length) by omega]
    exact isLit_of_isJoint hjoint
  · have hwhole := hclear.length_eq h (by omega)
    have hstart := le_expressionEnd (shown tokens) ((shown tokens).length - 1) (seen.length + 1)
    refine expressionEnd_local _ (fun m hm hm' => ⟨hagree m (by omega) (.inr (by omega)), by omega⟩)
      ?_ ?_
    · exact fun _ => hagree _ (by omega) (.inr (by omega))
    · omega

/-- An end at the next token, which a directive has that takes one. -/
theorem Clear.endsAlike_next (hclear : Clear tokens i 2) (h : Stands tokens i seen ahead)
    (hne : ahead ≠ []) :
    EndsAlike tokens seen ahead (min (i + 1) (tokens.length - 1))
      (min (seen.length + 1) ((shown tokens).length - 1)) :=
  hclear.endsAlike h hne (by omega) (by omega) (by omega)

theorem Clear.definitionEnd_alike (h : Stands tokens i seen ahead) (hne : ahead ≠ [])
    (hclear : Clear tokens i
      (definitionEnd (shown tokens) (shown tokens).length (seen.length + 1) + 1
        - seen.length).toNat) :
    EndsAlike tokens seen ahead
      (min (definitionEnd tokens (tokens.length - 1) (i + 1)) (tokens.length - 1))
      (min (definitionEnd (shown tokens) ((shown tokens).length - 1) (seen.length + 1))
        ((shown tokens).length - 1)) := by
  have hlength := h.length_shown
  have hle := le_definitionEnd (shown tokens) (shown tokens).length (seen.length + 1)
  have hle' := le_definitionEnd (shown tokens) ((shown tokens).length - 1) (seen.length + 1)
  rw [hclear.definitionEnd_eq h hne]
  refine hclear.endsAlike h hne (by omega) (by omega) fun hreach => ?_
  rw [definitionEnd_last (by omega)]
  omega

theorem Clear.expressionEnd_alike (h : Stands tokens i seen ahead) (hne : ahead ≠ [])
    (hclear : Clear tokens i
      (expressionEnd (shown tokens) (shown tokens).length (seen.length + 1) - seen.length).toNat) :
    EndsAlike tokens seen ahead
      (min (expressionEnd tokens (tokens.length - 1) (i + 1) - 1) (tokens.length - 1))
      (min (expressionEnd (shown tokens) ((shown tokens).length - 1) (seen.length + 1) - 1)
        ((shown tokens).length - 1)) := by
  have hlength := h.length_shown
  have hle := le_expressionEnd (shown tokens) (shown tokens).length (seen.length + 1)
  have hle' := le_expressionEnd (shown tokens) ((shown tokens).length - 1) (seen.length + 1)
  rw [hclear.expressionEnd_eq h hne]
  refine hclear.endsAlike h hne (by omega) (by omega) fun hreach => ?_
  rw [expressionEnd_last (by omega)]
  omega

/-! ## 4. Searches that step over hidden units -/

/-- Two searches from a standing index, one in the text and one in the visible text, found nothing
or the same visible token. -/
def FoundAlike (tokens : List Token) (i : Int) (seen ahead : List TokenId)
    (found found' : Option Int) : Prop :=
  found = none ∧ found' = none ∨
    ∃ p xs y ys, found = some p ∧ found' = some ↑(seen ++ xs).length ∧ i ≤ p ∧
      ahead = xs ++ y :: ys ∧
      Stands tokens p (seen ++ xs) (y :: ys) ∧ hiddenAt tokens p = 0

/-- A search that does not jump, in the text and in the visible text. -/
theorem Stands.scan_shown {α : Type} (look : α → Token → Move α)
    (hjump : ∀ a t b index, look a t ≠ .jump b index) (h : Stands tokens i seen ahead) (a : α) :
    let p := scan tokens (tokens.length - 1) (fun a _ t => look a t) a i
    let q := scan (shown tokens) ((shown tokens).length - 1) (fun a _ t => look a t) a seen.length
    FoundAlike tokens i seen ahead (if p.stopped then some p.index else none)
      (if q.stopped then some q.index else none) := by
  intro p q
  rcases (Stands.scan_alike look hjump h h.in_shown a).2 with
    ⟨hp, hq⟩ | ⟨hp, hq, hle, xs, y, ys, hahead, hstands, hzero, hplace, -⟩
  · rw [show p.stopped = false from hp, show q.stopped = false from hq]
    exact .inl ⟨rfl, rfl⟩
  · rw [show p.stopped = true from hp, show q.stopped = true from hq]
    exact .inr ⟨p.index, xs, y, ys, rfl, congrArg some hplace.eq_length, hle, hahead,
      hstands, hzero⟩

theorem Stands.indexOf?_alike (h : Stands tokens i seen ahead) (ids : List TokenId) :
    FoundAlike tokens i seen ahead (indexOf? tokens i (tokens.length - 1) ids)
      (indexOf? (shown tokens) seen.length ((shown tokens).length - 1) ids) := by
  unfold indexOf? scanFor
  simp only [Int.min_self, Int.max_eq_left h.nonneg, Int.max_eq_left (Int.natCast_nonneg _)]
  refine h.scan_shown (fun (_ : Unit) t => if t.isLit && ids.contains t.id then .stop ()
    else .next ()) ?_ ()
  intro _ t b index
  split <;> simp

/-- A search from behind a clear stretch on.  Behind the end of the text there are line ends only,
so a stretch that ends with another token is inside it. -/
theorem Clear.indexOf?_alike {id : TokenId} (hclear : Clear tokens i (n + 1))
    (h : Stands tokens i seen ahead)
    (htoken : tokenAt (shown tokens) (seen.length + n) = .lit id) (hid : id ≠ TokenId.eol)
    (ids : List TokenId) :
    FoundAlike tokens (i + (n + 1 : Nat)) (seen ++ ahead.take (n + 1)) (ahead.drop (n + 1))
      (indexOf? tokens (i + (n + 1 : Nat)) (tokens.length - 1) ids)
      (indexOf? (shown tokens) (seen.length + (n + 1 : Nat)) ((shown tokens).length - 1) ids) := by
  have hlength := h.length_shown
  have hinside : n + 1 ≤ ahead.length := by
    rcases Nat.lt_or_ge n ahead.length with hlt | hge
    · exact hlt
    · rw [tokenAt_of_length_le (by omega), Token.lit.injEq] at htoken
      exact absurd htoken.symm hid
  have hstands := hclear.stands h (Nat.le_refl _) hinside
  have hplace : (seen ++ ahead.take (n + 1)).length = seen.length + (n + 1) := by
    rw [List.length_append, List.length_take, Nat.min_eq_left hinside]
  have hfound := hstands.indexOf?_alike ids
  rw [hplace, Int.natCast_add] at hfound
  exact hfound

theorem Stands.closingBrace?_alike (h : Stands tokens i seen ahead) :
    FoundAlike tokens i seen ahead (closingBrace? tokens (tokens.length - 1) i)
      (closingBrace? (shown tokens) ((shown tokens).length - 1) seen.length) := by
  refine h.scan_shown (fun (depth : Nat) t =>
    if t = .lit TokenId.leftBrace then .next (depth + 1)
    else if t = .lit TokenId.rightBrace then
      if depth ≤ 1 then .stop 0 else .next (depth - 1)
    else .next depth) ?_ 0
  intro depth t b index
  split
  · simp
  · split
    · split <;> simp
    · simp

end Places

end EffectScript
