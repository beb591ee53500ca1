import EffectScript.Proofs.LineReading
import EffectScript.Proofs.Pasting

/-!
# Conditions and lines

The tokens of a script know nothing of lines, but for the ends of definitions.  The condition of a
directive is the longest expression behind it, and goes on into the next line when that line starts
with a sign, or when the own line of the directive breaks off.

So a condition ends with its line exactly when its line holds a whole condition and nothing goes on
with it (`EndsWithin`).  Then the lines below have no say in it: with other lines there, a pass
comes to the directive alike, decides alike and takes the same tokens for the condition.

Main statement: `condition_ends_with_line`.  `condition_crosses_line` is a condition that goes on.
-/

namespace EffectScript

/-! ## 1. The rest of a line -/

/-- Whether no line ends in front of the next item of a text. -/
def staysOnLine (text : Bytes) : Bool :=
  !(text.take (text.length - (Lexeme.skipBlank text).length)).contains Lexeme.newline

namespace Script

/-- Reading goes on over the items that are left on a line, to the end of the line. -/
inductive ReadsLine (total : Nat) :
    Bytes → SpellingTable → List TokenId → Bytes → SpellingTable → Prop
  | ends {text : Bytes} {table : SpellingTable}
      (h : staysOnLine text = false ∨ Item.next? total text = .ok none) :
      ReadsLine total text table [] text table
  | item {text rest rest' : Bytes} {table table₁ table₂ : SpellingTable} {item : Item}
      {ids more : List TokenId} (h : staysOnLine text)
      (hitem : Item.next? total text = .ok (some (item, rest)))
      (hintern : internItem table item = .ok (ids, table₁))
      (hmore : ReadsLine total rest table₁ more rest' table₂) :
      ReadsLine total text table (ids ++ more) rest' table₂

variable {total : Nat} {text rest : Bytes} {table table₁ table₂ : SpellingTable}
  {ids more : List TokenId}

theorem ReadsLine.readsOn (h : ReadsLine total text table ids rest table₁) :
    ReadsOn total text table ids rest table₁ := by
  induction h with
  | ends => exact .refl _ _
  | item _ hitem hintern _ ih => exact .item hitem hintern ih

/-- In a text that is read, every line comes to its end. -/
theorem exists_readsLine (h : readFrom total text table = .ok (ids, table₁)) :
    ∃ own below table₂, ReadsLine total text table own below table₂ := by
  fun_induction readFrom total text table generalizing ids table₁ with
  | case1 => cases h
  | case2 text table hnone => exact ⟨[], text, table, .ends (.inr hnone)⟩
  | case3 => cases h
  | case4 => cases h
  | case5 text table item rest hitem first table₂ hfirst more table₃ hmore ih =>
    by_cases hline : staysOnLine text
    · obtain ⟨own, below, table', hown⟩ := ih hmore
      exact ⟨_, below, table', .item hline hitem hfirst hown⟩
    · exact ⟨[], text, table, .ends (.inl (Bool.eq_false_iff.mpr hline))⟩

end Script

/-! ## 2. Conditions that end within a part of a text -/

/-- The tokens start with a whole condition, and the text beneath them does not go on with it. -/
def EndsWithin (own beneath : List Token) : Prop :=
  (∃ v, (evaluate [] 0 own).value = .ok v) ∧
    startsWithSign ((evaluate [] 0 own).rest ++ beneath) = false

section Within

variable {own beneath : List Token}

theorem startsWithSign_of_append {left : List Token}
    (h : startsWithSign (left ++ beneath) = false) : startsWithSign left = false := by
  cases left with
  | nil => rfl
  | cons t rest => cases t <;> exact h

/-- A condition that ends within a part of a text is an expression there, in front of no sign. -/
theorem EndsWithin.exists_expression (h : EndsWithin own beneath) :
    ∃ read left, own = read ++ left ∧ IsExpression read ∧
      (evaluate [] 0 own).stop = read.length ∧ (evaluate [] 0 own).rest = left ∧
      startsWithSign (left ++ beneath) = false := by
  obtain ⟨⟨v, hvalue⟩, hsign⟩ := h
  obtain ⟨read, left, rfl, -, hleft, hread⟩ := exists_expression_of_evaluate hvalue
  obtain ⟨v', mask, heq⟩ := hread.rest_eq left hleft [] 0
  rw [heq] at hsign
  refine ⟨read, left, rfl, hread, ?_, ?_, hsign⟩
  · rw [heq, Nat.zero_add]
  · rw [heq]

/-- Where it ends has to do with the part alone. -/
theorem EndsWithin.of_expression {read left : List Token} (hown : own = read ++ left)
    (hread : IsExpression read) (hsign : startsWithSign (left ++ beneath) = false) :
    EndsWithin own beneath := by
  subst hown
  obtain ⟨v, mask, heq⟩ := hread.rest_eq left (startsWithSign_of_append hsign) [] 0
  refine ⟨⟨v, ?_⟩, ?_⟩
  · rw [heq]
  · rw [heq]
    exact hsign

/-- **A condition stays within a part of a text exactly when it ends there.** -/
theorem evaluate_stop_le_iff {scope : Scope} {index : Nat} {v : Bool}
    (h : (evaluate scope index (own ++ beneath)).value = .ok v) :
    (evaluate scope index (own ++ beneath)).stop ≤ index + own.length ↔ EndsWithin own beneath := by
  constructor
  · intro hstop
    obtain ⟨read, more, htokens, -, hsign, hread⟩ := exists_expression_of_evaluate h
    obtain ⟨v', mask, heq⟩ := hread.rest_eq more hsign scope index
    rw [htokens, heq] at hstop
    dsimp only at hstop
    obtain ⟨left, hown, rfl⟩ : ∃ left, own = read ++ left ∧ more = left ++ beneath := by
      obtain ⟨left, hown⟩ : read <+: own :=
        List.prefix_of_prefix_length_le ⟨more, htokens.symm⟩ ⟨beneath, rfl⟩ (by omega)
      refine ⟨left, hown.symm, ?_⟩
      rw [← hown, List.append_assoc] at htokens
      exact (List.append_cancel_left htokens).symm
    exact .of_expression hown hread hsign
  · intro hends
    obtain ⟨read, left, rfl, hread, -, -, hsign⟩ := hends.exists_expression
    obtain ⟨v', mask, heq⟩ := hread.rest_eq (left ++ beneath) hsign scope index
    rw [List.append_assoc, heq, List.length_append]
    dsimp only
    omega

end Within

/-! ## 3. What the lines below have to say -/

section Below

variable {σ : Type} {around : Surroundings σ} {pass : Pass} {path : List Bytes} {base index : Nat}
  {id : TokenId} {d : Directive} {own beneath beneath' : List Token} {s : PassState σ}

/-- The operands of a directive whose condition ends within a part of a text. -/
theorem operands_within (htest : d.isTest) {read left : List Token} (hread : IsExpression read)
    (hsign : startsWithSign left = false) : d.operands (read ++ left) = read := by
  obtain ⟨v, mask, heq⟩ := hread.rest_eq left hsign [] 0
  have htake : (read ++ left).take (evaluate [] 0 (read ++ left)).stop = read := by
    rw [heq, Nat.zero_add, List.take_left]
  cases d <;> first | exact htake | cases htest

/-- **A directive whose condition ends within a part of a text decides by that part**, whatever
stands beneath, and takes the condition from there. -/
theorem exists_ruling_within (hid : Directive.ofId? id = some d) (htest : d.isTest)
    (hends : EndsWithin own beneath) (hends' : EndsWithin own beneath')
    (hgoes : ∀ e t, step around pass path base index (.lit id) (own ++ beneath) s ≠ .fail e t) :
    ∃ n ≤ own.length, ∃ r : Ruling σ,
      step around pass path base index (.lit id) (own ++ beneath) s
        = r.toStep (.lit id :: (own ++ beneath)) (n + 1) ∧
      step around pass path base index (.lit id) (own ++ beneath') s
        = r.toStep (.lit id :: (own ++ beneath')) (n + 1) := by
  obtain ⟨read, left, hown, hread, -, hleft, hsign⟩ := hends.exists_expression
  have hsign' := hends'.2
  rw [hleft] at hsign'
  have hbranches : d.branches := by cases d <;> first | rfl | cases htest
  subst hown
  rw [List.append_assoc] at hgoes ⊢
  rw [step_directive hid] at hgoes ⊢
  obtain ⟨-, -, -, -, r₀, hrule⟩ := exists_ruling hbranches hgoes
  obtain ⟨r, -, -, hgo⟩ := hrule index s (.refl s)
  rw [operands_within htest hread hsign] at hgo
  refine ⟨read.length, ?_, r, hgo _ fun _ => hsign, ?_⟩
  · rw [List.length_append]
    omega
  · rw [List.append_assoc, step_directive hid]
    exact hgo _ fun _ => hsign'

end Below

/-- A pass that comes to the directive in front of `own` and `beneath` comes to it alike with
`beneath'` in the place of `beneath`: with the same output, in the same state.  There it comes to
the same ruling, and takes the same tokens of `own` for the directive. -/
def DecidesAlike (before : List Token) (id : TokenId) (own beneath beneath' : List Token) : Prop :=
  ∀ {σ : Type} (around : Surroundings σ) (pass : Pass)
    (enter : Bytes → List Token → PassState σ → PassResult σ) (path : List Bytes) (base index : Nat)
    (s₀ s : PassState σ) (shown : List Token),
    Passes around pass enter path base ⟨0, before ++ .lit id :: (own ++ beneath), s₀⟩ shown
      ⟨index, .lit id :: (own ++ beneath), s⟩ →
    (∀ e t, step around pass path base index (.lit id) (own ++ beneath) s ≠ .fail e t) →
    Passes around pass enter path base ⟨0, before ++ .lit id :: (own ++ beneath'), s₀⟩ shown
      ⟨index, .lit id :: (own ++ beneath'), s⟩ ∧
    ∃ n ≤ own.length, ∃ r : Ruling σ,
      step around pass path base index (.lit id) (own ++ beneath) s
        = r.toStep (.lit id :: (own ++ beneath)) (n + 1) ∧
      step around pass path base index (.lit id) (own ++ beneath') s
        = r.toStep (.lit id :: (own ++ beneath')) (n + 1)

theorem decidesAlike_within {id : TokenId} {d : Directive} {own beneath beneath' : List Token}
    (hid : Directive.ofId? id = some d) (htest : d.isTest) (hends : EndsWithin own beneath)
    (hends' : EndsWithin own beneath') (before : List Token) :
    DecidesAlike before id own beneath beneath' := by
  intro σ around pass enter path base index s₀ s shown hcomes hgoes
  constructor
  · exact hcomes.of_tail rfl rfl _
  · exact exists_ruling_within hid htest hends hends' hgoes

/-! ## 4. Sources -/

namespace Script

variable {source : Bytes} {script : Script} {ids : List TokenId} {rest : Bytes}
  {table : SpellingTable}

/-- What is read from the front of a source is the front of its script. -/
theorem ReadsOn.exists_beneath
    (h : ReadsOn (text source).length (text source) .empty ids rest table)
    (hread : read source = .ok script) :
    ∃ beneath, script.ids = ids ++ beneath ∧
      readFrom (text source).length rest table = .ok (beneath, script.table) :=
  h.readFrom_eq (readFrom_of_read hread)

/-- It is so in another source that is the same up to the end of a line behind it. -/
theorem ReadsOn.exists_beneath_of_sameLine {source' : Bytes} {script' : Script}
    {front rest' : Bytes} (h : ReadsOn (text source).length (text source) .empty ids rest table)
    (hread : read source' = .ok script') (hfront : text source = front ++ rest)
    (hfront' : text source' = front ++ rest') (hsame : SameLine rest rest') :
    ∃ beneath, script'.ids = ids ++ beneath := by
  obtain ⟨taken, htaken, hlocal⟩ := h.exists_stretch
  obtain rfl : taken = front := List.append_cancel_right (htaken.symm.trans hfront)
  have honward := hlocal (text source').length rest' hsame
  rw [← hfront'] at honward
  obtain ⟨beneath, hids, -⟩ := honward.exists_beneath hread
  exact ⟨beneath, hids⟩

end Script

/-- **A condition ends with its line exactly when its line holds a whole condition**, and the next
line does not go on with it.  Then the lines below have no say in it: in another source that is the
same up to the end of that line, and whose lines below do not go on with the condition either, the
directive is decided alike and takes the same tokens. -/
theorem condition_ends_with_line {source : Bytes} {script : Script}
    (hread : Script.read source = .ok script) {before : List TokenId} {id : TokenId} {d : Directive}
    {behind : Bytes} {table : SpellingTable}
    (hdirective : Script.ReadsOn (Script.text source).length (Script.text source) .empty
      (before ++ [id]) behind table)
    (hid : Directive.ofId? id = some d) (htest : d.isTest) :
    let tokens := fun ids : List TokenId => ids.map Token.lit
    let Own := Script.ReadsLine (Script.text source).length behind table
    (∃ own below table', Own own below table') ∧
    ∀ own below table', Own own below table' →
      ∃ beneath, script.ids = before ++ id :: (own ++ beneath) ∧
        (∀ scope index v, (evaluate scope index (tokens own ++ tokens beneath)).value = .ok v →
          ((evaluate scope index (tokens own ++ tokens beneath)).stop ≤ index + own.length
            ↔ EndsWithin (tokens own) (tokens beneath))) ∧
        (EndsWithin (tokens own) (tokens beneath) →
          ∀ source' script' front below', Script.read source' = .ok script' →
            Script.text source = front ++ below → Script.text source' = front ++ below' →
            SameLine below below' →
            ∃ beneath', script'.ids = before ++ id :: (own ++ beneath') ∧
              (EndsWithin (tokens own) (tokens beneath') →
                DecidesAlike (tokens before) id (tokens own) (tokens beneath)
                  (tokens beneath'))) := by
  intro tokens Own
  obtain ⟨after, -, hafter⟩ := hdirective.exists_beneath hread
  refine ⟨Script.exists_readsLine hafter, fun own below table' hown => ?_⟩
  have hline := hdirective.trans hown.readsOn
  obtain ⟨beneath, hids, -⟩ := hline.exists_beneath hread
  refine ⟨beneath, by rw [hids]; simp, fun scope index v hvalue => ?_, ?_⟩
  · have hiff := evaluate_stop_le_iff hvalue
    rw [List.length_map] at hiff
    exact hiff
  · intro hends source' script' front below' hread' hfront hfront' hsame
    obtain ⟨beneath', hids'⟩ := hline.exists_beneath_of_sameLine hread' hfront hfront' hsame
    exact ⟨beneath', by rw [hids']; simp, fun hends' =>
      decidesAlike_within hid htest hends hends' (tokens before)⟩

theorem readFrom_endif_line (total : Nat) :
    Script.readFrom total (0x0A :: Bytes.ofString "#endif") .empty
      = .ok ([TokenId.endif] ++ [], .empty) :=
  Script.readFrom_item (by cbv) (by cbv) (Script.readFrom_end (by cbv) _)

theorem readFrom_semicolon_line (total : Nat) :
    Script.readFrom total (0x0A :: 0x3B :: 0x0A :: Bytes.ofString "#endif") .empty
      = .ok ([TokenId.semicolon] ++ ([TokenId.endif] ++ []), .empty) :=
  Script.readFrom_item (by cbv) (by cbv) (readFrom_endif_line total)

theorem readsOn_if : Script.ReadsOn 14 (Bytes.ofString "#if 1\n;\n#endif") .empty
    ([TokenId.ifTest] ++ []) (Bytes.ofString " 1\n;\n#endif") .empty :=
  .item (by cbv) (by cbv) (.refl _ _)

theorem readsLine_one : Script.ReadsLine 14 (Bytes.ofString " 1\n;\n#endif") .empty
    ([TokenId.one] ++ []) (Bytes.ofString "\n;\n#endif") .empty :=
  .item (by cbv) (by cbv) (by cbv) (.ends (.inl (by cbv)))

/-- A condition on its line, with one line below it and then with none. -/
theorem condition_ends_with_line_kept :
    Script.read (Bytes.ofString "#if 1\n;\n#endif")
        = .ok ⟨[TokenId.ifTest, TokenId.one, TokenId.semicolon, TokenId.endif], .empty⟩ ∧
      Script.read (Bytes.ofString "#if 1\n#endif")
        = .ok ⟨[TokenId.ifTest, TokenId.one, TokenId.endif], .empty⟩ ∧
      DecidesAlike [] TokenId.ifTest [.lit TokenId.one]
        [.lit TokenId.semicolon, .lit TokenId.endif] [.lit TokenId.endif] := by
  have hends : EndsWithin [.lit TokenId.one] [.lit TokenId.semicolon, .lit TokenId.endif] :=
    ⟨⟨_, by cbv⟩, by cbv⟩
  have hends' : EndsWithin [.lit TokenId.one] [.lit TokenId.endif] := ⟨⟨_, by cbv⟩, by cbv⟩
  have hread : Script.read (Bytes.ofString "#if 1\n;\n#endif")
      = .ok ⟨[TokenId.ifTest, TokenId.one, TokenId.semicolon, TokenId.endif], .empty⟩ :=
    Script.read_of_readFrom ⟨by decide, rfl⟩ (readFrom_if_one (readFrom_semicolon_line 14))
  have hread' : Script.read (Bytes.ofString "#if 1\n#endif")
      = .ok ⟨[TokenId.ifTest, TokenId.one, TokenId.endif], .empty⟩ :=
    Script.read_of_readFrom ⟨by decide, rfl⟩ (readFrom_if_one (readFrom_endif_line 12))
  have hsame : SameLine (Bytes.ofString "\n;\n#endif") (Bytes.ofString "\n#endif") :=
    ⟨[], Bytes.ofString ";\n#endif", Bytes.ofString "#endif", rfl, rfl⟩
  have hid : Directive.ofId? TokenId.ifTest = some (.ifTest false false) := rfl
  obtain ⟨-, hline⟩ := @condition_ends_with_line _ _ hread [] _ _ _ _ readsOn_if hid rfl
  obtain ⟨beneath, hbeneath, -, halike⟩ := hline _ _ _ readsLine_one
  obtain rfl : [TokenId.semicolon, TokenId.endif] = beneath :=
    (List.cons.inj (List.cons.inj hbeneath).2).2
  obtain ⟨beneath', hbeneath', halike'⟩ :=
    halike hends _ _ (Bytes.ofString "#if 1") _ hread' rfl rfl hsame
  obtain rfl : [TokenId.endif] = beneath' := (List.cons.inj (List.cons.inj hbeneath').2).2
  exact ⟨hread, hread', halike' hends'⟩

theorem readsLine_zero : Script.ReadsLine 17 (Bytes.ofString " 0\n|1\n;\n#endif") .empty
    ([TokenId.zero] ++ []) (Bytes.ofString "\n|1\n;\n#endif") .empty :=
  .item (by cbv) (by cbv) (by cbv) (.ends (.inl (by cbv)))

theorem readFrom_or_one_line : Script.readFrom 17 (Bytes.ofString "\n|1\n;\n#endif") .empty
    = .ok ([TokenId.orSign] ++ ([TokenId.one] ++ ([TokenId.semicolon] ++ ([TokenId.endif] ++ []))),
        .empty) :=
  Script.readFrom_item (by cbv) (by cbv)
    (Script.readFrom_item (by cbv) (by cbv) (readFrom_semicolon_line 17))

theorem readFrom_if_zero : Script.readFrom 17 (Bytes.ofString "#if 0\n|1\n;\n#endif") .empty
    = .ok ([TokenId.ifTest] ++ ([TokenId.zero] ++ [TokenId.orSign, TokenId.one, TokenId.semicolon,
        TokenId.endif]), .empty) :=
  Script.readFrom_item (by cbv) (by cbv)
    (Script.readFrom_item (by cbv) (by cbv) readFrom_or_one_line)

/-- A condition that goes on in the next line: what its own line says is not what holds, and the
text in the branch is shown. -/
theorem condition_crosses_line :
    let around : Surroundings Unit := ⟨.empty, fun _ => none, none⟩
    let bare : PassState Unit := ⟨.empty, .empty, .empty, [], [], [], ()⟩
    let own : List Token := [.lit TokenId.zero]
    let beneath : List Token := [.lit TokenId.semicolon, .lit TokenId.endif]
    let onward : List Token := .lit TokenId.orSign :: .lit TokenId.one :: beneath
    Script.read (Bytes.ofString "#if 0\n|1\n;\n#endif") = .ok ⟨[TokenId.ifTest, TokenId.zero,
        TokenId.orSign, TokenId.one, TokenId.semicolon, TokenId.endif], .empty⟩ ∧
      Script.ReadsLine 17 (Bytes.ofString " 0\n|1\n;\n#endif") .empty [TokenId.zero]
        (Bytes.ofString "\n|1\n;\n#endif") .empty ∧
      (evaluate [] 0 own).value = .ok false ∧
      (evaluate [] 0 (own ++ onward)).value = .ok true ∧ (evaluate [] 0 (own ++ onward)).stop = 3 ∧
      (∃ out s, process around .first 1 [] [] (.lit TokenId.ifTest :: (own ++ onward)) bare
        = (.ok out, s) ∧ visible out = [TokenId.semicolon]) ∧
      ∃ out s, process around .first 1 [] [] (.lit TokenId.ifTest :: (own ++ beneath)) bare
        = (.ok out, s) ∧ visible out = [] := by
  intro around bare own beneath onward
  exact ⟨Script.read_of_readFrom ⟨by decide, rfl⟩ readFrom_if_zero, readsLine_zero,
    by cbv, by cbv, by cbv, ⟨_, _, by cbv, by cbv⟩, _, _, by cbv, by cbv⟩

end EffectScript
