import Mathlib
import EffectScript.Proofs.Lookahead

/-!
# Hidden units and the walk

A walk over a text should see what is visible and nothing else: the steps over a text would give and
record what the steps over its visible text do.  They do not always.  Here is where a hidden unit
makes a difference (`Undisturbed`), and that it makes none elsewhere.

* A global is named by the token right in front of its end.
* The end of a directive is searched for index by index.
* The name of a function and its parenthesis are looked for at the two indices behind the type.
* The shortest of all functions is one only if its text goes on, be it with something hidden.

Main statement: `walk_shown`.  Each of the four conditions is needed: `walk_disturbed`.
-/

namespace EffectScript

/-! ## 1. Where a hidden unit makes a difference -/

/-- There is a visible token at an index. -/
def IsVisible (tokens : List Token) (i : Int) : Prop :=
  ∃ seen ahead, Stands tokens i seen ahead ∧ hiddenAt tokens i = 0

/-- The place of an index in the visible text. -/
def place (tokens : List Token) (i : Int) : Nat := (visible (tokens.take i.toNat)).length

/-- How many tokens from the directive `id` at `i` on the search for its end depends on.  A search
that reaches the last token depends on there being no other. -/
def directiveReach (tokens : List Token) (id : TokenId) (i : Int) : Int :=
  match Directive.ofId? id with
  | some (.define _) => definitionEnd tokens tokens.length (i + 1) + 1 - i
  | some (.ifTest _ _) => expressionEnd tokens tokens.length (i + 1) - i
  | some .elifTest => expressionEnd tokens tokens.length (i + 1) - i
  | some .elseBranch => 1
  | some .endif => 1
  | _ => 2

/-- Whether a token starts neither a global nor a directive, and is no quote. -/
def mayLead (t : Token) : Bool :=
  t != .lit TokenId.quote && StorageClass.ofToken t == .default && !t.id.isDirective

/-- No hidden unit makes a difference at the visible token `i`. -/
structure Undisturbed (tokens : List Token) (i : Int) : Prop where
  /-- The end of a global and the token in front of it are visible. -/
  global : StorageClass.ofToken (tokenAt tokens i) ≠ .default →
    IsVisible tokens (globalFragment tokens (tokens.length - 1) i).frame.last ∧
      (0 < (globalFragment tokens (tokens.length - 1) i).frame.last →
        IsVisible tokens ((globalFragment tokens (tokens.length - 1) i).frame.last - 1))
  /-- Nothing is hidden inside a directive. -/
  directive : (tokenAt tokens i).id.isDirective = true →
    Clear tokens i (directiveReach (shown tokens) (tokenAt tokens i).id (place tokens i)).toNat
  /-- In front of what is visible as a function, nothing is hidden between its type and its
  parenthesis. -/
  function : mayLead (tokenAt tokens i) = true →
    (function? (shown tokens) ((shown tokens).length - 1) (place tokens i)).isSome = true →
    ∀ start, afterAttributes? tokens (tokens.length - 1) i = some start → Clear tokens start 3
  /-- Nothing is hidden behind a type, a name, a parenthesis and two braces at the end. -/
  shortest : mayLead (tokenAt tokens i) = true →
    (visible (tokens.drop i.toNat)).drop 2
      = [TokenId.leftParen, TokenId.leftBrace, TokenId.rightBrace] →
    (tokens.length : Int) = i + 5

section Places

variable {tokens : List Token} {i : Int} {seen ahead : List TokenId}

theorem Stands.place_eq (h : Stands tokens i seen ahead) : place tokens i = seen.length := by
  obtain ⟨before, after, rfl, rfl, -, rfl, -⟩ := h
  rw [place, Int.toNat_natCast, List.take_left]

theorem Stands.visible_drop (h : Stands tokens i seen ahead) :
    visible (tokens.drop i.toNat) = ahead := by
  obtain ⟨before, after, rfl, rfl, -, -, -, rfl⟩ := h
  rw [Int.toNat_natCast, List.drop_left]

/-- A part that ends at a visible token. -/
theorem Stands.endsAlike {p : Int} {xs ys : List TokenId} {y : TokenId}
    (h : Stands tokens p (seen ++ xs) (y :: ys)) (hzero : hiddenAt tokens p = 0) :
    EndsAlike tokens seen (xs ++ y :: ys) p (seen ++ xs).length := by
  obtain ⟨-, hnext⟩ := h.at_visible hzero
  refine ⟨xs ++ [y], ys, by simp, ?_, by simp; omega⟩
  rwa [List.append_assoc] at hnext

/-- A part that starts with tokens which are passed already. -/
theorem EndsAlike.of_append {us : List TokenId} {e f : Int}
    (h : EndsAlike tokens (seen ++ us) ahead e f) : EndsAlike tokens seen (us ++ ahead) e f := by
  obtain ⟨xs, rest, rfl, hstands, hlength⟩ := h
  rw [List.append_assoc] at hstands hlength
  exact ⟨us ++ xs, rest, (List.append_assoc ..).symm, hstands, hlength⟩

/-- The ends are inside the two texts. -/
theorem EndsAlike.bounds {e f : Int} (h : EndsAlike tokens seen ahead e f) :
    e ≤ tokens.length - 1 ∧ f ≤ (shown tokens).length - 1 := by
  obtain ⟨xs, rest, rfl, hstands, hlength⟩ := h
  have hle := hstands.le_length
  have hle' := hstands.length_shown
  omega

/-! ## 2. Directives -/

/-- The text that a directive takes. -/
theorem Stands.textEnd_alike (h : Stands tokens i seen ahead) (hne : ahead ≠ [])
    (hclear : Clear tokens i 2) :
    EndsAlike tokens seen ahead
      (min (directiveEnd.textEnd tokens (tokens.length - 1) i) (tokens.length - 1))
      (min (directiveEnd.textEnd (shown tokens) ((shown tokens).length - 1) seen.length)
        ((shown tokens).length - 1)) := by
  have hnext := hclear.endsAlike_next h hne
  have htoken : tokenAt tokens (i + 1) = tokenAt (shown tokens) (seen.length + 1) :=
    hclear.tokenAt_eq h Nat.one_lt_two
  unfold directiveEnd.textEnd
  rw [htoken]
  by_cases hquote : tokenAt (shown tokens) (seen.length + 1) = .lit TokenId.quote
  · rw [if_pos hquote, if_pos hquote]
    -- Behind the quote the search steps over hidden units.
    have hfound : FoundAlike tokens (i + 2) (seen ++ ahead.take 2) (ahead.drop 2)
        (indexOf? tokens (i + 2) (tokens.length - 1) [TokenId.quote])
        (indexOf? (shown tokens) (seen.length + 2) ((shown tokens).length - 1) [TokenId.quote]) :=
      hclear.indexOf?_alike h hquote (by decide) _
    rcases hfound with ⟨hp, hq⟩ | ⟨p, xs, y, ys, hp, hq, -, hahead, hy, hzero⟩
    · rw [hp, hq]
      exact hnext
    · rw [hp, hq]
      have hends := (hy.endsAlike hzero).of_append
      rw [← hahead, List.take_append_drop] at hends
      obtain ⟨he, hf⟩ := hends.bounds
      rw [Option.getD_some, Option.getD_some, Int.min_eq_left he, Int.min_eq_left hf]
      exact hends
  · rw [if_neg hquote, if_neg hquote]
    exact hnext

/-- **The end of a directive**, when nothing is hidden inside it. -/
theorem Stands.directiveEnd_alike (h : Stands tokens i seen ahead) (hne : ahead ≠ []) (id : TokenId)
    (hclear : Clear tokens i (directiveReach (shown tokens) id seen.length).toNat) :
    EndsAlike tokens seen ahead (directiveEnd tokens (tokens.length - 1) id i)
      (directiveEnd (shown tokens) ((shown tokens).length - 1) id seen.length) := by
  have hone : Clear tokens i 1 → EndsAlike tokens seen ahead (min i (tokens.length - 1))
      (min seen.length ((shown tokens).length - 1)) := fun hclear =>
    hclear.endsAlike h hne (by omega) (by omega) (by omega)
  unfold directiveReach at hclear
  unfold directiveEnd
  cases hdirective : Directive.ofId? id with
  | none =>
    rw [hdirective] at hclear
    exact Clear.endsAlike_next hclear h hne
  | some d =>
    rw [hdirective] at hclear
    cases d with
    | define late => exact Clear.definitionEnd_alike h hne hclear
    | ifTest negated late => exact Clear.expressionEnd_alike h hne hclear
    | elifTest => exact Clear.expressionEnd_alike h hne hclear
    | elseBranch => exact hone hclear
    | endif => exact hone hclear
    | warning => exact h.textEnd_alike hne hclear
    | registerEnv => exact h.textEnd_alike hne hclear
    | includeFile => exact Clear.endsAlike_next hclear h hne
    | undefine => exact Clear.endsAlike_next hclear h hne
    | ifVar negated => exact Clear.endsAlike_next hclear h hne
    | elifVar => exact Clear.endsAlike_next hclear h hne

/-! ## 3. Globals -/

/-- An index before the end that is visible, and the visible token there. -/
theorem IsVisible.token {p : Int} (h : IsVisible tokens p) (hlt : p < tokens.length) :
    ∃ seen x rest, Stands tokens p seen (x :: rest) ∧ tokenAt tokens p = .lit x ∧
      Stands tokens (p + 1) (seen ++ [x]) rest := by
  obtain ⟨seen, ahead, hstands, hzero⟩ := h
  cases ahead with
  | nil =>
    have hend := hstands.at_end hzero
    omega
  | cons x rest =>
    obtain ⟨htoken, hnext⟩ := hstands.at_visible hzero
    exact ⟨seen, x, rest, hstands, htoken, hnext⟩

/-- The token in front of a standing index, if it is visible. -/
theorem Stands.token_before (h : Stands tokens i seen ahead)
    (hbefore : 0 < i → IsVisible tokens (i - 1)) :
    tokenAt tokens (i - 1) = tokenAt (shown tokens) (seen.length - 1) := by
  have hnonneg := h.nonneg
  have hlow := h.length_seen_le
  have hhigh := h.le_length
  rcases Int.lt_or_eq_of_le hnonneg with hpos | rfl
  · obtain ⟨seen', x, rest, hstands, htoken, hnext⟩ := (hbefore hpos).token (by omega)
    rw [Int.sub_add_cancel] at hnext
    have hplace := hstands.in_shown.tokenAt_eq (hiddenAt_shown _ _)
    rw [htoken, (h.unique hnext).1, List.length_append, List.length_singleton,
      show ((seen'.length + 1 : Nat) : Int) - 1 = seen'.length by omega, hplace]
    rfl
  · rw [show (seen.length : Int) = 0 by omega]
    rfl

/-- **A global**, when its end and the token in front of it are visible. -/
theorem Stands.globalFragment_alike (h : Stands tokens i seen ahead)
    (hend : IsVisible tokens (globalFragment tokens (tokens.length - 1) i).frame.last)
    (hname : 0 < (globalFragment tokens (tokens.length - 1) i).frame.last →
      IsVisible tokens ((globalFragment tokens (tokens.length - 1) i).frame.last - 1)) :
    (globalFragment tokens (tokens.length - 1) i).name
        = (globalFragment (shown tokens) ((shown tokens).length - 1) seen.length).name ∧
      EndsAlike tokens seen ahead (globalFragment tokens (tokens.length - 1) i).frame.last
        (globalFragment (shown tokens) ((shown tokens).length - 1) seen.length).frame.last := by
  unfold globalFragment at hend hname ⊢
  simp only [Frame.ofBounds] at hend hname ⊢
  rcases h.indexOf?_alike [TokenId.semicolon] with
    ⟨hp, hq⟩ | ⟨p, xs, y, ys, hp, hq, -, hahead, hy, hzero⟩
  · -- Nothing ends it, so it goes to the last token, which is visible.
    rw [hp, Option.getD_none] at hend hname
    rw [hp, hq, Option.getD_none, Option.getD_none]
    obtain ⟨seen', x, rest, hlast, -, hnext⟩ := hend.token (by omega)
    have hfits := hnext.add_length_le
    obtain rfl : rest = [] := List.eq_nil_of_length_eq_zero (by omega)
    have hlength := hlast.length_shown
    have hall : seen ++ ahead = seen' ++ [x] := by
      rw [← h.visible_eq, hnext.visible_eq, List.append_nil]
    have htoken := hlast.token_before hname
    rw [List.length_singleton] at hlength
    rw [show ((shown tokens).length : Int) - 1 = seen'.length by omega]
    refine ⟨congrArg Token.id htoken, ahead, [], (List.append_nil _).symm, ?_, ?_⟩
    · rw [hall]
      exact hnext
    · rw [hall, List.length_append, List.length_singleton]
      omega
  · rw [hp, Option.getD_some] at hname
    rw [hp, hq, Option.getD_some, Option.getD_some]
    subst hahead
    exact ⟨congrArg Token.id (hy.token_before hname), hy.endsAlike hzero⟩

/-! ## 4. Functions -/

/-- The attributes in front of a function. -/
theorem Stands.afterAttributes?_alike (h : Stands tokens i seen ahead)
    (hzero : hiddenAt tokens i = 0) :
    afterAttributes? tokens (tokens.length - 1) i = none ∧
      afterAttributes? (shown tokens) ((shown tokens).length - 1) seen.length = none ∨
    ∃ start us rest, afterAttributes? tokens (tokens.length - 1) i = some start ∧
      afterAttributes? (shown tokens) ((shown tokens).length - 1) seen.length
        = some ↑(seen ++ us).length ∧
      ahead = us ++ rest ∧ Stands tokens start (seen ++ us) rest ∧ hiddenAt tokens start = 0 := by
  induction hn : (tokens.length - i).toNat using Nat.strongRecOn generalizing i seen ahead with
  | ind n ih =>
    have htoken := h.tokenAt_eq hzero
    have htoken' := h.in_shown.tokenAt_eq (hiddenAt_shown _ _)
    rw [afterAttributes?, afterAttributes?]
    by_cases hbracket : ahead.headD TokenId.eol = TokenId.leftBracket
    · rw [hbracket] at htoken htoken'
      rw [dif_pos htoken, dif_pos htoken']
      cases ahead with
      | nil => cases hbracket
      | cons id ahead =>
        obtain ⟨-, hnext⟩ := h.at_visible hzero
        have hplace : ((seen ++ [id]).length : Int) = seen.length + 1 := by simp
        have hfound := hnext.indexOf?_alike [TokenId.rightBracket]
        rw [hplace] at hfound
        rcases hfound with ⟨hp, hq⟩ | ⟨p, xs, y, ys, hp, hq, hle, rfl, hy, hyzero⟩
        · rw [hp, hq]
          exact .inl ⟨rfl, rfl⟩
        · rw [hp, hq]
          dsimp only
          obtain ⟨-, hbehind⟩ := hy.at_visible hyzero
          obtain ⟨hvisible, hvzero, hvle⟩ := hbehind.to_visible
          have hbound := hbehind.le_length
          rw [Int.max_eq_right (by omega), visibleFrom_of_hiddenAt (hiddenAt_shown _ _),
            Int.max_eq_right (by rw [List.length_append]; omega)]
          have hplace' : (((seen ++ [id] ++ xs) ++ [y]).length : Int)
              = (seen ++ [id] ++ xs).length + 1 := by
            rw [@List.length_append _ (seen ++ [id] ++ xs), List.length_singleton]
            rfl
          have hmore := ih _ (by omega) hvisible hvzero rfl
          rw [hplace'] at hmore
          rcases hmore with hnone | ⟨start, us, rest, hstart, hstart', rfl, hstands, hszero⟩
          · exact .inl hnone
          refine .inr ⟨start, id :: xs ++ [y] ++ us, rest, hstart, ?_, by simp, ?_, hszero⟩
          · rw [hstart']
            simp
          · simpa using hstands
    · have hother : ¬ tokenAt tokens i = .lit TokenId.leftBracket := by
        rw [htoken, Token.lit.injEq]
        exact hbracket
      have hother' : ¬ tokenAt (shown tokens) seen.length = .lit TokenId.leftBracket := by
        rw [htoken', Token.lit.injEq]
        exact hbracket
      rw [dif_neg hother, dif_neg hother']
      exact .inr ⟨i, [], ahead, rfl, by rw [List.append_nil], rfl, by rwa [List.append_nil], hzero⟩

end Places

/-- The function behind its attributes: a type, a name, a parenthesis, and later a brace before any
semicolon. -/
def functionAt (tokens : List Token) (last i : Int) : Option (TokenId × Int) :=
  if tokenAt tokens (i + 2) = .lit TokenId.leftParen ∧ (tokenAt tokens (i + 1)).isLit then
    (indexOf? tokens (i + 3) last [TokenId.leftBrace, TokenId.semicolon]).bind fun brace =>
      if tokenAt tokens brace = .lit TokenId.leftBrace then
        (closingBrace? tokens last brace).map fun stop => ((tokenAt tokens (i + 1)).id, stop)
      else none
  else none

theorem function?_eq (tokens : List Token) (last i : Int) :
    function? tokens last i =
      if last ≤ i + 4 then none
        else (afterAttributes? tokens last i).bind (functionAt tokens last) := by
  unfold function? functionAt
  split
  · rfl
  · cases afterAttributes? tokens last i with
    | none => rfl
    | some start =>
      dsimp only [Option.bind_some]
      split
      · cases indexOf? tokens (start + 3) last [TokenId.leftBrace, TokenId.semicolon] <;> rfl
      · rfl

/-- A token ended a scan that was ended. -/
theorem scan_stopped {α : Type} {tokens : List Token} {last : Int} {look : α → Int → Token → Move α}
    (a : α) (i : Int) (h : (scan tokens last look a i).stopped = true) :
    ∃ b, look b (scan tokens last look a i).index (tokenAt tokens (scan tokens last look a i).index)
      = .stop (scan tokens last look a i).state := by
  fun_induction scan tokens last look a i with
  | case1 a i hle hhidden ih => exact ih h
  | case2 a i hle hhidden b hlook => exact ⟨a, hlook⟩
  | case3 a i hle hhidden b hlook ih => exact ih h
  | case4 a i hle hhidden b index hlook ih => exact ih h
  | case5 a i hlt => cases h

theorem tokenAt_closingBrace? {tokens : List Token} {last i stop : Int}
    (h : closingBrace? tokens last i = some stop) :
    tokenAt tokens stop = .lit TokenId.rightBrace := by
  unfold closingBrace? at h
  dsimp only at h
  split at h
  · rename_i hstopped
    obtain ⟨depth, hlook⟩ := scan_stopped _ _ hstopped
    cases h
    split at hlook
    · cases hlook
    · split at hlook
      · assumption
      · cases hlook
  · cases h

/-- What a function is made of. -/
theorem functionAt_eq_some {tokens : List Token} {last i stop : Int} {name : TokenId}
    (h : functionAt tokens last i = some (name, stop)) :
    tokenAt tokens (i + 2) = .lit TokenId.leftParen ∧ (tokenAt tokens (i + 1)).isLit = true ∧
      ∃ brace, i + 3 ≤ brace ∧ brace < stop ∧ stop ≤ last ∧
        tokenAt tokens brace = .lit TokenId.leftBrace ∧
        tokenAt tokens stop = .lit TokenId.rightBrace := by
  unfold functionAt at h
  split at h
  · rename_i hnamed
    obtain ⟨brace, hbrace, hbody⟩ := Option.bind_eq_some_iff.mp h
    split at hbody
    · rename_i hopening
      obtain ⟨found, hfound, heq⟩ := Option.map_eq_some_iff.mp hbody
      cases heq
      have hclosing := tokenAt_closingBrace? hfound
      have hbounds := closingBrace?_bounds hfound
      have hstart := indexOf?_bounds hbrace
      have hne : brace ≠ stop := by
        rintro rfl
        rw [hopening] at hclosing
        cases hclosing
      exact ⟨hnamed.1, hnamed.2, brace, by omega, by omega, by omega, hopening, hclosing⟩
    · cases hbody
  · cases h

section Functions

variable {tokens : List Token} {i : Int} {seen ahead : List TokenId}

theorem Stands.functionAt_alike (h : Stands tokens i seen ahead) (hclear : Clear tokens i 3) :
    functionAt tokens (tokens.length - 1) i = none ∧
      functionAt (shown tokens) ((shown tokens).length - 1) seen.length = none ∨
    ∃ name p q, functionAt tokens (tokens.length - 1) i = some (name, p) ∧
      functionAt (shown tokens) ((shown tokens).length - 1) seen.length = some (name, q) ∧
      EndsAlike tokens seen ahead p q := by
  have hname : tokenAt tokens (i + 1) = tokenAt (shown tokens) (seen.length + 1) :=
    hclear.tokenAt_eq h (show 1 < 3 by decide)
  have hparen : tokenAt tokens (i + 2) = tokenAt (shown tokens) (seen.length + 2) :=
    hclear.tokenAt_eq h (show 2 < 3 by decide)
  unfold functionAt
  rw [hname, hparen]
  split
  · rename_i hnamed
    have hfound : FoundAlike tokens (i + 3) (seen ++ ahead.take 3) (ahead.drop 3)
        (indexOf? tokens (i + 3) (tokens.length - 1) [TokenId.leftBrace, TokenId.semicolon])
        (indexOf? (shown tokens) (seen.length + 3) ((shown tokens).length - 1)
          [TokenId.leftBrace, TokenId.semicolon]) :=
      hclear.indexOf?_alike h hnamed.1 (by decide) _
    rcases hfound with ⟨hp, hq⟩ | ⟨p, xs, y, ys, hp, hq, -, hahead, hy, hyzero⟩
    · rw [hp, hq]
      exact .inl ⟨rfl, rfl⟩
    · rw [hp, hq, Option.bind_some, Option.bind_some, hy.tokenAt_eq hyzero,
        hy.in_shown.tokenAt_eq (hiddenAt_shown _ _)]
      split
      · rcases hy.closingBrace?_alike with
          ⟨hp', hq'⟩ | ⟨p', xs', y', ys', hp', hq', -, hahead', hy', hyzero'⟩
        · rw [hp', hq']
          exact .inl ⟨rfl, rfl⟩
        · rw [hp', hq']
          have hends := (hy'.endsAlike hyzero').of_append.of_append
          rw [← hahead', ← hahead, List.take_append_drop] at hends
          exact .inr ⟨_, p', _, rfl, rfl, hends⟩
      · exact .inl ⟨rfl, rfl⟩
  · exact .inl ⟨rfl, rfl⟩

/-- A function that a text has is not disturbed by anything hidden in front of its parenthesis. -/
theorem clear_of_functionAt {last : Int} {found : TokenId × Int} (hzero : hiddenAt tokens i = 0)
    (h : functionAt tokens last i = some found) : Clear tokens i 3 := by
  obtain ⟨hparen, hname, -⟩ := functionAt_eq_some h
  intro m hm
  obtain rfl | rfl | rfl : m = 0 ∨ m = 1 ∨ m = 2 := by omega
  · rw [Int.natCast_zero, Int.add_zero]
    exact hiddenAt_eq_zero_iff.mp hzero
  · exact hname
  · show (tokenAt tokens (i + 2)).isLit = true
    rw [hparen]
    rfl

theorem Stands.tokenAt_shown (h : Stands tokens i seen ahead) (m : Nat) :
    tokenAt (shown tokens) (seen.length + m) = .lit (ahead[m]?.getD TokenId.eol) := by
  rw [tokenAt, if_neg (by omega), shown, h.visible_eq, List.getElem?_map,
    show ((seen.length : Int) + m).toNat = seen.length + m by omega,
    List.getElem?_append_right (Nat.le_add_right _ _), Nat.add_sub_cancel_left]
  cases ahead[m]? <;> rfl

/-- A function in a visible text that leaves room for five tokens only has them all. -/
theorem Stands.shortest_of_functionAt (h : Stands tokens i seen ahead) (us : List TokenId)
    (hshort : ((shown tokens).length : Int) - 1 ≤ seen.length + 4) {name : TokenId} {stop : Int}
    (hfound : functionAt (shown tokens) ((shown tokens).length - 1) (seen ++ us).length
      = some (name, stop)) :
    ahead.drop 2 = [TokenId.leftParen, TokenId.leftBrace, TokenId.rightBrace] := by
  have hlength := h.length_shown
  obtain ⟨hparen, -, brace, hlow, hlt, hhigh, hopening, hclosing⟩ := functionAt_eq_some hfound
  rw [List.length_append] at hparen hlow
  obtain rfl : us = [] := List.eq_nil_of_length_eq_zero (by omega)
  obtain rfl : brace = seen.length + (3 : Nat) := by
    rw [List.length_nil] at hlow
    omega
  obtain rfl : stop = seen.length + (4 : Nat) := by omega
  have hfive : ahead.length = 5 := by omega
  rw [h.tokenAt_shown, Token.lit.injEq] at hopening hclosing
  rw [List.length_nil, Nat.add_zero, show (2 : Int) = (2 : Nat) from rfl, h.tokenAt_shown,
    Token.lit.injEq] at hparen
  have hrest : ahead.drop 2 = [ahead[2], ahead[3], ahead[4]] := by
    rw [List.drop_eq_getElem_cons (by omega), List.drop_eq_getElem_cons (by omega),
      List.drop_eq_getElem_cons (by omega), List.drop_eq_nil_of_le (by omega)]
  rw [List.getElem?_eq_getElem (by omega), Option.getD_some] at hparen hopening hclosing
  rw [hrest, hparen, hopening, hclosing]

/-- **A function**, when nothing is hidden between its type and its parenthesis, and it is not the
shortest one with something hidden behind it. -/
theorem Stands.function?_alike (h : Stands tokens i seen ahead) (hzero : hiddenAt tokens i = 0)
    (hfunction : (function? (shown tokens) ((shown tokens).length - 1) seen.length).isSome = true →
      ∀ start, afterAttributes? tokens (tokens.length - 1) i = some start → Clear tokens start 3)
    (hshortest : ahead.drop 2 = [TokenId.leftParen, TokenId.leftBrace, TokenId.rightBrace] →
      (tokens.length : Int) = i + 5) :
    function? tokens (tokens.length - 1) i = none ∧
      function? (shown tokens) ((shown tokens).length - 1) seen.length = none ∨
    ∃ name p q, function? tokens (tokens.length - 1) i = some (name, p) ∧
      function? (shown tokens) ((shown tokens).length - 1) seen.length = some (name, q) ∧
      EndsAlike tokens seen ahead p q := by
  have hlength := h.length_shown
  have hfits := h.add_length_le
  rw [function?_eq, function?_eq]
  rw [function?_eq] at hfunction
  rcases h.afterAttributes?_alike hzero with
    ⟨hnone, hnone'⟩ | ⟨start, us, rest, hstart, hstart', hahead, hstands, hszero⟩
  · rw [hnone, hnone']
    exact .inl ⟨ite_self _, ite_self _⟩
  · rw [hstart'] at hfunction
    rw [hstart, hstart', Option.bind_some, Option.bind_some]
    rw [Option.bind_some] at hfunction
    by_cases hclear : Clear tokens start 3
    · rcases hstands.functionAt_alike hclear with ⟨hnone, hnone'⟩ | ⟨name, p, q, hp, hq, hends⟩
      · rw [hnone, hnone']
        exact .inl ⟨ite_self _, ite_self _⟩
      · rw [hp, hq]
        have hends' := hends.of_append
        rw [← hahead] at hends'
        by_cases hshort : ((shown tokens).length : Int) - 1 ≤ seen.length + 4
        · have hwhole := hshortest (h.shortest_of_functionAt us hshort hq)
          rw [if_pos (by omega), if_pos hshort]
          exact .inl ⟨rfl, rfl⟩
        · rw [if_neg (by omega), if_neg hshort]
          exact .inr ⟨name, p, q, rfl, rfl, hends'⟩
    · have hnone : functionAt tokens (tokens.length - 1) start = none := by
        cases hsome : functionAt tokens (tokens.length - 1) start with
        | none => rfl
        | some found => exact absurd (clear_of_functionAt hszero hsome) hclear
      rw [hnone, ite_self]
      refine .inl ⟨rfl, ?_⟩
      -- A function that is visible only would have its type next to its parenthesis.
      by_cases hshort : ((shown tokens).length : Int) - 1 ≤ seen.length + 4
      · rw [if_pos hshort]
      · rw [if_neg hshort] at hfunction ⊢
        cases hsome : functionAt (shown tokens) ((shown tokens).length - 1) (seen ++ us).length with
        | none => rfl
        | some found =>
          rw [hsome] at hfunction
          exact absurd (hfunction rfl start hstart) hclear

end Functions

/-! ## 5. Leads -/

/-- What is at a place of a text and what is at that place of the visible text are of one kind, and
fragments have the same name and end alike. -/
inductive Lead.Alike (tokens : List Token) (i : Int) (seen ahead : List TokenId) :
    Lead → Lead → Prop
  | quote : Alike tokens i seen ahead .quote .quote
  | token (id : TokenId) : Alike tokens i seen ahead (.token id) (.token id)
  | fragment (kind : FragmentKind) (name : TokenId) (storage : Option StorageClass) {e f : Int} :
      EndsAlike tokens seen ahead e f →
      Alike tokens i seen ahead (.fragment ⟨kind, .ofBounds i e, name⟩ storage)
        (.fragment ⟨kind, .ofBounds seen.length f, name⟩ storage)

section Leads

variable {tokens : List Token} {i : Int} {seen ahead : List TokenId}

/-- **What is at an undisturbed place is what is at that place of the visible text.** -/
theorem Undisturbed.lead_alike (hundisturbed : Undisturbed tokens i)
    (h : Stands tokens i seen ahead) (hne : ahead ≠ []) (hzero : hiddenAt tokens i = 0) :
    Lead.Alike tokens i seen ahead (Lead.of tokens (tokens.length - 1) i)
      (Lead.of (shown tokens) ((shown tokens).length - 1) seen.length) := by
  obtain ⟨hglobal, hdirective, hfunction, hshortest⟩ := hundisturbed
  have htoken : tokenAt (shown tokens) seen.length = tokenAt tokens i := by
    rw [h.tokenAt_eq hzero, h.in_shown.tokenAt_eq (hiddenAt_shown _ _)]
  rw [h.place_eq] at hdirective hfunction
  rw [h.visible_drop] at hshortest
  unfold Lead.of
  dsimp only
  rw [htoken]
  by_cases hquote : tokenAt tokens i = .lit TokenId.quote
  · rw [if_pos hquote, if_pos hquote]
    exact .quote
  rw [if_neg hquote, if_neg hquote]
  by_cases hstorage : StorageClass.ofToken (tokenAt tokens i) ≠ .default
  · rw [if_pos hstorage, if_pos hstorage]
    obtain ⟨hend, hname⟩ := hglobal hstorage
    obtain ⟨hsame, hends⟩ := h.globalFragment_alike hend hname
    have hfragment : globalFragment (shown tokens) ((shown tokens).length - 1) seen.length =
        ⟨.storageClass, .ofBounds seen.length
          (globalFragment (shown tokens) ((shown tokens).length - 1) seen.length).frame.last,
          (globalFragment tokens (tokens.length - 1) i).name⟩ := by
      rw [hsame]
      rfl
    rw [hfragment]
    exact .fragment _ _ _ hends
  rw [if_neg hstorage, if_neg hstorage]
  by_cases hid : (tokenAt tokens i).id.isDirective = true
  · rw [if_pos hid, if_pos hid]
    exact .fragment _ _ _ (h.directiveEnd_alike hne _ (hdirective hid))
  rw [if_neg hid, if_neg hid]
  have hlead : mayLead (tokenAt tokens i) = true := by
    simp only [ne_eq, Decidable.not_not] at hstorage
    simp [mayLead, hquote, hstorage, hid]
  rcases h.function?_alike hzero (hfunction hlead) (hshortest hlead) with
    ⟨hnone, hnone'⟩ | ⟨name, p, q, hp, hq, hends⟩
  · rw [hnone, hnone']
    exact .token _
  · rw [hp, hq]
    exact .fragment _ _ _ hends

end Leads

/-! ## 6. The walk -/

/-- What is told of a fragment: its kind, its name, and the ids that it shows. -/
def Fragment.told (tokens : List Token) (f : Fragment) : FragmentKind × TokenId × List TokenId :=
  (f.kind, f.name, visibleIds tokens f.frame.first f.frame.last)

/-- Two lists of tiles of two texts give and record the same. -/
structure WalkAlike (A B : List Token) (xs ys : List Tile) : Prop where
  steps : ∀ storage, Slicer.stepsOver storage xs = Slicer.stepsOver storage ys
  fragments : (xs.filterMap Tile.fragment?).map (Fragment.told A)
    = (ys.filterMap Tile.fragment?).map (Fragment.told B)

namespace WalkAlike

variable {A B : List Token} {xs ys : List Tile}

theorem hidden (i : Int) (n : Nat) (h : WalkAlike A B xs ys) :
    WalkAlike A B (.hidden i n :: xs) ys :=
  ⟨fun storage => h.steps storage, h.fragments⟩

theorem quote (i k : Int) (h : WalkAlike A B xs ys) :
    WalkAlike A B (.quote i :: xs) (.quote k :: ys) :=
  ⟨fun storage => h.steps storage, h.fragments⟩

theorem token (i k : Int) (id : TokenId) (h : WalkAlike A B xs ys) :
    WalkAlike A B (.token i id :: xs) (.token k id :: ys) :=
  ⟨fun storage => by rw [Slicer.stepsOver, Slicer.stepsOver, h.steps], h.fragments⟩

theorem fragment {f g : Fragment} (storage? : Option StorageClass) (htold : f.told A = g.told B)
    (h : WalkAlike A B xs ys) :
    WalkAlike A B (.fragment f storage? :: xs) (.fragment g storage? :: ys) := by
  refine ⟨fun storage => ?_, ?_⟩
  · cases storage? with
    | none => exact h.steps storage
    | some c => exact h.steps c
  · simp only [List.filterMap_cons, Tile.fragment?, List.map_cons, htold, h.fragments]

end WalkAlike

/-- The tile that a lead makes. -/
def Tile.ofLead (i : Int) : Lead → Tile
  | .quote => .quote i
  | .fragment f storage => .fragment f storage
  | .token id => .token i id

theorem Tile.ofIndex_eq {tokens : List Token} {i : Int} (hzero : hiddenAt tokens i = 0) :
    Tile.ofIndex tokens i = .ofLead i (Lead.of tokens (tokens.length - 1) i) := by
  unfold Tile.ofIndex
  rw [if_neg (by omega)]
  cases Lead.of tokens (tokens.length - 1) i <;> rfl

section Walks

variable {tokens : List Token} {i : Int} {seen ahead : List TokenId}

/-- What a fragment shows that ends alike in the text and in the visible text. -/
theorem EndsAlike.told_eq {e f : Int} (hends : EndsAlike tokens seen ahead e f)
    (h : Stands tokens i seen ahead) (hle : i ≤ e) (kind : FragmentKind) (name : TokenId) :
    Fragment.told tokens ⟨kind, .ofBounds i e, name⟩
      = Fragment.told (shown tokens) ⟨kind, .ofBounds seen.length f, name⟩ := by
  obtain ⟨xs, rest, rfl, hstop, hlength⟩ := hends
  have htext := h.visibleIds_eq hstop (by omega)
  have hplace := h.in_shown.visibleIds_eq hstop.in_shown (by rw [List.length_append]; omega)
  rw [Int.add_sub_cancel] at htext
  rw [← hlength, Int.add_sub_cancel] at hplace
  simp only [Fragment.told, Frame.ofBounds, htext, hplace]

/-- One tile of an undisturbed place, and the tiles behind it. -/
theorem Undisturbed.tile_alike (hundisturbed : Undisturbed tokens i)
    (h : Stands tokens i seen ahead) (hne : ahead ≠ []) (hzero : hiddenAt tokens i = 0)
    (hbehind : ∀ seen ahead, Stands tokens (Tile.ofIndex tokens i).stop seen ahead →
      WalkAlike tokens (shown tokens) (tilesFrom tokens (Tile.ofIndex tokens i).stop)
        (tilesFrom (shown tokens) seen.length)) :
    WalkAlike tokens (shown tokens)
      (Tile.ofIndex tokens i :: tilesFrom tokens (Tile.ofIndex tokens i).stop)
      (Tile.ofIndex (shown tokens) seen.length ::
        tilesFrom (shown tokens) (Tile.ofIndex (shown tokens) seen.length).stop) := by
  have hlead := hundisturbed.lead_alike h hne hzero
  have hlower : ∀ f storage, Lead.of tokens (tokens.length - 1) i = .fragment f storage →
      i ≤ f.frame.last := by
    intro f storage hfragment
    have hfits := h.add_length_le
    have hpos := List.length_pos_iff.mpr hne
    exact (Lead.fragment_bounds (by omega) hfragment).2.1
  obtain ⟨id, rest, rfl⟩ := List.exists_cons_of_ne_nil hne
  obtain ⟨-, hnext⟩ := h.at_visible hzero
  have hplace : ((seen ++ [id]).length : Int) = seen.length + 1 := by simp
  rw [Tile.ofIndex_eq hzero] at hbehind ⊢
  rw [Tile.ofIndex_eq (hiddenAt_shown _ _)]
  generalize Lead.of tokens (tokens.length - 1) i = lead at *
  generalize Lead.of (shown tokens) ((shown tokens).length - 1) seen.length = lead' at *
  cases hlead with
  | quote =>
    have hwalk := hbehind _ _ hnext
    rw [hplace] at hwalk
    exact hwalk.quote i seen.length
  | token id =>
    have hwalk := hbehind _ _ hnext
    rw [hplace] at hwalk
    exact hwalk.token i seen.length id
  | @fragment kind name storage? e f hends =>
    have htold := hends.told_eq h (hlower _ _ rfl) kind name
    obtain ⟨xs, rest, -, hstop, hlength⟩ := hends
    have hwalk := hbehind _ _ hstop
    rw [← hlength] at hwalk
    exact hwalk.fragment storage? htold

end Walks

/-- The tiles from a place on, in the text and in the visible text. -/
theorem Stands.tiles_alike {tokens : List Token} {i : Int} {seen ahead : List TokenId}
    (h : Stands tokens i seen ahead)
    (hundisturbed : ∀ t ∈ tilesFrom tokens i, (∀ j n, t ≠ .hidden j n) →
      Undisturbed tokens t.first) :
    WalkAlike tokens (shown tokens) (tilesFrom tokens i)
      (tilesFrom (shown tokens) seen.length) := by
  refine tiles_induction tokens (P := fun i => ∀ seen ahead, Stands tokens i seen ahead →
    (∀ t ∈ tilesFrom tokens i, (∀ j n, t ≠ .hidden j n) → Undisturbed tokens t.first) →
    WalkAlike tokens (shown tokens) (tilesFrom tokens i) (tilesFrom (shown tokens) seen.length))
    ?_ ?_ i h.nonneg seen ahead h hundisturbed
  · intro i hi hlt ih seen ahead h hundisturbed
    rw [tilesFrom_cons hi hlt] at hundisturbed ⊢
    have hmore : ∀ t ∈ tilesFrom tokens (Tile.ofIndex tokens i).stop, (∀ j n, t ≠ .hidden j n) →
        Undisturbed tokens t.first := fun t ht => hundisturbed t (List.mem_cons_of_mem _ ht)
    by_cases hhidden : 0 < hiddenAt tokens i
    · -- The walk over the visible text stays where it is.
      have htile : Tile.ofIndex tokens i = .hidden i (hiddenAt tokens i) := if_pos hhidden
      rw [htile] at ih hmore ⊢
      rcases h.step with ⟨hend, -⟩ | ⟨-, hnext⟩ | ⟨id, rest, -, hzero, -⟩
      · omega
      · exact (ih seen ahead hnext hmore).hidden i _
      · omega
    · have hzero : hiddenAt tokens i = 0 := by omega
      have hne : ahead ≠ [] := by
        rintro rfl
        have hend := h.at_end hzero
        omega
      have hlength := h.length_shown
      have hpos := List.length_pos_iff.mpr hne
      have htiles : tilesFrom (shown tokens) seen.length
          = Tile.ofIndex (shown tokens) seen.length ::
          tilesFrom (shown tokens) (Tile.ofIndex (shown tokens) seen.length).stop :=
        tilesFrom_cons (by omega) (by omega)
      rw [htiles]
      refine Undisturbed.tile_alike ?_ h hne hzero fun seen ahead hnext => ih seen ahead hnext hmore
      rw [← (Tile.ofIndex_spec hi hlt).1]
      refine hundisturbed _ List.mem_cons_self fun j n htile => ?_
      rw [Tile.ofIndex_eq hzero] at htile
      cases hlead : Lead.of tokens (tokens.length - 1) i <;> rw [hlead] at htile <;> cases htile
  · intro i hle seen ahead h _
    have hlength := h.length_shown
    have hfits := h.add_length_le
    rw [tilesFrom_end hle, tilesFrom_end (by omega)]
    exact ⟨fun _ => rfl, rfl⟩

/-- **Hidden units are transparent to the walk where they make no difference.**  Over a well-marked
text in which no hidden unit disturbs what the walk finds, its steps give the same tokens and
storage classes as over the visible text, and it records fragments of the same kinds, names and
texts. -/
theorem walk_shown (tokens : List Token) (table : SpellingTable) (hmarked : WellMarked tokens)
    (hundisturbed : ∀ t ∈ tilesFrom tokens 0, (∀ i n, t ≠ .hidden i n) →
      Undisturbed tokens t.first) :
    let walk := (Slicer.ofTokens tokens table).drain
    let plain := (Slicer.ofTokens (shown tokens) table).drain
    walk.1 = plain.1 ∧
      walk.2.fragments.map (fun f => (f.kind, f.name, walk.2.text f.frame))
        = plain.2.fragments.map fun f => (f.kind, f.name, plain.2.text f.frame) := by
  intro walk plain
  have halike := hmarked.stands.tiles_alike hundisturbed
  obtain ⟨hsteps, hfragments, htokens, htable⟩ :=
    Slicer.drain_stepsOver (Slicer.ofTokens_spans tokens table)
  obtain ⟨hsteps', hfragments', htokens', htable'⟩ :=
    Slicer.drain_stepsOver (Slicer.ofTokens_spans (shown tokens) table)
  -- What is said of a fragment is read off what is told of it.
  have htexts : ∀ (s : Slicer) (fragments : List Fragment),
      fragments.map (fun f => (f.kind, f.name, s.text f.frame)) =
        (fragments.map (Fragment.told s.tokens)).map
          fun told => (told.1, told.2.1, runText s.table told.2.2) := by
    intro s fragments
    rw [List.map_map]
    rfl
  constructor
  · exact hsteps.trans ((halike.steps .default).trans hsteps'.symm)
  · rw [htexts walk.2, htexts plain.2, hfragments, hfragments', htokens, htokens', htable, htable']
    exact congrArg _ halike.fragments

/-- A global, a function and a directive, each with something hidden where it makes no difference,
and one token more. -/
def spacedOut : List Token :=
  [.lit TokenId.static, .skipOne, .lit TokenId.semicolon, .lit 1024, .lit TokenId.semicolon,
    .lit 71, .lit 1025, .lit TokenId.leftParen, .skipOne, .lit TokenId.semicolon,
    .lit TokenId.rightParen, .lit TokenId.leftBrace, .lit TokenId.rightBrace,
    .lit TokenId.ifTest, .lit 1026, .skipOne, .lit TokenId.orSign, .lit 64]

theorem spacedOut_tiles : tilesFrom spacedOut 0 =
    [.fragment ⟨.storageClass, .ofBounds 0 4, 1024⟩ (some .static),
      .fragment ⟨.function, .ofBounds 5 12, 1025⟩ none,
      .fragment ⟨.directive, .ofBounds 13 14, TokenId.ifTest⟩ none,
      .hidden 15 2, .token 17 64] := by
  cbv

/-- The text from the name of the global on. -/
theorem spacedOut_stands : Stands spacedOut 3 [TokenId.static] (visible (spacedOut.drop 3)) := by
  refine ⟨spacedOut.take 3, spacedOut.drop 3, rfl, rfl, .lit _ (.one _ .nil), by cbv, ?_, rfl⟩
  exact .lit _ (.lit _ (.lit _ (.lit _ (.lit _ (.one _
    (.lit _ (.lit _ (.lit _ (.lit _ (.lit _ (.one _ (.lit _ .nil))))))))))))

theorem spacedOut_global : Undisturbed spacedOut 0 := by
  have hlast : (globalFragment spacedOut (spacedOut.length - 1) 0).frame.last = 4 := by cbv
  have hclear : Clear spacedOut 3 1 := by
    unfold Clear
    decide
  have hlength : 1 ≤ (visible (spacedOut.drop 3)).length := by
    rw [show (visible (spacedOut.drop 3)).length = 11 by cbv]
    decide
  refine ⟨fun _ => ?_, fun h => absurd h (by decide), fun h => absurd h (by decide),
    fun h => absurd h (by decide)⟩
  rw [hlast]
  exact ⟨⟨_, _, hclear.stands spacedOut_stands (Nat.le_refl 1) hlength, by cbv⟩,
    fun _ => ⟨_, _, spacedOut_stands, by cbv⟩⟩

theorem spacedOut_function : Undisturbed spacedOut 5 := by
  have hattributes : afterAttributes? spacedOut (spacedOut.length - 1) 5 = some 5 := by cbv
  have hlength : ((visible (spacedOut.drop (5 : Int).toNat)).drop 2).length = 7 := by cbv
  refine ⟨fun h => absurd rfl h, fun h => absurd h (by decide), fun _ _ start hstart => ?_,
    fun _ h => ?_⟩
  · rw [hattributes] at hstart
    cases hstart
    unfold Clear
    decide
  · rw [h] at hlength
    cases hlength

theorem spacedOut_directive : Undisturbed spacedOut 13 := by
  have hreach : directiveReach (shown spacedOut) (tokenAt spacedOut 13).id (place spacedOut 13)
      = 2 := by
    cbv
  refine ⟨fun h => absurd rfl h, fun _ => ?_, fun h => absurd h (by decide),
    fun h => absurd h (by decide)⟩
  rw [hreach]
  unfold Clear
  decide

theorem spacedOut_token : Undisturbed spacedOut 17 := by
  have hfunction : function? (shown spacedOut) ((shown spacedOut).length - 1) (place spacedOut 17)
      = none := by
    cbv
  have hlength : ((visible (spacedOut.drop (17 : Int).toNat)).drop 2).length = 0 := by cbv
  refine ⟨fun h => absurd rfl h, fun h => absurd h (by decide), fun _ h => ?_, fun _ h => ?_⟩
  · rw [hfunction] at h
    cases h
  · rw [h] at hlength
    cases hlength

/-- The walk over that text is the walk over its visible text, with three fragments and one
token. -/
theorem walk_shown_spacedOut :
    let walk := (Slicer.ofTokens spacedOut ⟨[]⟩).drain
    let plain := (Slicer.ofTokens (shown spacedOut) ⟨[]⟩).drain
    WellMarked spacedOut ∧ walk.1 = plain.1 ∧
      walk.2.fragments.map (fun f => (f.kind, f.name, walk.2.text f.frame))
        = plain.2.fragments.map (fun f => (f.kind, f.name, plain.2.text f.frame)) ∧
      plain.1 = [⟨64, .static, true⟩, ⟨TokenId.eol, .default, false⟩] ∧
      plain.2.fragments.map Fragment.name = [1024, 1025, TokenId.ifTest] := by
  have hmarked : WellMarked spacedOut :=
    .lit _ (.one _ (.lit _ (.lit _ (.lit _ (.lit _ (.lit _ (.one _ (.lit _ (.lit _ (.lit _ (.lit _
      (.lit _ (.one _ (.lit _ .nil))))))))))))))
  have hundisturbed : ∀ t ∈ tilesFrom spacedOut 0, (∀ i n, t ≠ .hidden i n) →
      Undisturbed spacedOut t.first := by
    intro t ht hvisible
    rw [spacedOut_tiles] at ht
    simp only [List.mem_cons, List.not_mem_nil, or_false] at ht
    rcases ht with rfl | rfl | rfl | rfl | rfl
    · exact spacedOut_global
    · exact spacedOut_function
    · exact spacedOut_directive
    · exact absurd rfl (hvisible 15 2)
    · exact spacedOut_token
  obtain ⟨hsteps, hfragments⟩ := walk_shown spacedOut ⟨[]⟩ hmarked hundisturbed
  exact ⟨hmarked, hsteps, hfragments, by cbv, by cbv⟩

/-- **Hidden units are not transparent to the walk**, each of the four conditions being needed: the
token in front of the semicolon names a global also when it is hidden, a directive ends inside a
hidden unit, a function is missed behind one, and five tokens are a function only in front of
one. -/
theorem walk_disturbed :
    let walk := fun tokens => (Slicer.ofTokens tokens ⟨[]⟩).drain
    let global := [Token.lit TokenId.static, .lit 1024, .skipOne, .lit 1025, .lit TokenId.semicolon]
    let directive := [Token.lit TokenId.ifTest, .skipOne, .lit 1024, .lit 1025]
    let function := [Token.lit 71, .skipOne, .lit 1024, .lit 1025, .lit TokenId.leftParen,
      .lit TokenId.rightParen, .lit TokenId.leftBrace, .lit TokenId.rightBrace]
    let shortest := [Token.lit 71, .lit 1025, .lit TokenId.leftParen, .lit TokenId.leftBrace,
      .lit TokenId.rightBrace, .skipOne, .lit 1024]
    (WellMarked global ∧ (walk global).2.fragments.map Fragment.name = [1025] ∧
      (walk (shown global)).2.fragments.map Fragment.name = [1024]) ∧
    (WellMarked directive ∧ (walk directive).1.map Slicer.Next.id = [1024, 1025, TokenId.eol] ∧
      (walk (shown directive)).1.map Slicer.Next.id = [TokenId.eol]) ∧
    (WellMarked function ∧ (walk function).2.fragments = [] ∧
      (walk (shown function)).2.fragments.map Fragment.name = [1025]) ∧
    (WellMarked shortest ∧ (walk shortest).2.fragments.map Fragment.name = [1025] ∧
      (walk (shown shortest)).2.fragments = []) := by
  refine ⟨⟨?_, by cbv, by cbv⟩, ⟨?_, by cbv, by cbv⟩, ⟨?_, by cbv, by cbv⟩, ⟨?_, by cbv, by cbv⟩⟩
  · exact .lit _ (.lit _ (.one _ (.lit _ .nil)))
  · exact .lit _ (.one _ (.lit _ .nil))
  · exact .lit _ (.one _ (.lit _ (.lit _ (.lit _ (.lit _ (.lit _ .nil))))))
  · exact .lit _ (.lit _ (.lit _ (.lit _ (.lit _ (.one _ .nil)))))

end EffectScript
