import EffectScript.Declaration.Frame
import EffectScript.Declaration.Scan

/-!
# What leads a declaration

Reading declarations starts at a visible token.  It may be the start of a fragment: a global with
a storage class up to its semicolon, a directive up to its end, a function definition up to its
closing brace.  A quote is passed over.  Any other token leads a declaration.

`Lead.of` says which of these it is.  Everything is read within a frame that ends at `last`.
-/

namespace EffectScript

/-! ## 1. Directives -/

/-- The first index from `i` on that holds the end of a definition, but not beyond `last`. -/
def definitionEnd (tokens : List Token) (last i : Int) : Int :=
  if i < last ∧ tokenAt tokens i ≠ .lit TokenId.eol then definitionEnd tokens last (i + 1) else i
termination_by (last - i).toNat
decreasing_by omega

/-- How many tokens lie from `i` to the parenthesis that closes the group, of which `depth` levels
are open; all up to `last` when none does. -/
def groupSpan (tokens : List Token) (last : Int) (depth : Nat) (i : Int) : Nat :=
  if _h : i ≤ last then
    if tokenAt tokens i = .lit TokenId.leftParen then
      groupSpan tokens last (depth + 1) (i + 1) + 1
    else if tokenAt tokens i = .lit TokenId.rightParen then
      if depth ≤ 1 then 0 else groupSpan tokens last (depth - 1) (i + 1) + 1
    else groupSpan tokens last depth (i + 1) + 1
  else 0
termination_by (last + 1 - i).toNat
decreasing_by all_goals omega

/-- The index behind the term of a conditional expression at `i`. -/
def termEnd (tokens : List Token) (last i : Int) : Int :=
  let i := if tokenAt tokens i = .lit TokenId.notSign then i + 1 else i
  if tokenAt tokens i = .lit TokenId.leftParen then i + groupSpan tokens last 0 i + 1 else i + 1

theorem lt_termEnd (tokens : List Token) (last i : Int) : i < termEnd tokens last i := by
  unfold termEnd
  dsimp only
  split <;> split <;> omega

/-- Whether a token joins two terms of a conditional expression. -/
def isJoint (t : Token) : Bool := t == .lit TokenId.orSign || t == .lit TokenId.andSign

/-- The index behind the conditional expression at `i`. -/
def expressionEnd (tokens : List Token) (last i : Int) : Int :=
  if _h : i ≤ last then
    let stop := termEnd tokens last i
    let sign := tokenAt tokens stop
    if isJoint sign then
      if tokenAt tokens (stop + 1) = sign then expressionEnd tokens last (stop + 2)
      else expressionEnd tokens last (stop + 1)
    else stop
  else i
termination_by (last + 1 - i).toNat
decreasing_by
  all_goals
    have := lt_termEnd tokens last i
    omega

/-- The index of the last token of the directive `id` at `i`. -/
def directiveEnd (tokens : List Token) (last : Int) (id : TokenId) (i : Int) : Int :=
  let stop :=
    match Directive.ofId? id with
    | some (.define _) => definitionEnd tokens last (i + 1)
    | some (.ifTest _ _) => expressionEnd tokens last (i + 1) - 1
    | some .elifTest => expressionEnd tokens last (i + 1) - 1
    | some .elseBranch => i
    | some .endif => i
    | some .warning => textEnd
    | some .registerEnv => textEnd
    | _ => i + 1
  min stop last
where
  /-- The end of the text that a directive takes. -/
  textEnd : Int :=
    if tokenAt tokens (i + 1) = .lit TokenId.quote then
      (indexOf? tokens (i + 2) last [TokenId.quote]).getD (i + 1)
    else i + 1

/-! ## 2. Functions -/

/-- The index behind the attributes in brackets at `i`; nothing when one is not closed. -/
def afterAttributes? (tokens : List Token) (last i : Int) : Option Int :=
  if _h : tokenAt tokens i = .lit TokenId.leftBracket then
    match indexOf? tokens (i + 1) last [TokenId.rightBracket] with
    | none => none
    | some j => afterAttributes? tokens last (max (i + 1) (visibleFrom tokens (j + 1)))
  else some i
termination_by (tokens.length - i).toNat
decreasing_by
  have hi : i < tokens.length := by
    by_cases hi : i < tokens.length
    · exact hi
    · rw [tokenAt, if_neg (by omega), List.getElem?_eq_none (by omega)] at _h
      cases _h
  omega

/-- The index of the brace that closes the one at `i`. -/
def closingBrace? (tokens : List Token) (last i : Int) : Option Int :=
  let found := scan tokens last (fun (depth : Nat) _ t =>
    if t = .lit TokenId.leftBrace then .next (depth + 1)
    else if t = .lit TokenId.rightBrace then
      if depth ≤ 1 then .stop 0 else .next (depth - 1)
    else .next depth) 0 i
  if found.stopped then some found.index else none

/-- The name and the last index of the function definition at `start`: attributes, a type, a name,
an opening parenthesis, and later an opening brace before any semicolon. -/
def function? (tokens : List Token) (last start : Int) : Option (TokenId × Int) :=
  if last ≤ start + 4 then none
  else
    match afterAttributes? tokens last start with
    | none => none
    | some i =>
      if tokenAt tokens (i + 2) = .lit TokenId.leftParen ∧ (tokenAt tokens (i + 1)).isLit then
        match indexOf? tokens (i + 3) last [TokenId.leftBrace, TokenId.semicolon] with
        | none => none
        | some brace =>
          if tokenAt tokens brace = .lit TokenId.leftBrace then
            (closingBrace? tokens last brace).map fun stop => ((tokenAt tokens (i + 1)).id, stop)
          else none
      else none

/-! ## 3. The choice -/

/-- What is at a visible token. -/
inductive Lead where
  /-- A quote. -/
  | quote
  /-- A fragment, and the storage class if it is one of a global. -/
  | fragment (f : Fragment) (storage : Option StorageClass)
  /-- The token that leads a declaration. -/
  | token (id : TokenId)
  deriving DecidableEq, Repr

/-- The global with a storage class at `i`. -/
def globalFragment (tokens : List Token) (last i : Int) : Fragment :=
  let stop := (indexOf? tokens i last [TokenId.semicolon]).getD last
  ⟨.storageClass, Frame.ofBounds i stop, (tokenAt tokens (stop - 1)).id⟩

/-- What is at the visible token `i`. -/
def Lead.of (tokens : List Token) (last i : Int) : Lead :=
  let t := tokenAt tokens i
  let storage := StorageClass.ofToken t
  if t = .lit TokenId.quote then .quote
  else if storage ≠ .default then .fragment (globalFragment tokens last i) (some storage)
  else if t.id.isDirective then
    .fragment ⟨.directive, Frame.ofBounds i (directiveEnd tokens last t.id i), t.id⟩ none
  else
    match function? tokens last i with
    | some (name, stop) => .fragment ⟨.function, Frame.ofBounds i stop, name⟩ none
    | none => .token t.id

end EffectScript
