import EffectScript.Script.Token

/-!
# Scanning visible tokens by index

Declarations are found by looking at tokens by their index.  An index outside the list is
harmless: the token there is the one with id `0`, and it is visible.

All searches are instances of one loop, `scan`.  It looks at the visible tokens from an index up
to a last one, and passes over hidden units as a whole; such a unit may reach beyond the last
index, and then so does the index at which the loop ends.
-/

namespace EffectScript

/-! ## 1. Tokens by index -/

/-- The token at an index. -/
def tokenAt (tokens : List Token) (i : Int) : Token :=
  if i < 0 then .lit TokenId.eol else tokens[i.toNat]?.getD (.lit TokenId.eol)

/-- The length of the hidden unit at an index; `0` where the token is visible. -/
def hiddenAt (tokens : List Token) (i : Int) : Nat :=
  if i < 0 then 0 else hiddenLength (tokens.drop i.toNat)

theorem lt_length_of_hiddenAt_pos {tokens : List Token} {i : Int} (h : 0 < hiddenAt tokens i) :
    0 ≤ i ∧ i < tokens.length := by
  unfold hiddenAt at h
  split at h
  · omega
  · refine ⟨by omega, ?_⟩
    by_cases hi : i.toNat < tokens.length
    · omega
    · rw [List.drop_eq_nil_of_le (by omega)] at h
      simp [hiddenLength] at h

/-- The first index from `i` on that is visible. -/
def visibleFrom (tokens : List Token) (i : Int) : Int :=
  if _h : 0 < hiddenAt tokens i then visibleFrom tokens (i + hiddenAt tokens i) else i
termination_by (tokens.length - i).toNat
decreasing_by
  have := lt_length_of_hiddenAt_pos _h
  omega

/-! ## 2. The loop -/

/-- What a scan does at a token, with a state of type `α`. -/
inductive Move (α : Type) where
  /-- End here. -/
  | stop (a : α)
  /-- Go on with the next token. -/
  | next (a : α)
  /-- Go on behind a later index. -/
  | jump (a : α) (index : Int)

/-- Where a scan ended. -/
structure Scanned (α : Type) where
  state : α
  /-- The index of the token that ended it, or the first one beyond the last. -/
  index : Int
  /-- Whether a token ended it. -/
  stopped : Bool

/-- Look at the visible tokens from `i` up to `last`. -/
def scan {α : Type} (tokens : List Token) (last : Int) (look : α → Int → Token → Move α)
    (a : α) (i : Int) : Scanned α :=
  if _h : i ≤ last then
    if 0 < hiddenAt tokens i then scan tokens last look a (i + hiddenAt tokens i)
    else
      match look a i (tokenAt tokens i) with
      | .stop a => ⟨a, i, true⟩
      | .next a => scan tokens last look a (i + 1)
      | .jump a index => scan tokens last look a (max i index + 1)
  else ⟨a, i, false⟩
termination_by (last + 1 - i).toNat
decreasing_by all_goals omega

/-! ## 3. Searches -/

/-- The scan for the first token that `p` accepts. -/
def scanFor (tokens : List Token) (p : Token → Bool) (last i : Int) : Scanned Unit :=
  scan tokens last (fun _ _ t => if p t then .stop () else .next ()) () i

/-- The index of the first of some ids between two indices. -/
def indexOf? (tokens : List Token) (first last : Int) (ids : List TokenId) : Option Int :=
  let found := scanFor tokens (fun t => t.isLit && ids.contains t.id)
    (min last (tokens.length - 1)) (max first 0)
  if found.stopped then some found.index else none

/-- The index of the quote that closes the one at `i`; the last index when none does. -/
def closingQuote (tokens : List Token) (last i : Int) : Int :=
  let found := scanFor tokens (· == .lit TokenId.quote) last (i + 1)
  if found.stopped then found.index else last

/-- The ids of the visible tokens between two indices. -/
def visibleIds (tokens : List Token) (first last : Int) : List TokenId :=
  (scan tokens (min last (tokens.length - 1))
    (fun ids _ t => .next (if t.isLit then t.id :: ids else ids)) [] (max first 0)).state.reverse

end EffectScript
