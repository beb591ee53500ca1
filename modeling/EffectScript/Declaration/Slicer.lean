import EffectScript.Declaration.Lead
import EffectScript.Script.Layout
import EffectScript.Text.Numeral

/-!
# Slicers

A slicer walks the tokens of a script, within a current frame, and remembers the fragments that it
stepped over, the token that it gave last, and the pieces of the declaration that it read last.
It reports what is out of bounds or not expected, and goes on.

Section 1 has the state and the frames, section 2 the step to the next declaration, section 3 the
readings of a frame as text and values.

In the tool's interface a slicer is a `Parser`.  `ofTokens` is its `New`, `enterFrame` and
`setFrame` are `BeginFrame` and `EndFrame`, and `next` is `NextToken`.  Of the readings, `text` is
`String`, `unquotedText` is `NameString`, `boolean` and `integer` are `Bool` and `Int`, `copy` is
`CopyTokens`, `find` is `FindAnyToken` and with one id `FindToken`, `afterSemicolon` is
`JumpSemicolon`, and `dump` is `Dump`.
-/

namespace EffectScript

/-! ## 1. The state -/

/-- The pieces of a declaration. -/
structure Pieces where
  name : Frame
  assign : Frame
  value : Frame
  data : Frame
  annotations : Frame
  deriving DecidableEq, Repr

/-- The pieces of no declaration. -/
def Pieces.empty : Pieces := ⟨.empty, .empty, .empty, .empty, .empty⟩

/-- A walk over tokens. -/
structure Slicer where
  tokens : List Token
  table : SpellingTable
  /-- The current frame. -/
  frame : Frame
  /-- The token that was given last, and its index. -/
  token : TokenId
  tokenIndex : Int
  /-- The fragments stepped over, in order. -/
  fragments : List Fragment
  /-- The pieces of the declaration that was read last. -/
  pieces : Pieces
  /-- The lines reported, in order. -/
  log : List Bytes
  deriving DecidableEq, Repr

namespace Slicer

/-- A slicer at the start of some tokens, with all of them as its frame. -/
def ofTokens (tokens : List Token) (table : SpellingTable) : Slicer :=
  ⟨tokens, table, Frame.ofBounds 0 (tokens.length - 1), TokenId.eol, 0, [], .empty, []⟩

/-- The slicer after reporting a line. -/
def report (s : Slicer) (line : Bytes) : Slicer := { s with log := s.log ++ [line] }

/-- The slicer after reporting that something is out of bounds. -/
def invalid (s : Slicer) (text : Bytes) : Slicer :=
  s.report (Bytes.ofString "validation error: " ++ text)

/-- A range as messages show it. -/
def rangeText (first last : Int) : Bytes :=
  Bytes.ofString "[" ++ Bytes.signedDecimal first ++ Bytes.ofString ", " ++
    Bytes.signedDecimal last ++ Bytes.ofString "]"

/-- The number of tokens as messages show it. -/
def countText (s : Slicer) : Bytes :=
  Bytes.decimal s.tokens.length ++ Bytes.ofString " tokens"

/-- The slicer with its cursor at an index. -/
def moveTo (s : Slicer) (i : Int) : Slicer := { s with frame := { s.frame with cursor := i } }

/-- The slicer with another current frame. -/
def setFrame (s : Slicer) (f : Frame) : Slicer := { s with frame := f }

/-- The slicer at the start of another frame.  Ends outside the tokens are reported and moved
inside. -/
def enterFrame (s : Slicer) (f : Frame) : Slicer :=
  let count : Int := s.tokens.length
  let (first, s) :=
    if f.first < 0 then
      (0, s.invalid (Bytes.ofString "frame " ++ rangeText f.first f.last ++
        Bytes.ofString " starts before the first token"))
    else (f.first, s)
  let (last, s) :=
    if count ≤ f.last then
      (count - 1, s.invalid (Bytes.ofString "frame " ++ rangeText first f.last ++
        Bytes.ofString " exceeds " ++ s.countText))
    else (f.last, s)
  { s with frame := ⟨first, last, first⟩, token := TokenId.eol }

/-- The token at the cursor. -/
def here (s : Slicer) : Token := tokenAt s.tokens s.frame.cursor

/-- The slicer with its cursor on a visible token. -/
def skipHidden (s : Slicer) : Slicer := s.moveTo (visibleFrom s.tokens s.frame.cursor)

/-! ## 2. The next declaration -/

/-- What a step to the next declaration gave. -/
structure Next where
  /-- The token that leads it. -/
  id : TokenId
  /-- The storage class of the last global stepped over. -/
  storage : StorageClass
  /-- Whether there is one before the end of the frame. -/
  found : Bool
  deriving DecidableEq, Repr

/-- Step to the next token that leads a declaration, where the last global stepped over had the
storage class `storage`. -/
def nextFrom (storage : StorageClass) (s : Slicer) : Next × Slicer :=
  let i := s.frame.cursor
  if i < 0 then
    (⟨TokenId.eol, storage, false⟩,
      s.invalid (Bytes.ofString "cursor " ++ Bytes.signedDecimal i ++
        Bytes.ofString " before the first token"))
  else if _h : s.frame.last < i ∨ s.tokens.length ≤ i then (⟨TokenId.eol, storage, false⟩, s)
  else if 0 < hiddenAt s.tokens i then nextFrom storage (s.moveTo (i + hiddenAt s.tokens i))
  else
    match Lead.of s.tokens s.frame.last i with
    | .quote => nextFrom storage (s.moveTo (i + 1))
    | .fragment f storage? =>
      nextFrom (storage?.getD storage)
        { s with
          fragments := s.fragments ++ [f]
          frame := { s.frame with
            cursor := indexAfter s.tokens.length (max i f.frame.last) } }
    | .token id =>
      (⟨id, storage, true⟩,
        { s with
          token := id
          tokenIndex := i
          frame := { s.frame with cursor := i + 1 } })
termination_by s.frame.ahead
decreasing_by
  · exact Frame.ahead_lt (by omega) (by omega) rfl (Or.inl (by simp only [i, moveTo] at *; omega))
  · exact Frame.ahead_lt (by omega) (by omega) rfl (Or.inl (by simp only [moveTo]; omega))
  · refine Frame.ahead_lt (by omega) (by omega) rfl ?_
    rcases indexAfter_cases s.tokens.length (max s.frame.cursor f.frame.last) with h | h
    · exact Or.inl (by simp only [h]; omega)
    · exact Or.inr h

/-- Step to the next token that leads a declaration. -/
def next (s : Slicer) : Next × Slicer := nextFrom .default s

/-- A token that was given leaves less of the frame before the cursor, which was inside it. -/
theorem nextFrom_decreases (storage : StorageClass) (s : Slicer)
    (h : (nextFrom storage s).1.found = true) :
    (nextFrom storage s).2.frame.last = s.frame.last ∧
      s.frame.cursor < (nextFrom storage s).2.frame.cursor ∧
      0 ≤ s.frame.cursor ∧ s.frame.cursor ≤ s.frame.last := by
  induction storage, s using nextFrom.induct with
  | case1 storage s i hi => rw [nextFrom] at h; simp [i] at hi; simp [hi] at h
  | case2 storage s i hi hend =>
    rw [nextFrom] at h
    simp [i] at hi hend
    simp [show ¬ s.frame.cursor < 0 by omega, hend] at h
  | case3 storage s i hi hend hh ih =>
    have hh' : 0 < hiddenAt s.tokens s.frame.cursor := hh
    have hrec : nextFrom storage s =
        nextFrom storage (s.moveTo (s.frame.cursor + hiddenAt s.tokens s.frame.cursor)) := by
      rw [nextFrom]
      simp only [i] at hi hend hh
      simp [hi, hend, hh]
    rw [hrec] at h ⊢
    have := ih h
    simp only [moveTo, i] at this ⊢
    simp only [i] at hend
    omega
  | case4 storage s i hi hend hh hl ih =>
    have hrec : nextFrom storage s = nextFrom storage (s.moveTo (s.frame.cursor + 1)) := by
      rw [nextFrom]
      simp only [i] at hi hend hh hl
      simp [hi, hend, hh, hl]
    rw [hrec] at h ⊢
    have := ih h
    simp only [moveTo, i] at this ⊢
    simp only [i] at hend
    omega
  | case5 storage s i hi hend hh f storage? hl ih =>
    have hrec : nextFrom storage s = nextFrom (storage?.getD storage)
        { s with
          fragments := s.fragments ++ [f]
          frame := { s.frame with
            cursor := indexAfter s.tokens.length (max s.frame.cursor f.frame.last) } } := by
      rw [nextFrom]
      simp only [i] at hi hend hh hl
      simp [hi, hend, hh, hl]
    rw [hrec] at h ⊢
    have := ih h
    simp only [i] at this ⊢
    simp only [i] at hi hend
    rcases indexAfter_cases s.tokens.length (max s.frame.cursor f.frame.last) with hc | hc
    · rw [hc] at this ⊢
      omega
    · omega
  | case6 storage s i hi hend hh id hl =>
    rw [nextFrom]
    simp only [i] at hi hend hh hl
    simp [hi, hend, hh, hl]
    omega

/-- All steps to the end of the frame, the one that finds nothing last. -/
def drain (s : Slicer) : List Next × Slicer :=
  match _h : s.next with
  | (step, after) =>
    if _hf : step.found then
      let (steps, last) := drain after
      (step :: steps, last)
    else ([step], after)
termination_by (s.frame.last + 1 - s.frame.cursor).toNat
decreasing_by
  have h := nextFrom_decreases .default s (by rw [next] at _h; rw [_h]; exact _hf)
  rw [next] at _h
  rw [_h] at h
  simp only at h
  omega

/-! ## 3. Texts and values -/

/-- The text of a frame on one line. -/
def text (s : Slicer) (f : Frame) : Bytes := runText s.table (visibleIds s.tokens f.first f.last)

/-- The text of a frame without its quotes. -/
def unquotedText (s : Slicer) (f : Frame) : Bytes :=
  runText s.table ((visibleIds s.tokens f.first f.last).filter fun id =>
    id != TokenId.quote && id != TokenId.singleQuote)

/-- The truth value that a frame starts with; an empty frame is true. -/
def boolean (s : Slicer) (f : Frame) : Bool × Slicer :=
  if f.isEmpty then (true, s)
  else
    let t := tokenAt s.tokens f.first
    if t = .lit TokenId.yes ∨ t = .lit TokenId.one then (true, s)
    else if t = .lit TokenId.no ∨ t = .lit TokenId.zero then (false, s)
    else
      (false, s.report (Bytes.ofString "warning: " ++ Text.quoted (s.table.spellingOrName t.id) ++
        Bytes.ofString " is not a boolean"))

/-- The integer that a frame starts with; zero when it starts with none. -/
def integer (s : Slicer) (f : Frame) : Int :=
  if f.isEmpty then 0
  else (Numeral.signed? (s.table.spellingOrName (tokenAt s.tokens f.first).id)).getD 0

/-- The tokens of a frame, or nothing and a report when it is not inside the tokens. -/
def copy (s : Slicer) (f : Frame) : List Token × Slicer :=
  if f.isEmpty then ([], s)
  else if f.first < 0 ∨ s.tokens.length ≤ f.last then
    ([], s.invalid (Bytes.ofString "out-of-bounds copy " ++ rangeText f.first f.last ++
      Bytes.ofString " of " ++ s.countText))
  else ((s.tokens.drop f.first.toNat).take (f.last - f.first + 1).toNat, s)

/-- The index of the first of some ids between two indices, which have to be inside the tokens. -/
def find (s : Slicer) (first last : Int) (ids : List TokenId) : Option Int × Slicer :=
  if first < 0 ∨ s.tokens.length ≤ last then
    (none, s.invalid (Bytes.ofString "out-of-bounds search " ++ rangeText first last ++
      Bytes.ofString " of " ++ s.countText))
  else (indexOf? s.tokens first last ids, s)

/-- The index behind the next semicolon between two indices, and whether there is one. -/
def afterSemicolon (s : Slicer) (first last : Int) : Int × Bool :=
  match indexOf? s.tokens first last [TokenId.semicolon] with
  | some i => (i + 1, true)
  | none => (max first (indexAfter s.tokens.length last), false)

/-- A fragment for diagnostics: its kind, its name, its range and its text. -/
def fragmentText (s : Slicer) (f : Fragment) : Bytes :=
  Bytes.ofString f.kind.name ++ Bytes.ofString " " ++ s.table.spellingOrName f.name ++
    Bytes.ofString " " ++ rangeText f.frame.first f.frame.last ++ Bytes.ofString " " ++
    Text.quoted (s.text f.frame)

/-- All fragments for diagnostics, set out by the given printer of lists. -/
def dump (s : Slicer) (listing : List Bytes → Bytes) : Bytes :=
  listing (s.fragments.map s.fragmentText)

end Slicer

end EffectScript
