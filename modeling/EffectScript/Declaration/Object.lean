import EffectScript.Declaration.Slicer

/-!
# Declarations

Two forms of declaration are read into pieces.  An *object* is

    keyword [<annotations>] name[…] [: assign] [<annotations>] [= value] [{ data }] [;]

and a *state assignment* is

    keyword [[index]] ['name'|name] (= data; | { data })

A keyword that is not expected is reported, and nothing is read behind it.  Section 1 has the
pieces, section 2 the two forms.

In the tool's interface, which the reports quote, `namePiece` is `AssignmentData`, `statePiece` is
`FXAssignmentData`, `initializerPiece` is `FXAssignmentData2`, `groupPiece` is `SubData`,
`readObject` is `ParseObject` and `readState` is `ParseIndexedObject`.  `expects` is its `allowed`
and `passSemicolon` its `skipPastSemicolon`.
-/

namespace EffectScript.Slicer

/-! ## 1. Pieces -/

/-- Whether the cursor is inside the tokens. -/
def inBounds (s : Slicer) : Bool := 0 ≤ s.frame.cursor && s.frame.cursor < s.tokens.length

/-- The slicer after reporting that a reading started outside the tokens. -/
def outOfBounds (s : Slicer) (operation : String) : Slicer :=
  s.invalid (Bytes.ofString "out-of-bounds access in " ++ Bytes.ofString operation ++
    Bytes.ofString " at " ++ Bytes.signedDecimal s.frame.cursor ++ Bytes.ofString " of " ++
    s.countText)

/-- The slicer behind an index, and behind the semicolon that follows it, if one does. -/
def passSemicolon (s : Slicer) (i : Int) : Slicer :=
  let i := visibleFrom s.tokens i
  if i ≤ s.frame.last ∧ tokenAt s.tokens i = .lit TokenId.semicolon then s.moveTo (i + 1)
  else s.moveTo i

/-- What closes the group that a token opens. -/
def closer? (t : Token) : Option TokenId :=
  if t = .lit TokenId.leftBracket then some TokenId.rightBracket
  else if t = .lit TokenId.leftParen then some TokenId.rightParen
  else none

/-- The last index of the group opened at `i`: that of its closer, or the one before a semicolon
that comes first, or the end of the frame. -/
def groupLast (tokens : List Token) (last : Int) (closer : TokenId) (i : Int) : Int :=
  let found := scan tokens last (fun (_ : Bool) _ t =>
    if t = .lit closer then .stop false
    else if t = .lit TokenId.semicolon then .stop true
    else .next false) false (i + 1)
  min (if found.state then found.index - 1 else found.index) last

/-- The name at the cursor, with the group in brackets or parentheses behind it. -/
def namePiece (s : Slicer) : Frame × Slicer :=
  let s := s.skipHidden
  if s.inBounds then
    let first := s.frame.cursor
    let opening := visibleFrom s.tokens (first + 1)
    let last :=
      match closer? (tokenAt s.tokens opening) with
      | some closer => groupLast s.tokens s.frame.last closer opening
      | none => first
    (Frame.ofBounds first last, s.passSemicolon (last + 1))
  else (Frame.empty, s.outOfBounds "AssignmentData")

/-- The tokens from the cursor to the next semicolon, which is passed.  A semicolon between quotes
is not one. -/
def statePiece (s : Slicer) : Frame × Slicer :=
  let s := s.skipHidden
  if s.inBounds then
    let first := s.frame.cursor
    let found := scan s.tokens s.frame.last (fun (_ : Unit) i t =>
      if t = .lit TokenId.quote then .jump () (closingQuote s.tokens s.frame.last i)
      else if t = .lit TokenId.semicolon then .stop ()
      else .next ()) () first
    (Frame.ofBounds first (found.index - 1),
      s.moveTo (if found.stopped then found.index + 1 else found.index))
  else (Frame.empty, s.outOfBounds "FXAssignmentData")

/-- The index at which the initializer at `first` ends: a list in braces at its semicolon, an
expression in parentheses at a semicolon, an annotation or an assignment behind it, and anything
else at a semicolon, a group or an annotation outside quotes. -/
def initializerEnd (tokens : List Token) (last first : Int) : Int :=
  let t := tokenAt tokens first
  if t = .lit TokenId.leftBrace then
    (scanFor tokens (· == .lit TokenId.semicolon) (last - 1) (first + 1)).index
  else if t = .lit TokenId.leftParen then
    (scan tokens (last - 1) (fun (depth : Int) _ t =>
      if depth = 0 ∧
          (t = .lit TokenId.semicolon ∨ t = .lit TokenId.less ∨ t = .lit TokenId.equals) then
        .stop depth
      else if t = .lit TokenId.leftParen then .next (depth + 1)
      else if t = .lit TokenId.rightParen then .next (depth - 1)
      else .next depth) 1 (first + 1)).index
  else
    (scan tokens last (fun (_ : Unit) i t =>
      if t = .lit TokenId.quote then .jump () (closingQuote tokens last i)
      else if t = .lit TokenId.semicolon ∨ t = .lit TokenId.leftParen ∨
          t = .lit TokenId.leftBrace ∨ t = .lit TokenId.less then
        .stop ()
      else .next ()) () first).index

/-- The initializer at the cursor. -/
def initializerPiece (s : Slicer) : Frame × Slicer :=
  let s := s.skipHidden
  if s.inBounds then
    let first := s.frame.cursor
    let stop := initializerEnd s.tokens s.frame.last first
    (Frame.ofBounds first (stop - 1), s.passSemicolon stop)
  else (Frame.empty, s.outOfBounds "FXAssignmentData2")

/-- The scan for the closer of a group, from inside it.  Groups nest, and what is between quotes
does not count, unless quotes are what opens the group. -/
def scanGroup (tokens : List Token) (last : Int) (opener closer : TokenId) (i : Int) :
    Scanned Int :=
  scan tokens last (fun (depth : Int) i t =>
    if t = .lit TokenId.quote ∧ opener ≠ TokenId.quote then
      .jump depth (closingQuote tokens last i)
    else if t = .lit closer then
      if depth = 1 then .stop 0 else .next (depth - 1)
    else if t = .lit opener then .next (depth + 1)
    else .next depth) 1 i

/-- The inside of the group at the cursor; the frame of no tokens when the cursor is at no such
group, or when nothing is inside it. -/
def groupPiece (s : Slicer) (opener closer : TokenId) : Frame × Slicer :=
  let s := s.skipHidden
  if s.frame.last < s.frame.cursor ∨ s.here ≠ .lit opener then (Frame.empty, s)
  else
    let first := indexAfter s.tokens.length s.frame.cursor
    let found := scanGroup s.tokens s.frame.last opener closer first
    let inside :=
      if found.stopped then Frame.ofBounds first (indexBefore found.index) else Frame.empty
    (if inside.isEmpty then Frame.empty else inside,
      s.passSemicolon
        (if found.stopped then indexAfter s.tokens.length found.index else found.index))

/-! ## 2. The two forms -/

/-- Whether a keyword is expected, and a report when it is not. -/
def expects (s : Slicer) (id : TokenId) (expected : List TokenId) : Bool × Slicer :=
  if expected.contains id then (true, s)
  else
    let context := Frame.ofBounds (max s.frame.first (s.tokenIndex - 5))
      (min s.frame.last (s.tokenIndex + 5))
    (false, s.report (Bytes.ofString "warning: found token " ++
      Text.quoted (s.table.spellingOrName id) ++
      Bytes.ofString " which was not one of the list (skipping): expected one of " ++
      Bytes.joinWith (Bytes.ofString ", ") (expected.map s.table.spellingOrName) ++
      Bytes.ofString " near " ++ Text.quoted (s.text context)))

/-- The slicer with other pieces. -/
def setPieces (s : Slicer) (pieces : Pieces) : Slicer := { s with pieces }

/-- The slicer behind a semicolon, if it is at one inside its frame. -/
def passHere (s : Slicer) : Slicer :=
  if s.frame.cursor ≤ s.frame.last ∧ s.here = .lit TokenId.semicolon then
    s.moveTo (s.frame.cursor + 1)
  else s

/-- Read the pieces of an object behind its keyword. -/
def objectPieces (s : Slicer) : Slicer :=
  let s := s.skipHidden
  let annotated := s.here == .lit TokenId.less
  let (before, s) :=
    if annotated then s.groupPiece TokenId.less TokenId.greater else (Frame.empty, s)
  let (name, s) := s.namePiece
  let s := s.skipHidden
  let (assign, s) :=
    if s.here = .lit TokenId.colon then (s.moveTo (s.frame.cursor + 1)).namePiece
    else (Frame.empty, s)
  let (annotations, s) :=
    if annotated then (before, s) else s.groupPiece TokenId.less TokenId.greater
  let s := s.skipHidden
  let (value, data, s) :=
    if s.frame.cursor ≤ s.frame.last then
      let (value, s) :=
        if s.here = .lit TokenId.equals then (s.moveTo (s.frame.cursor + 1)).initializerPiece
        else (Frame.empty, s)
      let (data, s) := s.groupPiece TokenId.leftBrace TokenId.rightBrace
      (value, data, s)
    else (Frame.empty, Frame.empty, s)
  (s.skipHidden.passHere).setPieces ⟨name, assign, value, data, annotations⟩

/-- Read an object with one of the expected keywords, and its storage class. -/
def readObject (s : Slicer) (expected : List TokenId) : StorageClass × Slicer :=
  if s.frame.last ≤ indexAfter s.tokens.length s.frame.cursor then (.invalid, s)
  else if !s.inBounds then (.invalid, s.outOfBounds "ParseObject")
  else
    let (lead, s) := s.next
    if !lead.found then (.invalid, s)
    else
      let (allowed, s) := (s.setPieces .empty).expects lead.id expected
      if allowed then (lead.storage, s.objectPieces) else (.invalid, s)

/-- The index in brackets at the cursor, minus one when there is none. -/
def indexPiece (s : Slicer) : Int × Slicer :=
  let s := s.skipHidden
  if s.here = .lit TokenId.leftBracket then
    let s := s.moveTo (visibleFrom s.tokens (s.frame.cursor + 1))
    let index := s.integer (Frame.ofBounds s.frame.cursor s.frame.cursor)
    let s := s.moveTo (visibleFrom s.tokens (s.frame.cursor + 1))
    if s.here = .lit TokenId.rightBracket then
      (index, s.moveTo (visibleFrom s.tokens (s.frame.cursor + 1)))
    else (index, s)
  else (-1, s)

/-- The name at the cursor, in single quotes or a token; none at an assignment. -/
def stateName (s : Slicer) : Frame × Slicer :=
  if s.here = .lit TokenId.singleQuote then
    s.groupPiece TokenId.singleQuote TokenId.singleQuote
  else if s.here = .lit TokenId.equals then (Frame.empty, s)
  else
    (Frame.ofBounds s.frame.cursor s.frame.cursor, s.moveTo (s.frame.cursor + 1))

/-- Read the index and the pieces of a state assignment behind its keyword. -/
def statePieces (s : Slicer) : Int × Slicer :=
  let (index, s) := s.indexPiece
  let (name, s) := s.stateName
  let s := s.skipHidden
  let (data, s) :=
    if s.here = .lit TokenId.equals then (s.moveTo (s.frame.cursor + 1)).statePiece
    else s.groupPiece TokenId.leftBrace TokenId.rightBrace
  let s := s.skipHidden
  let s :=
    if s.here = .lit TokenId.semicolon ∨ s.here = .lit TokenId.quote then
      s.moveTo (s.frame.cursor + 1)
    else s
  (index, s.setPieces { Pieces.empty with name, data })

/-- Read a state assignment with one of the expected keywords: its storage class and its index. -/
def readState (s : Slicer) (expected : List TokenId) : StorageClass × Int × Slicer :=
  if !s.inBounds then (.invalid, -1, s.outOfBounds "ParseIndexedObject")
  else if s.frame.last ≤ s.frame.cursor + 1 then (.invalid, -1, s)
  else
    let (lead, s) := s.next
    if !lead.found then (.invalid, -1, s)
    else
      let (allowed, s) := (s.setPieces .empty).expects lead.id expected
      if allowed then
        let (index, s) := s.statePieces
        (lead.storage, index, s)
      else (.invalid, -1, s)

end EffectScript.Slicer
