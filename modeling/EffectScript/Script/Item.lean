import EffectScript.Lexis.Lexeme
import EffectScript.Lexis.SpellingTable
import EffectScript.Storage.Path

/-!
# Items of a source text

A source text is a sequence of items: plain words, inclusions of other files, and definitions of
macros.  Comments and blanks lie between items.  An inclusion is a name between brackets and loses
its extension; a definition is a name and the words on the rest of its line, where a backslash
continues the line.

A word that opens a conditional is *late* when the rest of its line mentions a flag of the second
pass, a lexeme that starts with `%_`.

`Item.next?` takes one item off a text.  It fails on a malformed inclusion and on a definition
without a name, and on nothing else.
-/

namespace EffectScript

/-! ## 1. Words -/

/-- A lexeme that stands for itself. -/
structure Word where
  spelling : Bytes
  /-- Whether it opens a conditional that the second pass decides. -/
  late : Bool
  deriving DecidableEq, Repr

/-- How the lexemes start that are flags of the second pass. -/
def lateFlagStart : Bytes := Bytes.ofString "%_"

/-- Whether a text mentions a flag of the second pass. -/
def mentionsLateFlag (text : Bytes) : Bool :=
  (Lexeme.all text).any lateFlagStart.isPrefixOf

/-- The word of a lexeme, given the text after it. -/
def Word.ofLexeme (lexeme rest : Bytes) : Word :=
  ⟨lexeme, (TokenId.ofSpelling lexeme).isEarlyTest && mentionsLateFlag (Lexeme.restOfLine rest)⟩

/-- The words of a text, comments left out. -/
def Word.all (text : Bytes) : List Word :=
  match _h : Lexeme.next? (Lexeme.skipBlank text) with
  | none => []
  | some (lexeme, rest) => Word.ofLexeme lexeme rest :: Word.all rest
termination_by text.length
decreasing_by
  have h1 := Lexeme.length_next? _h
  have h2 := Lexeme.length_skipBlank_le text
  omega

/-! ## 2. Items -/

/-- A part of a source text. -/
inductive Item where
  | word (w : Word)
  | inclusion (name : Bytes)
  | definition (name : Bytes) (body : List Word)
  deriving DecidableEq, Repr

/-- The name of an included file up to its closing bracket, without extension, and the text after
it.  `total` is the length of the source. -/
def closeName (total : Nat) (closer : UInt8) (text : Bytes) : Except Cause (Bytes × Bytes) :=
  let inside := fun c : UInt8 => c != closer && !Lexeme.isBlank c
  let name := text.takeWhile inside
  match text.dropWhile inside with
  | [] => .error (.badInclude .unterminated)
  | c :: rest =>
    if c = closer then
      if name = [] then .error (.badInclude .empty) else .ok (Path.stripExtension name, rest)
    else .error (.badInclude (.badByte (total - (c :: rest).length)))

/-- The name after `#include`, and the text after it. -/
def includeName (total : Nat) (text : Bytes) : Except Cause (Bytes × Bytes) :=
  match text.dropWhile Lexeme.isSpace with
  | [] => .error (.badInclude .missing)
  | c :: rest =>
    if c = 0x22 then closeName total 0x22 rest
    else if c = 0x3C then closeName total 0x3E rest
    else .error (.badInclude (.unbracketed (total - (c :: rest).length)))

/-- The rest of the line as it was written, and the text after it.  A backslash hides what is left
of its line, and the body goes on with a new line. -/
def rawBody : Bytes → Bytes × Bytes
  | [] => ([], [])
  | c :: rest =>
    if c = Lexeme.newline then ([], c :: rest)
    else if c = 0x5C then
      let (body, left) := rawBody ((rest.dropWhile (· != Lexeme.newline)).drop 1)
      (Lexeme.newline :: body, left)
    else
      let (body, left) := rawBody rest
      (c :: body, left)
termination_by text => text.length
decreasing_by
  · have := Lexeme.length_dropWhile_le (· != Lexeme.newline) rest
    simp only [List.length_drop, List.length_cons]
    omega
  · simp

/-- The body of a definition and the text after it. -/
def definitionBody (text : Bytes) : Bytes × Bytes :=
  let (body, left) := rawBody (text.dropWhile Lexeme.isSpace)
  (Bytes.trimRight (fun c => Lexeme.isSpace c || c == Lexeme.newline) body, left)

/-- The definition after `#define`, and the text after it. -/
def definitionItem (total : Nat) (text : Bytes) : Except Cause (Item × Bytes) :=
  let line := text.dropWhile Lexeme.isSpace
  let name := line.takeWhile (!Lexeme.isBlank ·)
  if name = [] then .error (.unnamedDefine (total - line.length))
  else
    let (body, left) := definitionBody (line.dropWhile (!Lexeme.isBlank ·))
    .ok (.definition name (Word.all body), left)

/-- The lexeme that starts an inclusion. -/
def includeWord : Bytes := Bytes.ofString "#include"

/-- The lexeme that starts a definition. -/
def defineWord : Bytes := Bytes.ofString "#define"

/-- The item that starts with `lexeme` and goes on in `text`, and the text after it. -/
def Item.ofLexeme (total : Nat) (lexeme text : Bytes) : Except Cause (Item × Bytes) :=
  if lexeme = includeWord then
    (includeName total text).map fun (name, rest) => (.inclusion name, rest)
  else if lexeme = defineWord then definitionItem total text
  else .ok (.word (Word.ofLexeme lexeme text), text)

/-- The next item of a text and the text after it; nothing when only blanks and comments are
left. -/
def Item.next? (total : Nat) (text : Bytes) : Except Cause (Option (Item × Bytes)) :=
  match Lexeme.next? (Lexeme.skipBlank text) with
  | none => .ok none
  | some (lexeme, rest) => (Item.ofLexeme total lexeme rest).map some

/-! ## 3. An item is taken off the text -/

theorem length_closeName {total : Nat} {closer : UInt8} {text name rest : Bytes}
    (h : closeName total closer text = .ok (name, rest)) : rest.length ≤ text.length := by
  unfold closeName at h
  dsimp only at h
  have hd := Lexeme.length_dropWhile_le (fun c : UInt8 => c != closer && !Lexeme.isBlank c) text
  split at h
  · cases h
  · rename_i c tail htail
    rw [htail, List.length_cons] at hd
    split at h
    · split at h
      · cases h
      · cases h; omega
    · cases h

theorem length_includeName {total : Nat} {text name rest : Bytes}
    (h : includeName total text = .ok (name, rest)) : rest.length ≤ text.length := by
  unfold includeName at h
  have hd := Lexeme.length_dropWhile_le Lexeme.isSpace text
  split at h
  · cases h
  · rename_i c tail htail
    rw [htail, List.length_cons] at hd
    split at h
    · have := length_closeName h; omega
    · split at h
      · have := length_closeName h; omega
      · cases h

theorem length_rawBody_le (text : Bytes) : (rawBody text).2.length ≤ text.length := by
  induction text using rawBody.induct with
  | case1 => simp [rawBody]
  | case2 rest => simp [rawBody]
  | case3 rest _ body left hb ih =>
    have hd := Lexeme.length_dropWhile_le (· != Lexeme.newline) rest
    simp only [List.length_drop] at ih
    rw [rawBody, if_neg (by assumption), if_pos rfl]
    simp only [List.length_cons]
    omega
  | case4 c rest hn hc body left hb ih =>
    rw [rawBody, if_neg hn, if_neg hc]
    simp only [List.length_cons]
    omega

theorem length_definitionItem {total : Nat} {text rest : Bytes} {item : Item}
    (h : definitionItem total text = .ok (item, rest)) : rest.length ≤ text.length := by
  unfold definitionItem definitionBody at h
  dsimp only at h
  have h1 := Lexeme.length_dropWhile_le Lexeme.isSpace text
  have h2 := Lexeme.length_dropWhile_le (!Lexeme.isBlank ·) (text.dropWhile Lexeme.isSpace)
  have h3 := Lexeme.length_dropWhile_le Lexeme.isSpace
    ((text.dropWhile Lexeme.isSpace).dropWhile (!Lexeme.isBlank ·))
  have h4 := length_rawBody_le
    (((text.dropWhile Lexeme.isSpace).dropWhile (!Lexeme.isBlank ·)).dropWhile Lexeme.isSpace)
  split at h
  · cases h
  · cases h; omega

theorem length_itemOfLexeme {total : Nat} {lexeme text rest : Bytes} {item : Item}
    (h : Item.ofLexeme total lexeme text = .ok (item, rest)) : rest.length ≤ text.length := by
  unfold Item.ofLexeme at h
  split at h
  · cases hn : includeName total text with
    | error e => rw [hn] at h; cases h
    | ok pair =>
      rw [hn] at h
      cases h
      exact length_includeName hn
  · split at h
    · exact length_definitionItem h
    · cases h; exact Nat.le_refl _

theorem length_itemNext? {total : Nat} {text rest : Bytes} {item : Item}
    (h : Item.next? total text = .ok (some (item, rest))) : rest.length < text.length := by
  unfold Item.next? at h
  split at h
  · cases h
  · rename_i lexeme tail hl
    have h1 := Lexeme.length_next? hl
    have h2 := Lexeme.length_skipBlank_le text
    cases hi : Item.ofLexeme total lexeme tail with
    | error e => rw [hi] at h; cases h
    | ok pair =>
      rw [hi] at h
      cases h
      have h3 := length_itemOfLexeme hi
      omega

end EffectScript
