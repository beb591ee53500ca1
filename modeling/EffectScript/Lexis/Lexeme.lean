import EffectScript.Text.Bytes

/-!
# Lexemes

The text of a script is cut into lexemes: after the blanks, either a run of bytes that are no
delimiters, or a single delimiter.  Every function here takes the text that is left to read and
gives the text that is left after it, so that an offset into the source is a difference of
lengths.
-/

namespace EffectScript.Lexeme

/-! ## 1. Classes of bytes -/

/-- Blanks and controls. -/
def isBlank (c : UInt8) : Bool := c ≤ 0x20

/-- The bytes that end a lexeme: blanks, controls, and the punctuation
`! " & ' ( ) * + , - . / : ; < = > ? [ ] { | }`. -/
def isDelimiter (c : UInt8) : Bool :=
  c ≤ 0x20 || c == 0x21 || c == 0x22 || (0x26 ≤ c && c ≤ 0x2F) || (0x3A ≤ c && c ≤ 0x3F) ||
    c == 0x5B || c == 0x5D || (0x7B ≤ c && c ≤ 0x7D)

/-- The end of a line. -/
def newline : UInt8 := 0x0A

/-- The byte that starts and ends comments. -/
def slash : UInt8 := 0x2F

/-- The byte inside the marks of a comment over several lines. -/
def star : UInt8 := 0x2A

/-- Space and tabulator. -/
def isSpace (c : UInt8) : Bool := c == 0x20 || c == 0x09

/-! ## 2. The next lexeme -/

/-- The next lexeme and the text after it; nothing when only blanks are left. -/
def next? (text : Bytes) : Option (Bytes × Bytes) :=
  match text.dropWhile isBlank with
  | [] => none
  | c :: rest =>
    if isDelimiter c then some ([c], rest)
    else some (c :: rest.takeWhile (!isDelimiter ·), rest.dropWhile (!isDelimiter ·))

theorem length_dropWhile_le (p : UInt8 → Bool) (text : Bytes) :
    (text.dropWhile p).length ≤ text.length :=
  (List.dropWhile_sublist p).length_le

/-- A lexeme is taken off the text. -/
theorem length_next? {text lexeme rest : Bytes} (h : next? text = some (lexeme, rest)) :
    rest.length < text.length := by
  have hd := length_dropWhile_le isBlank text
  unfold next? at h
  split at h
  · cases h
  · rename_i c tail htail
    rw [htail] at hd
    have ht := length_dropWhile_le (!isDelimiter ·) tail
    simp only [List.length_cons] at hd
    split at h <;> simp only [Option.some.injEq, Prod.mk.injEq] at h <;> rcases h with ⟨_, rfl⟩ <;>
      omega

/-- All lexemes of a text. -/
def all (text : Bytes) : List Bytes :=
  match _h : next? text with
  | none => []
  | some (lexeme, rest) => lexeme :: all rest
termination_by text.length
decreasing_by exact length_next? _h

/-! ## 3. Comments and lines -/

/-- The text after the end of a comment over several lines; nothing when it has no end. -/
def afterComment : Bytes → Bytes
  | [] => []
  | c :: rest =>
    match rest with
    | [] => []
    | d :: tail => if c = star ∧ d = slash then tail else afterComment rest

theorem length_afterComment_le : ∀ text : Bytes, (afterComment text).length ≤ text.length
  | [] => by simp [afterComment]
  | [_] => by simp [afterComment]
  | c :: d :: tail => by
    have ih := length_afterComment_le (d :: tail)
    unfold afterComment
    dsimp only
    split
    · simp only [List.length_cons]; omega
    · simp only [List.length_cons] at ih ⊢; omega

/-- The text after the comment that starts it, if one does. -/
def dropComment? : Bytes → Option Bytes
  | c :: d :: rest =>
    if c = slash ∧ d = slash then some (rest.dropWhile (· != newline))
    else if c = slash ∧ d = star then some (afterComment rest)
    else none
  | _ => none

theorem length_dropComment? {text rest : Bytes} (h : dropComment? text = some rest) :
    rest.length < text.length := by
  unfold dropComment? at h
  split at h
  · rename_i c d tail
    have h1 := length_dropWhile_le (· != newline) tail
    have h2 := length_afterComment_le tail
    split at h
    · cases h; simp only [List.length_cons]; omega
    · split at h
      · cases h; simp only [List.length_cons]; omega
      · cases h
  · cases h

/-- The text after all blanks and comments at its start. -/
def skipBlank (text : Bytes) : Bytes :=
  match _hd : text.dropWhile isBlank with
  | [] => []
  | c :: rest =>
    match _h : dropComment? (c :: rest) with
    | some left => skipBlank left
    | none => c :: rest
termination_by text.length
decreasing_by
  have h1 := length_dropComment? _h
  have h2 := length_dropWhile_le isBlank text
  rw [_hd] at h2
  omega

theorem length_skipBlank_le (text : Bytes) : (skipBlank text).length ≤ text.length := by
  induction text using skipBlank.induct with
  | case1 text hd => rw [skipBlank]; split <;> simp_all
  | case2 text c rest hd left h ih =>
    have h1 := length_dropComment? h
    have h2 := length_dropWhile_le isBlank text
    rw [hd] at h2
    rw [skipBlank]
    split
    · simp
    · rename_i heq
      rw [hd] at heq
      cases heq
      rw [h]
      dsimp only
      omega
  | case3 text c rest hd h =>
    have h2 := length_dropWhile_le isBlank text
    rw [hd] at h2
    rw [skipBlank]
    split
    · simp
    · rename_i heq
      rw [hd] at heq
      cases heq
      rw [h]
      exact h2

/-- The text up to the end of the line, or to a comment that runs to it. -/
def restOfLine (text : Bytes) : Bytes :=
  Bytes.before [slash, slash] (text.takeWhile (· != newline))

end EffectScript.Lexeme
