import EffectScript.Text.Utf8

/-!
# Blanks of a text

The characters with the property White_Space, and the text between the blanks at its two ends.
-/

namespace EffectScript.Text

/-- The characters with the property White_Space. -/
def isBlank (c : Char) : Bool :=
  let n := c.toNat
  (0x09 ≤ n && n ≤ 0x0D) || n == 0x20 || n == 0x85 || n == 0xA0 || n == 0x1680 ||
    (0x2000 ≤ n && n ≤ 0x200A) || n == 0x2028 || n == 0x2029 || n == 0x202F || n == 0x205F ||
    n == 0x3000

/-- Whether a piece of a text is a blank; a stray byte never is. -/
def isBlankPiece : Utf8.Piece → Bool
  | .char c => isBlank c
  | .stray _ => false

/-- The text without the blanks at its start and at its end. -/
def trimBlank (text : Bytes) : Bytes :=
  let pieces := (Utf8.decode text).dropWhile isBlankPiece
  let kept := (pieces.reverse.dropWhile isBlankPiece).reverse
  kept.flatMap Utf8.Piece.bytes

end EffectScript.Text
