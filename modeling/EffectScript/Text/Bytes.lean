/-!
# Byte strings

Scripts, spellings, names and messages are byte strings: nothing in this library assumes that a
text is well-formed UTF-8, and every length and offset counts bytes.  A byte string is a plain
list, so that reading is recursion on the list and the rest of a text is again a text.

Section 1 fixes the type and its literals, section 2 the digits in which numbers are written.
-/

namespace EffectScript

/-! ## 1. The type -/

/-- A text as the bytes it is made of. -/
abbrev Bytes := List UInt8

/-- The UTF-8 bytes of a literal text. -/
def Bytes.ofString (s : String) : Bytes := s.toUTF8.data.toList

/-- The byte of an ASCII character. -/
def Bytes.ofChar (c : Char) : UInt8 := c.toUInt8

/-- The texts of a list with `separator` between each two of them. -/
def Bytes.joinWith (separator : Bytes) : List Bytes → Bytes
  | [] => []
  | [text] => text
  | text :: texts => text ++ separator ++ joinWith separator texts

/-- The text less its longest tail of bytes that `p` accepts. -/
def Bytes.trimRight (p : UInt8 → Bool) (text : Bytes) : Bytes :=
  (text.reverse.dropWhile p).reverse

/-- The text before the first occurrence of `mark`; all of it when there is none. -/
def Bytes.before (mark : Bytes) : Bytes → Bytes
  | [] => []
  | c :: rest => if mark.isPrefixOf (c :: rest) then [] else c :: before mark rest

/-! ## 2. Numbers as text -/

/-- The decimal digits of a natural number. -/
def Bytes.decimal (n : Nat) : Bytes := (Nat.toDigits 10 n).map Bytes.ofChar

/-- The decimal digits of an integer, after a minus sign when it is negative. -/
def Bytes.signedDecimal : Int → Bytes
  | .ofNat n => decimal n
  | .negSucc n => Bytes.ofChar '-' :: decimal (n + 1)

/-- The lower-case hexadecimal digits of `n`, padded with zeros to at least `width` digits. -/
def Bytes.hex (width n : Nat) : Bytes :=
  let digits := (Nat.toDigits 16 n).map Bytes.ofChar
  List.replicate (width - digits.length) (Bytes.ofChar '0') ++ digits

end EffectScript
