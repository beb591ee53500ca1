import EffectScript.Text.Utf8
import EffectScript.Text.Printable

/-!
# Quoted text

Messages show names and spellings between double quotes.  Printable characters stand as they are,
the quote and the backslash after a backslash, seven controls by letter, the other ASCII controls
and every stray byte by two hexadecimal digits, and all other characters by four or eight.
-/

namespace EffectScript.Text

/-- The letter of a control that has one. -/
def controlLetter? (n : Nat) : Option Char :=
  match n with
  | 0x07 => some 'a'
  | 0x08 => some 'b'
  | 0x09 => some 't'
  | 0x0A => some 'n'
  | 0x0B => some 'v'
  | 0x0C => some 'f'
  | 0x0D => some 'r'
  | _ => none

/-- A backslash, a letter, and `n` in at least `width` hexadecimal digits. -/
def escape (letter : Char) (width n : Nat) : Bytes :=
  [Bytes.ofChar '\\', Bytes.ofChar letter] ++ Bytes.hex width n

/-- A character as a quoted text shows it. -/
def quoteChar (c : Char) : Bytes :=
  let n := c.toNat
  if c = '"' || c = '\\' then [Bytes.ofChar '\\', Bytes.ofChar c]
  else if isPrintable c then Utf8.encode c
  else
    match controlLetter? n with
    | some letter => [Bytes.ofChar '\\', Bytes.ofChar letter]
    | none =>
      if n < 0x20 || n = 0x7F then escape 'x' 2 n
      else if n < 0x10000 then escape 'u' 4 n
      else escape 'U' 8 n

/-- A piece of a text as a quoted text shows it. -/
def quotePiece : Utf8.Piece → Bytes
  | .char c => quoteChar c
  | .stray b => escape 'x' 2 b.toNat

/-- The text between double quotes. -/
def quoted (text : Bytes) : Bytes :=
  Bytes.ofChar '"' :: (Utf8.decode text).flatMap quotePiece ++ [Bytes.ofChar '"']

end EffectScript.Text
