import EffectScript.Text.Bytes

/-!
# Integer literals

A literal is decimal, or binary, octal or hexadecimal after `0b`, `0o` or `0x` in either case, or
octal after a bare `0`.  Underscores may separate digits, and a base mark counts as a digit for
that.  Values are bounded by 64 bits: a literal beyond them is no literal.
-/

namespace EffectScript.Numeral

/-- The value of a digit or letter as a digit, `a` being ten. -/
def digit? (c : UInt8) : Option Nat :=
  if 0x30 ≤ c && c ≤ 0x39 then some (c.toNat - 0x30)
  else if 0x61 ≤ c && c ≤ 0x7A then some (c.toNat - 0x61 + 10)
  else if 0x41 ≤ c && c ≤ 0x5A then some (c.toNat - 0x41 + 10)
  else none

/-- The underscore. -/
def separator : UInt8 := 0x5F

/-- Every underscore stands between two digits; `afterDigit` says whether a digit or a base mark
stands before the text. -/
def wellSeparated (afterDigit : Bool) : Bytes → Bool
  | [] => afterDigit
  | c :: rest =>
    if c = separator then afterDigit && wellSeparated false rest else wellSeparated true rest

/-- The number that `digits` spell in `base` after the digits of `value`, underscores left out. -/
def digitsValue? (base value : Nat) : Bytes → Option Nat
  | [] => some value
  | c :: rest =>
    if c = separator then digitsValue? base value rest
    else
      match digit? c with
      | some d => if d < base then digitsValue? base (value * base + d) rest else none
      | none => none

/-- The base that a letter after `0` announces. -/
def baseOfMark? (c : UInt8) : Option Nat :=
  if c = 0x62 || c = 0x42 then some 2
  else if c = 0x6F || c = 0x4F then some 8
  else if c = 0x78 || c = 0x58 then some 16
  else none

/-- The base of a literal, its digits, and whether a digit or base mark precedes them. -/
def split : Bytes → Nat × Bytes × Bool
  | 0x30 :: mark :: c :: rest =>
    match baseOfMark? mark with
    | some base => (base, c :: rest, true)
    | none => (8, mark :: c :: rest, true)
  | 0x30 :: rest => (8, rest, true)
  | text => (10, text, false)

/-- The value of an unsigned literal of at most 64 bits. -/
def unsigned? (text : Bytes) : Option UInt64 :=
  let (base, digits, afterDigit) := split text
  if wellSeparated afterDigit digits then
    match digitsValue? base 0 digits with
    | some n => if n < UInt64.size then some (UInt64.ofNat n) else none
    | none => none
  else none

/-- The value of a literal with an optional sign, within the range of a signed 64-bit word. -/
def signed? (text : Bytes) : Option Int :=
  match text with
  | 0x2D :: rest =>
    match unsigned? rest with
    | some n => if n.toNat ≤ 0x8000000000000000 then some (-(n.toNat : Int)) else none
    | none => none
  | 0x2B :: rest => nonNegative? rest
  | _ => nonNegative? text
where
  /-- The literal without a sign, when it fits. -/
  nonNegative? (digits : Bytes) : Option Int :=
    match unsigned? digits with
    | some n => if n.toNat < 0x8000000000000000 then some (n.toNat : Int) else none
    | none => none

end EffectScript.Numeral
