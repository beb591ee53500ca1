import EffectScript.Text.Bytes

/-!
# Byte strings read as UTF-8

A few rules look at code points: which characters a quoted text shows as they are, what the lower
case of a name is, which blanks are trimmed.  They read a byte string as a list of *pieces*: the
well-formed encodings it holds, and each byte that is part of none.  `decode` loses nothing, as
`bytes` of the pieces is the text again.
-/

namespace EffectScript.Utf8

/-- A part of a byte string: an encoded character, or a byte that belongs to no encoding. -/
inductive Piece where
  | char (c : Char)
  | stray (b : UInt8)
  deriving DecidableEq, Repr

/-- The bytes of a character. -/
def encode (c : Char) : Bytes := String.utf8EncodeChar c

/-- The bytes a piece was read from. -/
def Piece.bytes : Piece → Bytes
  | .char c => encode c
  | .stray b => [b]

/-- Whether a byte can only continue an encoding. -/
def isTail (b : UInt8) : Bool := 0x80 ≤ b && b ≤ 0xBF

/-- The character with code `n` when `n` is at least `least`: an encoding longer than its
character needs is malformed, and so is one of a surrogate or beyond the last code point. -/
def charAtLeast (least n : Nat) : Option Char :=
  if h : n.isValidChar then if least ≤ n then some (Char.ofNatAux n h) else none else none

/-- The payload of a continuation byte. -/
def tailBits (b : UInt8) : Nat := b.toNat % 64

/-- The character of more than one byte that starts with `lead`, and how many of the bytes after
`lead` it takes. -/
def longChar? (lead : UInt8) (rest : Bytes) : Option (Char × Nat) :=
  if lead < 0xC0 then none
  else if lead < 0xE0 then
    match rest with
    | a :: _ =>
      if isTail a then
        (charAtLeast 0x80 (lead.toNat % 32 * 64 + tailBits a)).map (·, 1)
      else none
    | _ => none
  else if lead < 0xF0 then
    match rest with
    | a :: b :: _ =>
      if isTail a && isTail b then
        (charAtLeast 0x800 ((lead.toNat % 16 * 64 + tailBits a) * 64 + tailBits b)).map (·, 2)
      else none
    | _ => none
  else if lead < 0xF8 then
    match rest with
    | a :: b :: c :: _ =>
      if isTail a && isTail b && isTail c then
        (charAtLeast 0x10000
          (((lead.toNat % 8 * 64 + tailBits a) * 64 + tailBits b) * 64 + tailBits c)).map (·, 3)
      else none
    | _ => none
  else none

/-- The pieces of a text, left to right. -/
def decode : Bytes → List Piece
  | [] => []
  | lead :: rest =>
    if lead < 0x80 then .char (Char.ofUInt8 lead) :: decode rest
    else
      match longChar? lead rest with
      | some (c, used) => .char c :: decode (rest.drop used)
      | none => .stray lead :: decode rest
termination_by text => text.length
decreasing_by
  all_goals
    simp only [List.length_cons, List.length_drop]
    omega

end EffectScript.Utf8
