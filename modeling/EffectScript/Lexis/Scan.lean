import EffectScript.Lexis.Lexeme

/-!
# Scans

Reading a script only needs the text that is left.  A scan keeps what has been read as well, and so
knows how far it has come.  Any two texts are a scan, namely of the text that they are together;
there is no offset that could point outside it.
-/

namespace EffectScript.Lexeme

/-- What has been read of a text, and what is left of it. -/
structure Scan where
  read : Bytes
  left : Bytes
  deriving DecidableEq, Repr

namespace Scan

/-- The scan of a text of which nothing has been read. -/
def start (text : Bytes) : Scan := ⟨[], text⟩

/-- The whole text. -/
def text (s : Scan) : Bytes := s.read ++ s.left

/-- The number of bytes that have been read. -/
def offset (s : Scan) : Nat := s.read.length

/-- Nothing is left. -/
def atEnd (s : Scan) : Bool := s.left.isEmpty

/-- Reads on until only `rest` is left, which is a tail of what is left now. -/
def goOn (s : Scan) (rest : Bytes) : Scan :=
  ⟨s.read ++ s.left.take (s.left.length - rest.length), rest⟩

/-- Reads over blanks and comments. -/
def skipBlank (s : Scan) : Scan := s.goOn (Lexeme.skipBlank s.left)

/-- Reads the next lexeme; when there is none, reads over the blanks that are left. -/
def next (s : Scan) : Option Bytes × Scan :=
  match next? s.left with
  | none => (none, s.goOn (s.left.dropWhile isBlank))
  | some (lexeme, rest) => (some lexeme, s.goOn rest)

theorem goOn_append (read taken rest : Bytes) :
    goOn ⟨read, taken ++ rest⟩ rest = ⟨read ++ taken, rest⟩ := by
  rw [goOn, List.length_append, Nat.add_sub_cancel, List.take_left]

end Scan

end EffectScript.Lexeme
