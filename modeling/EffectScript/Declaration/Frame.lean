import EffectScript.Script.Token

/-!
# Frames, storage classes and fragments

A frame is a range of token indices with both ends included, and a cursor.  A frame may be empty,
start before the first token or end behind the last one, and the operations on tokens say what
they make of that.

Indices are integers, of which a frame is given those that are signed words of 64 bits.  Inside
the tokens they just count.  Outside of them, where only a frame that was given can lead, they are
words: behind the greatest comes the least.

A fragment is a part of the tokens that is no declaration: a global with a storage class, a
directive that was left over, or the definition of a function.
-/

namespace EffectScript

/-! ## 1. Indices -/

/-- The least index that is a word. -/
def leastIndex : Int := -0x8000000000000000

/-- The greatest index that is a word. -/
def greatestIndex : Int := 0x7FFFFFFFFFFFFFFF

/-- The index behind an index, where there are `count` tokens. -/
def indexAfter (count : Nat) (i : Int) : Int :=
  if count ≤ i ∧ i = greatestIndex then leastIndex else i + 1

/-- The index before an index.  The least one has the greatest before it. -/
def indexBefore (i : Int) : Int := if i = leastIndex then greatestIndex else i - 1

/-- Inside the tokens, indices count. -/
theorem indexAfter_of_lt {count : Nat} {i : Int} (h : i < count) : indexAfter count i = i + 1 := by
  unfold indexAfter
  rw [if_neg (by omega)]

/-- The index behind an index is the next integer, or before all tokens. -/
theorem indexAfter_cases (count : Nat) (i : Int) :
    indexAfter count i = i + 1 ∨ indexAfter count i < 0 := by
  unfold indexAfter
  split
  · exact Or.inr (by decide)
  · exact Or.inl rfl

/-! ## 2. Frames -/

/-- The tokens from `first` to `last`, and the place of the cursor. -/
structure Frame where
  first : Int
  last : Int
  cursor : Int
  deriving DecidableEq, Repr

namespace Frame

/-- The frame of the tokens from `first` to `last`, with the cursor on the first. -/
def ofBounds (first last : Int) : Frame := ⟨first, last, first⟩

/-- The frame of no tokens. -/
def empty : Frame := ⟨0, -1, 0⟩

/-- Whether the frame holds no tokens. -/
def isEmpty (f : Frame) : Bool := f.last < f.first

/-- The number of tokens of the frame, as a signed word of 64 bits. -/
def length (f : Frame) : Int :=
  if f.isEmpty then 0 else (f.last - f.first + 1).bmod UInt64.size

/-- What the cursor has before it up to the end of the frame, and one more; nothing when it is
before all tokens. -/
def ahead (f : Frame) : Nat := if f.cursor < 0 then 0 else (f.last + 2 - f.cursor).toNat

/-- A cursor inside the frame that moves on, or before all tokens, has less before it. -/
theorem ahead_lt {f g : Frame} (hf : 0 ≤ f.cursor) (hle : f.cursor ≤ f.last)
    (hlast : g.last = f.last) (hg : f.cursor < g.cursor ∨ g.cursor < 0) : g.ahead < f.ahead := by
  unfold ahead
  rw [if_neg (show ¬ f.cursor < 0 by omega)]
  split <;> omega

end Frame

/-! ## 3. Storage classes -/

/-- The qualifier in front of a declaration. -/
inductive StorageClass where
  /-- There is no declaration. -/
  | invalid
  /-- There is no qualifier. -/
  | default
  | constant
  | static
  | shared
  | groupshared
  deriving DecidableEq, Repr

namespace StorageClass

/-- The storage classes in the order of their codes, which start at minus one. -/
def all : List StorageClass := [invalid, default, constant, static, shared, groupshared]

/-- The name of a storage class. -/
def name : StorageClass → String
  | invalid => "invalid"
  | default => "default"
  | constant => "const"
  | static => "static"
  | shared => "shared"
  | groupshared => "groupshared"

/-- How messages show the code of a storage class. -/
def codeName (code : Int) : Bytes :=
  match if code < -1 then none else all[(code + 1).toNat]? with
  | some c => Bytes.ofString c.name
  | none => Bytes.ofString "StorageClass(" ++ Bytes.signedDecimal code ++ Bytes.ofString ")"

/-- The storage class that a token names; the default one when it names none. -/
def ofToken (t : Token) : StorageClass :=
  if t = .lit TokenId.constant then constant
  else if t = .lit TokenId.static then static
  else if t = .lit TokenId.shared then shared
  else if t = .lit TokenId.groupshared then groupshared
  else default

end StorageClass

/-! ## 4. Fragments -/

/-- What a fragment is. -/
inductive FragmentKind where
  | storageClass
  | directive
  | function
  deriving DecidableEq, Repr

namespace FragmentKind

/-- The name of a kind of fragment. -/
def name : FragmentKind → String
  | storageClass => "StorageClass"
  | directive => "Directive"
  | function => "Function"

/-- How messages show the code of a kind of fragment. -/
def codeName (code : Int) : Bytes :=
  match if code < 0 then none else [storageClass, directive, function][code.toNat]? with
  | some k => Bytes.ofString k.name
  | none => Bytes.ofString "FragmentType(" ++ Bytes.signedDecimal code ++ Bytes.ofString ")"

end FragmentKind

/-- A part of the tokens that is stepped over. -/
structure Fragment where
  kind : FragmentKind
  frame : Frame
  /-- The id that the fragment goes by. -/
  name : TokenId
  deriving DecidableEq, Repr

end EffectScript
