import EffectScript.Script.Reader
import EffectScript.Text.LowerCase

/-!
# Bins

A bin is one source file as tokens, with its name, the checksum of the name in lower case, and the
checksum of the source it was read from.

Its stored form is a header of `headerSize` bytes, the token ids, and the spellings, each after its
id and before a zero byte; all words are in one byte order, which the first word tells.  Only
literal tokens can be stored.
-/

namespace EffectScript

/-! ## 1. The type -/

/-- One source file as tokens. -/
structure Bin where
  name : Bytes
  /-- The checksum of the name in lower case. -/
  nameChecksum : UInt32
  /-- The checksum of the source. -/
  sourceChecksum : UInt32
  table : SpellingTable
  tokens : List Token
  deriving DecidableEq, Repr

namespace Bin

/-- The bin of nothing. -/
def empty : Bin := ⟨[], 0, 0, .empty, []⟩

/-- The checksum of a name in lower case. -/
def checksumOfName (name : Bytes) : UInt32 := Crc32.checksum (Text.lower name)

/-- The bin of a source text. -/
def ofSource (name source : Bytes) : Except Error Bin :=
  match Script.read source with
  | .error c => .error ((Error.ofCause c).within (.named name))
  | .ok script =>
    .ok ⟨name, checksumOfName name, Crc32.checksum source, script.table, script.tokens⟩

end Bin

/-! ## 2. Words as bytes -/

/-- The order of the bytes of a word. -/
inductive ByteOrder where
  | little
  | big
  deriving DecidableEq, Repr

namespace ByteOrder

/-- Bytes given from the least significant one, in this order. -/
def arrange (order : ByteOrder) (bytes : Bytes) : Bytes :=
  match order with
  | little => bytes
  | big => bytes.reverse

/-- The bytes of a 16-bit word. -/
def put16 (order : ByteOrder) (w : UInt16) : Bytes :=
  order.arrange [w.toUInt8, (w >>> 8).toUInt8]

/-- The bytes of a 32-bit word. -/
def put32 (order : ByteOrder) (w : UInt32) : Bytes :=
  order.arrange [w.toUInt8, (w >>> 8).toUInt8, (w >>> 16).toUInt8, (w >>> 24).toUInt8]

/-- The word whose bytes, from the least significant one, are given. -/
def word32 : Bytes → UInt32
  | a :: b :: c :: d :: _ =>
    a.toUInt32 ||| (b.toUInt32 <<< 8) ||| (c.toUInt32 <<< 16) ||| (d.toUInt32 <<< 24)
  | _ => 0

/-- The 32-bit word at an offset. -/
def get32 (order : ByteOrder) (offset : Nat) (data : Bytes) : UInt32 :=
  word32 (order.arrange ((data.drop offset).take 4))

/-- The 16-bit word at an offset. -/
def get16 (order : ByteOrder) (offset : Nat) (data : Bytes) : UInt16 :=
  (word32 (order.arrange ((data.drop offset).take 2) ++ [0, 0])).toUInt16

end ByteOrder

/-! ## 3. The stored form -/

namespace Bin

/-- The word that every stored bin starts with; its bytes spell `FXSB` from the least significant
one. -/
def signature : UInt32 := 0x42535846

/-- The version of the stored form. -/
def versionHigh : UInt16 := 1
def versionLow : UInt16 := 4

/-- The number of bytes before the token ids. -/
def headerSize : Nat := 28

/-- The ids of tokens from `index` on, if all of them are literal. -/
def storableIds (index : Nat) : List Token → Except Cause (List TokenId)
  | [] => .ok []
  | .lit id :: rest =>
    match storableIds (index + 1) rest with
    | .ok ids => .ok (id :: ids)
    | .error c => .error c
  | mark :: _ => .error (.unstorable index mark)

/-- The spellings as they are stored. -/
def encodeStrings (order : ByteOrder) (table : SpellingTable) : Bytes :=
  table.entries.flatMap fun e => order.put32 e.id ++ e.spelling ++ [0]

/-- The stored form of a bin. -/
def encode (order : ByteOrder) (b : Bin) : Except Error Bytes :=
  match storableIds 0 b.tokens with
  | .error c => .error ((Error.ofCause c).within (.named b.name))
  | .ok ids =>
    let strings := encodeStrings order b.table
    let stringsAt := UInt32.ofNat (headerSize + 4 * ids.length)
    .ok (order.put32 signature ++ order.put16 versionHigh ++ order.put16 versionLow ++
      order.put32 b.nameChecksum ++ order.put32 b.sourceChecksum ++
      order.put32 (UInt32.ofNat ids.length) ++ order.put32 stringsAt ++
      order.put32 (stringsAt + UInt32.ofNat strings.length) ++
      ids.flatMap order.put32 ++ strings)

/-- The table of some stored spellings, after those of `table`. -/
def decodeStrings (order : ByteOrder) (data : Bytes) (table : SpellingTable) :
    Except Cause SpellingTable :=
  if data = [] then .ok table
  else if data.length < 5 then .error (.corruptBin .truncatedStrings)
  else
    let text := data.drop 4
    match text.dropWhile (· != 0) with
    | [] => .error (.corruptBin .unterminatedString)
    | _ :: _ =>
      let spelling := text.takeWhile (· != 0)
      match table.insert (order.get32 0 data) spelling with
      | .error c => .error c
      | .ok table => decodeStrings order (text.drop (spelling.length + 1)) table
termination_by data.length
decreasing_by simp only [List.length_drop]; omega

/-- The byte order of some data, told by the signature. -/
def orderOf? (data : Bytes) : Option ByteOrder :=
  if ByteOrder.little.get32 0 data = signature then some .little
  else if ByteOrder.big.get32 0 data = signature then some .big
  else none

/-- The bin called `name` with the given stored form, or the cause that it is none. -/
def decodeBody (name data : Bytes) (order : ByteOrder) : Except Cause Bin :=
  let high := order.get16 4 data
  let low := order.get16 6 data
  if high != versionHigh || low != versionLow then .error (.binVersion high low)
  else
    let count := (order.get32 16 data).toNat
    let stringsAt := (order.get32 20 data).toNat
    let stop := (order.get32 24 data).toNat
    if stringsAt != headerSize + 4 * count || data.length < stop || stop < stringsAt then
      .error (.corruptBin .badOffsets)
    else
      match decodeStrings order ((data.take stop).drop stringsAt) .empty with
      | .error c => .error c
      | .ok table =>
        .ok ⟨name, order.get32 8 data, order.get32 12 data, table,
          (List.range count).map fun i => .lit (order.get32 (headerSize + 4 * i) data)⟩

/-- The bin called `name` with the given stored form, in either byte order. -/
def decode (name data : Bytes) : Except Error Bin :=
  let result :=
    if data.length < headerSize then .error .notBin
    else
      match orderOf? data with
      | none => .error .notBin
      | some order => decodeBody name data order
  Error.atPlace (.named name) (Error.raise result)

end Bin

end EffectScript
