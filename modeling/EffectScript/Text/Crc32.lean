import EffectScript.Text.Bytes

/-!
# The CRC-32 checksum

The cyclic redundancy check with the reflected polynomial `0xEDB88320`, all ones as the first
register and the register's complement as the result.  It is the content hash of spellings, of
bin names and of source texts.
-/

namespace EffectScript.Crc32

/-- The register after one bit. -/
def bitStep (register : UInt32) : UInt32 :=
  if register &&& 1 = 1 then (register >>> 1) ^^^ 0xEDB88320 else register >>> 1

/-- The register after one byte. -/
def byteStep (register : UInt32) (b : UInt8) : UInt32 :=
  Nat.repeat bitStep 8 (register ^^^ b.toUInt32)

/-- The checksum of a byte string. -/
def checksum (text : Bytes) : UInt32 := text.foldl byteStep 0xFFFFFFFF ^^^ 0xFFFFFFFF

end EffectScript.Crc32
