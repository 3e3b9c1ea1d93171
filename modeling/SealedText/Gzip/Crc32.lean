/-!
# The checksum of gzip

The remainder of the data, as a polynomial over two elements, with its bits reversed, worked out a byte
at a time from a table.
-/

namespace SealedText.Gzip

/-- The remainder of one byte after `n` shifts. -/
def crcShift : Nat → UInt32 → UInt32
  | 0, c => c
  | n + 1, c => crcShift n (if (c &&& 1) = 1 then (0xedb88320 : UInt32) ^^^ (c >>> 1) else c >>> 1)

def crcTable : Array UInt32 := ((List.range 256).map fun n => crcShift 8 (UInt32.ofNat n)).toArray

def crcByte (c : UInt32) (b : UInt8) : UInt32 :=
  crcTable.getD ((c ^^^ b.toUInt32) &&& 0xff).toNat 0 ^^^ (c >>> 8)

def crc32 (data : ByteArray) : UInt32 := data.foldl crcByte 0xffffffff ^^^ 0xffffffff

end SealedText.Gzip
