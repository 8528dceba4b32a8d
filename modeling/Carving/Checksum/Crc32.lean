/-!
# The 32-bit cyclic redundancy check

The remainder is kept in a register, reflected: the lowest bit leaves first, and each bit that
leaves subtracts the generator polynomial. The register starts with all bits set, and the check
value is its complement.
-/

namespace Carving.Crc32

/-- The generator polynomial without its leading term, lowest power in the highest bit. -/
def polynomial : UInt32 := 0xEDB88320

def shift (c : UInt32) : UInt32 :=
  if c &&& 1 == 1 then (c >>> 1) ^^^ polynomial else c >>> 1

def feed (c : UInt32) (b : UInt8) : UInt32 :=
  shift (shift (shift (shift (shift (shift (shift (shift (c ^^^ b.toUInt32))))))))

def start : UInt32 := 0xFFFFFFFF

def feedAll (c : UInt32) (bytes : List UInt8) : UInt32 :=
  bytes.foldl feed c

def close (c : UInt32) : UInt32 := c ^^^ 0xFFFFFFFF

theorem feedAll_append (c : UInt32) (xs ys : List UInt8) :
    feedAll c (xs ++ ys) = feedAll (feedAll c xs) ys :=
  List.foldl_append

end Carving.Crc32

def Carving.crc32 (bytes : List UInt8) : UInt32 :=
  Crc32.close (Crc32.feedAll Crc32.start bytes)
