import Carving.Bytes.Number
import Carving.Source.Basic

/-!
# The header of a gzip member

A header has ten fixed bytes, of which the flags announce the fields that follow: an extra field
with its length, a name and a comment that end with a zero byte, and a check value. `Header.encode`
writes a header, and `skipHeader` moves a source behind one.
-/

namespace Carving.Gzip

inductive Defect
  | headerTruncated
  | methodUnknown (method : UInt8)
  | flagsReserved (flags : UInt8)
  | dataEnded
  | dataCorrupt
  | noProgress
  | trailerTruncated
  | checksumMismatch (stored computed : Nat)
  | sizeMismatch (stored computed : Nat)
  deriving DecidableEq, Repr

def Defect.reason : Defect → String
  | headerTruncated => "truncated member header"
  | methodUnknown method => s!"unknown compression method {method}"
  | flagsReserved flags => s!"reserved header flags set: 0x{paddedHex 2 flags.toNat}"
  | dataEnded => "compressed data ended before the end-of-stream marker"
  | dataCorrupt => "corrupt deflate data: deflate decompression error"
  | noProgress => "inflate made no progress"
  | trailerTruncated => "truncated member trailer"
  | checksumMismatch stored computed =>
    s!"CRC mismatch: stored 0x{paddedHex 8 stored}, computed 0x{paddedHex 8 computed}"
  | sizeMismatch stored computed => s!"size mismatch: stored {stored}, decoded {computed}"

def Defect.error (d : Defect) : Error := .malformed "gzip" d.reason

def magic : List UInt8 := [0x1f, 0x8b]

def deflateMethod : UInt8 := 8

def extraFlag : UInt8 := 0x04
def nameFlag : UInt8 := 0x08
def commentFlag : UInt8 := 0x10
def checkFlag : UInt8 := 0x02
def reservedFlags : UInt8 := 0xE0

def fixedSize : Nat := 10

/-- A member header, field by field. -/
structure Header where
  /-- The mark on members that hold text. -/
  text : Bool
  /-- The time stamp, the compression level and the file system, six bytes in all. -/
  origin : List UInt8
  extra : Option (List UInt8)
  name : Option (List UInt8)
  comment : Option (List UInt8)
  check : Option (List UInt8)
  deriving DecidableEq, Repr

namespace Header

/-- The fields have the sizes that the format gives them, and names hold no zero byte. -/
structure Valid (h : Header) : Prop where
  origin_length : h.origin.length = 6
  extra_length : ∀ bytes ∈ h.extra, bytes.length < capacity 2
  name_ne_zero : ∀ bytes ∈ h.name, 0 ∉ bytes
  comment_ne_zero : ∀ bytes ∈ h.comment, 0 ∉ bytes
  check_length : ∀ bytes ∈ h.check, bytes.length = 2

def flag (field : Option (List UInt8)) (bit : UInt8) : UInt8 :=
  if field.isSome then bit else 0

def flags (h : Header) : UInt8 :=
  (if h.text then 1 else 0) ||| flag h.check checkFlag ||| flag h.extra extraFlag
    ||| flag h.name nameFlag ||| flag h.comment commentFlag

/-- An optional field in the way that it is written. -/
def field (write : List UInt8 → List UInt8) (content : Option (List UInt8)) : List UInt8 :=
  match content with
  | none => []
  | some bytes => write bytes

def encode (h : Header) : List UInt8 :=
  magic ++ deflateMethod :: h.flags :: h.origin
    ++ field (fun bytes => Endian.toLittle 2 bytes.length ++ bytes) h.extra
    ++ field (· ++ [0]) h.name ++ field (· ++ [0]) h.comment ++ field id h.check

end Header

/-- Reads exactly so many bytes of a header. -/
def takeExactly (count : Nat) : Reading (List UInt8) := do
  let bytes ← Source.fill count
  if bytes.length < count then throw Defect.headerTruncated.error
  return bytes

/-- Moves behind the next zero byte after the position. -/
def skipTextFrom (s : Source) : EStateM.Result Error Source Unit :=
  match (⟨Source.fill 1 s, rfl⟩ : { r // Source.fill 1 s = r }) with
  | ⟨.error e s', _⟩ => .error e s'
  | ⟨.ok [] s', _⟩ => .error Defect.headerTruncated.error s'
  | ⟨.ok (b :: _) s', _h⟩ => if b = 0 then .ok () s' else skipTextFrom s'
termination_by s.remaining
decreasing_by exact Source.fill_remaining_lt _h (by simp)

/-- Moves behind a text that ends with a zero byte. -/
def skipText : Reading Unit := skipTextFrom

/-- Moves behind the optional fields that the flags announce. -/
def skipFields (flags : UInt8) : Reading Unit := do
  if flags &&& extraFlag ≠ 0 then
    let length ← takeExactly 2
    let _ ← takeExactly (Endian.ofLittle length)
  if flags &&& nameFlag ≠ 0 then skipText
  if flags &&& commentFlag ≠ 0 then skipText
  if flags &&& checkFlag ≠ 0 then
    let _ ← takeExactly 2

/-- Moves behind the header at the position, and tells whether there is one. What does not begin
like a member is none; what begins like one and then goes wrong is malformed. -/
def skipHeader : Reading Bool := do
  let bytes ← Source.fill fixedSize
  if bytes.take 2 ≠ magic then return false
  match bytes.drop 2 with
  | method :: flags :: origin =>
    if origin.length < 6 then throw Defect.headerTruncated.error
    if method ≠ deflateMethod then throw (Defect.methodUnknown method).error
    if flags &&& reservedFlags ≠ 0 then throw (Defect.flagsReserved flags).error
    skipFields flags
    return true
  | _ => throw Defect.headerTruncated.error

end Carving.Gzip
