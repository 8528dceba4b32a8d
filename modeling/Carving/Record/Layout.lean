import Carving.Bytes.Number
import Carving.Source.Basic

/-!
# Records of fixed layout

A layout lists the fields of a record in their order. Decoding cuts bytes into fields, encoding
joins the fields of a record again. A field is looked up by its name; of several fields with one
name the first counts.
-/

namespace Carving

inductive FieldKind
  | u8
  | u16
  | u32
  | u64
  | bytes (count : Nat)
  | chars (count : Nat)
  deriving DecidableEq, Repr

namespace FieldKind

def width : FieldKind → Nat
  | u8 => 1
  | u16 => 2
  | u32 => 4
  | u64 => 8
  | bytes count | chars count => count

def name : FieldKind → String
  | u8 => "u8"
  | u16 => "u16"
  | u32 => "u32"
  | u64 => "u64"
  | bytes _ => "bytes"
  | chars _ => "chars"

end FieldKind

structure Field where
  name : String
  kind : FieldKind
  deriving DecidableEq, Repr

/-- The fields of a record, in the order in which they are stored. -/
structure Layout where
  name : String
  fields : List Field
  deriving DecidableEq, Repr

inductive Value
  | number (n : Nat)
  | bytes (content : List UInt8)
  | chars (content : List UInt8)
  deriving DecidableEq, Repr

structure Record where
  layout : String
  size : Nat
  values : List (String × Value)
  deriving DecidableEq, Repr

/-- A value is one that a field of this kind can hold. -/
def FieldKind.Holds : FieldKind → Value → Prop
  | .bytes count, .bytes content => content.length = count
  | .chars count, .chars content => content.length = count
  | .u8, .number n => n < capacity 1
  | .u16, .number n => n < capacity 2
  | .u32, .number n => n < capacity 4
  | .u64, .number n => n < capacity 8
  | _, _ => False

def FieldKind.read (e : Endian) (kind : FieldKind) (bytes : List UInt8) : Value :=
  match kind with
  | .bytes _ => .bytes bytes
  | .chars _ => .chars bytes
  | .u8 | .u16 | .u32 | .u64 => .number (e.value bytes)

def FieldKind.write (e : Endian) (kind : FieldKind) : Value → List UInt8
  | .bytes content | .chars content => content
  | .number n => e.encode kind.width n

namespace Layout

/-- How many bytes the fields take together. -/
def total (l : Layout) : Nat := l.fields.foldr (fun field rest => field.kind.width + rest) 0

/-- The size of a record, added up in 64 bits: a sum that they do not hold wraps around. -/
def size (l : Layout) : Nat :=
  l.fields.foldl (fun sum field => (sum + field.kind.width) % capacity 8) 0

def cut (e : Endian) : List Field → List UInt8 → List (String × Value)
  | [], _ => []
  | field :: fields, bytes =>
    (field.name, field.kind.read e (bytes.take field.kind.width))
      :: cut e fields (bytes.drop field.kind.width)

/-- Decodes the record at the front of some bytes. The size may have wrapped around, so that a field
lies beyond bytes that seem to be enough. -/
def decode (l : Layout) (e : Endian) (bytes : List UInt8) : Except Error Record :=
  if bytes.length < l.size then .error (.truncated l.name 0 l.size bytes.length)
  else if bytes.length < l.total then .error .outOfRange
  else .ok ⟨l.name, l.size, cut e l.fields bytes⟩

def encode (l : Layout) (e : Endian) (values : List Value) : List UInt8 :=
  (l.fields.zip values).flatMap fun (field, value) => field.kind.write e value

/-- Decodes the record at the position of a source, which moves behind it. -/
def parse (l : Layout) (e : Endian) : Reading Record := do
  let offset ← Source.tell
  let bytes ← Source.fill l.size
  if bytes.length < l.size then throw (.truncated l.name offset l.size bytes.length)
  match l.decode e bytes with
  | .ok record => return record
  | .error error => throw error

end Layout

namespace Record

def get? (r : Record) (name : String) : Option Value :=
  (r.values.find? (·.1 = name)).map (·.2)

/-- The number in the first field of that name, if it holds one. -/
def number (r : Record) (name : String) : Except Error Nat :=
  match r.get? name with
  | some (.number n) => .ok n
  | _ => .error (.internal s!"{r.layout} has no integer field '{name}'")

/-- The bytes in the first field of that name, if it holds bytes or characters. -/
def bytes (r : Record) (name : String) : Except Error (List UInt8) :=
  match r.get? name with
  | some (.bytes content) | some (.chars content) => .ok content
  | _ => .error (.internal s!"{r.layout} has no array field '{name}'")

end Record

end Carving
