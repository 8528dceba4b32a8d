/-!
# Numbers as bytes, and their hexadecimal text

A number of a fixed width is written lowest byte first or highest byte first. `value` reads what
`encode` writes, and every list of bytes is the encoding of its value.
-/

namespace Carving

/-- How many numbers fit into so many bytes. -/
def capacity : Nat → Nat
  | 0 => 1
  | width + 1 => 256 * capacity width

inductive Endian
  | little
  | big
  deriving DecidableEq, Repr

namespace Endian

def ofLittle : List UInt8 → Nat
  | [] => 0
  | b :: bs => b.toNat + 256 * ofLittle bs

/-- The lowest `width` bytes of a number, lowest first. -/
def toLittle : Nat → Nat → List UInt8
  | 0, _ => []
  | width + 1, n => UInt8.ofNat n :: toLittle width (n / 256)

def value : Endian → List UInt8 → Nat
  | .little, bytes => ofLittle bytes
  | .big, bytes => ofLittle bytes.reverse

def encode (e : Endian) (width n : Nat) : List UInt8 :=
  match e with
  | .little => toLittle width n
  | .big => (toLittle width n).reverse

@[simp] theorem length_toLittle (width n : Nat) : (toLittle width n).length = width := by
  induction width generalizing n with
  | zero => rfl
  | succ width ih => simp [toLittle, ih]

@[simp] theorem length_encode (e : Endian) (width n : Nat) :
    (e.encode width n).length = width := by
  cases e <;> simp [encode]

theorem ofLittle_lt (bytes : List UInt8) : ofLittle bytes < capacity bytes.length := by
  induction bytes with
  | nil => exact Nat.zero_lt_one
  | cons b bs ih =>
    have hb : b.toNat < 256 := UInt8.toNat_lt b
    simp only [ofLittle, List.length_cons, capacity]
    omega

theorem value_lt (e : Endian) (bytes : List UInt8) : e.value bytes < capacity bytes.length := by
  cases e
  · exact ofLittle_lt bytes
  · simpa [value] using ofLittle_lt bytes.reverse

theorem ofLittle_toLittle (width n : Nat) (h : n < capacity width) :
    ofLittle (toLittle width n) = n := by
  induction width generalizing n with
  | zero =>
    simp only [capacity] at h
    simp only [toLittle, ofLittle]
    omega
  | succ width ih =>
    simp only [capacity] at h
    have hd : n / 256 < capacity width := by omega
    simp only [toLittle, ofLittle, ih _ hd, UInt8.toNat_ofNat']
    omega

theorem toLittle_ofLittle (bytes : List UInt8) :
    toLittle bytes.length (ofLittle bytes) = bytes := by
  induction bytes with
  | nil => rfl
  | cons b bs ih =>
    have hb : b.toNat < 256 := UInt8.toNat_lt b
    have h1 : (b.toNat + 256 * ofLittle bs) / 256 = ofLittle bs := by omega
    have h2 : UInt8.ofNat (b.toNat + 256 * ofLittle bs) = b := by
      apply UInt8.toNat_inj.1
      simp only [UInt8.toNat_ofNat']
      omega
    simp only [List.length_cons, toLittle, ofLittle, h1, h2, ih]

/-- Reading gives back the number that was written, if it fits. -/
theorem value_encode (e : Endian) (width n : Nat) (h : n < capacity width) :
    e.value (e.encode width n) = n := by
  cases e <;> simp [value, encode, ofLittle_toLittle width n h]

/-- Every list of bytes is the encoding of its value. -/
theorem encode_value (e : Endian) (bytes : List UInt8) :
    e.encode bytes.length (e.value bytes) = bytes := by
  cases e
  · exact toLittle_ofLittle bytes
  · have := toLittle_ofLittle bytes.reverse
    rw [List.length_reverse] at this
    simp [value, encode, this]

/-- The bytes of a number that fits are those that are written for it. -/
theorem value_eq_iff {e : Endian} {bytes : List UInt8} {n : Nat} (h : n < capacity bytes.length) :
    e.value bytes = n ↔ bytes = e.encode bytes.length n :=
  ⟨fun hv => hv ▸ (e.encode_value bytes).symm,
    fun hb => (congrArg e.value hb).trans (e.value_encode _ n h)⟩

end Endian

def hex (n : Nat) : String :=
  String.ofList (Nat.toDigits 16 n)

/-- The hexadecimal digits of a number, with zeros in front up to the given width. -/
def paddedHex (width n : Nat) : String :=
  let digits := Nat.toDigits 16 n
  String.ofList (List.replicate (width - digits.length) '0' ++ digits)

def hexBytes (bytes : List UInt8) : String :=
  String.join (bytes.map fun b => paddedHex 2 b.toNat)

end Carving
