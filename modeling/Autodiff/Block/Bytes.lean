import Autodiff.Calculus.Scalar
import Autodiff.Fault

/-!
# Byte views

A block's bytes are written once through a `Writer` of exactly the reserved size and read back
through a `Reader`.  What is written is a `Field`: a number of fixed width, least significant byte
first, an identifier, or raw bytes.  Reading is by the `Shape` of the field.  Floating-point fields
are bit patterns, so every pattern survives.
-/

namespace Autodiff

/-! ## Little-endian numbers -/

/-- The lowest `width` bytes of a number, least significant first. -/
def toBytes : (width : Nat) → Nat → List UInt8
  | 0, _ => []
  | width + 1, n => UInt8.ofNat n :: toBytes width (n / 256)

/-- How many numbers that many bytes can tell apart. -/
def byteRange : Nat → Nat
  | 0 => 1
  | width + 1 => 256 * byteRange width

/-- The number with the given bytes, least significant first. -/
def ofBytes : List UInt8 → Nat
  | [] => 0
  | b :: bs => b.toNat + 256 * ofBytes bs

@[simp] theorem length_toBytes (width n : Nat) : (toBytes width n).length = width := by
  induction width generalizing n with
  | zero => rfl
  | succ width ih => simp [toBytes, ih]

theorem ofBytes_toBytes (width n : Nat) : ofBytes (toBytes width n) = n % byteRange width := by
  induction width generalizing n with
  | zero => simp [toBytes, ofBytes, byteRange, Nat.mod_one]
  | succ width ih =>
    rw [toBytes, ofBytes, ih, UInt8.toNat_ofNat', byteRange]
    exact (Nat.mod_mul (x := n)).symm

theorem ofBytes_toBytes_of_lt {width n : Nat} (h : n < byteRange width) :
    ofBytes (toBytes width n) = n := by
  rw [ofBytes_toBytes, Nat.mod_eq_of_lt h]

theorem ofBytes_toBytes_uInt8 (x : UInt8) : ofBytes (toBytes 1 x.toNat) = x.toNat :=
  ofBytes_toBytes_of_lt x.toNat_lt

theorem ofBytes_toBytes_uInt16 (x : UInt16) : ofBytes (toBytes 2 x.toNat) = x.toNat :=
  ofBytes_toBytes_of_lt x.toNat_lt

theorem ofBytes_toBytes_uInt32 (x : UInt32) : ofBytes (toBytes 4 x.toNat) = x.toNat :=
  ofBytes_toBytes_of_lt x.toNat_lt

theorem ofBytes_toBytes_uInt64 (x : UInt64) : ofBytes (toBytes 8 x.toNat) = x.toNat :=
  ofBytes_toBytes_of_lt x.toNat_lt

/-! ## Fields -/

/-- One thing written to a byte view. Sizes and offsets, the machine words of a 64-bit target, have
no constructor of their own: they are `uint64`. -/
inductive Field where
  | uint8 (x : UInt8)
  | uint16 (x : UInt16)
  | uint32 (x : UInt32)
  | uint64 (x : UInt64)
  | int8 (x : Int8)
  | int16 (x : Int16)
  | int32 (x : Int32)
  | int64 (x : Int64)
  | float32 (bits : UInt32)
  | float64 (bits : UInt64)
  | identifier (x : UInt32)
  | raw (bytes : List UInt8)
  deriving DecidableEq

/-- What a reader has to know to read a field. A machine word is read as a `uint64`. -/
inductive Shape where
  | uint8
  | uint16
  | uint32
  | uint64
  | int8
  | int16
  | int32
  | int64
  | float32
  | float64
  | identifier
  | raw (length : Nat)
  deriving DecidableEq

namespace Shape

def width : Shape → Nat
  | uint8 | int8 => 1
  | uint16 | int16 => 2
  | uint32 | int32 | float32 | identifier => 4
  | uint64 | int64 | float64 => 8
  | raw length => length

/-- The field of this shape that some bytes stand for. -/
def decode (bytes : List UInt8) : Shape → Field
  | uint8 => .uint8 (UInt8.ofNat (ofBytes bytes))
  | uint16 => .uint16 (UInt16.ofNat (ofBytes bytes))
  | uint32 => .uint32 (UInt32.ofNat (ofBytes bytes))
  | uint64 => .uint64 (UInt64.ofNat (ofBytes bytes))
  | int8 => .int8 (UInt8.ofNat (ofBytes bytes)).toInt8
  | int16 => .int16 (UInt16.ofNat (ofBytes bytes)).toInt16
  | int32 => .int32 (UInt32.ofNat (ofBytes bytes)).toInt32
  | int64 => .int64 (UInt64.ofNat (ofBytes bytes)).toInt64
  | float32 => .float32 (UInt32.ofNat (ofBytes bytes))
  | float64 => .float64 (UInt64.ofNat (ofBytes bytes))
  | identifier => .identifier (UInt32.ofNat (ofBytes bytes))
  | raw _ => .raw bytes

/-- The field of this shape that holds a number, which is cut to the width of the shape. -/
def ofInt (n : Int) : Shape → Field
  | uint8 => .uint8 (UInt8.ofInt n)
  | uint16 => .uint16 (UInt16.ofInt n)
  | uint32 => .uint32 (UInt32.ofInt n)
  | uint64 => .uint64 (UInt64.ofInt n)
  | int8 => .int8 (Int8.ofInt n)
  | int16 => .int16 (Int16.ofInt n)
  | int32 => .int32 (Int32.ofInt n)
  | int64 => .int64 (Int64.ofInt n)
  | float32 => .float32 (UInt32.ofInt n)
  | float64 => .float64 (UInt64.ofInt n)
  | identifier => .identifier (UInt32.ofInt n)
  | raw length => .raw (toBytes length (n % byteRange length).toNat)

end Shape

namespace Field

def shape : Field → Shape
  | uint8 _ => .uint8
  | uint16 _ => .uint16
  | uint32 _ => .uint32
  | uint64 _ => .uint64
  | int8 _ => .int8
  | int16 _ => .int16
  | int32 _ => .int32
  | int64 _ => .int64
  | float32 _ => .float32
  | float64 _ => .float64
  | identifier _ => .identifier
  | raw bytes => .raw bytes.length

def encode : Field → List UInt8
  | uint8 x => toBytes 1 x.toNat
  | uint16 x => toBytes 2 x.toNat
  | uint32 x => toBytes 4 x.toNat
  | uint64 x => toBytes 8 x.toNat
  | int8 x => toBytes 1 x.toUInt8.toNat
  | int16 x => toBytes 2 x.toUInt16.toNat
  | int32 x => toBytes 4 x.toUInt32.toNat
  | int64 x => toBytes 8 x.toUInt64.toNat
  | float32 bits => toBytes 4 bits.toNat
  | float64 bits => toBytes 8 bits.toNat
  | identifier x => toBytes 4 x.toNat
  | raw bytes => bytes

/-- The number that a field holds; floating-point fields count as their bit patterns. -/
def toInt : Field → Int
  | uint8 x => x.toNat
  | uint16 x => x.toNat
  | uint32 x => x.toNat
  | uint64 x => x.toNat
  | int8 x => x.toInt
  | int16 x => x.toInt
  | int32 x => x.toInt
  | int64 x => x.toInt
  | float32 bits => bits.toNat
  | float64 bits => bits.toNat
  | identifier x => x.toNat
  | raw bytes => ofBytes bytes

/-- The identifier that a field makes known to the tape; other numbers are not looked at. -/
def mentions : Field → Nat
  | identifier x => x.toNat
  | _ => passive

@[simp] theorem length_encode (f : Field) : f.encode.length = f.shape.width := by
  cases f <;> simp [encode, shape, Shape.width]

/-- Reading back what was written, by the shape of the field. -/
theorem decode_encode (f : Field) : f.shape.decode f.encode = f := by
  cases f with
  | uint8 x => simp [shape, encode, Shape.decode, ofBytes_toBytes_uInt8]
  | uint16 x => simp [shape, encode, Shape.decode, ofBytes_toBytes_uInt16]
  | uint32 x => simp [shape, encode, Shape.decode, ofBytes_toBytes_uInt32]
  | uint64 x => simp [shape, encode, Shape.decode, ofBytes_toBytes_uInt64]
  | int8 x => simp [shape, encode, Shape.decode, ofBytes_toBytes_uInt8]
  | int16 x => simp [shape, encode, Shape.decode, ofBytes_toBytes_uInt16]
  | int32 x => simp [shape, encode, Shape.decode, ofBytes_toBytes_uInt32]
  | int64 x => simp [shape, encode, Shape.decode, ofBytes_toBytes_uInt64]
  | float32 bits => simp [shape, encode, Shape.decode, ofBytes_toBytes_uInt32]
  | float64 bits => simp [shape, encode, Shape.decode, ofBytes_toBytes_uInt64]
  | identifier x => simp [shape, encode, Shape.decode, ofBytes_toBytes_uInt32]
  | raw bytes => rfl

end Field

/-! ## Writing -/

/-- A view of `capacity` bytes that is filled from the front. -/
structure Writer where
  capacity : Nat
  bytes : Array UInt8 := #[]
  /-- The largest identifier written as one. -/
  largest : Nat := passive

namespace Writer

def written (w : Writer) : Nat := w.bytes.size

def remaining (w : Writer) : Nat := w.capacity - w.written

def put (w : Writer) (f : Field) : Except Fault Writer :=
  if f.shape.width ≤ w.remaining then
    .ok { w with bytes := w.bytes ++ f.encode, largest := max w.largest f.mentions }
  else .error (.writeOverflow f.shape.width w.remaining w.capacity)

def putAll (w : Writer) (fs : List Field) : Except Fault Writer := fs.foldlM put w

/-- A field goes behind what was written so far, which stays as it is. -/
theorem toList_put {w w' : Writer} {f : Field} (h : w.put f = .ok w') :
    w'.bytes.toList = w.bytes.toList ++ f.encode := by
  unfold put at h
  split at h
  · cases h
    simp
  · cases h

end Writer

/-! ## Reading -/

/-- The bytes of a view and how many of them were read. -/
structure Reader where
  bytes : Array UInt8
  consumed : Nat := 0

namespace Reader

def ofList (bytes : List UInt8) : Reader := ⟨bytes.toArray, 0⟩

def remaining (r : Reader) : Nat := r.bytes.size - r.consumed

def take (r : Reader) (n : Nat) : Except Fault (List UInt8 × Reader) :=
  if n ≤ r.remaining then
    .ok ((r.bytes.extract r.consumed (r.consumed + n)).toList,
      { r with consumed := r.consumed + n })
  else .error (.readUnderflow n r.remaining r.bytes.size)

@[simp] theorem remaining_ofList (bytes : List UInt8) :
    (ofList bytes).remaining = bytes.length := by
  simp [ofList, remaining]

theorem eq_of_take {r r' : Reader} {n : Nat} {bytes : List UInt8}
    (h : r.take n = .ok (bytes, r')) : bytes = (r.bytes.toList.drop r.consumed).take n := by
  unfold take at h
  split at h
  · cases h
    simp
  · cases h

def get (r : Reader) (shape : Shape) : Except Fault (Field × Reader) := do
  let (bytes, r) ← r.take shape.width
  return (shape.decode bytes, r)

def nat (r : Reader) (width : Nat) : Except Fault (Nat × Reader) := do
  let (bytes, r) ← r.take width
  return (ofBytes bytes, r)

def identifier (r : Reader) : Except Fault (Nat × Reader) := r.nat 4

def scalar {F : Type} [FixedWidth F] (r : Reader) : Except Fault (F × Reader) := do
  let (bits, r) ← r.nat (FixedWidth.width F)
  return (FixedWidth.ofBits bits, r)

end Reader

end Autodiff
