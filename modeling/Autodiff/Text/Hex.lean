/-!
# Hexadecimal digits

Numbers and runs of bytes as hexadecimal text.  Written digits are lower case; read digits may be
of either case.  Bytes read back as they were written.
-/

namespace Autodiff.Text.Hex

def value? (c : Char) : Option Nat :=
  if c.isDigit then some (c.toNat - 48)
  else if 'a' ≤ c ∧ c ≤ 'f' then some (c.toNat - 87)
  else if 'A' ≤ c ∧ c ≤ 'F' then some (c.toNat - 55)
  else none

/-! ## Numbers -/

def digits (n : Nat) : String := String.ofList (Nat.toDigits 16 n)

/-- The number that some digits stand for, zero if there are none. -/
def number? (cs : List Char) : Option Nat :=
  cs.foldlM (fun n c => (value? c).map (16 * n + ·)) 0

/-! ## Bytes -/

def byteDigits (b : UInt8) : List Char :=
  [Nat.digitChar (b.toNat / 16), Nat.digitChar (b.toNat % 16)]

def ofBytes (bs : List UInt8) : String := String.ofList (bs.flatMap byteDigits)

def bytes? : List Char → Option (List UInt8)
  | [] => some []
  | a :: b :: rest => do
    let n ← number? [a, b]
    let bs ← bytes? rest
    return UInt8.ofNat n :: bs
  | [_] => none

theorem value?_digitChar : ∀ n, n < 16 → value? (Nat.digitChar n) = some n := by
  decide

theorem bytes?_ofBytes (bs : List UInt8) : bytes? (ofBytes bs).toList = some bs := by
  simp only [ofBytes, String.toList_ofList]
  induction bs with
  | nil => rfl
  | cons b bs ih =>
    have hhigh := value?_digitChar (b.toNat / 16) (by have := b.toNat_lt; omega)
    have hlow := value?_digitChar (b.toNat % 16) (by omega)
    have hsum : 16 * (b.toNat / 16) + b.toNat % 16 = b.toNat := by omega
    simp [byteDigits, bytes?, number?, hhigh, hlow, hsum, ih]

end Autodiff.Text.Hex
