import Mathlib.Order.Lex
import Mathlib.Order.Lattice
import Mathlib.Data.List.Lex
import Mathlib.Data.UInt

/-!
Byte strings. A Go string is a sequence of bytes, not of characters, so every
string of the model is a list of octets ordered lexicographically by byte
value. The octets carry the linear order of their numeric values.
-/
namespace TailSync.ByteStrings

instance linearOrderOctet : LinearOrder UInt8 where
  le := (· ≤ ·)
  lt := (· < ·)
  le_refl := UInt8.le_refl
  le_trans := fun _ _ _ => UInt8.le_trans
  lt_iff_le_not_ge a b := by
    simp only [UInt8.le_iff_toNat_le, UInt8.lt_iff_toNat_lt]
    omega
  le_antisymm := fun _ _ => UInt8.le_antisymm
  le_total := UInt8.le_total
  toDecidableLE := inferInstance

abbrev Bytes := List UInt8

/-- The bytes of an ASCII literal of the source. -/
def ascii (s : String) : Bytes := s.toList.map fun c => c.toNat.toUInt8

def slash : UInt8 := 47

def hexDigit (n : UInt8) : UInt8 := if n < 10 then 48 + n else 87 + n

def hexEncode : Bytes → Bytes
  | [] => []
  | b :: rest => hexDigit (b / 16) :: hexDigit (b % 16) :: hexEncode rest

abbrev Digest (n : ℕ) := { bytes : Bytes // bytes.length = n }

/-- A digest for small inputs: the first bytes, padded with zeros. -/
def paddedDigest (n : ℕ) (data : Bytes) : Digest n :=
  ⟨(data ++ List.replicate n 0).take n, by simp⟩

/-- The hex SHA-256 under which the daemon identifies contents; the hash
function itself is a parameter of the model. -/
def contentHash (sha256 : Bytes → Digest 32) (data : Bytes) : Bytes :=
  hexEncode (sha256 data).val

end TailSync.ByteStrings
