import Mathlib.Data.Nat.Notation
import Mathlib.Data.Int.Notation

-- The wire format in which values are stored and hashed.
namespace Postcard

def varintTo : ℕ → ℕ → List UInt8
  | 0, _ => []
  | k + 1, n => if n < 128 then [.ofNat n] else .ofNat (n % 128 + 128) :: varintTo k (n / 128)

-- Seven bits a byte, least significant first, for numbers of up to 64 bits.
def varint : ℕ → List UInt8 :=
  varintTo 10

def zigzag (i : ℤ) : ℕ :=
  if i < 0 then 2 * i.natAbs - 1 else 2 * i.natAbs

def bytes (bs : List UInt8) : List UInt8 :=
  varint bs.length ++ bs

def text (s : String) : List UInt8 :=
  bytes s.toUTF8.toList

end Postcard
