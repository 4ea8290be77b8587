/-!
# Exact values of doubles

A finite double is an integer times a power of two. The roundings of this library are taken on
such pairs of integers, where each is a statement of integer arithmetic.
-/

namespace GlyphDrawing

/-- The integer nearest to `n / 2 ^ k`; a half goes to the even neighbour. -/
def nearestEvenQuotient (n : Int) (k : Nat) : Int :=
  let quotient := n >>> k
  let doubled := 2 * (n - quotient <<< k)
  if doubled < 1 <<< k then quotient
  else if 1 <<< k < doubled then quotient + 1
  else quotient + quotient % 2

/-- The number `significand * 2 ^ exponent`. -/
structure Scaled where
  significand : Int
  exponent : Int
  deriving DecidableEq, Repr

namespace Scaled

def ofFloat? (x : Float) : Option Scaled :=
  match x.toModel.unpack with
  | .zero _ => some ⟨0, 0⟩
  | .finite sign magnitude exponent _ => some ⟨sign.apply magnitude, exponent⟩
  | .infinity _ => none
  | .notANumber => none

def floor (x : Scaled) : Int :=
  x.significand <<< x.exponent.toNat >>> (-x.exponent).toNat

def truncate (x : Scaled) : Int :=
  if x.significand < 0 then -floor ⟨-x.significand, x.exponent⟩ else x.floor

def shift (x : Scaled) (k : Int) : Scaled :=
  ⟨x.significand, x.exponent + k⟩

def add (x y : Scaled) : Scaled :=
  let low := min x.exponent y.exponent
  ⟨x.significand <<< (x.exponent - low).toNat + y.significand <<< (y.exponent - low).toNat, low⟩

instance : Add Scaled := ⟨add⟩

/-- The nearest number of at most `bits` significant bits, the least of them worth `2 ^ lowest` or
more; a half goes to the even significand. -/
def nearest (bits : Nat) (lowest : Int) (x : Scaled) : Scaled :=
  let dropped := max (x.significand.natAbs.log2 + 1 - bits) (lowest - x.exponent).toNat
  ⟨nearestEvenQuotient x.significand dropped, x.exponent + dropped⟩

/-- The nearest single-precision number; `x` is below `2 ^ 127` in size. -/
def single (x : Scaled) : Scaled :=
  x.nearest 24 (-149)

end Scaled

end GlyphDrawing
