import GlyphDrawing.Number.Scaled

/-!
# Rounding halves up

Coordinates and transforms are rounded to the greatest integer at most `x + 1/2`, the sum taken
in double precision. A coordinate of a finished glyph is the same integer confined to 32 bits.
-/

namespace GlyphDrawing

/-- The greatest integral double at most `x`; infinities and NaN stay as they are. -/
def floorFloat (x : Float) : Float :=
  match Scaled.ofFloat? x with
  | some value => if value.exponent < 0 then Float.ofInt value.floor else x
  | none => x

/-- The greatest 32-bit integer at most `x`, or the least one where all exceed it; zero for NaN. -/
def floorInt32 (x : Float) : Int32 :=
  match Scaled.ofFloat? x with
  | some value => Int32.ofIntClamp value.floor
  | none => if x < 0 then Int32.minValue else if 0 < x then Int32.maxValue else 0

def roundHalfUp (x : Float) : Float :=
  floorFloat (x + 0.5)

def roundToInt32 (x : Float) : Int32 :=
  floorInt32 (x + 0.5)

end GlyphDrawing
