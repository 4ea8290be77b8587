import GlyphDrawing.Number.Rounding

/-!
# Numbers of two integer and fourteen fraction bits

Component transforms are stored as multiples of `1/16384` in sixteen bits, so from `-2` up to
`32767/16384`. Here a double is moved onto that grid, and encoded as the number of grid steps.
-/

namespace GlyphDrawing.Fixed

def maximum : Float := 32767 / 16384

def minimum : Float := -2

/-- The multiple of `1/16384` nearest to `x`, halves going up, whether or not it can be stored. -/
def snap (x : Float) : Float :=
  roundHalfUp (x * 16384) / 16384

def nearTwo (x : Float) : Bool :=
  maximum < x && x ≤ 2

def clamp (x : Float) : Float :=
  if nearTwo x then maximum else x

/-- The grid steps nearest to `x`, halves going away from zero. `x` and the sum with one half are
first rounded to single precision. -/
def steps (x : Scaled) : Int :=
  let half : Scaled := ⟨if x.significand < 0 then -1 else 1, -1⟩
  (x.single.shift 14 + half).single.truncate

def encode? (x : Float) : Option Int16 :=
  if minimum ≤ x ∧ x ≤ maximum then
    (Scaled.ofFloat? x).map fun value => Int16.ofIntClamp (steps value)
  else none

end GlyphDrawing.Fixed
