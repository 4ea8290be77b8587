import GlyphDrawing.DrawError
import GlyphDrawing.Geometry
import GlyphDrawing.Glyph.Options
import GlyphDrawing.Number.Fixed

/-!
# Components

A component places another glyph by a linear map and a whole offset. The identity map is left out
of the record; any other is kept with entries on the grid of `1/16384`.
-/

namespace GlyphDrawing

namespace Linear

/-- A map equal to the identity entry by entry; a negative zero counts as zero. -/
def isIdentity (l : Linear Float) : Bool :=
  l == identity

def overflows (l : Linear Float) : Bool :=
  l.toList.any fun v => v > 2 || v < -2

def snap (l : Linear Float) : Linear Float :=
  l.map Fixed.snap

/-- With `fit`, some entry snaps to more than the largest storable number but at most to two. -/
def clamps (fit : Bool) (l : Linear Float) : Bool :=
  fit && l.snap.toList.any Fixed.nearTwo

/-- The map that a component carries. With `fit`, entries just above the largest storable number
become that number. -/
def stored? (fit : Bool) (l : Linear Float) : Option (Linear Float) :=
  if l.snap.isIdentity then none
  else if fit then some (l.snap.map Fixed.clamp)
  else some l.snap

def encode (l : Linear Float) : Except DrawError (Linear Int16) :=
  l.mapM fun v =>
    match Fixed.encode? v with
    | some bits => .ok bits
    | none => .error (.unencodable v)

end Linear

structure Reference where
  name : String
  placement : Affine
  deriving BEq, DecidableEq, Repr, Inhabited

structure Component where
  name : String
  offset : Point Int32
  linear : Option (Linear Float)
  options : Options
  deriving BEq, DecidableEq, Repr, Inhabited

def toDouble (n : Int32) : Float :=
  Float.ofInt n.toInt

namespace Component

def placement (c : Component) : Affine :=
  ⟨c.linear.getD .identity, c.offset.map toDouble⟩

def toReference (c : Component) : Reference :=
  ⟨c.name, c.placement⟩

def ofReference (fit : Bool) (options : Options) (r : Reference) : Component where
  name := r.name
  offset := r.placement.offset.map roundToInt32
  linear := r.placement.linear.stored? fit
  options := options

end Component

end GlyphDrawing
