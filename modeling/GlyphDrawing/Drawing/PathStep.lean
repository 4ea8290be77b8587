import GlyphDrawing.Drawing.Basic

/-!
# Path steps

The protocol that draws a contour point by point, as a path with a start and a stop.
-/

namespace GlyphDrawing

/-- What a point on the curve does; a point without a role is a control. -/
inductive Role where
  /-- Opens a contour that does not return to its start. -/
  | move
  | line
  | quadratic
  | cubic
  deriving BEq, DecidableEq, Repr, Inhabited

inductive PathStep where
  | start
  | point (p : Point Float) (role : Option Role) (smooth : Bool) (name : Option String)
  | stop
  deriving BEq, DecidableEq, Repr, Inhabited

namespace PathStep

def transform (a : Affine) : PathStep → PathStep
  | start => start
  | point p role smooth name => point (a • p) role smooth name
  | stop => stop

instance : SMul Affine PathStep := ⟨transform⟩

end PathStep

end GlyphDrawing
