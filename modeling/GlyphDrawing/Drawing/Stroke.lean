import GlyphDrawing.Drawing.Basic

/-!
# Strokes

The protocol that draws a contour segment by segment. One of its strokes comes with a body: a curve
with a single control is a spline, unless a pen draws it in a way of its own. A map has no such way,
so what it sends on is the spline.
-/

namespace GlyphDrawing

inductive Stroke where
  | move (p : Point Float)
  | line (p : Point Float)
  /-- A quadratic spline. Between two controls lies an implied curve point; without a target the
  controls are a whole closed contour. -/
  | quadratic (controls : Array (Point Float)) (target : Option (Point Float))
  /-- A quadratic curve with one control. -/
  | bezier (control target : Point Float)
  /-- A cubic spline, its last point on the curve. -/
  | cubic (points : Array (Point Float))
  | close
  /-- Ends a contour without closing it. -/
  | finish
  deriving BEq, DecidableEq, Repr, Inhabited

namespace Stroke

/-- What the stroke comes down to on a pen that has no way of its own to draw it. -/
def plain : Stroke → Stroke
  | bezier control target => quadratic #[control] (some target)
  | m => m

def transform (a : Affine) : Stroke → Stroke
  | move p => move (a • p)
  | line p => line (a • p)
  | quadratic controls target => quadratic (controls.map (a • ·)) (target.map (a • ·))
  | bezier control target => quadratic #[a • control] (some (a • target))
  | cubic points => cubic (points.map (a • ·))
  | close => close
  | finish => finish

instance : SMul Affine Stroke := ⟨transform⟩

end Stroke

end GlyphDrawing
