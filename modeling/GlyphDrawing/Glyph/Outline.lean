import GlyphDrawing.Geometry

/-!
# Outlines

An outline keeps the points of all contours in one row, and each contour as the index of its last
point. `contours` cuts the row back into pieces, up to the first index that cannot end a piece.
-/

namespace GlyphDrawing

structure Vertex (α : Type) where
  position : Point α
  onCurve : Bool
  deriving BEq, DecidableEq, Repr, Inhabited

structure Outline where
  points : Array (Point Int32)
  /-- For each point, whether it lies on the curve. -/
  onCurve : Array Bool
  /-- For each contour, the index of its last point. -/
  ends : Array Nat
  instructions : Array UInt8
  deriving BEq, DecidableEq, Repr, Inhabited

namespace Outline

def empty : Outline :=
  ⟨#[], #[], #[], #[]⟩

/-- The points that have a flag, with it. -/
def vertices (o : Outline) : List (Vertex Int32) :=
  o.points.toList.zipWith Vertex.mk o.onCurve.toList

/-- Cuts pieces off `rest`, the part from index `start` of a row of `size` members. Each index
ends its piece; the first one that lies beyond the row or before `start - 1` stops the cutting. -/
def cut {α : Type} (size start : Nat) (rest : List α) : List Nat → List (List α)
  | [] => []
  | last :: ends =>
    if last < size ∧ start ≤ last + 1 then
      rest.take (last + 1 - start) ::
        cut size (last + 1) (rest.drop (last + 1 - start)) ends
    else []

def contours (o : Outline) : List (List (Vertex Int32)) :=
  cut o.vertices.length 0 o.vertices o.ends.toList

end Outline

end GlyphDrawing
