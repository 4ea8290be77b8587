import GlyphDrawing.Drawing.PathStep
import GlyphDrawing.Drawing.Stroke
import GlyphDrawing.Glyph.Basic

/-!
# Drawing a glyph

Every glyph can be drawn in either protocol. As strokes, a contour is walked once around from its
first point on the curve, and the line back to that point is left to the closing. As path steps,
its points come in their own order, each with the kind of segment that ends there.
-/

namespace GlyphDrawing

def Vertex.toDouble (v : Vertex Int32) : Vertex Float :=
  ⟨v.position.map GlyphDrawing.toDouble, v.onCurve⟩

namespace Stroke

/-- The segments through `rest`, where `controls` wait for their target. A line to the last vertex
is omitted. -/
def segments (controls : Array (Point Float)) : List (Vertex Float) → List Stroke
  | [] => []
  | v :: rest =>
    if v.onCurve then
      if controls.isEmpty then
        if rest.isEmpty then [] else line v.position :: segments #[] rest
      else quadratic controls (some v.position) :: segments #[] rest
    else segments (controls.push v.position) rest

/-- A contour as strokes. One without points on the curve is a single spline of controls. -/
def ofContour (contour : List (Vertex Float)) : List Stroke :=
  match contour.span (!·.onCurve) with
  | (controls, []) => [quadratic (controls.map (·.position)).toArray none, close]
  | (controls, first :: rest) =>
    move first.position :: segments #[] (rest ++ controls ++ [first]) ++ [close]

end Stroke

namespace PathStep

/-- The points of a contour, where `afterCurve` says whether the point before them is on the
curve. -/
def points (afterCurve : Bool) : List (Vertex Float) → List PathStep
  | [] => []
  | v :: rest =>
    let role := if afterCurve then Role.line else Role.quadratic
    point v.position (if v.onCurve then some role else none) false none ::
      points v.onCurve rest

def ofContour (contour : List (Vertex Float)) : List PathStep :=
  let afterCurve := (contour.getLast?.map (·.onCurve)).getD false
  start :: points afterCurve contour ++ [stop]

end PathStep

namespace Glyph

def drawing {Mark : Type} (ofContour : List (Vertex Float) → List Mark) : Glyph → Drawing Mark
  | simple outline =>
    .ofMarks (outline.contours.flatMap fun contour => ofContour (contour.map Vertex.toDouble))
  | composite components => .ofReferences (components.toList.map Component.toReference)

def strokes : Glyph → Drawing Stroke :=
  drawing Stroke.ofContour

def pathSteps : Glyph → Drawing PathStep :=
  drawing PathStep.ofContour

end Glyph

end GlyphDrawing
