import GlyphDrawing.Number.Decimal

/-!
# What can go wrong in a drawing

Each error is a misuse of a drawing protocol or a shape that a glyph record cannot hold.
-/

namespace GlyphDrawing

inductive DrawError where
  /-- A contour was begun, or the glyph finished, with points after the last closed contour. -/
  | contourOpen
  /-- A cubic segment, or a point with a cubic role, was drawn. -/
  | cubicCurve
  /-- A path was started inside another one. -/
  | pathAlreadyStarted
  /-- A point was added, or a path stopped, outside every path. -/
  | noPathStarted
  /-- The glyph was finished inside a path. -/
  | pathNotStopped
  /-- A point opened a contour that does not return to its start. -/
  | moveInPath
  /-- A transform entry lies outside the storable range. -/
  | unencodable (value : Float)
  deriving BEq, DecidableEq, Repr, Inhabited

def DrawError.message : DrawError → String
  | contourOpen => "the current contour was not closed"
  | cubicCurve => "cubic curves are not supported in TrueType glyphs"
  | pathAlreadyStarted => "begin_path called inside an open sub-path"
  | noPathStarted => "no sub-path has been begun"
  | pathNotStopped => "the current sub-path was not ended"
  | moveInPath => "open contours are not supported"
  | unencodable value =>
    "transform value " ++ decimalText value ++ " cannot be encoded as F2Dot14"

/-- How a call is answered, and how a whole drawing ends. -/
abbrev Reply := Except DrawError Unit

end GlyphDrawing
