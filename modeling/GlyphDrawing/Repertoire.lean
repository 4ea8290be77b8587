import GlyphDrawing.Drawing.OfGlyph
import Std.Data.TreeMap

/-!
# Repertoires

The named glyphs that components are resolved in. A member is a finished glyph or a custom drawing
given in both protocols.
-/

namespace GlyphDrawing

inductive Source where
  | glyph (g : Glyph)
  | custom (strokes : Drawing Stroke) (pathSteps : Drawing PathStep)
  deriving Inhabited

namespace Source

def strokes : Source → Drawing Stroke
  | glyph g => g.strokes
  | custom strokes _ => strokes

def pathSteps : Source → Drawing PathStep
  | glyph g => g.pathSteps
  | custom _ pathSteps => pathSteps

end Source

abbrev Repertoire := Std.TreeMap String Source

end GlyphDrawing
