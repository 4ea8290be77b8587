import GlyphDrawing.Glyph.Component
import GlyphDrawing.Glyph.Outline

/-!
# Glyphs

A glyph is an outline or a list of components, never both.
-/

namespace GlyphDrawing

inductive Glyph where
  | simple (outline : Outline)
  | composite (components : Array Component)
  deriving BEq, DecidableEq, Repr, Inhabited

namespace Glyph

/-- The contour count as the record stores it: confined to sixteen bits, and `-1` for components. -/
def contourCount : Glyph → Int
  | simple outline => min outline.ends.size 32767
  | composite _ => -1

def isEmpty : Glyph → Bool
  | simple outline => outline.points.isEmpty
  | composite components => components.isEmpty

end Glyph

end GlyphDrawing
