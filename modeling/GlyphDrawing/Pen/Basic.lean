import GlyphDrawing.Pen.Sketch
import GlyphDrawing.Repertoire

/-!
# Glyph pens

A glyph pen gathers a sketch from the marks of one protocol. A refused mark leaves the pen as new.
Placing a component is the same for every such pen and is never refused, so the references in the
sketch grow by one with each component until a mark is refused.
-/

namespace GlyphDrawing

class Pen (π : Type) (Mark : outParam Type) where
  empty : π
  sketch : π → Sketch
  mapSketch : (Sketch → Sketch) → π → π
  mark : π → Mark → π × Reply
  /-- What keeps the glyph from being finished. -/
  obstacle? : π → Option DrawError
  /-- How a member of a repertoire is drawn on this pen. -/
  script : Source → Drawing Mark
  sketch_empty : sketch empty = .empty
  sketch_mapSketch (f : Sketch → Sketch) (p : π) : sketch (mapSketch f p) = f (sketch p)
  pending_mark {p q : π} {m : Mark} (h : mark p m = (q, .ok ())) :
    (sketch q).pending = (sketch p).pending
  eq_empty_of_mark {p q : π} {m : Mark} {e : DrawError} (h : mark p m = (q, .error e)) : q = empty

namespace Pen

variable {π Mark : Type} [Pen π Mark]

def pending (p : π) : Array Reference :=
  (sketch p).pending

def addReference (p : π) (r : Reference) : π :=
  mapSketch (·.addReference r) p

def respond : Responder π Mark
  | p, .mark m => mark p m
  | p, .component r => (addReference p r, .ok ())

def draw [SMul Affine Mark] (p : π) (d : Drawing Mark) : π × Reply :=
  d.run respond p

def clear (p : π) : π :=
  mapSketch (fun _ => .empty) p

end Pen

end GlyphDrawing
