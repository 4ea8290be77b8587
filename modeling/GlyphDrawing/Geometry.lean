/-!
# Points and affine maps

A linear map sends `(x, y)` to `(xx * x + yx * y, xy * x + yy * y)` and an affine map adds an
offset to that. Sums are taken from left to right, so that a composed map has one value in double
precision.
-/

namespace GlyphDrawing

structure Point (α : Type) where
  x : α
  y : α
  deriving BEq, DecidableEq, Repr, Inhabited

def Point.map {α β : Type} (f : α → β) (p : Point α) : Point β :=
  ⟨f p.x, f p.y⟩

structure Linear (α : Type) where
  xx : α
  xy : α
  yx : α
  yy : α
  deriving BEq, DecidableEq, Repr, Inhabited

namespace Linear

variable {α β : Type}

def toList (l : Linear α) : List α :=
  [l.xx, l.xy, l.yx, l.yy]

def map (f : α → β) (l : Linear α) : Linear β :=
  ⟨f l.xx, f l.xy, f l.yx, f l.yy⟩

def mapM {ε : Type} (f : α → Except ε β) (l : Linear α) : Except ε (Linear β) := do
  return ⟨← f l.xx, ← f l.xy, ← f l.yx, ← f l.yy⟩

def identity : Linear Float :=
  ⟨1, 0, 0, 1⟩

def apply (l : Linear Float) (p : Point Float) : Point Float :=
  ⟨l.xx * p.x + l.yx * p.y, l.xy * p.x + l.yy * p.y⟩

def compose (l m : Linear Float) : Linear Float :=
  ⟨l.xx * m.xx + l.yx * m.xy, l.xy * m.xx + l.yy * m.xy,
    l.xx * m.yx + l.yx * m.yy, l.xy * m.yx + l.yy * m.yy⟩

end Linear

structure Affine where
  linear : Linear Float
  offset : Point Float
  deriving BEq, DecidableEq, Repr, Inhabited

namespace Affine

def identity : Affine :=
  ⟨.identity, ⟨0, 0⟩⟩

def apply (a : Affine) (p : Point Float) : Point Float :=
  let q := a.linear.apply p
  ⟨q.x + a.offset.x, q.y + a.offset.y⟩

/-- The map that applies `b` and then `a`. -/
def compose (a b : Affine) : Affine :=
  ⟨a.linear.compose b.linear, a.apply b.offset⟩

instance : SMul Affine (Point Float) := ⟨apply⟩

instance : Mul Affine := ⟨compose⟩

end Affine

end GlyphDrawing
