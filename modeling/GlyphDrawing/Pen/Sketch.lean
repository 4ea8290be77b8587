import GlyphDrawing.Drawing.Basic
import GlyphDrawing.Glyph.Basic

/-!
# Sketches

What a pen has gathered for the glyph being drawn: a row of vertices, the index of each closed
contour's last vertex, and the references still to be resolved. The vertices after the last closed
contour are the open run.
-/

namespace GlyphDrawing

structure Sketch where
  vertices : Array (Vertex Float)
  ends : Array Nat
  pending : Array Reference
  deriving BEq, DecidableEq, Repr, Inhabited

namespace Sketch

def empty : Sketch :=
  ⟨#[], #[], #[]⟩

/-- No vertex has come since the last closed contour. -/
def isClosed (s : Sketch) : Bool :=
  s.vertices.isEmpty || s.ends.back? == some (s.vertices.size - 1)

def runStart (s : Sketch) : Nat :=
  match s.ends.back? with
  | some last => last + 1
  | none => 0

def addVertex (s : Sketch) (p : Point Float) (onCurve : Bool) : Sketch :=
  { s with vertices := s.vertices.push ⟨p, onCurve⟩ }

def dropVertex (s : Sketch) : Sketch :=
  { s with vertices := s.vertices.pop }

def addReference (s : Sketch) (r : Reference) : Sketch :=
  { s with pending := s.pending.push r }

def endRun (s : Sketch) : Sketch :=
  if s.isClosed then s else { s with ends := s.ends.push (s.vertices.size - 1) }

def returns (s : Sketch) : Bool :=
  s.vertices[s.runStart]?.map (·.position) == s.vertices.back?.map (·.position)

/-- Makes the open run a contour that closes on itself. A run of one vertex is dropped, and so is a
last vertex that repeats the first. -/
def closeRun (s : Sketch) : Sketch :=
  if s.isClosed then s
  else if s.runStart + 1 = s.vertices.size then s.dropVertex
  else if s.returns then s.dropVertex.endRun
  else s.endRun

@[simp] theorem pending_endRun (s : Sketch) : s.endRun.pending = s.pending := by
  unfold endRun
  split <;> rfl

@[simp] theorem pending_closeRun (s : Sketch) : s.closeRun.pending = s.pending := by
  unfold closeRun
  split
  · rfl
  · split
    · rfl
    · split <;> simp [dropVertex]

def outline (s : Sketch) : Outline where
  points := s.vertices.map (·.position.map roundToInt32)
  onCurve := s.vertices.map (·.onCurve)
  ends := s.ends
  instructions := #[]

end Sketch

end GlyphDrawing
