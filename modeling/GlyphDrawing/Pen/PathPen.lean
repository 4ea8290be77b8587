import GlyphDrawing.Pen.Basic

/-!
# The path pen

Builds contours from path steps. A path becomes a contour exactly as drawn, and a path without
points leaves nothing behind.
-/

namespace GlyphDrawing

structure PathPen where
  sketch : Sketch
  /-- How many points the started path has, if one is started. -/
  path : Option Nat
  deriving BEq, DecidableEq, Repr, Inhabited

namespace PathPen

def empty : PathPen :=
  ⟨.empty, none⟩

def onCurve : Option Role → Except DrawError Bool
  | none => .ok false
  | some .line | some .quadratic => .ok true
  | some .cubic => .error .cubicCurve
  | some .move => .error .moveInPath

def mark (p : PathPen) : PathStep → PathPen × Reply
  | .start =>
    match p.path with
    | none => ({ p with path := some 0 }, .ok ())
    | some _ => (empty, .error .pathAlreadyStarted)
  | .stop =>
    match p.path with
    | none => (empty, .error .noPathStarted)
    | some 0 => (⟨p.sketch, none⟩, .ok ())
    | some _ => (⟨p.sketch.endRun, none⟩, .ok ())
  | .point q role _ _ =>
    match p.path, onCurve role with
    | none, _ => (empty, .error .noPathStarted)
    | some _, .error e => (empty, .error e)
    | some count, .ok onCurve => (⟨p.sketch.addVertex q onCurve, some (count + 1)⟩, .ok ())

def obstacle? (p : PathPen) : Option DrawError :=
  if p.path.isSome then some .pathNotStopped else none

theorem pending_mark {p q : PathPen} {m : PathStep} (h : p.mark m = (q, .ok ())) :
    q.sketch.pending = p.sketch.pending := by
  unfold mark at h
  grind [Sketch.pending_endRun, Sketch.addVertex]

theorem eq_empty_of_mark {p q : PathPen} {m : PathStep} {e : DrawError}
    (h : p.mark m = (q, .error e)) : q = empty := by
  unfold mark at h
  grind

instance : Pen PathPen PathStep where
  empty := empty
  sketch := sketch
  mapSketch f p := ⟨f p.sketch, p.path⟩
  mark := mark
  obstacle? := obstacle?
  script := Source.pathSteps
  sketch_empty := rfl
  sketch_mapSketch _ _ := rfl
  pending_mark := pending_mark
  eq_empty_of_mark := eq_empty_of_mark

end PathPen

end GlyphDrawing
