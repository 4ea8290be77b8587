import GlyphDrawing.Pen.Basic

/-!
# The stroke pen

Builds contours from strokes. Every contour is closed: ending one is closing it.
-/

namespace GlyphDrawing

structure StrokePen where
  sketch : Sketch
  deriving BEq, DecidableEq, Repr, Inhabited

namespace StrokePen

def empty : StrokePen :=
  ⟨.empty⟩

def addSpline (s : Sketch) (controls : Array (Point Float)) (target : Option (Point Float)) :
    Sketch :=
  let s := controls.foldl (fun s p => s.addVertex p false) s
  match target with
  | some p => s.addVertex p true
  | none => s

def mark (p : StrokePen) : Stroke → StrokePen × Reply
  | .move q =>
    if p.sketch.isClosed then (⟨p.sketch.addVertex q true⟩, .ok ())
    else (empty, .error .contourOpen)
  | .line q => (⟨p.sketch.addVertex q true⟩, .ok ())
  | .quadratic controls target => (⟨addSpline p.sketch controls target⟩, .ok ())
  | .bezier control target => (⟨addSpline p.sketch #[control] (some target)⟩, .ok ())
  | .cubic _ => (empty, .error .cubicCurve)
  | .close | .finish => (⟨p.sketch.closeRun⟩, .ok ())

theorem mark_plain (p : StrokePen) (m : Stroke) : p.mark m.plain = p.mark m := by
  cases m <;> rfl

def obstacle? (p : StrokePen) : Option DrawError :=
  if p.sketch.isClosed then none else some .contourOpen

@[simp] theorem pending_addSpline (s : Sketch) (controls : Array (Point Float))
    (target : Option (Point Float)) : (addSpline s controls target).pending = s.pending := by
  have h : (controls.foldl (fun s p => s.addVertex p false) s).pending = s.pending :=
    Array.foldl_induction (fun _ (t : Sketch) => t.pending = s.pending) rfl (fun _ _ ih => ih)
  cases target <;> exact h

theorem pending_mark {p q : StrokePen} {m : Stroke} (h : p.mark m = (q, .ok ())) :
    q.sketch.pending = p.sketch.pending := by
  unfold mark at h
  grind [pending_addSpline, Sketch.pending_closeRun, Sketch.addVertex]

theorem eq_empty_of_mark {p q : StrokePen} {m : Stroke} {e : DrawError}
    (h : p.mark m = (q, .error e)) : q = empty := by
  unfold mark at h
  grind

instance : Pen StrokePen Stroke where
  empty := empty
  sketch := sketch
  mapSketch f p := ⟨f p.sketch⟩
  mark := mark
  obstacle? := obstacle?
  script := Source.strokes
  sketch_empty := rfl
  sketch_mapSketch _ _ := rfl
  pending_mark := pending_mark
  eq_empty_of_mark := eq_empty_of_mark

end StrokePen

end GlyphDrawing
