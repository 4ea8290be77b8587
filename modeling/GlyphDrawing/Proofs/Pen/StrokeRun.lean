import GlyphDrawing.Pen.StrokePen
import GlyphDrawing.Proofs.Sketch.Contours

/-!
# What strokes do to the open run

A stroke pen sees of its sketch only whether a run is open. A stroke is refused, or it closes the
run, or it adds its vertices to it, and which of the three is decided by the stroke and the run
alone.
-/

namespace GlyphDrawing

namespace StrokePen

variable {s : Sketch} {contours : List (List (Vertex Float))} {run : List (Vertex Float)}

def splineVertices (controls : Array (Point Float)) (target : Option (Point Float)) :
    List (Vertex Float) :=
  controls.toList.map (⟨·, false⟩) ++ target.toList.map (⟨·, true⟩)

theorem reads_addControls (h : s.Reads contours run) (controls : List (Point Float)) :
    (controls.foldl (fun s p => s.addVertex p false) s).Reads contours
      (run ++ controls.map (⟨·, false⟩)) := by
  induction controls generalizing s run with
  | nil => rwa [List.map_nil, List.append_nil]
  | cons p controls ih =>
    have := ih (h.addVertex p false)
    rwa [List.append_assoc] at this

theorem reads_addSpline (h : s.Reads contours run) (controls : Array (Point Float))
    (target : Option (Point Float)) :
    (addSpline s controls target).Reads contours (run ++ splineVertices controls target) := by
  have hcontrols := reads_addControls h controls.toList
  rw [Array.foldl_toList] at hcontrols
  cases target with
  | none =>
    rw [splineVertices, Option.toList_none, List.map_nil, List.append_nil]
    exact hcontrols
  | some p =>
    have := hcontrols.addVertex p true
    rwa [List.append_assoc] at this

end StrokePen

namespace Stroke

def vertices : Stroke → List (Vertex Float)
  | move p | line p => [⟨p, true⟩]
  | quadratic controls target => StrokePen.splineVertices controls target
  | bezier control target => StrokePen.splineVertices #[control] (some target)
  | cubic _ | close | finish => []

def closes : Stroke → Bool
  | close | finish => true
  | move _ | line _ | quadratic _ _ | bezier _ _ | cubic _ => false

def refusal? (run : List (Vertex Float)) : Stroke → Option DrawError
  | move _ => if run = [] then none else some .contourOpen
  | cubic _ => some .cubicCurve
  | line _ | quadratic _ _ | bezier _ _ | close | finish => none

end Stroke

namespace StrokePen

variable {p q : StrokePen} {contours : List (List (Vertex Float))} {run : List (Vertex Float)}
  {m : Stroke}

theorem mark_of_refusal {e : DrawError} (h : p.sketch.Reads contours run)
    (hm : m.refusal? run = some e) : p.mark m = (empty, .error e) := by
  cases m with
  | move q =>
    rw [Stroke.refusal?] at hm
    split_ifs at hm with hrun
    obtain rfl := Option.some.inj hm
    exact if_neg fun hclosed => hrun (h.isClosed_iff.1 hclosed)
  | cubic points =>
    obtain rfl := Option.some.inj hm
    rfl
  | line | quadratic | bezier | close | finish => cases hm

theorem mark_of_closes (p : StrokePen) (hm : m.closes = true) :
    p.mark m = (⟨p.sketch.closeRun⟩, .ok ()) := by
  cases m with
  | close | finish => rfl
  | move | line | quadratic | bezier | cubic => cases hm

theorem exists_mark_of_adds (h : p.sketch.Reads contours run) (hrefusal : m.refusal? run = none)
    (hcloses : m.closes = false) :
    ∃ q, p.mark m = (q, .ok ()) ∧ q.sketch.Reads contours (run ++ m.vertices) := by
  cases m with
  | move v =>
    rw [Stroke.refusal?] at hrefusal
    split_ifs at hrefusal with hrun
    exact ⟨_, if_pos (h.isClosed_iff.2 hrun), h.addVertex v true⟩
  | line v => exact ⟨_, rfl, h.addVertex v true⟩
  | quadratic controls target => exact ⟨_, rfl, reads_addSpline h controls target⟩
  | bezier control target => exact ⟨_, rfl, reads_addSpline h #[control] (some target)⟩
  | cubic => cases hrefusal
  | close | finish => cases hcloses

theorem reads_mark (h : p.sketch.Reads contours run) (hm : p.mark m = (q, .ok ())) :
    ∃ more run', q.sketch.Reads (contours ++ more) run' := by
  cases hrefusal : m.refusal? run with
  | some e =>
    rw [mark_of_refusal h hrefusal] at hm
    cases congrArg Prod.snd hm
  | none =>
    cases hcloses : m.closes with
    | true =>
      rw [mark_of_closes p hcloses] at hm
      obtain ⟨rfl, -⟩ := Prod.mk.inj hm
      exact ⟨_, _, h.closeRun⟩
    | false =>
      obtain ⟨q', hq', hreads⟩ := exists_mark_of_adds h hrefusal hcloses
      obtain ⟨rfl, -⟩ := Prod.mk.inj (hq'.symm.trans hm)
      exact ⟨[], _, by rwa [List.append_nil]⟩

def Free : Stroke → Prop
  | .line _ | .quadratic _ _ | .bezier _ _ | .close | .finish => True
  | .move _ | .cubic _ => False

theorem refusal?_of_free (h : Free m) (run : List (Vertex Float)) :
    m.refusal? run = none := by
  cases m with
  | line | quadratic | bezier | close | finish => rfl
  | move | cubic => cases h

end StrokePen

end GlyphDrawing
