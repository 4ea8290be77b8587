import GlyphDrawing.Proofs.Pen.DrawnGlyph
import GlyphDrawing.Proofs.Pen.PathOutline
import GlyphDrawing.Proofs.Pen.StrokeOutline

/-!
# Contours on either pen

What a pen keeps of a contour decides what it keeps of an outline (`Keeps.exists_accepts`) and
which contours a glyph leaves on it (`Keeps.drawnContours_simple`). A stroke pen keeps of a contour
what closing makes of its circuit, and a path pen keeps it as it stands if it has a vertex.
-/

namespace GlyphDrawing

namespace OutlinePen

open Pen

section Keeps

variable {π Mark : Type} [SMul Affine Mark] [OutlinePen π Mark] {p : π}
  {contours : List (List (Vertex Float))}
  {kept : List (Vertex Float) → List (List (Vertex Float))}

/-- A contour that is drawn on a pen without obstacle adds `kept contour`, and no obstacle. -/
def Keeps (π : Type) {Mark : Type} [SMul Affine Mark] [OutlinePen π Mark]
    (kept : List (Vertex Float) → List (List (Vertex Float))) : Prop :=
  ∀ (p : π) (contours : List (List (Vertex Float))) (contour : List (Vertex Float)),
    Traces p contours [] → obstacle? p = none →
      ∃ q, Accepts p (ofContour π contour) q ∧ obstacle? q = none ∧
        Traces q (contours ++ kept contour) []

theorem Keeps.exists_accepts (hkept : Keeps π kept) (h : Traces p contours [])
    (ho : obstacle? p = none) (outline : List (List (Vertex Float))) :
    ∃ q, Accepts p (outline.flatMap (ofContour π)) q ∧ obstacle? q = none ∧
      Traces q (contours ++ outline.flatMap kept) [] := by
  induction outline generalizing p contours with
  | nil => exact ⟨p, rfl, ho, by rwa [List.flatMap_nil, List.append_nil]⟩
  | cons contour outline ih =>
    obtain ⟨p', hp', ho', htraces'⟩ := hkept p contours contour h ho
    obtain ⟨q, hq, hoq, htraces⟩ := ih htraces' ho'
    refine ⟨q, hp'.append hq, hoq, ?_⟩
    rwa [List.flatMap_cons, ← List.append_assoc]

theorem Keeps.drawnContours_simple {a : Affine} (hkept : Keeps π kept)
    (hmap : ∀ contour, ofContour π (contour.map (a • ·)) = (ofContour π contour).map (a • ·))
    (o : Outline) :
    drawnContours π (.glyph (.simple o)) a =
      o.contours.flatMap fun contour => kept (Contour.placed a contour) := by
  obtain ⟨q, hq, -, htraces⟩ := hkept.exists_accepts (p := (empty : π)) traces_empty
    obstacle?_empty (o.contours.map (Contour.placed a))
  have hmarks : (o.contours.flatMap fun contour =>
      ofContour π (contour.map Vertex.toDouble)).map (a • ·) =
        (o.contours.map (Contour.placed a)).flatMap (ofContour π) := by
    rw [List.map_flatMap, List.flatMap_map]
    refine List.flatMap_congr fun contour _ => ?_
    rw [← hmap, List.map_map]
    rfl
  rw [← hmarks] at hq
  rw [drawnContours, script_glyph, Glyph.drawing, draw_ofMarks hq,
    (reads_of_traces htraces).contours_eq, List.nil_append, List.flatMap_map]

end Keeps

theorem drawnContours_composite (π : Type) {Mark : Type} [SMul Affine Mark] [OutlinePen π Mark]
    (components : Array Component) (a : Affine) :
    drawnContours π (.glyph (.composite components)) a = [] := by
  obtain ⟨q, hdraw, -, htraces, -⟩ := exists_draw_through_ofReferences (p := (empty : π))
    traces_empty a (components.toList.map Component.toReference)
  rw [drawnContours, script_glyph, Glyph.drawing, hdraw, (reads_of_traces htraces).contours_eq]

theorem keeps_closing :
    Keeps StrokePen fun contour => Sketch.closing (Contour.circuit contour) := by
  intro p contours contour h ho
  obtain ⟨q, hq, hreads⟩ := StrokePen.exists_accepts_circuit h contour
  exact ⟨q, hq, StrokePen.obstacle?_eq_none_iff.2 (hreads.isClosed_iff.2 rfl), hreads⟩

theorem keeps_ending : Keeps PathPen Sketch.ending := by
  intro p contours contour h ho
  obtain ⟨q, hq, hpath, hreads⟩ :=
    PathPen.exists_accepts_path h.1 (PathPen.obstacle?_eq_none_iff.1 ho) contour
  exact ⟨q, hq, PathPen.obstacle?_eq_none_iff.2 hpath, hreads, fun _ => rfl⟩

theorem drawnContours_strokes (o : Outline) (a : Affine) :
    drawnContours StrokePen (.glyph (.simple o)) a =
      o.contours.flatMap fun contour =>
        Sketch.closing (Contour.circuit (Contour.placed a contour)) :=
  keeps_closing.drawnContours_simple (Stroke.ofContour_map a) o

theorem drawnContours_pathSteps (o : Outline) (a : Affine) :
    drawnContours PathPen (.glyph (.simple o)) a =
      o.contours.flatMap fun contour => Sketch.ending (Contour.placed a contour) :=
  keeps_ending.drawnContours_simple (PathStep.ofContour_map a) o

end OutlinePen

end GlyphDrawing
