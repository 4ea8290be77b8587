import GlyphDrawing.Proofs.Drawing.Calls
import GlyphDrawing.Proofs.Drawing.Circuit

/-!
# Contours drawn once around

A pen that refuses nothing receives all strokes of an outline, contour by contour. Those of a
contour with a vertex on the curve begin with a move there, end with a close, and are lines and
splines between: read as vertices they are the contour from that vertex on, with the vertex itself
once more where the way back to it is a spline (`Outline.drawn_once_around`). Where vertices lie
makes no difference, only which of them are on the curve.
-/

namespace GlyphDrawing

namespace Drawing

variable {σ Mark : Type} [SMul Affine Mark] {respond : Responder σ Mark}

/-- A pen that refuses nothing receives all marks and no others. -/
theorem calls_ofMarks (hfree : ∀ s c, (respond s c).2 = .ok ()) (marks : List Mark) (s : σ) :
    (ofMarks marks).calls respond s = marks.map .mark ∧
      ((ofMarks marks).run respond s).2 = .ok () := by
  induction marks generalizing s with
  | nil => exact ⟨rfl, rfl⟩
  | cons m marks ih =>
    have hfirst : respond s (.mark m) = ((respond s (.mark m)).1, .ok ()) :=
      Prod.ext rfl (hfree s (.mark m))
    obtain ⟨hcalls, hreply⟩ := ih (respond s (.mark m)).1
    simp only [ofMarks, inOrder, List.map_cons, List.foldr_cons, calls, run] at hcalls hreply ⊢
    rw [hfirst]
    exact ⟨congrArg (Call.mark m :: ·) hcalls, hreply⟩

end Drawing

namespace Stroke

open Contour

/-- A line, or a spline that has controls and ends on the curve. -/
inductive IsSegment : Stroke → Prop
  | line (p : Point Float) : IsSegment (line p)
  | spline {controls : Array (Point Float)} (h : controls ≠ #[]) (p : Point Float) :
      IsSegment (quadratic controls (some p))

/-- The strokes walk once around the contour. -/
inductive OnceAround (contour : List (Vertex Float)) : List Stroke → Prop
  /-- No vertex is on the curve, and all of them are the controls of one spline. -/
  | controls (h : ∀ v ∈ contour, v.onCurve = false) :
      OnceAround contour [quadratic (contour.map (·.position)).toArray none, close]
  /-- The walk begins and ends at the first vertex on the curve. A line back to it is left to the
  close, a spline is not. -/
  | walk {first : Vertex Float} {rest : List (Vertex Float)} {between : List Stroke}
      (hcurve : first.onCurve = true) (hrotated : fromCurve contour = first :: rest)
      (hbetween : ∀ m ∈ between, IsSegment m)
      (hread : (move first.position :: between).flatMap vertices =
        first :: rest ++ if (rest.getLastD first).onCurve then [] else [first]) :
      OnceAround contour (move first.position :: between ++ [close])

theorem isSegment_of_mem_segments (controls : Array (Point Float))
    (contour : List (Vertex Float)) : ∀ m ∈ segments controls contour, IsSegment m := by
  induction contour generalizing controls with
  | nil => simp [segments]
  | cons v contour ih =>
    intro m hm
    rw [segments] at hm
    split_ifs at hm with hcurve hempty hlast
    · cases hm
    · rcases List.mem_cons.1 hm with rfl | hm
      · exact .line _
      · exact ih _ m hm
    · rcases List.mem_cons.1 hm with rfl | hm
      · exact .spline (fun h => hempty (by rw [h]; rfl)) _
      · exact ih _ m hm
    · exact ih _ m hm

theorem circuit_of_fromCurve {contour rest : List (Vertex Float)} {first : Vertex Float}
    (hcurve : first.onCurve = true) (h : fromCurve contour = first :: rest) :
    circuit contour =
      first :: rest ++ if (rest.getLastD first).onCurve then [] else [first] := by
  have hends : endsInControl (first :: rest) = !(rest.getLastD first).onCurve := by
    rw [endsInControl, List.any_cons, hcurve, Bool.true_or, Bool.true_and, List.getLast?_cons,
      Option.any_some, List.getLastD_eq_getLast?]
  rw [circuit, h, hends]
  cases (rest.getLastD first).onCurve <;> rfl

theorem onceAround_ofContour (contour : List (Vertex Float)) :
    OnceAround contour (ofContour contour) := by
  have hread := flatMap_vertices_ofContour contour
  have hrotated := fromCurve_eq contour
  have hfirst := List.head?_dropWhile_not (fun v : Vertex Float => !v.onCurve) contour
  rw [ofContour, List.span_eq_takeWhile_dropWhile] at hread ⊢
  cases honward : contour.dropWhile (!·.onCurve) with
  | nil =>
    have hall : ∀ v ∈ contour, v.onCurve = false := by
      simpa using List.dropWhile_eq_nil_iff.1 honward
    have hcontrols : contour.takeWhile (!·.onCurve) = contour :=
      List.takeWhile_eq_self_iff.2 fun v hv => by simp [hall v hv]
    rw [hcontrols]
    exact .controls hall
  | cons first rest =>
    rw [honward] at hread hrotated hfirst
    have hcurve : first.onCurve = true := by simpa using hfirst
    refine .walk hcurve hrotated (isSegment_of_mem_segments _ _) ?_
    rw [← circuit_of_fromCurve hcurve hrotated, ← hread, List.flatMap_append]
    exact (List.append_nil _).symm

end Stroke

/-- Drawn as strokes on a pen that refuses nothing, an outline makes the calls of one walk around
each of its contours, in their order, and no others. -/
theorem Outline.drawn_once_around {σ : Type} {respond : Responder σ Stroke}
    (hfree : ∀ s c, (respond s c).2 = .ok ()) (o : Outline) (s : σ) :
    ∃ walks : List (List Stroke),
      List.Forall₂ Stroke.OnceAround (o.contours.map (·.map Vertex.toDouble)) walks ∧
      (Glyph.simple o).strokes.calls respond s = walks.flatten.map .mark ∧
      (Glyph.simple o).strokes.run respond s =
        (after respond s (walks.flatten.map .mark), .ok ()) := by
  refine ⟨(o.contours.map (·.map Vertex.toDouble)).map Stroke.ofContour, ?_, ?_⟩
  · rw [List.forall₂_map_right_iff, List.forall₂_same]
    exact fun contour _ => Stroke.onceAround_ofContour contour
  · have hdrawing : (Glyph.simple o).strokes = .ofMarks
        ((o.contours.map (·.map Vertex.toDouble)).map Stroke.ofContour).flatten := by
      rw [List.map_map, ← List.flatMap_def]
      rfl
    obtain ⟨hcalls, hreply⟩ := Drawing.calls_ofMarks hfree _ s
    rw [hdrawing, ← hcalls, Drawing.after_calls]
    exact ⟨rfl, Prod.ext rfl hreply⟩

def loops : Outline :=
  ⟨#[⟨9, 9⟩, ⟨0, 0⟩, ⟨4, 0⟩, ⟨4, 0⟩, ⟨7, 7⟩, ⟨2, 2⟩, ⟨2, 2⟩],
    #[false, true, true, false, true, false, false], #[3, 4, 6], #[]⟩

open Stroke in
/-- The strokes of the three contours, one walk after the other. -/
theorem drawn_once_around_loops :
    (∀ (calls : Array (Call Stroke)) c, (Drawing.recorder calls c).2 = .ok ()) ∧
      ∃ walks : List (List Stroke),
        List.Forall₂ OnceAround (loops.contours.map (·.map Vertex.toDouble)) walks ∧
        walks.flatten.map Call.mark = [.mark (move ⟨0, 0⟩), .mark (line ⟨4, 0⟩),
          .mark (quadratic #[⟨4, 0⟩, ⟨9, 9⟩] (some ⟨0, 0⟩)), .mark close, .mark (move ⟨7, 7⟩),
          .mark close, .mark (quadratic #[⟨2, 2⟩, ⟨2, 2⟩] none), .mark close] := by
  have hfree : ∀ (calls : Array (Call Stroke)) c, (Drawing.recorder calls c).2 = .ok () :=
    fun _ _ => rfl
  obtain ⟨walks, hwalks, hcalls, -⟩ := Outline.drawn_once_around hfree loops #[]
  exact ⟨hfree, walks, hwalks, hcalls.symm.trans (by decide +kernel)⟩

end GlyphDrawing
