import Mathlib.Data.List.Rotate
import Mathlib.Data.List.TakeWhile
import GlyphDrawing.Drawing.OfGlyph
import GlyphDrawing.Proofs.Pen.StrokeRun

/-!
# Contours as calls

Drawn as strokes, a contour is walked once around from its first vertex on the curve; the walk
comes back to that vertex if the last one is a control, and leaves the way back to the closing
otherwise (`flatMap_vertices_ofContour`). A contour that is moved is drawn by the same calls, moved
(`ofContour_map`).
-/

namespace GlyphDrawing

instance : SMul Affine (Vertex Float) := ⟨fun a v => ⟨a • v.position, v.onCurve⟩⟩

namespace Contour

variable {α : Type}

/-- The contour from its first vertex on the curve on, or as it stands if it has none. -/
def fromCurve (contour : List (Vertex α)) : List (Vertex α) :=
  contour.rotate (contour.findIdx (·.onCurve))

def endsInControl (contour : List (Vertex α)) : Bool :=
  contour.any (·.onCurve) && contour.getLast?.any (!·.onCurve)

/-- Once around the contour, and back to where it begins if its last vertex is a control. -/
def circuit (contour : List (Vertex α)) : List (Vertex α) :=
  fromCurve contour ++
    if endsInControl (fromCurve contour) then (fromCurve contour).head?.toList else []

/-- Closing takes a vertex away that the walk has come back to. -/
theorem closing_concat_head {contour : List (Vertex Float)} {first : Vertex Float}
    (h : contour.head? = some first) (hsame : (first.position == first.position) = true) :
    Sketch.closing (contour ++ [first]) = [contour] := by
  obtain ⟨rest, rfl⟩ : ∃ rest, contour = first :: rest := List.head?_eq_some_iff.1 h
  have hreturns : (some first.position == some first.position) = true := hsame
  rw [Sketch.closing, if_neg (by simp), List.head?_append, List.head?_cons, Option.some_or,
    List.getLast?_concat, Option.map_some, if_pos hreturns, List.dropLast_concat]

def placed (a : Affine) (contour : List (Vertex Int32)) : List (Vertex Float) :=
  contour.map fun v => a • v.toDouble

theorem findIdx_eq_length_takeWhile (contour : List (Vertex α)) :
    contour.findIdx (·.onCurve) = (contour.takeWhile (!·.onCurve)).length := by
  induction contour with
  | nil => rfl
  | cons v contour ih =>
    rw [List.findIdx_cons, List.takeWhile_cons]
    cases v.onCurve with
    | true => rfl
    | false => simp [ih]

theorem fromCurve_eq (contour : List (Vertex α)) :
    fromCurve contour =
      contour.dropWhile (!·.onCurve) ++ contour.takeWhile (!·.onCurve) := by
  have h := List.rotate_append_length_eq (contour.takeWhile (!·.onCurve))
    (contour.dropWhile (!·.onCurve))
  rwa [List.takeWhile_append_dropWhile, ← findIdx_eq_length_takeWhile] at h

theorem fromCurve_of_starts {contour : List (Vertex α)}
    (h : contour.head?.any (·.onCurve) = true ∨ ∀ v ∈ contour, v.onCurve = false) :
    fromCurve contour = contour := by
  rw [fromCurve_eq]
  rcases h with h | h
  · cases contour with
    | nil => rfl
    | cons first rest =>
      have hfirst : first.onCurve = true := h
      simp [hfirst]
  · have hall : ∀ v ∈ contour, (!v.onCurve) = true := by simpa using h
    rw [List.takeWhile_eq_self_iff.2 hall, List.dropWhile_eq_nil_iff.2 hall, List.nil_append]

theorem length_fromCurve (contour : List (Vertex α)) :
    (fromCurve contour).length = contour.length :=
  List.length_rotate contour _

end Contour

namespace Stroke

open Contour

def waiting (controls : Array (Point Float)) : List (Vertex Float) :=
  controls.toList.map (⟨·, false⟩)

theorem splineVertices_some {v : Vertex Float} (hv : v.onCurve = true)
    (controls : Array (Point Float)) :
    StrokePen.splineVertices controls (some v.position) = waiting controls ++ [v] := by
  obtain ⟨position, onCurve⟩ := v
  obtain rfl : onCurve = true := hv
  rfl

theorem waiting_push {v : Vertex Float} (hv : v.onCurve = false) (controls : Array (Point Float)) :
    waiting (controls.push v.position) = waiting controls ++ [v] := by
  obtain ⟨position, onCurve⟩ := v
  obtain rfl : onCurve = false := hv
  simp [waiting]

def trails (vertices : List (Vertex Float)) : Bool :=
  vertices.getLast?.any (!·.onCurve)

theorem trails_waiting {controls : Array (Point Float)} (h : controls ≠ #[]) :
    trails (waiting controls) = true := by
  have hne : controls.toList ≠ [] := fun hnil => h (Array.toList_eq_nil_iff.1 hnil)
  rw [trails, waiting, List.getLast?_map, List.getLast?_eq_some_getLast hne]
  rfl

theorem trails_append_cons {v : Vertex Float} (hv : v.onCurve = true)
    (front rest : List (Vertex Float)) : trails (front ++ v :: rest) = trails rest := by
  rw [trails, trails, List.getLast?_append, List.getLast?_cons, Option.some_or]
  cases rest.getLast? <;> simp [hv]

theorem flatMap_vertices_segments {first : Vertex Float} (hfirst : first.onCurve = true)
    (controls : Array (Point Float)) (rest : List (Vertex Float)) :
    (segments controls (rest ++ [first])).flatMap vertices =
      waiting controls ++ rest ++ if trails (waiting controls ++ rest) then [first] else [] := by
  induction rest generalizing controls with
  | nil =>
    rw [List.nil_append, List.append_nil, segments, if_pos hfirst]
    by_cases hcontrols : controls = #[]
    · subst hcontrols
      rfl
    · rw [if_neg (by simpa using hcontrols), trails_waiting hcontrols, if_pos rfl,
        ← splineVertices_some hfirst]
      simp [segments, vertices]
  | cons v rest ih =>
    rw [List.cons_append, segments]
    cases hv : v.onCurve with
    | true =>
      rw [if_pos rfl, trails_append_cons hv]
      have hline : [⟨v.position, true⟩] = [v] := by rw [← hv]
      by_cases hcontrols : controls = #[]
      · subst hcontrols
        rw [if_pos Array.isEmpty_empty, if_neg (by simp), List.flatMap_cons, ih, vertices, hline]
        rfl
      · rw [if_neg (by simpa using hcontrols), List.flatMap_cons, ih, vertices,
          splineVertices_some hv]
        simp [waiting]
    | false =>
      rw [if_neg Bool.false_ne_true, ih, waiting_push hv, ← List.append_cons]

theorem flatMap_vertices_controls {contour : List (Vertex Float)}
    (h : ∀ v ∈ contour, v.onCurve = false) :
    [quadratic (contour.map (·.position)).toArray none, close].flatMap vertices = contour := by
  have hmap : contour.map (fun v => (⟨v.position, false⟩ : Vertex Float)) = contour :=
    (List.map_congr_left fun v hv => by rw [← h v hv, id]).trans (List.map_id contour)
  simp [vertices, StrokePen.splineVertices, Function.comp_def, hmap]

/-- The strokes of a contour add its circuit. -/
theorem flatMap_vertices_ofContour (contour : List (Vertex Float)) :
    (ofContour contour).flatMap vertices = circuit contour := by
  have hcontrols : ∀ v ∈ contour.takeWhile (!·.onCurve), v.onCurve = false := fun v hv => by
    simpa using List.mem_takeWhile_imp hv
  have hfirst := List.head?_dropWhile_not (fun v : Vertex Float => !v.onCurve) contour
  rw [ofContour, circuit, fromCurve_eq, List.span_eq_takeWhile_dropWhile]
  generalize contour.takeWhile (!·.onCurve) = controls at hcontrols
  generalize contour.dropWhile (!·.onCurve) = onward at hfirst
  cases onward with
  | nil =>
    have hnone : controls.any (·.onCurve) = false := by simpa [List.any_eq_false] using hcontrols
    rw [List.nil_append, endsInControl, hnone, Bool.false_and, if_neg Bool.false_ne_true,
      List.append_nil]
    exact flatMap_vertices_controls hcontrols
  | cons first rest =>
    have hfirst : first.onCurve = true := by simpa using hfirst
    have hsegments := flatMap_vertices_segments hfirst #[] (rest ++ controls)
    have hends : endsInControl (first :: (rest ++ controls)) = trails (rest ++ controls) := by
      have := trails_append_cons hfirst [] (rest ++ controls)
      simpa [endsInControl, hfirst, trails] using this
    have hmove : [⟨first.position, true⟩] = [first] := by rw [← hfirst]
    simp only [List.flatMap_append, List.flatMap_cons, hsegments, hends, vertices, hmove, waiting,
      List.flatMap_nil, List.append_nil, List.map_nil, List.nil_append, List.cons_append,
      List.head?_cons, Option.toList_some]

/-- Moving a contour moves its strokes. -/
theorem segments_map (a : Affine) (controls : Array (Point Float))
    (contour : List (Vertex Float)) :
    segments (controls.map (a • ·)) (contour.map (a • ·)) =
      (segments controls contour).map (a • ·) := by
  induction contour generalizing controls with
  | nil => rfl
  | cons v contour ih =>
    have hfresh : segments #[] (contour.map (a • ·)) = (segments #[] contour).map (a • ·) := by
      simpa using ih #[]
    have hpush := ih (controls.push v.position)
    rw [Array.map_push] at hpush
    have hcurve : (a • v).onCurve = v.onCurve := rfl
    have hempty : (controls.map (a • ·)).isEmpty = controls.isEmpty := by simp [Array.isEmpty]
    rw [List.map_cons, segments, segments, hcurve, hempty, List.isEmpty_map, hfresh]
    split_ifs
    · rfl
    · rfl
    · rfl
    · exact hpush

theorem ofContour_map (a : Affine) (contour : List (Vertex Float)) :
    ofContour (contour.map (a • ·)) = (ofContour contour).map (a • ·) := by
  have hcurve : (fun v : Vertex Float => !v.onCurve) ∘ (a • ·) = (!·.onCurve) := rfl
  rw [ofContour, ofContour, List.span_eq_takeWhile_dropWhile, List.span_eq_takeWhile_dropWhile,
    List.takeWhile_map, List.dropWhile_map, hcurve]
  cases contour.dropWhile (!·.onCurve) with
  | nil =>
    have hpositions (controls : List (Vertex Float)) :
        ((controls.map (a • ·)).map (·.position)).toArray =
          (controls.map (·.position)).toArray.map (a • ·) := by
      rw [List.map_toArray, List.map_map, List.map_map]
      rfl
    change [quadratic _ none, close] = [quadratic _ none, close]
    rw [hpositions]
  | cons first rest =>
    have hsegments := segments_map a #[] (rest ++ contour.takeWhile (!·.onCurve) ++ [first])
    rw [List.map_append, List.map_append, List.map_singleton, Array.map_empty] at hsegments
    change move _ :: segments #[] _ ++ [close] = _
    rw [hsegments, List.map_append]
    rfl

theorem free_segments (controls : Array (Point Float)) (contour : List (Vertex Float)) :
    ∀ m ∈ segments controls contour, StrokePen.Free m ∧ m.closes = false := by
  induction contour generalizing controls with
  | nil => simp [segments]
  | cons v contour ih =>
    intro m hm
    rw [segments] at hm
    split_ifs at hm
    · cases hm
    · rcases List.mem_cons.1 hm with rfl | hm
      · exact ⟨trivial, rfl⟩
      · exact ih _ m hm
    · rcases List.mem_cons.1 hm with rfl | hm
      · exact ⟨trivial, rfl⟩
      · exact ih _ m hm
    · exact ih _ m hm

/-- The strokes of a contour end with the only one that closes; the first one can be refused by an
open run, and the others cannot be refused. -/
theorem exists_ofContour_eq (contour : List (Vertex Float)) :
    ∃ first rest, ofContour contour = first :: rest ++ [.close] ∧
      first.refusal? [] = none ∧ first.closes = false ∧
        ∀ m ∈ rest, StrokePen.Free m ∧ m.closes = false := by
  unfold ofContour
  split
  · exact ⟨_, [], rfl, rfl, rfl, by simp⟩
  · exact ⟨_, _, rfl, rfl, rfl, free_segments _ _⟩

end Stroke

namespace PathStep

theorem points_map (a : Affine) (afterCurve : Bool) (contour : List (Vertex Float)) :
    points afterCurve (contour.map (a • ·)) = (points afterCurve contour).map (a • ·) := by
  induction contour generalizing afterCurve with
  | nil => rfl
  | cons v contour ih =>
    rw [List.map_cons, points, points, List.map_cons, ← ih]
    rfl

theorem ofContour_map (a : Affine) (contour : List (Vertex Float)) :
    ofContour (contour.map (a • ·)) = (ofContour contour).map (a • ·) := by
  rw [ofContour, ofContour, points_map, List.getLast?_map, Option.map_map, List.map_append,
    List.map_cons]
  rfl

end PathStep

end GlyphDrawing
