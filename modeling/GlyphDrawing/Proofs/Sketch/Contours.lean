import GlyphDrawing.Proofs.Sketch.Reading

/-!
# The contours of a sketch and of its outline

Cutting a row at the ends of its pieces gives the pieces back (`cut_lastIndices`). So the contours
of a sketch are those that it reads as, and the outline of a sketch with no open run is the outline
of these contours.
-/

namespace GlyphDrawing

def Vertex.round (v : Vertex Float) : Vertex Int32 :=
  ⟨v.position.map roundToInt32, v.onCurve⟩

namespace Outline

/-- The outline of the given contours, rounded, without instructions. -/
def ofContours (contours : List (List (Vertex Float))) : Outline where
  points := (contours.flatten.map (·.position.map roundToInt32)).toArray
  onCurve := (contours.flatten.map (·.onCurve)).toArray
  ends := (lastIndices 0 contours).toArray
  instructions := #[]

theorem cut_lastIndices {α : Type} {pieces : List (List α)} (h : ∀ piece ∈ pieces, piece ≠ [])
    (start : Nat) (rest : List α) :
    cut (start + pieces.flatten.length + rest.length) start (pieces.flatten ++ rest)
      (lastIndices start pieces) = pieces := by
  induction pieces generalizing start with
  | nil => rfl
  | cons piece pieces ih =>
    have hpos := List.length_pos_iff.2 (h piece List.mem_cons_self)
    have htail := ih (fun p hp => h p (List.mem_cons_of_mem _ hp)) (start + piece.length)
    simp only [lastIndices, cut, List.flatten_cons, List.length_append, List.append_assoc]
    rw [if_pos (by omega), show start + piece.length - 1 + 1 - start = piece.length by omega,
      show start + piece.length - 1 + 1 = start + piece.length by omega, List.take_left,
      List.drop_left, ← Nat.add_assoc, htail]

theorem vertices_ofContours (contours : List (List (Vertex Float))) :
    (ofContours contours).vertices = contours.flatten.map Vertex.round := by
  simp only [vertices, ofContours, List.zipWith_map, List.zipWith_self]
  rfl

/-- The outline of contours, none of which is empty, has them as its contours. -/
theorem contours_ofContours {contours : List (List (Vertex Float))}
    (h : ∀ contour ∈ contours, contour ≠ []) :
    (ofContours contours).contours = contours.map (·.map Vertex.round) := by
  have hne : ∀ contour ∈ contours.map (·.map Vertex.round), contour ≠ [] := by simpa using h
  have hcut := cut_lastIndices hne 0 []
  rw [List.append_nil, ← List.map_flatten, lastIndices_map, List.length_nil, Nat.add_zero,
    Nat.zero_add] at hcut
  rw [Outline.contours, vertices_ofContours]
  exact hcut

end Outline

namespace Sketch

def contours (s : Sketch) : List (List (Vertex Float)) :=
  Outline.cut s.vertices.size 0 s.vertices.toList s.ends.toList

variable {s : Sketch} {contours : List (List (Vertex Float))} {run : List (Vertex Float)}

theorem Reads.contours_eq (h : s.Reads contours run) : s.contours = contours := by
  have hcut := Outline.cut_lastIndices h.nonempty 0 run
  rw [Nat.zero_add] at hcut
  rw [Sketch.contours, h.size_eq, h.vertices, h.ends, hcut]

theorem Reads.outline_eq (h : s.Reads contours []) : s.outline = .ofContours contours := by
  have hvertices := h.vertices
  rw [List.append_nil] at hvertices
  simp only [outline, Outline.ofContours, ← hvertices, ← h.ends, ← Array.toList_map,
    Array.toArray_toList]

end Sketch

end GlyphDrawing
