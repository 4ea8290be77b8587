import GlyphDrawing.Proofs.Sketch.Reading

/-!
# One sketch after another

A sketch whose contours are all closed can stand before any other one. What is then done to the
second sketch does not see the first: every operation on the pair is the operation on the second
sketch alone (`append_endRun`, `append_closeRun`).
-/

namespace GlyphDrawing.Sketch

def append (base s : Sketch) : Sketch where
  vertices := base.vertices ++ s.vertices
  ends := base.ends ++ s.ends.map (base.vertices.size + ·)
  pending := base.pending ++ s.pending

instance : Append Sketch := ⟨append⟩

variable {base s : Sketch} {earlier contours : List (List (Vertex Float))}
  {run : List (Vertex Float)}

@[simp] theorem vertices_append (base s : Sketch) :
    (base ++ s).vertices = base.vertices ++ s.vertices := rfl

@[simp] theorem ends_append (base s : Sketch) :
    (base ++ s).ends = base.ends ++ s.ends.map (base.vertices.size + ·) := rfl

@[simp] theorem pending_append (base s : Sketch) :
    (base ++ s).pending = base.pending ++ s.pending := rfl

@[simp] theorem append_empty (base : Sketch) : base ++ empty = base := by
  change base.append empty = base
  simp [append, empty]

theorem append_addVertex (base s : Sketch) (p : Point Float) (onCurve : Bool) :
    (base ++ s).addVertex p onCurve = base ++ s.addVertex p onCurve := by
  change (base.append s).addVertex p onCurve = base.append (s.addVertex p onCurve)
  simp [append, addVertex]

theorem append_addReference (base s : Sketch) (r : Reference) :
    (base ++ s).addReference r = base ++ s.addReference r := by
  change (base.append s).addReference r = base.append (s.addReference r)
  simp [append, addReference]

theorem Reads.append (hb : base.Reads earlier []) (hs : s.Reads contours run) :
    (base ++ s).Reads (earlier ++ contours) run where
  nonempty contour hmem := by
    rcases List.mem_append.1 hmem with hmem | hmem
    · exact hb.nonempty contour hmem
    · exact hs.nonempty contour hmem
  vertices := by simp [hb.vertices, hs.vertices]
  ends := by
    rw [ends_append, Array.toList_append, Array.toList_map, hb.ends, hs.ends,
      map_add_lastIndices hs.nonempty, hb.size_eq, lastIndices_append, Nat.zero_add,
      List.length_nil, Nat.add_zero]

theorem append_endRun (hb : base.Reads earlier []) (hs : s.Reads contours run) :
    (base ++ s).endRun = base ++ s.endRun := by
  have hleft := (hb.append hs).endRun
  have hright := hb.append hs.endRun
  rw [← List.append_assoc] at hright
  exact hleft.ext hright (by simp)

theorem append_closeRun (hb : base.Reads earlier []) (hs : s.Reads contours run) :
    (base ++ s).closeRun = base ++ s.closeRun := by
  have hleft := (hb.append hs).closeRun
  have hright := hb.append hs.closeRun
  rw [← List.append_assoc] at hright
  exact hleft.ext hright (by simp)

theorem isClosed_append (hb : base.Reads earlier []) (hs : s.Reads contours run) :
    (base ++ s).isClosed = s.isClosed := by
  rw [Bool.eq_iff_iff, (hb.append hs).isClosed_iff, hs.isClosed_iff]

end GlyphDrawing.Sketch
