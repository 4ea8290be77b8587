import GlyphDrawing.Proofs.Pen.Redraw

/-!
# Drawing an outline again by points

As path steps the points of an outline come in their own order, and a path pen keeps every path
that has a point. So the outline that it finishes has all contours of the first one but the empty
ones, and an outline that is well formed has no empty contour (`redraw_paths_eq`).
-/

namespace GlyphDrawing

namespace Outline

def filledContours (o : Outline) : List (List (Vertex Int32)) :=
  o.contours.filter (· ≠ [])

theorem ne_nil_of_mem_cut {α : Type} {rest piece : List α} {size start : Nat} {ends : List Nat}
    (hsize : start + rest.length = size) (hincreasing : ends.Pairwise (· < ·))
    (hstart : ∀ last ∈ ends, start ≤ last) (h : piece ∈ cut size start rest ends) : piece ≠ [] := by
  induction ends generalizing start rest with
  | nil => cases h
  | cons last ends ih =>
    obtain ⟨hlast, hincreasing⟩ := List.pairwise_cons.1 hincreasing
    have hle := hstart last List.mem_cons_self
    rw [cut] at h
    split_ifs at h with hfits
    · rcases List.mem_cons.1 h with rfl | h
      · rw [← List.length_pos_iff, List.length_take]
        omega
      · refine ih ?_ hincreasing hlast h
        rw [List.length_drop]
        omega
    · cases h

theorem WellFormed.filledContours_eq {o : Outline} (h : o.WellFormed) :
    o.filledContours = o.contours := by
  refine List.filter_eq_self.2 fun c hc => decide_eq_true ?_
  exact ne_nil_of_mem_cut (Nat.zero_add _) h.increasing (fun _ _ => Nat.zero_le _) hc

theorem flatMap_ending_toDouble (contours : List (List (Vertex Int32))) :
    (contours.flatMap fun c => Sketch.ending (c.map Vertex.toDouble)) =
      (contours.filter (· ≠ [])).map (·.map Vertex.toDouble) := by
  rw [← List.flatMap_map, Sketch.flatMap_ending, List.filter_map]
  refine congrArg _ (List.filter_congr fun c _ => decide_eq_decide.2 ?_)
  exact List.map_eq_nil_iff.not

end Outline

namespace Pen

theorem draw_pathSteps_eq (o : Outline) :
    ∃ q : PathPen, draw empty (Glyph.simple o).pathSteps = (q, .ok ()) ∧ obstacle? q = none ∧
      pending q = #[] ∧ (sketch q).outline = .join o.filledContours := by
  obtain ⟨q, hq, hoq, htraces⟩ := OutlinePen.keeps_ending.exists_accepts
    (p := (empty : PathPen)) OutlinePen.traces_empty rfl (o.contours.map (·.map Vertex.toDouble))
  have hreads := OutlinePen.reads_of_traces htraces
  rw [List.nil_append, List.flatMap_map, Outline.flatMap_ending_toDouble] at hreads
  rw [List.flatMap_map] at hq
  refine ⟨q, hq.draw_eq, hoq, hq.pending_eq, ?_⟩
  rw [hreads.outline_eq, Outline.ofContours_toDouble, Outline.filledContours]

/-- Drawn again by points, every outline is finished as the outline of its contours that have a
vertex; one that is well formed and without instructions is finished as it is. -/
theorem redraw_paths_eq (setting : Setting) (options : Options) (o : Outline) :
    (session setting (empty : PathPen) [.draw (Glyph.simple o).pathSteps, .finish options]).2 =
        [.drawn (.ok ()), .finished #[] (.ok (.simple (.join o.filledContours)))] ∧
      (Outline.join o.filledContours).contours = o.filledContours ∧
      (o.WellFormed → o.instructions = #[] → Outline.join o.filledContours = o) := by
  refine ⟨?_, Outline.contours_join ?_, fun hformed hinstructions => ?_⟩
  · obtain ⟨q, hdraw, hobstacle, hpending, houtline⟩ := draw_pathSteps_eq o
    simp only [session, answer, hdraw, finish_of_pending_eq_empty hobstacle hpending, houtline]
  · intro c hc
    exact of_decide_eq_true (List.mem_filter.1 hc).2
  · rw [hformed.filledContours_eq, hformed.join_contours hinstructions]

def tangle : Outline :=
  ⟨#[⟨7, 7⟩, ⟨1, 1⟩, ⟨2, 2⟩, ⟨1, 1⟩, ⟨9, 9⟩, ⟨0, 0⟩, ⟨5, 5⟩],
    #[true, true, true, true, false, true], #[0, 0, 3, 5, 6], #[7]⟩

def untangled : Outline :=
  ⟨#[⟨7, 7⟩, ⟨1, 1⟩, ⟨2, 2⟩, ⟨1, 1⟩, ⟨9, 9⟩, ⟨0, 0⟩], #[true, true, true, true, false, true],
    #[0, 3, 5], #[]⟩

/-- The tangle loses its empty contour and all that no contour holds, and then nothing more. -/
theorem redraw_tangle :
    (session ⟨∅, true⟩ (empty : PathPen) [.draw (Glyph.simple tangle).pathSteps, .finish {}]).2 =
        [.drawn (.ok ()), .finished #[] (.ok (.simple untangled))] ∧
      (session ⟨∅, true⟩ (empty : PathPen) [.draw (Glyph.simple untangled).pathSteps,
        .finish {}]).2 = [.drawn (.ok ()), .finished #[] (.ok (.simple untangled))] := by
  have htangle : Outline.join tangle.filledContours = untangled := by decide +kernel
  have hformed : untangled.WellFormed := ⟨rfl, by decide, rfl⟩
  obtain ⟨hagain, -, -⟩ := redraw_paths_eq ⟨∅, true⟩ {} tangle
  obtain ⟨hsame, -, hkept⟩ := redraw_paths_eq ⟨∅, true⟩ {} untangled
  rw [htangle] at hagain
  rw [hkept hformed rfl] at hsame
  exact ⟨hagain, hsame⟩

end Pen

end GlyphDrawing
