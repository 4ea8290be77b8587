import GlyphDrawing.Proofs.Pen.OutlinePen
import GlyphDrawing.Proofs.Repertoire

/-!
# Glyphs drawn on outline pens

An outline pen without obstacle accepts every glyph, under every map, and has no obstacle
afterwards. The glyph adds the contours that it would leave on a new pen, and its components as
references (`exists_draw_glyph`).
-/

namespace GlyphDrawing

namespace Glyph

def references : Glyph → List Reference
  | simple _ => []
  | composite components => components.toList.map Component.toReference

theorem forwards_drawing {Mark : Type} [SMul Affine Mark]
    (ofContour : List (Vertex Float) → List Mark) (g : Glyph) : (g.drawing ofContour).Forwards := by
  cases g with
  | simple outline => exact Drawing.forwards_ofMarks _
  | composite components => exact Drawing.forwards_ofReferences _

end Glyph

namespace Pen

variable {π Mark : Type} [Pen π Mark] [SMul Affine Mark] {p q : π} {a : Affine}

theorem Accepts.draw_eq {marks : List Mark} (h : Accepts p marks q) :
    draw p (.ofMarks marks) = (q, .ok ()) := by
  induction marks generalizing p with
  | nil =>
    obtain rfl : q = p := h
    rfl
  | cons m marks ih =>
    obtain ⟨p', hm, hp'⟩ := h
    have hfirst : respond p (Call.mark m) = (p', .ok ()) := hm
    have hrest := ih hp'
    simp only [draw, Drawing.ofMarks, Drawing.inOrder, List.map_cons, List.foldr_cons,
      Drawing.run] at hrest ⊢
    rw [hfirst]
    exact hrest

/-- A row of calls that is drawn through a map is the row of mapped calls. -/
theorem draw_through_inOrder (p : π) (a : Affine) (calls : List (Call Mark)) :
    draw p (.through a (.inOrder (calls.map .call))) =
      draw p (.inOrder ((calls.map (a • ·)).map .call)) := by
  induction calls generalizing p with
  | nil => rfl
  | cons c calls ih =>
    simp only [draw, Drawing.inOrder, List.map_cons, List.foldr_cons, Drawing.run] at ih ⊢
    rcases respond p (a • c) with ⟨p', e | ⟨⟩⟩
    · rfl
    · exact ih p'

theorem draw_through_ofMarks (p : π) (a : Affine) (marks : List Mark) :
    draw p (.through a (.ofMarks marks)) = draw p (.ofMarks (marks.map (a • ·))) := by
  have h := draw_through_inOrder p a (marks.map .mark)
  simp only [List.map_map] at h
  rw [Drawing.ofMarks, Drawing.ofMarks, List.map_map]
  exact h

theorem draw_through_ofReferences (p : π) (a : Affine) (references : List Reference) :
    draw p (.through a (.ofReferences references)) =
      draw p (.ofReferences (references.map (a • ·))) := by
  have h := draw_through_inOrder p a (references.map .component)
  simp only [List.map_map] at h
  rw [Drawing.ofReferences, Drawing.ofReferences, List.map_map]
  exact h

theorem draw_ofMarks {marks : List Mark} (h : Accepts p (marks.map (a • ·)) q) :
    draw p (.through a (.ofMarks marks)) = (q, .ok ()) :=
  (draw_through_ofMarks p a marks).trans h.draw_eq

end Pen

namespace OutlinePen

open Pen

variable {π Mark : Type} [SMul Affine Mark] [OutlinePen π Mark] {p q : π}
  {contours : List (List (Vertex Float))} {run : List (Vertex Float)}

theorem traces_of_obstacle (h : Traces p contours run) (ho : obstacle? p = none) :
    Traces p contours [] :=
  run_eq_nil h ho ▸ h

/-- One contour after the other is accepted. -/
theorem exists_accepts_outline (h : Traces p contours []) (ho : obstacle? p = none) (a : Affine)
    (outline : List (List (Vertex Float))) :
    ∃ q more, Accepts p ((outline.flatMap (ofContour π)).map (a • ·)) q ∧ obstacle? q = none ∧
      Traces q (contours ++ more) [] := by
  induction outline generalizing p contours with
  | nil => exact ⟨p, [], rfl, ho, by rwa [List.append_nil]⟩
  | cons contour outline ih =>
    obtain ⟨p', hp', ho'⟩ := accepts_ofContour h ho a contour
    obtain ⟨more, run, hmore⟩ := traces_accepts h hp'
    obtain ⟨q, more', hq, hoq, hmore'⟩ := ih (traces_of_obstacle hmore ho') ho'
    refine ⟨q, more ++ more', ?_, hoq, by rwa [← List.append_assoc]⟩
    rw [List.flatMap_cons, List.map_append]
    exact hp'.append hq

theorem exists_draw_ofReferences (h : Traces p contours run) (references : List Reference) :
    ∃ q, draw p (.ofReferences references) = (q, .ok ()) ∧ obstacle? q = obstacle? p ∧
      Traces q contours run ∧ pending q = pending p ++ references.toArray := by
  induction references generalizing p with
  | nil => exact ⟨p, rfl, rfl, h, by simp⟩
  | cons r references ih =>
    obtain ⟨q, hdraw, ho, hq, hpending⟩ := ih (traces_addReference h r)
    refine ⟨q, hdraw, ho.trans ?_, hq, ?_⟩
    · exact obstacle?_mapSketch h ((reads_of_traces h).addReference r)
    · rw [hpending]
      simp [pending, Pen.addReference, sketch_mapSketch, Sketch.addReference]

theorem exists_draw_through_ofReferences (h : Traces p contours run) (a : Affine)
    (references : List Reference) :
    ∃ q, draw p (.through a (.ofReferences references)) = (q, .ok ()) ∧
      obstacle? q = obstacle? p ∧ Traces q contours run ∧
        pending q = pending p ++ (references.map (a • ·)).toArray := by
  rw [draw_through_ofReferences]
  exact exists_draw_ofReferences h _

theorem exists_draw_glyph (h : Traces p contours []) (ho : obstacle? p = none) (a : Affine)
    (g : Glyph) :
    ∃ q more, draw p (.through a (script π (.glyph g))) = (q, .ok ()) ∧ obstacle? q = none ∧
      Traces q (contours ++ more) [] ∧
        pending q = pending p ++ (g.references.map (a • ·)).toArray := by
  rw [script_glyph]
  cases g with
  | simple outline =>
    obtain ⟨q, more, hq, hoq, hmore⟩ := exists_accepts_outline h ho a
      (outline.contours.map (·.map Vertex.toDouble))
    rw [List.flatMap_map] at hq
    refine ⟨q, more, draw_ofMarks hq, hoq, hmore, ?_⟩
    rw [hq.pending_eq]
    simp [Glyph.references]
  | composite components =>
    obtain ⟨q, hdraw, hoq, hq, hpending⟩ := exists_draw_through_ofReferences h a
      (components.toList.map Component.toReference)
    exact ⟨q, [], hdraw, hoq.trans ho, by rwa [List.append_nil], hpending⟩

theorem forwards_glyph (π : Type) {Mark : Type} [SMul Affine Mark] [OutlinePen π Mark] (g : Glyph) :
    (script π (.glyph g)).Forwards := by
  rw [script_glyph]
  exact g.forwards_drawing _

theorem refusal?_glyph (h : Traces p contours []) (ho : obstacle? p = none) (a : Affine)
    (g : Glyph) : (Drawing.through a (script π (.glyph g))).refusal? respond p = none := by
  obtain ⟨q, more, hdraw, -⟩ := exists_draw_glyph h ho a g
  exact Drawing.Forwards.refusal?_eq_none (Drawing.Forwards.through (forwards_glyph π g) a)
    (congrArg Prod.snd hdraw)

/-- The contours that a source leaves on a new pen, drawn through `a`. -/
def drawnContours (π : Type) {Mark : Type} [SMul Affine Mark] [OutlinePen π Mark] (source : Source)
    (a : Affine) : List (List (Vertex Float)) :=
  (sketch (draw (empty : π) (.through a (script π source))).1).contours

/-- A glyph adds the contours that it leaves on a new pen, whatever is on the pen before it. -/
theorem draw_glyph (h : Traces p contours []) (ho : obstacle? p = none) (a : Affine) (g : Glyph) :
    ∃ q, draw p (.through a (script π (.glyph g))) = (q, .ok ()) ∧ obstacle? q = none ∧
      Traces q (contours ++ drawnContours π (.glyph g) a) [] ∧
        pending q = pending p ++ (g.references.map (a • ·)).toArray := by
  obtain ⟨q, more, hdraw, hoq, hq, hpending⟩ := exists_draw_glyph h ho a g
  obtain ⟨q₀, more₀, hdraw₀, -, hq₀, -⟩ :=
    exists_draw_glyph (p := (empty : π)) traces_empty obstacle?_empty a g
  have happend := draw_append (reads_of_traces h) traces_empty
    (refusal?_glyph (p := (empty : π)) traces_empty obstacle?_empty a g)
  rw [eq_append_empty ho, hdraw, hdraw₀] at happend
  have hsketch : sketch q = sketch p ++ sketch q₀ := by
    rw [(Prod.mk.inj happend).1, sketch_mapSketch]
  have hmore : contours ++ more = contours ++ drawnContours π (.glyph g) a := by
    rw [drawnContours, hdraw₀, (reads_of_traces hq₀).contours_eq,
      ← (reads_of_traces hq).contours_eq, hsketch]
    exact ((reads_of_traces h).append (reads_of_traces hq₀)).contours_eq
  exact ⟨q, hdraw, hoq, hmore ▸ hq, hpending⟩

end OutlinePen

theorem Repertoire.OfGlyphs.forwards {repertoire : Repertoire} (h : repertoire.OfGlyphs) (π : Type)
    {Mark : Type} [SMul Affine Mark] [OutlinePen π Mark] : repertoire.Forwards π := by
  refine Repertoire.forwards_of_scripts (h.mono fun source hsource => ?_)
  obtain ⟨g, rfl⟩ := hsource
  exact OutlinePen.forwards_glyph π g

end GlyphDrawing
