import GlyphDrawing.Proofs.Drawing.Circuit
import GlyphDrawing.Proofs.Pen.OutlinePen

/-!
# The stroke pen draws outlines

Strokes other than `move` and `cubic` are always accepted. A contour drawn as strokes moves at most
once, at its beginning, and it ends with `close`, so a stroke pen without open run accepts it and
makes of its circuit what closing makes of it (`exists_accepts_circuit`).
-/

namespace GlyphDrawing.StrokePen

variable {p q : StrokePen} {s base : Sketch} {earlier contours : List (List (Vertex Float))}
  {run : List (Vertex Float)} {m : Stroke}

theorem append_addSpline (hb : base.Reads earlier []) (h : s.Reads contours run)
    (controls : Array (Point Float)) (target : Option (Point Float)) :
    addSpline (base ++ s) controls target = base ++ addSpline s controls target :=
  (reads_addSpline (hb.append h) controls target).ext
    (hb.append (reads_addSpline h controls target)) (by simp)

theorem mark_append (hb : base.Reads earlier []) (h : p.sketch.Reads contours run)
    (hm : p.mark m = (q, .ok ())) :
    mark ⟨base ++ p.sketch⟩ m = (⟨base ++ q.sketch⟩, .ok ()) := by
  cases m with
  | move v =>
    simp only [mark] at hm ⊢
    rw [Sketch.isClosed_append hb h]
    split_ifs at hm ⊢
    · obtain ⟨rfl, -⟩ := Prod.mk.inj hm
      rw [Sketch.append_addVertex]
    · cases congrArg Prod.snd hm
  | line v =>
    obtain ⟨rfl, -⟩ := Prod.mk.inj hm
    simp only [mark]
    rw [Sketch.append_addVertex]
  | quadratic | bezier =>
    obtain ⟨rfl, -⟩ := Prod.mk.inj hm
    simp only [mark]
    rw [append_addSpline hb h]
  | cubic => cases congrArg Prod.snd hm
  | close | finish =>
    obtain ⟨rfl, -⟩ := Prod.mk.inj hm
    simp only [mark]
    rw [Sketch.append_closeRun hb h]

theorem obstacle?_eq_none_iff : p.obstacle? = none ↔ p.sketch.isClosed = true := by
  unfold obstacle?
  split_ifs with h <;> simp [h]

theorem obstacle?_congr {s t : Sketch} {contours' : List (List (Vertex Float))}
    (hs : s.Reads contours run) (ht : t.Reads contours' run) :
    obstacle? ⟨s⟩ = obstacle? ⟨t⟩ := by
  have : s.isClosed = t.isClosed := by rw [Bool.eq_iff_iff, hs.isClosed_iff, ht.isClosed_iff]
  simp only [obstacle?, this]

theorem exists_accepts_of_free_open {strokes : List Stroke} (h : p.sketch.Reads contours run)
    (hstrokes : ∀ m ∈ strokes, Free m ∧ m.closes = false) :
    ∃ q, Pen.Accepts p strokes q ∧
      q.sketch.Reads contours (run ++ strokes.flatMap Stroke.vertices) := by
  induction strokes generalizing p run with
  | nil => exact ⟨p, rfl, by rwa [List.flatMap_nil, List.append_nil]⟩
  | cons m strokes ih =>
    obtain ⟨hfree, hcloses⟩ := hstrokes m List.mem_cons_self
    obtain ⟨p', hm, hp'⟩ := exists_mark_of_adds h (refusal?_of_free hfree run) hcloses
    obtain ⟨q, hq, hreads⟩ := ih hp' fun m hm => hstrokes m (List.mem_cons_of_mem _ hm)
    refine ⟨q, ⟨p', hm, hq⟩, ?_⟩
    rwa [List.append_assoc, ← List.flatMap_cons] at hreads

/-- A contour drawn with nothing open leaves what closing its circuit leaves. -/
theorem exists_accepts_circuit (h : p.sketch.Reads contours []) (contour : List (Vertex Float)) :
    ∃ q, Pen.Accepts p (Stroke.ofContour contour) q ∧
      q.sketch.Reads (contours ++ Sketch.closing (Contour.circuit contour)) [] := by
  obtain ⟨first, rest, heq, hrefusal, hcloses, hrest⟩ := Stroke.exists_ofContour_eq contour
  obtain ⟨p', hm, hp'⟩ := exists_mark_of_adds h hrefusal hcloses
  obtain ⟨q, hq, hreads⟩ := exists_accepts_of_free_open hp' hrest
  have hcircuit := Stroke.flatMap_vertices_ofContour contour
  have hclose : [Stroke.close].flatMap Stroke.vertices = [] := rfl
  rw [heq, List.flatMap_append, hclose, List.append_nil, List.flatMap_cons] at hcircuit
  rw [List.nil_append, hcircuit] at hreads
  have hlast : Pen.Accepts q [.close] ⟨q.sketch.closeRun⟩ := ⟨_, rfl, rfl⟩
  have haccepts : Pen.Accepts p (first :: rest) q := ⟨p', hm, hq⟩
  exact ⟨_, heq ▸ haccepts.append hlast, hreads.closeRun⟩

theorem accepts_ofContour (h : p.sketch.Reads contours []) (a : Affine)
    (contour : List (Vertex Float)) :
    ∃ q, Pen.Accepts p ((Stroke.ofContour contour).map (a • ·)) q ∧ q.obstacle? = none := by
  obtain ⟨q, hq, hreads⟩ := exists_accepts_circuit h (contour.map (a • ·))
  rw [Stroke.ofContour_map] at hq
  exact ⟨q, hq, obstacle?_eq_none_iff.2 (hreads.isClosed_iff.2 rfl)⟩

instance : OutlinePen StrokePen Stroke where
  Traces p contours run := p.sketch.Reads contours run
  ofContour := Stroke.ofContour
  script_glyph _ := rfl
  mapSketch_mapSketch _ _ _ := rfl
  reads_of_traces h := h
  traces_empty := Sketch.reads_empty
  traces_mapSketch _ hf _ := hf
  traces_mark := reads_mark
  mark_append := mark_append
  obstacle?_mapSketch h hf := obstacle?_congr hf h
  run_eq_nil h ho := h.isClosed_iff.1 (obstacle?_eq_none_iff.1 ho)
  obstacle?_empty := rfl
  mapSketch_of_obstacle _ _ := rfl
  mapSketch_id _ := rfl
  accepts_ofContour h _ := accepts_ofContour h

end GlyphDrawing.StrokePen
