import GlyphDrawing.Pen.PathPen
import GlyphDrawing.Proofs.Drawing.Circuit
import GlyphDrawing.Proofs.Pen.OutlinePen

/-!
# The path pen draws outlines

Outside a path, and in a path without points, there is no open run. A contour drawn as path steps
starts and stops its own path, and none of its points has a role that is refused, so a path pen
outside every path accepts it, adds it as it stands and is outside every path afterwards
(`exists_accepts_path`).
-/

namespace GlyphDrawing.PathPen

variable {p q : PathPen} {base : Sketch} {earlier contours : List (List (Vertex Float))}
  {run : List (Vertex Float)} {m : PathStep}

/-- The sketch reads as `contours` and `run`, and only a path with points has a run. -/
def Traces (p : PathPen) (contours : List (List (Vertex Float))) (run : List (Vertex Float)) :
    Prop :=
  p.sketch.Reads contours run ∧ (p.path.getD 0 = 0 → run = [])

/-- A step that is accepted, by what it does. -/
theorem mark_cases (h : p.mark m = (q, .ok ())) :
    (m = .start ∧ p.path = none ∧ q = ⟨p.sketch, some 0⟩) ∨
      (∃ v role smooth name count curve, m = .point v role smooth name ∧ p.path = some count ∧
        onCurve role = .ok curve ∧ q = ⟨p.sketch.addVertex v curve, some (count + 1)⟩) ∨
      (m = .stop ∧ p.path = some 0 ∧ q = ⟨p.sketch, none⟩) ∨
      ∃ count, m = .stop ∧ p.path = some (count + 1) ∧ q = ⟨p.sketch.endRun, none⟩ := by
  cases m with
  | start =>
    cases hp : p.path with
    | some count => simp [mark, hp] at h
    | none => exact .inl ⟨rfl, rfl, by simpa [mark, hp] using h.symm⟩
  | point v role smooth name =>
    cases hp : p.path with
    | none => simp [mark, hp] at h
    | some count =>
      cases hc : onCurve role with
      | error e => simp [mark, hp, hc] at h
      | ok curve =>
        refine .inr (.inl ⟨v, role, smooth, name, count, curve, rfl, rfl, hc, ?_⟩)
        simpa [mark, hp, hc] using h.symm
  | stop =>
    rcases hp : p.path with _ | _ | count
    · simp [mark, hp] at h
    · exact .inr (.inr (.inl ⟨rfl, rfl, by simpa [mark, hp] using h.symm⟩))
    · exact .inr (.inr (.inr ⟨count, rfl, rfl, by simpa [mark, hp] using h.symm⟩))

theorem traces_mark (h : p.Traces contours run) (hm : p.mark m = (q, .ok ())) :
    ∃ more run', q.Traces (contours ++ more) run' := by
  obtain ⟨hreads, hpath⟩ := h
  obtain ⟨-, hp, rfl⟩ | ⟨v, role, smooth, name, count, curve, -, hp, -, rfl⟩ | ⟨-, hp, rfl⟩ |
    ⟨count, -, hp, rfl⟩ := mark_cases hm
  · obtain rfl := hpath (by simp [hp])
    exact ⟨[], [], by rwa [List.append_nil], fun _ => rfl⟩
  · refine ⟨[], run ++ [⟨v, curve⟩], ?_, fun hzero => by simp at hzero⟩
    rw [List.append_nil]
    exact hreads.addVertex v curve
  · obtain rfl := hpath (by simp [hp])
    exact ⟨[], [], by rwa [List.append_nil], fun _ => rfl⟩
  · exact ⟨_, [], hreads.endRun, fun _ => rfl⟩

theorem mark_append (hb : base.Reads earlier []) (h : p.sketch.Reads contours run)
    (hm : p.mark m = (q, .ok ())) :
    mark ⟨base ++ p.sketch, p.path⟩ m = (⟨base ++ q.sketch, q.path⟩, .ok ()) := by
  obtain ⟨rfl, hp, rfl⟩ | ⟨v, role, smooth, name, count, curve, rfl, hp, hc, rfl⟩ |
    ⟨rfl, hp, rfl⟩ | ⟨count, rfl, hp, rfl⟩ := mark_cases hm
  · simp only [mark, hp]
  · simp only [mark, hp, hc, Sketch.append_addVertex]
  · simp only [mark, hp]
  · simp only [mark, hp, Sketch.append_endRun hb h]

theorem obstacle?_eq_none_iff : p.obstacle? = none ↔ p.path = none := by
  unfold obstacle?
  cases p.path <;> simp

theorem exists_accepts_points {count : Nat} (h : p.sketch.Reads contours run)
    (hp : p.path = some count) (afterCurve : Bool) (contour : List (Vertex Float)) :
    ∃ q, Pen.Accepts p (PathStep.points afterCurve contour) q ∧
      q.path = some (count + contour.length) ∧ q.sketch.Reads contours (run ++ contour) := by
  induction contour generalizing p run count afterCurve with
  | nil => exact ⟨p, rfl, hp, by rwa [List.append_nil]⟩
  | cons v contour ih =>
    -- a point is drawn as a control, or with the role of a line or of a quadratic segment
    have hrole : onCurve (if v.onCurve then some (if afterCurve then .line else .quadratic)
        else none) = .ok v.onCurve := by
      cases v.onCurve <;> cases afterCurve <;> rfl
    obtain ⟨q, hq, hpath, hreads⟩ :=
      ih (p := ⟨p.sketch.addVertex v.position v.onCurve, some (count + 1)⟩)
        (h.addVertex v.position v.onCurve) rfl v.onCurve
    refine ⟨q, ⟨_, ?_, hq⟩, ?_, ?_⟩
    · change mark p (.point v.position _ false none) = _
      simp only [mark, hp, hrole]
    · rw [hpath, List.length_cons, Nat.add_right_comm, Nat.add_assoc]
    · rwa [List.append_assoc] at hreads

/-- A contour drawn outside of paths is added as it stands, if it has points. -/
theorem exists_accepts_path (h : p.sketch.Reads contours []) (hp : p.path = none)
    (contour : List (Vertex Float)) :
    ∃ q, Pen.Accepts p (PathStep.ofContour contour) q ∧ q.path = none ∧
      q.sketch.Reads (contours ++ Sketch.ending contour) [] := by
  have hstart : p.mark .start = (⟨p.sketch, some 0⟩, .ok ()) := by simp only [mark, hp]
  obtain ⟨q, hq, hpath, hreads⟩ := exists_accepts_points (p := ⟨p.sketch, some 0⟩) h rfl
    ((contour.getLast?.map (·.onCurve)).getD false) contour
  rw [List.nil_append] at hreads
  rw [Nat.zero_add] at hpath
  have hstop : ∃ r, q.mark .stop = (r, .ok ()) ∧ r.path = none ∧
      r.sketch.Reads (contours ++ Sketch.ending contour) [] := by
    cases contour with
    | nil => exact ⟨_, by simp only [mark, hpath]; rfl, rfl, by simpa [Sketch.ending] using hreads⟩
    | cons v contour => exact ⟨_, by simp only [mark, hpath]; rfl, rfl, hreads.endRun⟩
  obtain ⟨r, hr, hnone, hended⟩ := hstop
  have hlast : Pen.Accepts q [.stop] r := ⟨r, hr, rfl⟩
  exact ⟨r, ⟨_, hstart, hq.append hlast⟩, hnone, hended⟩

theorem accepts_ofContour (h : p.sketch.Reads contours []) (hp : p.path = none) (a : Affine)
    (contour : List (Vertex Float)) :
    ∃ q, Pen.Accepts p ((PathStep.ofContour contour).map (a • ·)) q ∧ q.obstacle? = none := by
  obtain ⟨q, hq, hpath, -⟩ := exists_accepts_path h hp (contour.map (a • ·))
  rw [PathStep.ofContour_map] at hq
  exact ⟨q, hq, obstacle?_eq_none_iff.2 hpath⟩

instance : OutlinePen PathPen PathStep where
  Traces := Traces
  ofContour := PathStep.ofContour
  script_glyph _ := rfl
  mapSketch_mapSketch _ _ _ := rfl
  reads_of_traces h := h.1
  traces_empty := ⟨Sketch.reads_empty, fun _ => rfl⟩
  traces_mapSketch h hf hrun := by
    refine ⟨hf, fun hpath => ?_⟩
    rcases hrun with rfl | rfl
    · exact h.2 hpath
    · rfl
  traces_mark := traces_mark
  mark_append hb h hm := mark_append hb h.1 hm
  obstacle?_mapSketch _ _ := rfl
  run_eq_nil h ho := h.2 (by rw [obstacle?_eq_none_iff.1 ho]; rfl)
  obstacle?_empty := rfl
  mapSketch_of_obstacle f ho := by
    change PathPen.mk _ _ = PathPen.mk _ _
    rw [obstacle?_eq_none_iff.1 ho]
    rfl
  mapSketch_id _ := rfl
  accepts_ofContour h ho := accepts_ofContour h.1 (obstacle?_eq_none_iff.1 ho)

end GlyphDrawing.PathPen
