import GlyphDrawing.Proofs.Pen.Redraw
import GlyphDrawing.Proofs.Pen.StrokeHistory

/-!
# Drawing a finished outline again

A run is closed when it is drawn, and its contour once more when the finished outline is drawn
again. Each closing takes one vertex away at most. So a run that has come back to its start twice
is finished as a contour from which the second closing still takes something, and the outline is
drawn again as it is exactly if no run has done so (`redraw_finished_iff`).
-/

namespace GlyphDrawing

theorem filter_map_eq_self_iff {α : Type} {p : α → Bool} {f : α → α} {l : List α} :
    (l.filter p).map f = l ↔ ∀ x ∈ l, p x = true ∧ f x = x := by
  constructor
  · intro h
    have hlength := congrArg List.length h
    rw [List.length_map] at hlength
    have hall := List.length_filter_eq_length_iff.1 hlength
    rw [List.filter_eq_self.2 hall] at h
    have hfixed : l.map f = l.map id := h.trans (List.map_id l).symm
    exact fun x hx => ⟨hall x hx, List.map_inj_left.1 hfixed x hx⟩
  · intro h
    rw [List.filter_eq_self.2 fun x hx => (h x hx).1]
    exact (List.map_congr_left fun x hx => (h x hx).2).trans (List.map_id l)

section Whole

/-- Equal doubles round to the same integer: only zeros are equal without being the same. -/
theorem roundToInt32_of_beq {x y : Float} (h : (x == y) = true) :
    roundToInt32 x = roundToInt32 y := by
  obtain ⟨-, -, rfl | ⟨rfl, rfl⟩ | ⟨rfl, rfl⟩⟩ := Float.beq_iff_ne_nan_and_eq.1 h
  · rfl
  · rfl
  · rfl

theorem beq_of_beq_toDouble {x y : Float} {a b : Int32} (hx : (x == toDouble a) = true)
    (hy : (y == toDouble b) = true) : (x == y) = decide (a = b) := by
  rw [← toDouble_beq_toDouble, Bool.eq_iff_iff]
  rw [Float.beq_iff_ne_nan_and_eq] at hx hy ⊢
  rw [Float.beq_iff_ne_nan_and_eq]
  grind

namespace Vertex

def Whole (v : Vertex Float) : Prop :=
  ∃ p : Point Int32, (v.position == p.map GlyphDrawing.toDouble) = true

variable {v w : Vertex Float}

theorem Whole.beq_round (h : v.Whole) :
    (v.position.x == GlyphDrawing.toDouble v.round.position.x) = true ∧
      (v.position.y == GlyphDrawing.toDouble v.round.position.y) = true := by
  obtain ⟨p, hp⟩ := h
  obtain ⟨hx, hy⟩ : (v.position.x == GlyphDrawing.toDouble p.x) = true ∧
      (v.position.y == GlyphDrawing.toDouble p.y) = true := Bool.and_eq_true_iff.1 hp
  have hroundx : v.round.position.x = p.x :=
    (roundToInt32_of_beq hx).trans (roundToInt32_toDouble p.x)
  have hroundy : v.round.position.y = p.y :=
    (roundToInt32_of_beq hy).trans (roundToInt32_toDouble p.y)
  rw [hroundx, hroundy]
  exact ⟨hx, hy⟩

instance (v : Vertex Float) : Decidable v.Whole :=
  decidable_of_iff ((v.position == v.round.position.map GlyphDrawing.toDouble) = true)
    ⟨fun h => ⟨_, h⟩, fun h => Bool.and_eq_true_iff.2 h.beq_round⟩

/-- Whole vertices are in one place as doubles if their rounded vertices are. -/
theorem Whole.position_beq (hv : v.Whole) (hw : w.Whole) :
    (v.position == w.position) = decide (v.round.position = w.round.position) := by
  obtain ⟨hvx, hvy⟩ := hv.beq_round
  obtain ⟨hwx, hwy⟩ := hw.beq_round
  change (v.position.x == w.position.x && v.position.y == w.position.y) = _
  rw [beq_of_beq_toDouble hvx hwx, beq_of_beq_toDouble hvy hwy, ← Bool.decide_and]
  exact decide_eq_decide.2 (by rw [Point.mk.injEq])

end Vertex

end Whole

namespace Contour

/-- Closing the contour takes a vertex away when it is drawn again. -/
def Returns (contour : List (Vertex Int32)) : Prop :=
  endsInControl contour = false ∧
    contour.head?.map (·.position) = contour.getLast?.map (·.position)

theorem returns_of_length_le_one {contour : List (Vertex Int32)} (h : contour.length ≤ 1) :
    Returns contour := by
  refine ⟨endsInControl_of_length_le_one h, ?_⟩
  match contour with
  | [] | [v] => rfl

theorem normal_eq_self_iff {contour : List (Vertex Int32)} (hne : contour ≠ [])
    (hstarts : contour.head?.any (·.onCurve) = true ∨ ∀ v ∈ contour, v.onCurve = false) :
    normal contour = contour ↔ ¬ Returns contour := by
  refine ⟨fun h hreturns => ?_, normal_eq_self hstarts⟩
  have hdropped : normal contour = contour.dropLast := by
    rw [normal, fromCurve_of_starts hstarts]
    exact if_pos hreturns
  have hlength := congrArg List.length (hdropped.symm.trans h)
  have hpos := List.length_pos_iff.2 hne
  rw [List.length_dropLast] at hlength
  omega

end Contour

namespace Sketch

/-- The run comes back to its start, and without its last vertex it does so again. -/
def ReturnsTwice (run : List (Vertex Float)) : Prop :=
  2 ≤ run.length ∧ (run.head?.map (·.position) == run.getLast?.map (·.position)) = true ∧
    Contour.endsInControl run.dropLast = false ∧
      (run.dropLast.head?.map (·.position) == run.dropLast.getLast?.map (·.position)) = true

instance (run : List (Vertex Float)) : Decidable (ReturnsTwice run) :=
  inferInstanceAs (Decidable (_ ∧ _))

theorem head_beq_last {run : List (Vertex Float)} (hwhole : ∀ v ∈ run, v.Whole) :
    (run.head?.map (·.position) == run.getLast?.map (·.position)) =
      decide ((run.map Vertex.round).head?.map (·.position) =
        (run.map Vertex.round).getLast?.map (·.position)) := by
  rw [List.head?_map, List.getLast?_map]
  cases run with
  | nil => rfl
  | cons first rest =>
    rw [List.head?_cons, List.getLast?_eq_some_getLast (List.cons_ne_nil first rest)]
    have h := (hwhole first List.mem_cons_self).position_beq
      (hwhole _ (List.getLast_mem (List.cons_ne_nil first rest)))
    exact h.trans (decide_eq_decide.2 Option.some_inj.symm)

/-- What closing makes of a whole run stays as it is when it is closed again, unless the run
returns twice. -/
theorem closing_stays_iff {run : List (Vertex Float)} (hwhole : ∀ v ∈ run, v.Whole) :
    (∀ contour ∈ closing run, ¬ Contour.Returns (contour.map Vertex.round)) ↔
      ¬ ReturnsTwice run := by
  have hround (v : Vertex Float) : v.round.onCurve = v.onCurve := rfl
  have hfront := head_beq_last fun v hv => hwhole v (List.mem_of_mem_dropLast hv)
  rw [closing, ReturnsTwice, hfront, decide_eq_true_iff, ← Contour.endsInControl_map hround,
    ← Contour.Returns]
  split_ifs with hshort hsame
  · exact iff_of_true (fun _ h => absurd h List.not_mem_nil) fun h => by omega
  · rw [List.forall_mem_singleton, not_congr]
    exact ⟨fun h => ⟨by omega, hsame, h⟩, fun h => h.2.2⟩
  · refine iff_of_true ?_ fun h => hsame h.2.1
    rw [head_beq_last hwhole, decide_eq_true_iff] at hsame
    exact List.forall_mem_singleton.2 fun h => hsame h.2

theorem starts_of_mem_closing {run contour : List (Vertex Float)}
    (hstarts : run.head?.any (·.onCurve) = true ∨ ∀ v ∈ run, v.onCurve = false)
    (h : contour ∈ closing run) :
    contour.head?.any (·.onCurve) = true ∨ ∀ v ∈ contour, v.onCurve = false := by
  rw [closing] at h
  split_ifs at h with hshort hsame
  · cases h
  · obtain rfl := List.mem_singleton.1 h
    refine hstarts.imp (fun hhead => ?_) fun hcontrols v hv =>
      hcontrols v (List.mem_of_mem_dropLast hv)
    rwa [List.head?_dropLast, if_pos (by omega)]
  · rwa [List.mem_singleton.1 h]

end Sketch

namespace Outline

theorem ofContours_eq_join (contours : List (List (Vertex Float))) :
    ofContours contours = join (contours.map (·.map Vertex.round)) := by
  rw [ofContours, join, lastIndices_map, ← List.map_flatten, List.map_map, List.map_map]
  rfl

theorem join_inj {contours contours' : List (List (Vertex Int32))} (h : ∀ c ∈ contours, c ≠ [])
    (h' : ∀ c ∈ contours', c ≠ []) : join contours = join contours' ↔ contours = contours' := by
  refine ⟨fun heq => ?_, congrArg join⟩
  rw [← contours_join h, heq, contours_join h']

/-- An outline whose contours start on the curve is drawn again as it is if none of them
returns. -/
theorem join_normalContours_eq_iff {contours : List (List (Vertex Int32))}
    (hne : ∀ c ∈ contours, c ≠ [])
    (hstarts : ∀ c ∈ contours,
      c.head?.any (·.onCurve) = true ∨ ∀ v ∈ c, v.onCurve = false) :
    join (join contours).normalContours = join contours ↔ ∀ c ∈ contours, ¬ Contour.Returns c := by
  have hnormal : ∀ c ∈ (join contours).normalContours, c ≠ [] := by
    intro c hc
    obtain ⟨contour, hcontour, rfl⟩ := List.mem_map.1 hc
    exact Contour.normal_ne_nil (by simpa using (List.mem_filter.1 hcontour).2)
  rw [join_inj hnormal hne, normalContours, contours_join hne, filter_map_eq_self_iff]
  refine forall₂_congr fun c hc => ?_
  rw [Contour.normal_eq_self_iff (hne c hc) (hstarts c hc)]
  refine ⟨And.right, fun h => ⟨?_, h⟩⟩
  have hlong : ¬ c.length ≤ 1 := fun hshort => h (Contour.returns_of_length_le_one hshort)
  exact decide_eq_true (by omega)

/-- The outline of closed runs is drawn again as it is if no run returns twice. -/
theorem join_closing_iff {runs : List (List (Vertex Float))}
    (hne : ∀ contour ∈ runs.flatMap Sketch.closing, contour ≠ [])
    (hstarts : ∀ run ∈ runs, run.head?.any (·.onCurve) = true ∨ ∀ v ∈ run, v.onCurve = false)
    (hwhole : ∀ run ∈ runs, ∀ v ∈ run, v.Whole) :
    join (ofContours (runs.flatMap Sketch.closing)).normalContours =
        ofContours (runs.flatMap Sketch.closing) ↔
      ∀ run ∈ runs, ¬ Sketch.ReturnsTwice run := by
  have hstarts' : ∀ contour ∈ runs.flatMap Sketch.closing,
      (contour.map Vertex.round).head?.any (·.onCurve) = true ∨
        ∀ v ∈ contour.map Vertex.round, v.onCurve = false := by
    intro contour hcontour
    obtain ⟨run, hrun, hclosing⟩ := List.mem_flatMap.1 hcontour
    have h := Sketch.starts_of_mem_closing (hstarts run hrun) hclosing
    rw [List.head?_map, Option.any_map, List.forall_mem_map]
    exact h
  have hne' : ∀ contour ∈ runs.flatMap Sketch.closing, contour.map Vertex.round ≠ [] :=
    fun contour h => List.map_eq_nil_iff.not.2 (hne contour h)
  rw [ofContours_eq_join, join_normalContours_eq_iff (List.forall_mem_map.2 hne')
    (List.forall_mem_map.2 hstarts'), List.forall_mem_map, List.forall_mem_flatMap]
  exact forall₂_congr fun run hrun => Sketch.closing_stays_iff (hwhole run hrun)

end Outline

namespace StrokePen

open Pen

/-- Whatever whole vertices are drawn, in contours that start on the curve or have no vertex on
it: a glyph that is finished without components can be drawn again, and becomes itself again
exactly if no run has returned twice. -/
theorem redraw_finished_iff (setting again : Setting) (options options' : Options)
    (calls : List (Call Stroke)) (hpending : pending (afterCalls setting calls) = #[])
    (hstarts : ∀ run ∈ closedRuns (standing calls),
      run.head?.any (·.onCurve) = true ∨ ∀ v ∈ run, v.onCurve = false)
    (hwhole : ∀ run ∈ closedRuns (standing calls), ∀ v ∈ run, v.Whole) {o : Outline}
    (ho : (finish setting options (afterCalls setting calls)).result = .ok (.simple o)) :
    ∃ o', (session again (Pen.empty : StrokePen) [.draw (Glyph.simple o).strokes,
        .finish options']).2 = [.drawn (.ok ()), .finished #[] (.ok (.simple o'))] ∧
      (o' = o ↔ ∀ run ∈ closedRuns (standing calls), ¬ Sketch.ReturnsTwice run) := by
  have hrecords := records_afterCalls setting calls
  have hobstacle := hrecords.obstacle?_eq
  by_cases hrun : openRun (standing calls) = []
  · rw [if_pos hrun] at hobstacle
    rw [finish_of_pending_eq_empty hobstacle hpending] at ho
    obtain rfl := (hrecords.outline_eq hrun).symm.trans (Glyph.simple.inj (Except.ok.inj ho))
    obtain ⟨q, hdraw, hq, hnone, hdrawn⟩ := draw_strokes_eq
      (.ofContours ((closedRuns (standing calls)).flatMap Sketch.closing))
    refine ⟨_, ?_, Outline.join_closing_iff hrecords.reads.nonempty hstarts hwhole⟩
    simp only [session, answer, hdraw, finish_of_pending_eq_empty hq hnone, hdrawn]
  · rw [if_neg hrun] at hobstacle
    rw [finish_of_obstacle hobstacle] at ho
    cases ho

def spur : List (Call Stroke) :=
  [.mark (.move ⟨0, 0⟩), .mark (.line ⟨0, 0⟩), .mark .close]

def hook : List (Call Stroke) :=
  [.mark (.move ⟨0, 0⟩), .mark (.line ⟨4, 0⟩), .mark (.line ⟨0, 0⟩), .mark (.line ⟨0, 0⟩),
    .mark .finish]

def pennant : List (Call Stroke) :=
  [.mark (.move ⟨0, -0⟩), .mark (.line ⟨4, 0⟩), .mark (.line ⟨0, 4⟩), .mark (.line ⟨-0, 0⟩),
    .mark .close, .mark (.quadratic #[⟨1, 2⟩, ⟨3, 4⟩] none), .mark .finish]

theorem finish_afterCalls {calls : List (Call Stroke)} {o : Outline}
    (hobstacle : Pen.obstacle? (afterCalls ⟨∅, true⟩ calls) = none)
    (hpending : pending (afterCalls ⟨∅, true⟩ calls) = #[])
    (ho : (sketch (afterCalls ⟨∅, true⟩ calls)).outline = o) :
    (finish ⟨∅, true⟩ {} (afterCalls ⟨∅, true⟩ calls)).result = .ok (.simple o) := by
  rw [finish_of_pending_eq_empty hobstacle hpending, ← ho]
  rfl

theorem finish_spur :
    (finish ⟨∅, true⟩ {} (afterCalls ⟨∅, true⟩ spur)).result =
      .ok (.simple ⟨#[⟨0, 0⟩], #[true], #[0], #[]⟩) :=
  finish_afterCalls (by decide +kernel) (by decide +kernel) (by decide +kernel)

/-- No stroke is refused, the contour begins with a move and all coordinates are integers; the
contour of one point that it is finished as is lost when it is drawn again. -/
theorem spur_lost :
    standing spur = spur ∧ (∀ run ∈ closedRuns spur, ∀ v ∈ run, v.Whole) ∧
      (finish ⟨∅, true⟩ {} (afterCalls ⟨∅, true⟩ spur)).result =
        .ok (.simple ⟨#[⟨0, 0⟩], #[true], #[0], #[]⟩) ∧
      (session ⟨∅, true⟩ (Pen.empty : StrokePen)
        [.draw (Glyph.simple ⟨#[⟨0, 0⟩], #[true], #[0], #[]⟩).strokes, .finish {}]).2 =
          [.drawn (.ok ()), .finished #[] (.ok (.simple .empty))] := by
  refine ⟨by decide +kernel, by decide +kernel, finish_spur, ?_⟩
  obtain ⟨q, hdraw, hq, hnone, hdrawn⟩ := draw_strokes_eq ⟨#[⟨0, 0⟩], #[true], #[0], #[]⟩
  have hempty : Outline.join (Outline.normalContours ⟨#[⟨0, 0⟩], #[true], #[0], #[]⟩) = .empty := by
    decide +kernel
  simp only [session, answer, hdraw, finish_of_pending_eq_empty hq hnone, hdrawn, hempty]

/-- The hook loses a point, and the pennant stays. -/
theorem redraw_hook_pennant :
    (∃ o', (session ⟨∅, true⟩ (Pen.empty : StrokePen)
        [.draw (Glyph.simple ⟨#[⟨0, 0⟩, ⟨4, 0⟩, ⟨0, 0⟩], #[true, true, true], #[2], #[]⟩).strokes,
          .finish {}]).2 = [.drawn (.ok ()), .finished #[] (.ok (.simple o'))] ∧
        o' ≠ ⟨#[⟨0, 0⟩, ⟨4, 0⟩, ⟨0, 0⟩], #[true, true, true], #[2], #[]⟩) ∧
      ∃ o, (finish ⟨∅, true⟩ {} (afterCalls ⟨∅, true⟩ pennant)).result = .ok (.simple o) ∧
        (session ⟨∅, true⟩ (Pen.empty : StrokePen) [.draw (Glyph.simple o).strokes,
          .finish {}]).2 = [.drawn (.ok ()), .finished #[] (.ok (.simple o))] := by
  have hhook : (finish ⟨∅, true⟩ {} (afterCalls ⟨∅, true⟩ hook)).result =
      .ok (.simple ⟨#[⟨0, 0⟩, ⟨4, 0⟩, ⟨0, 0⟩], #[true, true, true], #[2], #[]⟩) :=
    finish_afterCalls (by decide +kernel) (by decide +kernel) (by decide +kernel)
  have hpennant : (finish ⟨∅, true⟩ {} (afterCalls ⟨∅, true⟩ pennant)).result =
      .ok (.simple (sketch (afterCalls ⟨∅, true⟩ pennant)).outline) :=
    finish_afterCalls (by decide +kernel) (by decide +kernel) rfl
  obtain ⟨o', hagain, hsame⟩ := redraw_finished_iff _ ⟨∅, true⟩ {} {} hook (by decide +kernel)
    (by decide +kernel) (by decide +kernel) hhook
  refine ⟨⟨o', hagain, hsame.not.2 (by decide +kernel)⟩, ?_⟩
  obtain ⟨o', hagain, hsame⟩ := redraw_finished_iff _ ⟨∅, true⟩ {} {} pennant (by decide +kernel)
    (by decide +kernel) (by decide +kernel) hpennant
  obtain rfl := hsame.2 (by decide +kernel)
  exact ⟨_, hpennant, hagain⟩

end StrokePen

end GlyphDrawing
