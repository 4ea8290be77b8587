import GlyphDrawing.Proofs.Drawing.Trail
import GlyphDrawing.Proofs.Pen.PathOutline
import GlyphDrawing.Proofs.Pen.StrokeOutline
import GlyphDrawing.Proofs.Session
import GlyphDrawing.Proofs.Sketch.Rows

/-!
# The course of a session

A pen is reached by requests, but it also goes through states while it answers one: after each call
of a drawing, and after each call of a glyph that is decomposed when another one is finished. What
every call and every clearing keeps holds in all these states (`Attained.invariant`). So the rows
of an outline pen fit together at all times, and contours are closed without leaving them
(`Attained.sketch_fits`).
-/

namespace GlyphDrawing

namespace Pen

section Course

variable {π Mark : Type} [Pen π Mark] [SMul Affine Mark]

/-- The pen `p` is `q` after one of the calls with which it answers the request. -/
inductive Passes (setting : Setting) (p : π) : Request Mark → π → Prop
  | drawing {d : Drawing Mark} {q : π} (h : q ∈ d.trail respond p) : Passes setting p (.draw d) q
  | decomposing {options : Options} {turns : List (Resolution.Turn π)} {a : Resolution π}
      {r : Reference} {source : Source} {q : π} (ho : obstacle? p = none)
      (hturns : (Resolution.start p).Turns (job setting options p) turns a)
      (hr : (pending a.pen)[a.next]? = some r)
      (hsource : a.outcome (job setting options p) r = .decomposed source)
      (h : q ∈ (Resolution.drawn π source r).trail respond a.pen) :
      Passes setting p (.finish options) q

/-- A session on a new pen leads to `q`, or through it. -/
def Attained (setting : Setting) (q : π) : Prop :=
  Reachable setting q ∨ ∃ p request, Reachable setting p ∧ Passes setting p request q

section Invariant

variable {P : π → Prop} (hcall : ∀ p c, P p → P (respond p c).1)

include hcall

theorem invariant_draw (p : π) (d : Drawing Mark) (hp : P p) : P (draw p d).1 :=
  d.run_invariant hcall hp

theorem invariant_finish (hempty : P empty) (hclear : ∀ p, P p → P (clear p)) (setting : Setting)
    (p : π) (options : Options) (hp : P p) : P (finish setting options p).pen := by
  cases ho : obstacle? p with
  | some e =>
    rw [finish_of_obstacle ho]
    exact hempty
  | none =>
    rw [finish_eq ho]
    exact hclear _ (resolved_invariant (fun _ _ _ q _ hq => invariant_draw hcall q _ hq) options hp)

theorem Passes.invariant {setting : Setting} {p q : π} {request : Request Mark}
    (h : Passes setting p request q) (hp : P p) : P q := by
  cases h with
  | drawing hq => exact Drawing.trail_invariant hcall _ hp q hq
  | decomposing ho hturns hr hsource hq =>
    refine Drawing.trail_invariant hcall _ ?_ q hq
    refine hturns.invariant (P := fun a => P a.pen) hp fun a r b ha _ hb => ?_
    obtain ⟨-, rfl⟩ | ⟨-, rfl⟩ | ⟨source, -, hb⟩ | ⟨-, rfl⟩ := Resolution.step_cases hb
    · exact ha
    · exact ha
    · rw [Resolution.decompose_eq] at hb
      rw [← (Prod.mk.inj hb).1]
      exact invariant_draw hcall a.pen _ ha
    · exact ha

theorem Attained.invariant {setting : Setting} {q : π} (h : Attained setting q) (hempty : P empty)
    (hclear : ∀ p, P p → P (clear p)) : P q := by
  have hreachable : ∀ p : π, Reachable setting p → P p := by
    rintro p ⟨requests, rfl⟩
    exact session_invariant (invariant_draw hcall) (invariant_finish hcall hempty hclear setting)
      hempty requests
  rcases h with hq | ⟨p, request, hp, hq⟩
  · exact hreachable q hq
  · exact hq.invariant hcall (hreachable p hp)

end Invariant

end Course

section Outline

variable {π Mark : Type} [SMul Affine Mark] [OutlinePen π Mark]

theorem Attained.exists_traces {setting : Setting} {q : π} (h : Attained setting q) :
    ∃ contours run, OutlinePen.Traces q contours run := by
  refine h.invariant (P := fun q : π => ∃ contours run, OutlinePen.Traces q contours run)
    (fun p c hp => OutlinePen.exists_traces_draw hp (.call c)) ⟨[], [], OutlinePen.traces_empty⟩
    fun p hp => ?_
  obtain ⟨contours, run, hp⟩ := hp
  exact ⟨[], [], OutlinePen.traces_clear hp⟩

/-- At any time, whatever has been drawn, refused, gone on with or decomposed: flags and positions
are as many, the ends fit them, closing or ending the open run leaves no row, and every contour has
a vertex. -/
theorem Attained.sketch_fits {setting : Setting} {q : π} (h : Attained setting q) :
    (sketch q).rows.flags.size = (sketch q).rows.positions.size ∧
      (sketch q).Fits ∧
      (sketch q).rows.closeRun? = some (sketch q).closeRun.rows ∧
      (sketch q).rows.endRun? = some (sketch q).endRun.rows ∧
      (sketch q).contours.length = (sketch q).ends.size ∧
      ∀ contour ∈ (sketch q).contours, contour ≠ [] := by
  obtain ⟨contours, run, htraces⟩ := h.exists_traces
  have hreads := OutlinePen.reads_of_traces htraces
  rw [hreads.contours_eq, hreads.size_ends]
  refine ⟨?_, hreads.fits, Sketch.closeRun?_rows hreads, Sketch.endRun?_rows hreads, rfl,
    hreads.nonempty⟩
  rw [Sketch.size_flags_rows, Sketch.size_positions_rows]

end Outline

section Wild

def wild : Source :=
  .custom
    (.attempt (.ofMarks [.move ⟨0, 0⟩, .move ⟨1, 1⟩]) .done (.ofMarks [.line ⟨2, 0⟩, .close]))
    (.attempt (.ofMarks [.start, .point ⟨5, 5⟩ none false none, .start]) .done
      (.ofMarks [.start, .point ⟨7, 7⟩ none false none, .stop]))

def wildSetting : Setting where
  repertoire := (∅ : Repertoire).insert "wild" wild

def wildStrokes : StrokePen :=
  (session wildSetting empty [
    .draw (.ofMarks [.move ⟨0, 0⟩, .line ⟨4, 0⟩, .line ⟨0, 4⟩, .close]),
    .draw (.ofReferences [⟨"wild", .identity⟩])]).1

def wildSteps : PathPen :=
  (session wildSetting empty [
    .draw (.ofMarks [.start, .point ⟨3, 3⟩ (some .line) false none, .stop]),
    .draw (.ofReferences [⟨"wild", .identity⟩])]).1

def strayLine : StrokePen :=
  ⟨⟨#[⟨⟨2, 0⟩, true⟩], #[], #[]⟩⟩

def strayPath : PathPen :=
  ⟨⟨#[⟨⟨7, 7⟩, false⟩], #[0], #[]⟩, none⟩

theorem attained_strayLine : Attained wildSetting strayLine := by
  have hsource : (Resolution.start wildStrokes).outcome (job wildSetting {} wildStrokes)
      ⟨"wild", .identity⟩ = .decomposed wild :=
    Resolution.outcome_eq_decomposed_iff.2 ⟨rfl, .inl (by decide +kernel), by decide +kernel⟩
  have hmem : strayLine ∈
      (Resolution.drawn StrokePen wild ⟨"wild", .identity⟩).trail respond wildStrokes :=
    List.mem_of_getElem? (i := 2) (by decide +kernel)
  exact .inr ⟨wildStrokes, .finish {}, ⟨_, rfl⟩,
    .decomposing rfl .refl (by decide +kernel) hsource hmem⟩

theorem attained_strayPath : Attained wildSetting strayPath := by
  have hsource : (Resolution.start wildSteps).outcome (job wildSetting {} wildSteps)
      ⟨"wild", .identity⟩ = .decomposed wild :=
    Resolution.outcome_eq_decomposed_iff.2 ⟨rfl, .inl (by decide +kernel), by decide +kernel⟩
  have hmem : strayPath ∈
      (Resolution.drawn PathPen wild ⟨"wild", .identity⟩).trail respond wildSteps :=
    List.mem_of_getElem? (i := 5) (by decide +kernel)
  exact .inr ⟨wildSteps, .finish {}, ⟨_, rfl⟩,
    .decomposing rfl .refl (by decide +kernel) hsource hmem⟩

/-- In the course of a decomposition a stroke pen has a vertex and no end; closing drops the vertex
and looks no further. -/
theorem sketch_fits_wild :
    (Attained wildSetting strayLine ∧ strayLine.sketch.Fits ∧
      strayLine.sketch.rows.closeRun? = some ⟨#[], #[], #[]⟩) ∧
    Attained wildSetting strayPath ∧ strayPath.sketch.Fits ∧
      ∀ contour ∈ strayPath.sketch.contours, contour ≠ [] := by
  obtain ⟨-, hline, hclose, -⟩ := attained_strayLine.sketch_fits
  obtain ⟨-, hpath, -, -, -, hcontours⟩ := attained_strayPath.sketch_fits
  have hrows : strayLine.sketch.closeRun.rows = ⟨#[], #[], #[]⟩ := by
    decide +kernel
  rw [← hrows]
  exact ⟨⟨attained_strayLine, hline, hclose⟩, attained_strayPath, hpath, hcontours⟩

end Wild

end Pen

end GlyphDrawing
