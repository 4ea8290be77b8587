import GlyphDrawing.Proofs.Pen.Redraw
import GlyphDrawing.Proofs.Resolution.Kept
import GlyphDrawing.Proofs.Session
import GlyphDrawing.Proofs.Sketch.Rows

/-!
# Open ends of members

A pen is asked for an obstacle before its references are resolved and not again, and a member that
is decomposed may leave a run open. Then the finished outline has points that belong to no contour;
otherwise its contours are all of it (`finished_outline`). Members that are glyphs leave nothing
open.
-/

namespace GlyphDrawing

namespace Sketch

variable {s : Sketch} {contours : List (List (Vertex Float))} {run : List (Vertex Float)}

theorem vertices_outline (s : Sketch) :
    s.outline.vertices = s.vertices.toList.map Vertex.round := by
  simp only [Outline.vertices, outline, Array.toList_map, List.zipWith_map, List.zipWith_self]
  rfl

theorem Reads.contours_outline (h : s.Reads contours run) :
    s.outline.contours = contours.map (·.map Vertex.round) := by
  have hne : ∀ contour ∈ contours.map (·.map Vertex.round), contour ≠ [] := by
    simpa using h.nonempty
  have hcut := Outline.cut_lastIndices hne 0 (run.map Vertex.round)
  rw [← List.map_flatten, ← List.map_append, lastIndices_map, Nat.zero_add, ← List.length_append,
    ← List.map_append, ← h.vertices, ← h.ends] at hcut
  rw [Outline.contours, vertices_outline]
  exact hcut

theorem Reads.wellFormed_outline_iff (h : s.Reads contours run) :
    s.outline.WellFormed ↔ run = [] := by
  have hcovers : (s.outline.ends.back?.map (· + 1)).getD 0 = contours.flatten.length := by
    rw [show s.outline.ends = s.ends from rfl, h.back?_ends]
    by_cases hne : contours = []
    · rw [if_pos hne, hne]
      rfl
    · have := List.length_pos_iff.2 (h.flatten_ne_nil hne)
      rw [if_neg hne, Option.map_some, Option.getD_some]
      omega
  have hsize : s.outline.points.size = contours.flatten.length + run.length := by
    rw [← h.size_eq]
    exact Array.size_map
  rw [← List.length_eq_zero_iff]
  constructor
  · intro hformed
    have := hformed.covers
    omega
  · intro hrun
    exact ⟨by simp [outline], h.fits.increasing, by omega⟩

end Sketch

namespace Repertoire

/-- Every member that is drawn on a pen without obstacle leaves a pen without obstacle, also if the
drawing fails. -/
def LeavesNothingOpen (π : Type) {Mark : Type} [SMul Affine Mark] [OutlinePen π Mark]
    (repertoire : Repertoire) : Prop :=
  repertoire.All fun source => ∀ (r : Reference) (p : π) (contours : List (List (Vertex Float))),
    OutlinePen.Traces p contours [] → Pen.obstacle? p = none →
      Pen.obstacle? (Pen.draw p (Resolution.drawn π source r)).1 = none

theorem OfGlyphs.leavesNothingOpen {repertoire : Repertoire} (h : repertoire.OfGlyphs) (π : Type)
    {Mark : Type} [SMul Affine Mark] [OutlinePen π Mark] : repertoire.LeavesNothingOpen π := by
  refine h.mono fun source hsource r p contours hp ho => ?_
  obtain ⟨g, rfl⟩ := hsource
  obtain ⟨q, more, hdraw, hq, -⟩ := OutlinePen.exists_draw_glyph hp ho r.placement g
  rw [Resolution.drawn, hdraw]
  exact hq

end Repertoire

namespace Pen

variable {π Mark : Type} [SMul Affine Mark] [OutlinePen π Mark] {setting : Setting} {p : π}

theorem obstacle?_resolved (hmembers : setting.repertoire.LeavesNothingOpen π)
    (hp : ∃ contours run, OutlinePen.Traces p contours run) (ho : obstacle? p = none)
    (options : Options) : obstacle? (resolved setting options p).1.pen = none := by
  obtain ⟨contours, run, hp⟩ := hp
  refine (resolved_invariant
    (P := fun q : π => obstacle? q = none ∧ ∃ contours, OutlinePen.Traces q contours [])
    (fun name source hsource q r => ?_) options
    ⟨ho, contours, OutlinePen.traces_of_obstacle hp ho⟩).1
  rintro ⟨hq, contours, htraces⟩
  have hq' := hmembers name source hsource r q contours htraces hq
  obtain ⟨contours', run', htraces'⟩ := OutlinePen.exists_traces_draw ⟨contours, [], htraces⟩
    (Resolution.drawn π source r)
  exact ⟨hq', contours', OutlinePen.traces_of_obstacle htraces' hq'⟩

theorem outline_of_finish {options : Options} {o : Outline}
    (h : (finish setting options p).result = .ok (.simple o)) :
    obstacle? p = none ∧ (sketch (resolved setting options p).1.pen).outline = o := by
  cases ho : obstacle? p with
  | some e =>
    rw [finish_of_obstacle ho] at h
    cases h
  | none =>
    refine ⟨rfl, ?_⟩
    rw [finish_eq ho] at h
    cases hreply : (resolved setting options p).2 with
    | error e => simp [hreply, Except.map] at h
    | ok =>
      simp only [hreply, Except.map, Except.ok.injEq] at h
      split at h
      · exact Glyph.simple.inj h
      · cases h

/-- Whatever a pen has been asked for before: an open run of its own keeps the glyph from being
finished. Every outline that is finished has a flag for each point and a contour for each end, and
its contours are its points from the first one on; they are all of its points exactly if the
members that were decomposed have left no run open. -/
theorem Reachable.finished_outline (hp : Reachable setting p) (options : Options) :
    (∀ e, obstacle? p = some e → (finish setting options p).result = .error e) ∧
      ∀ o, (finish setting options p).result = .ok (.simple o) →
        o.onCurve.size = o.points.size ∧ o.ends.toList.Pairwise (· < ·) ∧
        o.contours.length = o.ends.size ∧ o.contours.flatten <+: o.vertices ∧
        (o.WellFormed ↔ o.contours.flatten = o.vertices) ∧
        (o.WellFormed ↔ (sketch (resolved setting options p).1.pen).isClosed = true) ∧
        (setting.repertoire.LeavesNothingOpen π → o.WellFormed) := by
  refine ⟨fun e he => by rw [finish_of_obstacle he], fun o ho => ?_⟩
  obtain ⟨hobstacle, rfl⟩ := outline_of_finish ho
  obtain ⟨contours, run, htraces⟩ :=
    OutlinePen.exists_traces_resolved setting options hp.exists_traces
  have hreads := OutlinePen.reads_of_traces htraces
  have hvertices : (sketch (resolved setting options p).1.pen).outline.vertices =
      (contours.flatten ++ run).map Vertex.round := by
    rw [Sketch.vertices_outline, hreads.vertices]
  rw [hreads.wellFormed_outline_iff, hreads.isClosed_iff, hreads.contours_outline, hvertices,
    ← List.map_flatten, List.map_append]
  refine ⟨by simp [Sketch.outline], hreads.fits.increasing, ?_, List.prefix_append _ _, ?_, Iff.rfl,
    fun hmembers => ?_⟩
  · rw [List.length_map]
    exact hreads.size_ends.symm
  · rw [List.self_eq_append_right, List.map_eq_nil_iff]
  · exact OutlinePen.run_eq_nil htraces
      (obstacle?_resolved hmembers hp.exists_traces hobstacle options)

/-- A single reference whose glyph is drawn, and places no components. -/
theorem finish_of_single {options : Options} {r : Reference} {source : Source}
    (ho : obstacle? p = none) (hpending : pending p = #[r])
    (hvertices : (sketch p).vertices ≠ #[])
    (hsource : setting.repertoire[r.name]? = some source)
    (hlast : (pending (draw p (Resolution.drawn π source r)).1)[1]? = none) :
    finish setting options p =
      ⟨clear (draw p (Resolution.drawn π source r)).1, #[.decomposing r.name],
        (draw p (Resolution.drawn π source r)).2.map fun _ =>
          .simple (sketch (draw p (Resolution.drawn π source r)).1).outline⟩ := by
  have hr : (pending (Resolution.start p).pen)[(Resolution.start p).next]? = some r := by
    rw [show pending (Resolution.start p).pen = #[r] from hpending]
    rfl
  have hdecomposed : (Resolution.start p).outcome (job setting options p) r =
      .decomposed source := Resolution.outcome_start_eq_decomposed hsource hvertices
  have hstep := (Resolution.step_of_decomposed hdecomposed).trans
    (Resolution.decompose_eq (Resolution.start p) source r)
  have hrun : resolved setting options p =
      (Resolution.start p).step (job setting options p) r := by
    rw [resolved]
    cases hreply : (draw p (Resolution.drawn π source r)).2 with
    | ok =>
      rw [Resolution.run_of_step_ok hr (hstep.trans (Prod.ext rfl hreply)), hstep,
        Resolution.run_of_none hlast]
      exact Prod.ext rfl hreply.symm
    | error e =>
      rw [Resolution.run_of_step_error hr (hstep.trans (Prod.ext rfl hreply)), hstep]
      exact Prod.ext rfl hreply.symm
  rw [finish_eq ho, hrun, hstep]
  rfl

section Spike

def spike : Source :=
  .custom (.ofMarks [.move ⟨0, 0⟩, .line ⟨9, 0⟩])
    (.ofMarks [.start, .point ⟨0, 0⟩ (some .line) false none,
      .point ⟨9, 0⟩ (some .line) false none])

def spikeSetting : Setting where
  repertoire := (∅ : Repertoire).insert "spike" spike

def spikedStrokes : StrokePen :=
  (session spikeSetting empty [
    .draw (.ofMarks [.move ⟨0, 0⟩, .line ⟨4, 0⟩, .line ⟨0, 4⟩, .close]),
    .draw (.ofReferences [⟨"spike", .identity⟩])]).1

def spikedSteps : PathPen :=
  (session spikeSetting empty [
    .draw (.ofMarks [.start, .point ⟨3, 3⟩ (some .line) false none, .stop]),
    .draw (.ofReferences [⟨"spike", .identity⟩])]).1

theorem finish_spiked :
    (finish spikeSetting {} spikedStrokes).result =
        .ok (.simple ⟨#[⟨0, 0⟩, ⟨4, 0⟩, ⟨0, 4⟩, ⟨0, 0⟩, ⟨9, 0⟩], #[true, true, true, true, true],
          #[2], #[]⟩) ∧
      (finish spikeSetting {} spikedSteps).pen = ⟨.empty, some 2⟩ ∧
        (finish spikeSetting {} spikedSteps).result =
          .ok (.simple ⟨#[⟨3, 3⟩, ⟨0, 0⟩, ⟨9, 0⟩], #[true, true, true], #[0], #[]⟩) := by
  have hstrokes : (sketch spikedStrokes).vertices ≠ #[] := fun h => nomatch congrArg Array.size h
  have hsteps : (sketch spikedSteps).vertices ≠ #[] := fun h => nomatch congrArg Array.size h
  rw [finish_of_single rfl rfl hstrokes rfl rfl, finish_of_single rfl rfl hsteps rfl rfl]
  decide +kernel

/-- Both pens finish the glyph, with two points that no contour holds. -/
theorem spiked_not_wellFormed :
    (∃ o, (finish spikeSetting {} spikedStrokes).result = .ok (.simple o) ∧ ¬ o.WellFormed) ∧
      ∃ o, (finish spikeSetting {} spikedSteps).result = .ok (.simple o) ∧ ¬ o.WellFormed :=
  ⟨⟨_, finish_spiked.1, fun h => absurd h.covers (by decide)⟩,
    ⟨_, finish_spiked.2.2, fun h => absurd h.covers (by decide)⟩⟩

def dottedSteps : PathPen :=
  (session dots empty [
    .draw (.ofMarks [.start, .point ⟨3, 3⟩ (some .line) false none, .stop]),
    .draw (.ofReferences [⟨"dot", .identity⟩])]).1

theorem finish_dottedSteps :
    (finish dots {} dottedSteps).result =
      .ok (.simple
        ⟨#[⟨3, 3⟩, ⟨0, 0⟩, ⟨4, 0⟩, ⟨0, 4⟩], #[true, true, true, true], #[0, 3], #[]⟩) := by
  have hvertices : (sketch dottedSteps).vertices ≠ #[] := fun h => nomatch congrArg Array.size h
  rw [finish_of_single rfl rfl hvertices rfl rfl]
  decide +kernel

/-- The spike stays open on the pen that is cleared; dots are glyphs and leave nothing open. -/
theorem finished_outline_spiked :
    (Reachable spikeSetting spikedStrokes ∧
      (sketch (resolved spikeSetting {} spikedStrokes).1.pen).isClosed ≠ true) ∧
      (Reachable spikeSetting spikedSteps ∧
        (sketch (resolved spikeSetting {} spikedSteps).1.pen).isClosed ≠ true) ∧
      ∃ o, (finish dots {} dottedSteps).result = .ok (.simple o) ∧ o.WellFormed := by
  have hstrokes : Reachable spikeSetting spikedStrokes := ⟨_, rfl⟩
  have hsteps : Reachable spikeSetting spikedSteps := ⟨_, rfl⟩
  have hdotted : Reachable dots dottedSteps := ⟨_, rfl⟩
  have hglyphs : dots.repertoire.OfGlyphs := (Repertoire.all_empty _).insert _ ⟨_, rfl⟩
  obtain ⟨-, -, -, -, -, hopen, -⟩ := (hstrokes.finished_outline {}).2 _ finish_spiked.1
  obtain ⟨-, -, -, -, -, hopen', -⟩ := (hsteps.finished_outline {}).2 _ finish_spiked.2.2
  obtain ⟨-, -, -, -, -, -, hformed⟩ := (hdotted.finished_outline {}).2 _ finish_dottedSteps
  exact ⟨⟨hstrokes, fun h => absurd (hopen.2 h).covers (by decide)⟩,
    ⟨hsteps, fun h => absurd (hopen'.2 h).covers (by decide)⟩,
    ⟨_, finish_dottedSteps, hformed (hglyphs.leavesNothingOpen PathPen)⟩⟩

end Spike

end Pen

end GlyphDrawing
