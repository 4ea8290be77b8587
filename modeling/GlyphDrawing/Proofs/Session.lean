import GlyphDrawing.Proofs.Pen.OutlinePen
import GlyphDrawing.Proofs.Repertoire
import GlyphDrawing.Proofs.Resolution.Turns

/-!
# Pens that sessions reach

Whatever is asked of a new outline pen, and whatever fails on the way, the vertices that it holds
are closed contours and a run that fits the rest of the pen (`Reachable.exists_traces`).
-/

namespace GlyphDrawing

namespace Pen

variable {π Mark : Type} [Pen π Mark] [SMul Affine Mark]

/-- Some row of requests makes a new pen `p`. -/
def Reachable (setting : Setting) (p : π) : Prop :=
  ∃ requests : List (Request Mark), (session setting empty requests).1 = p

/-- What every drawing and every finishing keeps holds of all pens that are reached. -/
theorem session_invariant {P : π → Prop} {setting : Setting} (hdraw : ∀ p d, P p → P (draw p d).1)
    (hfinish : ∀ p options, P p → P (finish setting options p).pen) {p : π} (hp : P p)
    (requests : List (Request Mark)) : P (session setting p requests).1 := by
  induction requests generalizing p with
  | nil => exact hp
  | cons request requests ih =>
    cases request with
    | draw d => exact ih (hdraw p d hp)
    | finish options => exact ih (hfinish p options hp)

/-- What each call carries on from the calls before it holds after any row of calls. -/
theorem session_calls {P : π → List (Call Mark) → Prop} (setting : Setting)
    (hstep : ∀ p earlier c, P p earlier → P (respond p c).1 (earlier ++ [c])) {p : π}
    {earlier : List (Call Mark)} (hp : P p earlier) (calls : List (Call Mark)) :
    P (session setting p (calls.map fun c => .draw (.call c))).1 (earlier ++ calls) := by
  induction calls generalizing p earlier with
  | nil => rwa [List.append_nil]
  | cons c calls ih =>
    have hrest := ih (hstep p earlier c hp)
    rwa [← List.append_cons] at hrest

/-- What the members keep when they are drawn is kept by the whole resolution. -/
theorem resolved_invariant {P : π → Prop} {setting : Setting}
    (hdrawn : setting.repertoire.All fun source =>
      ∀ q r, P q → P (draw q (Resolution.drawn π source r)).1)
    (options : Options) {p : π} (hp : P p) : P (resolved setting options p).1.pen := by
  have hstep : ∀ (a : Resolution π) (r : Reference), P a.pen →
      P (a.step (job setting options p) r).1.pen := by
    intro a r ha
    rw [Resolution.step_eq]
    cases ho : a.outcome (job setting options p) r with
    | decomposed source =>
      exact hdrawn r.name source (Resolution.outcome_eq_decomposed_iff.1 ho).1 a.pen r ha
    | missing | selfReferring | kept => exact ha
  obtain ⟨turns, b, hb, hend⟩ :=
    Resolution.exists_turns_run (job setting options p) (Resolution.start p)
  have hpen : P b.pen := hb.invariant (P := fun a => P a.pen) hp fun a r c ha _ hc => by
    have := hstep a r ha
    rwa [hc] at this
  rw [resolved]
  rcases hend with ⟨-, hrun⟩ | ⟨r, c, e, -, hc, hrun⟩
  · rw [hrun]
    exact hpen
  · have := hstep b r hpen
    rw [hc] at this
    rw [hrun]
    exact this

end Pen

namespace OutlinePen

open Pen

variable {π Mark : Type} [SMul Affine Mark] [OutlinePen π Mark]

theorem exists_traces_resolved (setting : Setting) (options : Options) {p : π}
    (h : ∃ contours run, Traces p contours run) :
    ∃ contours run, Traces (resolved setting options p).1.pen contours run :=
  resolved_invariant (P := fun q : π => ∃ contours run, Traces q contours run)
    (fun _ _ _ _ _ hq => exists_traces_draw hq _) options h

theorem exists_traces_finish (setting : Setting) (options : Options) {p : π}
    (h : ∃ contours run, Traces p contours run) :
    ∃ contours run, Traces (finish setting options p).pen contours run := by
  cases ho : obstacle? p with
  | some e =>
    rw [finish_of_obstacle ho]
    exact ⟨[], [], traces_empty⟩
  | none =>
    obtain ⟨contours, run, hresolved⟩ := exists_traces_resolved setting options h
    rw [finish_eq ho]
    exact ⟨[], [], traces_clear hresolved⟩

end OutlinePen

theorem Pen.Reachable.exists_traces {π Mark : Type} [SMul Affine Mark] [OutlinePen π Mark]
    {setting : Setting} {p : π} (h : Reachable setting p) :
    ∃ contours run, OutlinePen.Traces p contours run := by
  obtain ⟨requests, rfl⟩ := h
  exact session_invariant (P := fun q : π => ∃ contours run, OutlinePen.Traces q contours run)
    (fun q d hq => OutlinePen.exists_traces_draw hq d)
    (fun q options hq => OutlinePen.exists_traces_finish setting options hq)
    ⟨[], [], OutlinePen.traces_empty⟩ requests

end GlyphDrawing
