import GlyphDrawing.Proofs.Pen.StrokeRun
import GlyphDrawing.Proofs.Resolution.BreadthFirst
import GlyphDrawing.Proofs.Resolution.Failure

/-!
# What a row of calls makes of a stroke pen

A stroke pen keeps no record of its calls, but only those since the last refused one matter to it.
They stand in pieces between the calls that close: the vertices of the last piece are the open run,
those of each earlier piece are a run that was closed. The pen refuses a call exactly when the
pieces say so, its contours are the closed runs, and it can be finished when the open run is empty
(`shows_standing`).
-/

namespace GlyphDrawing

/-- A member that is no separator goes to the last piece. -/
theorem exists_splitOnP_eq {α : Type} (p : α → Bool) (l : List α) :
    ∃ pieces last, l.splitOnP p = pieces ++ [last] ∧
      ∀ x, p x = false → (l ++ [x]).splitOnP p = pieces ++ [last ++ [x]] := by
  induction l with
  | nil =>
    exact ⟨[], [], List.splitOnP_nil, fun x hx => List.splitOnP_eq_singleton (by simpa using hx)⟩
  | cons y l ih =>
    obtain ⟨pieces, last, hl, hx⟩ := ih
    cases hy : p y with
    | true =>
      refine ⟨[] :: pieces, last, ?_, fun x hpx => ?_⟩
      · rw [List.splitOnP_cons_eq_if_modifyHead, if_pos hy, hl, List.cons_append]
      · rw [List.cons_append, List.splitOnP_cons_eq_if_modifyHead, if_pos hy, hx x hpx,
          List.cons_append]
    | false =>
      have hcons (l : List α) : (y :: l).splitOnP p = (l.splitOnP p).modifyHead (y :: ·) := by
        rw [List.splitOnP_cons_eq_if_modifyHead, if_neg (by simp [hy])]
      cases pieces with
      | nil =>
        refine ⟨[], y :: last, ?_, fun x hpx => ?_⟩
        · rw [hcons, hl]
          rfl
        · rw [List.cons_append, hcons, hx x hpx]
          rfl
      | cons piece pieces =>
        refine ⟨(y :: piece) :: pieces, last, ?_, fun x hpx => ?_⟩
        · rw [hcons, hl]
          rfl
        · rw [List.cons_append, hcons, hx x hpx]
          rfl

namespace Call

def vertices : Call Stroke → List (Vertex Float)
  | mark m => m.vertices
  | component _ => []

def closes : Call Stroke → Bool
  | mark m => m.closes
  | component _ => false

def refusal? (run : List (Vertex Float)) : Call Stroke → Option DrawError
  | mark m => m.refusal? run
  | component _ => none

theorem refusal?_eq_some_iff {run : List (Vertex Float)} {c : Call Stroke} {e : DrawError} :
    c.refusal? run = some e ↔
      ((∃ v, c = mark (.move v)) ∧ run ≠ [] ∧ e = .contourOpen) ∨
        ((∃ points, c = mark (.cubic points)) ∧ e = .cubicCurve) := by
  rcases c with m | r
  · cases m <;> simp [refusal?, Stroke.refusal?, eq_comm]
  · simp [refusal?]

end Call

namespace StrokePen

/-- The vertices that the calls add, in one piece for each call that closes, and a last one. -/
def pieces (calls : List (Call Stroke)) : List (List (Vertex Float)) :=
  (calls.splitOnP Call.closes).map fun piece => piece.flatMap Call.vertices

def openRun (calls : List (Call Stroke)) : List (Vertex Float) :=
  (pieces calls).getLast?.getD []

def closedRuns (calls : List (Call Stroke)) : List (List (Vertex Float)) :=
  (pieces calls).dropLast

/-- The calls since the last that is refused. -/
def standing (calls : List (Call Stroke)) : List (Call Stroke) :=
  calls.foldl
    (fun kept c => if (c.refusal? (openRun kept)).isSome then [] else kept ++ [c]) []

section Pieces

variable {calls : List (Call Stroke)}

theorem pieces_eq (calls : List (Call Stroke)) :
    pieces calls = closedRuns calls ++ [openRun calls] := by
  have hne : pieces calls ≠ [] := by simp [pieces, List.splitOnP_ne_nil]
  rw [closedRuns, openRun, List.getLast?_eq_some_getLast hne, Option.getD_some,
    List.dropLast_concat_getLast]

theorem runs_of_pieces_eq {runs : List (List (Vertex Float))} {run : List (Vertex Float)}
    (h : pieces calls = runs ++ [run]) : closedRuns calls = runs ∧ openRun calls = run := by
  rw [pieces_eq] at h
  obtain ⟨hruns, hrun⟩ := List.append_inj' h rfl
  exact ⟨hruns, List.singleton_inj.1 hrun⟩

theorem runs_concat_of_closes (calls : List (Call Stroke)) (c : Call Stroke)
    (hc : c.closes = true) :
    closedRuns (calls ++ [c]) = closedRuns calls ++ [openRun calls] ∧
      openRun (calls ++ [c]) = [] := by
  refine runs_of_pieces_eq ?_
  rw [← pieces_eq, pieces, pieces, List.splitOnP_append_cons calls [] hc, List.splitOnP_nil,
    List.map_append]
  rfl

theorem runs_concat_of_not_closes (calls : List (Call Stroke)) (c : Call Stroke)
    (hc : c.closes = false) :
    closedRuns (calls ++ [c]) = closedRuns calls ∧
      openRun (calls ++ [c]) = openRun calls ++ c.vertices := by
  obtain ⟨front, last, hcalls, hconcat⟩ := exists_splitOnP_eq Call.closes calls
  have hpieces : pieces calls =
      front.map (fun piece => piece.flatMap Call.vertices) ++ [last.flatMap Call.vertices] := by
    rw [pieces, hcalls, List.map_append, List.map_singleton]
  obtain ⟨hruns, hrun⟩ := runs_of_pieces_eq hpieces
  refine runs_of_pieces_eq ?_
  rw [hruns, hrun, pieces, hconcat c hc, List.map_append, List.map_singleton, List.flatMap_append,
    List.flatMap_singleton]

theorem standing_concat (calls : List (Call Stroke)) (c : Call Stroke) :
    standing (calls ++ [c]) =
      if (c.refusal? (openRun (standing calls))).isSome then [] else standing calls ++ [c] := by
  rw [standing, List.foldl_append]
  rfl

end Pieces

open Pen

structure Records (p : StrokePen) (calls : List (Call Stroke)) : Prop where
  reads : p.sketch.Reads ((closedRuns calls).flatMap Sketch.closing) (openRun calls)
  pending_eq : (pending p).toList = calls.filterMap Call.placed?

variable {p : StrokePen} {calls : List (Call Stroke)} {c : Call Stroke}

theorem records_empty : Records empty [] := ⟨Sketch.reads_empty, rfl⟩

theorem Records.respond_of_refusal {e : DrawError} (h : p.Records calls)
    (hc : c.refusal? (openRun calls) = some e) : respond p c = (empty, .error e) := by
  cases c with
  | mark m => exact mark_of_refusal h.reads hc
  | component r => cases hc

theorem Records.mark {m : Stroke} (h : p.Records calls) (hm : m.refusal? (openRun calls) = none) :
    ∃ q, p.mark m = (q, .ok ()) ∧ q.Records (calls ++ [Call.mark m]) := by
  have hpending {q : StrokePen} (hq : p.mark m = (q, .ok ())) :
      (pending q).toList = (calls ++ [Call.mark m]).filterMap Call.placed? := by
    rw [List.filterMap_append, show pending q = pending p from Pen.pending_mark hq, h.pending_eq]
    exact (List.append_nil _).symm
  cases hcloses : m.closes with
  | true =>
    obtain ⟨hruns, hrun⟩ := runs_concat_of_closes calls (.mark m) hcloses
    have hmark := mark_of_closes p hcloses
    refine ⟨_, hmark, ?_, hpending hmark⟩
    rw [hruns, hrun, List.flatMap_append, List.flatMap_singleton]
    exact h.reads.closeRun
  | false =>
    obtain ⟨hruns, hrun⟩ := runs_concat_of_not_closes calls (.mark m) hcloses
    obtain ⟨q, hmark, hreads⟩ := exists_mark_of_adds h.reads hm hcloses
    refine ⟨q, hmark, ?_, hpending hmark⟩
    rw [hruns, hrun]
    exact hreads

theorem Records.respond (h : p.Records calls) (hc : c.refusal? (openRun calls) = none) :
    ∃ q, Pen.respond p c = (q, .ok ()) ∧ q.Records (calls ++ [c]) := by
  cases c with
  | mark m => exact h.mark hc
  | component r =>
    obtain ⟨hruns, hrun⟩ := runs_concat_of_not_closes calls (.component r) rfl
    refine ⟨_, rfl, ?_, ?_⟩
    · rw [hruns, hrun, Call.vertices, List.append_nil]
      exact h.reads.addReference r
    · rw [List.filterMap_append, ← h.pending_eq]
      exact Array.toList_push

/-- Whatever a call does, the pen records the calls that still stand after it. -/
theorem Records.step (h : p.Records (standing calls)) (c : Call Stroke) :
    (Pen.respond p c).1.Records (standing (calls ++ [c])) := by
  rw [standing_concat]
  cases hc : c.refusal? (openRun (standing calls)) with
  | none =>
    obtain ⟨q, hq, hrecords⟩ := h.respond hc
    rw [hq]
    exact hrecords
  | some e =>
    rw [h.respond_of_refusal hc]
    exact records_empty

def afterCalls (setting : Setting) (calls : List (Call Stroke)) : StrokePen :=
  (session setting Pen.empty (calls.map fun c => .draw (.call c))).1

theorem records_afterCalls (setting : Setting) (calls : List (Call Stroke)) :
    (afterCalls setting calls).Records (standing calls) := by
  have hempty : Records Pen.empty (standing []) := records_empty
  exact session_calls (P := fun p calls => Records p (standing calls)) setting
    (fun _ _ c h => h.step c) hempty calls

theorem Records.obstacle?_eq (h : p.Records calls) :
    Pen.obstacle? p = if openRun calls = [] then none else some .contourOpen := by
  have hclosed := h.reads.isClosed_iff
  change p.obstacle? = _
  rw [obstacle?]
  split_ifs <;> simp_all

theorem Records.outline_eq (h : p.Records calls) (hrun : openRun calls = []) :
    p.sketch.outline = .ofContours ((closedRuns calls).flatMap Sketch.closing) := by
  have hreads := h.reads
  rw [hrun] at hreads
  exact hreads.outline_eq

theorem Records.respond_eq_error_iff {e : DrawError} (h : p.Records calls) :
    (Pen.respond p c).2 = .error e ↔ c.refusal? (openRun calls) = some e := by
  cases hc : c.refusal? (openRun calls) with
  | none =>
    obtain ⟨q, hq, -⟩ := h.respond hc
    rw [hq]
    simp
  | some e' =>
    rw [h.respond_of_refusal hc]
    simp

theorem pen_finish (setting : Setting) (options : Options) (p : StrokePen) :
    (finish setting options p).pen = Pen.empty := by
  cases ho : Pen.obstacle? p with
  | some e => rw [finish_of_obstacle ho]
  | none =>
    rw [Pen.finish_eq ho]
    rfl

structure Shows (setting : Setting) (calls : List (Call Stroke)) (p : StrokePen) : Prop where
  /-- An open run refuses to move, no cubic is accepted, and nothing else is refused. -/
  refuses_iff (c : Call Stroke) (e : DrawError) :
    (Pen.respond p c).2 = .error e ↔
      ((∃ v, c = .mark (.move v)) ∧ openRun calls ≠ [] ∧ e = .contourOpen) ∨
        ((∃ points, c = .mark (.cubic points)) ∧ e = .cubicCurve)
  /-- A refused call discards everything. -/
  empties (c : Call Stroke) (e : DrawError) (h : (Pen.respond p c).2 = .error e) :
    (Pen.respond p c).1 = empty
  contours_eq : p.sketch.contours = (closedRuns calls).flatMap Sketch.closing
  vertices_eq : p.sketch.vertices.toList = p.sketch.contours.flatten ++ openRun calls
  pending_eq : (pending p).toList = calls.filterMap Call.placed?
  /-- Finishing fails for an open run, and otherwise only with a member that it decomposes. -/
  finish_eq_error_iff (options : Options) (e : DrawError) :
    (finish setting options p).result = .error e ↔
      (openRun calls ≠ [] ∧ e = .contourOpen) ∨
        (openRun calls = [] ∧ ∃ turns b r, FailsAfter setting options p turns b r e)
  /-- Glyphs do not fail when they are decomposed, so with them only an open run does. -/
  finish_eq_error_iff_of_glyphs (hglyphs : setting.repertoire.OfGlyphs) (options : Options)
    (e : DrawError) :
    (finish setting options p).result = .error e ↔ openRun calls ≠ [] ∧ e = .contourOpen
  /-- Without components the glyph consists of the contours. -/
  finish_outline (hrun : openRun calls = []) (h : pending p = #[]) (options : Options) :
    (finish setting options p).result =
      .ok (.simple (.ofContours ((closedRuns calls).flatMap Sketch.closing)))
  /-- Finishing discards everything, whether or not it fails. -/
  finish_pen (options : Options) : (finish setting options p).pen = empty

/-- After any calls on a new pen, those since the last refused one decide all that it does. -/
theorem shows_standing (setting : Setting) (calls : List (Call Stroke)) :
    Shows setting (standing calls) (afterCalls setting calls) := by
  have h := records_afterCalls setting calls
  have hobstacle := h.obstacle?_eq
  refine
    { refuses_iff := fun c e => h.respond_eq_error_iff.trans Call.refusal?_eq_some_iff
      empties := fun c e he => by rw [h.respond_of_refusal (h.respond_eq_error_iff.1 he)]
      contours_eq := h.reads.contours_eq
      vertices_eq := by rw [h.reads.contours_eq, h.reads.vertices]
      pending_eq := h.pending_eq
      finish_eq_error_iff := fun options e => finish_eq_error_iff_of_ite hobstacle
      finish_eq_error_iff_of_glyphs := fun hglyphs options e =>
        Pen.finish_eq_error_iff_of_glyphs ⟨_, rfl⟩ hobstacle hglyphs options
      finish_outline := fun hrun hpending options => ?_
      finish_pen := fun options => pen_finish setting options _ }
  rw [if_pos hrun] at hobstacle
  rw [finish_of_pending_eq_empty hobstacle hpending, ← h.outline_eq hrun]
  rfl

def scribble : List (Call Stroke) :=
  [.mark (.move ⟨1, 1⟩), .mark (.move ⟨2, 2⟩), .mark (.line ⟨0, 0⟩), .mark (.line ⟨4, 0⟩),
    .mark (.quadratic #[⟨4, 4⟩] (some ⟨0, 0⟩)), .mark .close, .mark (.move ⟨7, 7⟩),
    .mark .finish, .mark (.quadratic #[⟨1, 2⟩, ⟨3, 4⟩] none), .mark .close]

/-- What stands of it is finished as two contours; with one more line it cannot be finished. -/
theorem finish_scribble :
    standing scribble = scribble.drop 2 ∧
      (finish ⟨∅, true⟩ {} (afterCalls ⟨∅, true⟩ scribble)).result =
        .ok (.simple ⟨#[⟨0, 0⟩, ⟨4, 0⟩, ⟨4, 4⟩, ⟨1, 2⟩, ⟨3, 4⟩],
          #[true, true, false, false, false], #[2, 4], #[]⟩) ∧
      (finish ⟨∅, true⟩ {} (afterCalls ⟨∅, true⟩ (scribble ++ [.mark (.line ⟨5, 5⟩)]))).result =
        .error .contourOpen := by
  refine ⟨by decide +kernel, ?_, ?_⟩
  · rw [(shows_standing _ _).finish_outline (by decide +kernel) (by decide +kernel) {}]
    exact congrArg (fun outline => Except.ok (Glyph.simple outline)) (by decide +kernel)
  · exact ((shows_standing _ _).finish_eq_error_iff {} _).2 (.inl ⟨by decide +kernel, rfl⟩)

end StrokePen

end GlyphDrawing
