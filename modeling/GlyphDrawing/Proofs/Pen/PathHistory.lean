import GlyphDrawing.Proofs.Pen.PathReuse
import GlyphDrawing.Proofs.Pen.StrokeHistory
import GlyphDrawing.Proofs.Resolution.Failure

/-!
# What a row of calls makes of a path pen

Only the calls since the last refused one matter to a path pen. They stand in pieces between the
calls that stop a path: the points of the last piece are the open path, if one is started in it, and
those of each earlier piece are a path that was stopped. The pen counts the points of its open path
and keeps the index of the last point of each contour, and neither sees the other. They never
disagree (`Records.path_eq`), so the pen refuses a call exactly when the pieces say so, and its
contours are the stopped paths that have a point (`shows_afterCalls`).
-/

namespace GlyphDrawing

namespace Call

def points : Call PathStep → List (Vertex Float)
  | mark (.point v role _ _) => [⟨v, role == some .line || role == some .quadratic⟩]
  | mark .start | mark .stop | component _ => []

def starts : Call PathStep → Bool
  | mark .start => true
  | mark .stop | mark (.point ..) | component _ => false

def stops : Call PathStep → Bool
  | mark .stop => true
  | mark .start | mark (.point ..) | component _ => false

end Call

namespace PathPen

/-- The points of the path that is started by one of the calls, if it is. -/
def path? (piece : List (Call PathStep)) : Option (List (Vertex Float)) :=
  match piece.dropWhile (!·.starts) with
  | [] => none
  | _ :: inside => some (inside.flatMap Call.points)

/-- The paths of the calls, one for each call that stops a path, and a last one. -/
def paths (calls : List (Call PathStep)) : List (Option (List (Vertex Float))) :=
  (calls.splitOnP Call.stops).map path?

def openPath? (calls : List (Call PathStep)) : Option (List (Vertex Float)) :=
  (paths calls).getLast?.join

def stoppedPaths (calls : List (Call PathStep)) : List (List (Vertex Float)) :=
  (paths calls).dropLast.reduceOption

def refusal? (openPath? : Option (List (Vertex Float))) : Call PathStep → Option DrawError
  | .mark .start => if openPath? = none then none else some .pathAlreadyStarted
  | .mark .stop => if openPath? = none then some .noPathStarted else none
  | .mark (.point _ role _ _) =>
    if openPath? = none then some .noPathStarted
    else if role = some .cubic then some .cubicCurve
    else if role = some .move then some .moveInPath
    else none
  | .component _ => none

section Refusal

variable {openPath? : Option (List (Vertex Float))} {e : DrawError}

theorem refusal?_start_iff :
    refusal? openPath? (.mark .start) = some e ↔ openPath? ≠ none ∧ e = .pathAlreadyStarted := by
  by_cases hopen : openPath? = none <;> simp [refusal?, hopen, eq_comm]

theorem refusal?_stop_iff :
    refusal? openPath? (.mark .stop) = some e ↔ openPath? = none ∧ e = .noPathStarted := by
  by_cases hopen : openPath? = none <;> simp [refusal?, hopen, eq_comm]

theorem refusal?_point_iff {v : Point Float} {role : Option Role} {smooth : Bool}
    {name : Option String} :
    refusal? openPath? (.mark (.point v role smooth name)) = some e ↔
      (openPath? = none ∧ e = .noPathStarted) ∨
        (openPath? ≠ none ∧ role = some .cubic ∧ e = .cubicCurve) ∨
          (openPath? ≠ none ∧ role = some .move ∧ e = .moveInPath) := by
  by_cases hopen : openPath? = none
  · simp [refusal?, hopen, eq_comm]
  · rcases role with _ | _ | _ | _ | _ <;> simp [refusal?, hopen, eq_comm]

end Refusal

/-- The calls since the last that is refused. -/
def standing (calls : List (Call PathStep)) : List (Call PathStep) :=
  calls.foldl
    (fun kept c => if (refusal? (openPath? kept) c).isSome then [] else kept ++ [c]) []

section Pieces

variable {calls : List (Call PathStep)}

theorem path?_concat (piece : List (Call PathStep)) (c : Call PathStep) :
    path? (piece ++ [c]) =
      match path? piece with
      | some points => some (points ++ c.points)
      | none => if c.starts = true then some [] else none := by
  rw [path?, path?, List.dropWhile_append]
  -- either the path is started in `piece`, or `c` is the first call that can start it
  cases piece.dropWhile (!·.starts) with
  | nil =>
    cases hc : c.starts with
    | true => simp [hc]
    | false => simp [hc]
  | cons first inside => simp

theorem paths_eq (calls : List (Call PathStep)) :
    ∃ stopped, paths calls = stopped ++ [openPath? calls] ∧
      stoppedPaths calls = stopped.reduceOption := by
  have hne : paths calls ≠ [] := by simp [paths, List.splitOnP_ne_nil]
  refine ⟨_, ?_, rfl⟩
  rw [openPath?, List.getLast?_eq_some_getLast hne, Option.join_some, List.dropLast_concat_getLast]

theorem paths_of_eq {stopped : List (Option (List (Vertex Float)))}
    {last : Option (List (Vertex Float))} (h : paths calls = stopped ++ [last]) :
    stoppedPaths calls = stopped.reduceOption ∧ openPath? calls = last := by
  rw [stoppedPaths, openPath?, h]
  simp

theorem paths_concat_of_stops (calls : List (Call PathStep)) (c : Call PathStep)
    (hc : c.stops = true) :
    stoppedPaths (calls ++ [c]) = stoppedPaths calls ++ (openPath? calls).toList ∧
      openPath? (calls ++ [c]) = none := by
  obtain ⟨stopped, hpaths, hstopped⟩ := paths_eq calls
  have hconcat : paths (calls ++ [c]) = (stopped ++ [openPath? calls]) ++ [none] := by
    rw [← hpaths, paths, paths, List.splitOnP_append_cons calls [] hc, List.splitOnP_nil,
      List.map_append]
    rfl
  obtain ⟨hrow, hlast⟩ := paths_of_eq hconcat
  refine ⟨?_, hlast⟩
  rw [hrow, List.reduceOption_append, List.reduceOption_singleton, hstopped]

theorem paths_concat_of_not_stops (calls : List (Call PathStep)) (c : Call PathStep)
    (hc : c.stops = false) :
    stoppedPaths (calls ++ [c]) = stoppedPaths calls ∧
      openPath? (calls ++ [c]) =
        match openPath? calls with
        | some points => some (points ++ c.points)
        | none => if c.starts = true then some [] else none := by
  obtain ⟨front, last, hcalls, hconcat⟩ := exists_splitOnP_eq Call.stops calls
  have hpaths : paths calls = front.map path? ++ [path? last] := by
    rw [paths, hcalls, List.map_append, List.map_singleton]
  have hpaths' : paths (calls ++ [c]) = front.map path? ++ [path? (last ++ [c])] := by
    rw [paths, hconcat c hc, List.map_append, List.map_singleton]
  obtain ⟨hrow, hlast⟩ := paths_of_eq hpaths
  obtain ⟨hrow', hlast'⟩ := paths_of_eq hpaths'
  rw [hrow, hrow', hlast, hlast', path?_concat]
  exact ⟨rfl, rfl⟩

theorem standing_concat (calls : List (Call PathStep)) (c : Call PathStep) :
    standing (calls ++ [c]) =
      if (refusal? (openPath? (standing calls)) c).isSome then [] else standing calls ++ [c] := by
  rw [standing, List.foldl_append]
  rfl

end Pieces

open Pen

/-- The sketch consists of the points of the paths, and the pen has counted those of the open
one. -/
structure Records (p : PathPen) (calls : List (Call PathStep)) : Prop where
  reads : p.sketch.Reads ((stoppedPaths calls).flatMap Sketch.ending) ((openPath? calls).getD [])
  path_eq : p.path = (openPath? calls).map List.length
  /-- Every stop has a path. -/
  length_eq : (stoppedPaths calls).length = calls.countP Call.stops
  pending_eq : (pending p).toList = calls.filterMap Call.placed?

variable {p : PathPen} {calls : List (Call PathStep)} {c : Call PathStep}

theorem records_empty : Records empty [] :=
  ⟨Sketch.reads_empty, rfl, rfl, rfl⟩

theorem Records.respond_of_refusal {e : DrawError} (h : p.Records calls)
    (hc : refusal? (openPath? calls) c = some e) : respond p c = (empty, .error e) := by
  have hpath := h.path_eq
  cases c with
  | component r => cases hc
  | mark m =>
    change p.mark m = _
    cases hopen : openPath? calls with
    | none =>
      rw [hopen] at hc hpath
      cases m <;> simp_all [refusal?, mark]
    | some points =>
      rw [hopen] at hc hpath
      cases m with
      | start => simp_all [refusal?, mark]
      | stop => simp [refusal?] at hc
      | point v role smooth name =>
        rcases role with _ | _ | _ | _ | _ <;> simp_all [refusal?, mark, onCurve]

theorem Records.length_concat (h : p.Records calls) (hc : c.stops = false) :
    (stoppedPaths (calls ++ [c])).length = (calls ++ [c]).countP Call.stops := by
  rw [(paths_concat_of_not_stops calls c hc).1, h.length_eq, List.countP_append,
    List.countP_singleton, hc]
  rfl

theorem Records.pending_mark {q : PathPen} {m : PathStep} (h : p.Records calls)
    (hm : p.mark m = (q, .ok ())) :
    (pending q).toList = (calls ++ [Call.mark m]).filterMap Call.placed? := by
  rw [List.filterMap_append, show pending q = pending p from Pen.pending_mark hm, h.pending_eq]
  exact (List.append_nil _).symm

theorem Records.start (h : p.Records calls) (hopen : openPath? calls = none) :
    ∃ q, p.mark .start = (q, .ok ()) ∧ q.Records (calls ++ [.mark .start]) := by
  have hmark : p.mark .start = (⟨p.sketch, some 0⟩, .ok ()) := by
    simp only [mark, h.path_eq, hopen, Option.map_none]
  obtain ⟨hstopped, hlast⟩ := paths_concat_of_not_stops calls (.mark .start) rfl
  have hreads := h.reads
  rw [hopen] at hlast hreads
  refine ⟨_, hmark, ?_, ?_, h.length_concat rfl, h.pending_mark hmark⟩
  · rw [hstopped, hlast]
    exact hreads
  · rw [hlast]
    rfl

theorem Records.point {points : List (Vertex Float)} {v : Point Float} {role : Option Role}
    {smooth : Bool} {name : Option String} (h : p.Records calls)
    (hopen : openPath? calls = some points) (hcubic : role ≠ some .cubic)
    (hmove : role ≠ some .move) :
    ∃ q, p.mark (.point v role smooth name) = (q, .ok ()) ∧
      q.Records (calls ++ [.mark (.point v role smooth name)]) := by
  have hrole : onCurve role = .ok (role == some .line || role == some .quadratic) := by
    rcases role with _ | _ | _ | _ | _ <;> first | rfl | contradiction
  have hmark : p.mark (.point v role smooth name) =
      (⟨p.sketch.addVertex v (role == some .line || role == some .quadratic),
        some (points.length + 1)⟩, .ok ()) := by
    simp only [mark, h.path_eq, hopen, Option.map_some, hrole]
  obtain ⟨hstopped, hlast⟩ := paths_concat_of_not_stops calls
    (.mark (.point v role smooth name)) rfl
  have hreads := h.reads
  rw [hopen] at hlast hreads
  refine ⟨_, hmark, ?_, ?_, h.length_concat rfl, h.pending_mark hmark⟩
  · rw [hstopped, hlast]
    exact hreads.addVertex v _
  · rw [hlast, Option.map_some, List.length_append]
    rfl

/-- A path without points is stopped without ending a run, and no run is open then. -/
theorem Records.stop {points : List (Vertex Float)} (h : p.Records calls)
    (hopen : openPath? calls = some points) :
    ∃ q, p.mark .stop = (q, .ok ()) ∧ q.Records (calls ++ [.mark .stop]) := by
  obtain ⟨hstopped, hlast⟩ := paths_concat_of_stops calls (.mark .stop) rfl
  have hreads := h.reads
  rw [hopen] at hstopped hreads
  have hmark : p.mark .stop = (⟨p.sketch.endRun, none⟩, .ok ()) := by
    cases points with
    | nil =>
      have hclosed := hreads.isClosed_iff.2 rfl
      simp [mark, h.path_eq, hopen, Sketch.endRun, hclosed]
    | cons v points => simp [mark, h.path_eq, hopen]
  refine ⟨_, hmark, ?_, ?_, ?_, h.pending_mark hmark⟩
  · rw [hstopped, hlast, List.flatMap_append, Option.toList_some, List.flatMap_singleton]
    exact hreads.endRun
  · rw [hlast]
    rfl
  · rw [hstopped, List.length_append, h.length_eq, List.countP_append]
    rfl

theorem Records.respond (h : p.Records calls) (hc : refusal? (openPath? calls) c = none) :
    ∃ q, Pen.respond p c = (q, .ok ()) ∧ q.Records (calls ++ [c]) := by
  cases c with
  | component r =>
    obtain ⟨hstopped, hlast⟩ := paths_concat_of_not_stops calls (.component r) rfl
    have hsame : openPath? (calls ++ [.component r]) = openPath? calls := by
      rw [hlast]
      cases openPath? calls with
      | none => rfl
      | some points => exact congrArg some (List.append_nil points)
    refine ⟨_, rfl, ?_, ?_, h.length_concat rfl, ?_⟩
    · rw [hstopped, hsame]
      exact h.reads.addReference r
    · rw [hsame]
      exact h.path_eq
    · rw [List.filterMap_append, ← h.pending_eq]
      exact Array.toList_push
  | mark m =>
    change ∃ q, p.mark m = (q, .ok ()) ∧ _
    cases hopen : openPath? calls with
    | none =>
      rw [hopen] at hc
      cases m with
      | start => exact h.start hopen
      | stop | point => simp [refusal?] at hc
    | some points =>
      rw [hopen] at hc
      cases m with
      | start => simp [refusal?] at hc
      | stop => exact h.stop hopen
      | point v role smooth name =>
        refine h.point hopen (fun hcubic => ?_) fun hmove => ?_
        · simp [refusal?, hcubic] at hc
        · simp [refusal?, hmove] at hc

/-- Whatever a call does, the pen records the calls that still stand after it. -/
theorem Records.step (h : p.Records (standing calls)) (c : Call PathStep) :
    (Pen.respond p c).1.Records (standing (calls ++ [c])) := by
  rw [standing_concat]
  cases hc : refusal? (openPath? (standing calls)) c with
  | none =>
    obtain ⟨q, hq, hrecords⟩ := h.respond hc
    rw [hq]
    exact hrecords
  | some e =>
    rw [h.respond_of_refusal hc]
    exact records_empty

def afterCalls (setting : Setting) (calls : List (Call PathStep)) : PathPen :=
  (session setting Pen.empty (calls.map fun c => .draw (.call c))).1

theorem records_afterCalls (setting : Setting) (calls : List (Call PathStep)) :
    (afterCalls setting calls).Records (standing calls) := by
  have hempty : Records Pen.empty (standing []) := records_empty
  exact session_calls (P := fun p calls => Records p (standing calls)) setting
    (fun _ _ c h => h.step c) hempty calls

theorem Records.obstacle?_eq (h : p.Records calls) :
    Pen.obstacle? p = if openPath? calls = none then none else some .pathNotStopped := by
  change p.obstacle? = _
  rw [obstacle?, h.path_eq]
  cases openPath? calls <;> rfl

theorem Records.outline_eq (h : p.Records calls) (hopen : openPath? calls = none) :
    p.sketch.outline = .ofContours ((stoppedPaths calls).filter (· ≠ [])) := by
  have hreads := h.reads
  rw [hopen] at hreads
  rw [← Sketch.flatMap_ending]
  exact hreads.outline_eq

theorem Records.respond_eq_error_iff {e : DrawError} (h : p.Records calls) :
    (Pen.respond p c).2 = .error e ↔ refusal? (openPath? calls) c = some e := by
  cases hc : refusal? (openPath? calls) c with
  | none =>
    obtain ⟨q, hq, -⟩ := h.respond hc
    rw [hq]
    simp
  | some e' =>
    rw [h.respond_of_refusal hc]
    simp

theorem sketch_finish (setting : Setting) (options : Options) (p : PathPen) :
    (finish setting options p).pen.sketch = .empty := by
  cases ho : Pen.obstacle? p with
  | none => rw [pen_finish_of_obstacle_none ho]
  | some e =>
    rw [finish_of_obstacle ho]
    rfl

theorem pen_finish_of_leavesNothingOpen {setting : Setting} (hp : Reachable setting p)
    (hmembers : setting.repertoire.LeavesNothingOpen PathPen) (options : Options) :
    (finish setting options p).pen = empty := by
  cases ho : Pen.obstacle? p with
  | none =>
    have hresolved := obstacle?_resolved hmembers hp.exists_traces ho options
    rw [pen_finish_of_obstacle_none ho, obstacle?_eq_none_iff.1 hresolved]
    rfl
  | some e =>
    rw [finish_of_obstacle ho]
    rfl

theorem Records.finish_of_pending_eq_empty {setting : Setting} (h : p.Records calls)
    (hopen : openPath? calls = none) (hpending : pending p = #[]) (options : Options) :
    finish setting options p =
      ⟨empty, #[], .ok (.simple (.ofContours ((stoppedPaths calls).filter (· ≠ []))))⟩ := by
  have ho : Pen.obstacle? p = none := by rw [h.obstacle?_eq, if_pos hopen]
  have hclear : clear p = empty := by
    change PathPen.mk _ p.path = _
    rw [obstacle?_eq_none_iff.1 ho]
    rfl
  rw [Pen.finish_of_pending_eq_empty ho hpending, hclear]
  exact congrArg (fun outline => Finished.mk empty #[] (Except.ok (Glyph.simple outline)))
    (h.outline_eq hopen)

structure Shows (setting : Setting) (calls : List (Call PathStep)) (p : PathPen) : Prop where
  /-- No path is started inside another one, even one without points. -/
  refuses_start_iff (e : DrawError) :
    (Pen.respond p (.mark .start)).2 = .error e ↔
      openPath? calls ≠ none ∧ e = .pathAlreadyStarted
  refuses_stop_iff (e : DrawError) :
    (Pen.respond p (.mark .stop)).2 = .error e ↔ openPath? calls = none ∧ e = .noPathStarted
  refuses_point_iff (v : Point Float) (role : Option Role) (smooth : Bool) (name : Option String)
    (e : DrawError) :
    (Pen.respond p (.mark (.point v role smooth name))).2 = .error e ↔
      (openPath? calls = none ∧ e = .noPathStarted) ∨
        (openPath? calls ≠ none ∧ role = some .cubic ∧ e = .cubicCurve) ∨
          (openPath? calls ≠ none ∧ role = some .move ∧ e = .moveInPath)
  accepts_component (r : Reference) : (Pen.respond p (.component r)).2 = .ok ()
  /-- A refused call discards everything. -/
  empties (c : Call PathStep) (e : DrawError) (h : (Pen.respond p c).2 = .error e) :
    (Pen.respond p c).1 = empty
  length_stoppedPaths : (stoppedPaths calls).length = calls.countP Call.stops
  /-- The stopped paths that have a point are kept as drawn. -/
  contours_eq : p.sketch.contours = (stoppedPaths calls).filter (· ≠ [])
  vertices_eq : p.sketch.vertices.toList = p.sketch.contours.flatten ++ (openPath? calls).getD []
  pending_eq : (pending p).toList = calls.filterMap Call.placed?
  /-- Finishing fails inside a path, and otherwise only with a member that it decomposes. -/
  finish_eq_error_iff (options : Options) (e : DrawError) :
    (finish setting options p).result = .error e ↔
      (openPath? calls ≠ none ∧ e = .pathNotStopped) ∨
        (openPath? calls = none ∧ ∃ turns b r, FailsAfter setting options p turns b r e)
  /-- Glyphs do not fail when they are decomposed, so with them only an open path does. -/
  finish_eq_error_iff_of_glyphs (hglyphs : setting.repertoire.OfGlyphs) (options : Options)
    (e : DrawError) :
    (finish setting options p).result = .error e ↔ openPath? calls ≠ none ∧ e = .pathNotStopped
  /-- Without components the glyph consists of the contours. -/
  finish_outline (hopen : openPath? calls = none) (h : pending p = #[]) (options : Options) :
    finish setting options p =
      ⟨empty, #[], .ok (.simple (.ofContours ((stoppedPaths calls).filter (· ≠ []))))⟩
  /-- Finishing discards everything that the calls have drawn, whether or not it fails. -/
  sketch_finish (options : Options) : (finish setting options p).pen.sketch = .empty
  /-- In a path it discards the path as well. -/
  finish_discards (hopen : openPath? calls ≠ none) (options : Options) :
    (finish setting options p).pen = empty
  /-- Only a member can leave a path started. -/
  finish_empties (hmembers : setting.repertoire.LeavesNothingOpen PathPen) (options : Options) :
    (finish setting options p).pen = empty

/-- After any calls on a new pen, those since the last refused one decide all that it does. -/
theorem shows_afterCalls (setting : Setting) (calls : List (Call PathStep)) :
    Shows setting (standing calls) (afterCalls setting calls) := by
  have h := records_afterCalls setting calls
  have hobstacle := h.obstacle?_eq
  have hreachable : Reachable setting (afterCalls setting calls) := ⟨_, rfl⟩
  refine
    { refuses_start_iff := fun e => h.respond_eq_error_iff.trans refusal?_start_iff
      refuses_stop_iff := fun e => h.respond_eq_error_iff.trans refusal?_stop_iff
      refuses_point_iff := fun v role smooth name e =>
        h.respond_eq_error_iff.trans refusal?_point_iff
      accepts_component := fun r => rfl
      empties := fun c e he => by rw [h.respond_of_refusal (h.respond_eq_error_iff.1 he)]
      length_stoppedPaths := h.length_eq
      contours_eq := by rw [h.reads.contours_eq, Sketch.flatMap_ending]
      vertices_eq := by rw [h.reads.contours_eq, h.reads.vertices]
      pending_eq := h.pending_eq
      finish_eq_error_iff := fun options e => finish_eq_error_iff_of_ite hobstacle
      finish_eq_error_iff_of_glyphs := fun hglyphs options e =>
        Pen.finish_eq_error_iff_of_glyphs hreachable hobstacle hglyphs options
      finish_outline := fun hopen hpending options =>
        h.finish_of_pending_eq_empty hopen hpending options
      sketch_finish := fun options => sketch_finish setting options _
      finish_discards := fun hopen options => ?_
      finish_empties := fun hmembers options =>
        pen_finish_of_leavesNothingOpen hreachable hmembers options }
  rw [if_neg hopen] at hobstacle
  rw [finish_of_obstacle hobstacle]
  rfl

def doodle : List (Call PathStep) :=
  [.mark .start, .mark (.point ⟨1, 1⟩ (some .line) false none), .component ⟨"dot", .identity⟩,
    .mark .start, .mark .start, .mark (.point ⟨2, 2⟩ none true none), .mark .stop, .mark .start,
    .mark .stop, .mark .start, .mark (.point ⟨0, 0⟩ (some .line) false (some "corner")),
    .mark (.point ⟨4, 0⟩ (some .quadratic) false none),
    .mark (.point ⟨0, 0⟩ (some .line) false none), .mark .stop]

/-- What stands of it is finished as two contours. A component may be placed inside a path, but no
glyph is finished there. -/
theorem finish_doodle :
    standing doodle = doodle.drop 4 ∧
      finish ⟨∅, true⟩ {} (afterCalls ⟨∅, true⟩ doodle) =
        ⟨empty, #[], .ok (.simple ⟨#[⟨2, 2⟩, ⟨0, 0⟩, ⟨4, 0⟩, ⟨0, 0⟩],
          #[false, true, true, true], #[0, 3], #[]⟩)⟩ ∧
      (pending (afterCalls ⟨∅, true⟩
        (doodle ++ [.mark .start, .component ⟨"dot", .identity⟩]))).toList =
          [⟨"dot", .identity⟩] ∧
      (finish ⟨∅, true⟩ {} (afterCalls ⟨∅, true⟩
        (doodle ++ [.mark .start, .component ⟨"dot", .identity⟩]))).result =
          .error .pathNotStopped := by
  have hopen := shows_afterCalls ⟨∅, true⟩ (doodle ++ [.mark .start, .component ⟨"dot", .identity⟩])
  refine ⟨rfl, ?_, ?_, (hopen.finish_eq_error_iff {} _).2 (.inl ⟨?_, rfl⟩)⟩
  · rw [(shows_afterCalls _ _).finish_outline rfl rfl {}]
    exact congrArg (fun outline => Finished.mk empty #[] (Except.ok (Glyph.simple outline)))
      (by decide +kernel)
  · rw [hopen.pending_eq]
    rfl
  · exact fun h => nomatch h

end PathPen

end GlyphDrawing
