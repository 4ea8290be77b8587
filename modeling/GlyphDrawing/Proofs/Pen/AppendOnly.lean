import GlyphDrawing.Proofs.Course
import GlyphDrawing.Proofs.Drawing.Calls
import GlyphDrawing.Proofs.Resolution.Failure
import GlyphDrawing.Proofs.Resolution.Genealogy

/-!
# Sketches only grow

Closing a contour takes vertices away from the row, an anchor or a last vertex that repeats the
first, and ends are indices into that row. But a call that is accepted acts on the open run alone,
so no row of accepted calls reaches back behind the last end: up to there vertices and ends stay as
they are, and so do the references that are pending (`Attained.appends_only`). This holds for calls
that are made one by one, for those of a drawing under any transforms, and for all that a
resolution draws.
-/

namespace GlyphDrawing

/-- Ends, vertices up to the last end and pending references of `s` stand in `t` as they are. -/
structure Sketch.ExtendedTo (s t : Sketch) : Prop where
  ends : s.ends.toList <+: t.ends.toList
  vertices : ∀ last ∈ s.ends, ∀ i ≤ last, ∃ v, s.vertices[i]? = some v ∧ t.vertices[i]? = some v
  pending : s.pending.toList <+: t.pending.toList
  /-- A sketch with a contour has vertices, and keeps some. -/
  nonempty : s.ends ≠ #[] → s.vertices ≠ #[] ∧ t.vertices ≠ #[]

theorem Sketch.Reads.extendedTo {s t : Sketch} {contours more : List (List (Vertex Float))}
    {run run' : List (Vertex Float)} (hs : s.Reads contours run)
    (ht : t.Reads (contours ++ more) run') (hpending : s.pending.toList <+: t.pending.toList) :
    s.ExtendedTo t := by
  have hends : s.ends.toList <+: t.ends.toList := by
    rw [hs.ends, ht.ends, lastIndices_append]
    exact List.prefix_append _ _
  refine ⟨hends, fun last hlast i hi => ?_, hpending, fun hne => ?_⟩
  · rw [← Array.mem_toList_iff, hs.ends] at hlast
    have hlt : i < contours.flatten.length := by
      have := (bounds_of_mem_lastIndices hs.nonempty hlast).2
      omega
    refine ⟨contours.flatten[i], ?_, ?_⟩
    · rw [← Array.getElem?_toList, hs.vertices, List.getElem?_append_left hlt,
        List.getElem?_eq_getElem hlt]
    · rw [← Array.getElem?_toList, ht.vertices, List.flatten_append, List.append_assoc,
        List.getElem?_append_left hlt, List.getElem?_eq_getElem hlt]
  · have hne' : t.ends ≠ #[] := by
      rintro hempty
      rw [hempty] at hends
      exact hne (Array.toList_eq_nil_iff.1 (List.prefix_nil.1 hends))
    exact ⟨fun h => hne (hs.fits.ends_eq_empty h), fun h => hne' (ht.fits.ends_eq_empty h)⟩

namespace OutlinePen

open Pen

variable {π Mark : Type} [SMul Affine Mark] [OutlinePen π Mark] {p : π}
  {contours : List (List (Vertex Float))} {run : List (Vertex Float)} {calls : List (Call Mark)}

theorem traces_after (h : Traces p contours run) (hcalls : Accepted respond p calls) :
    ∃ more run', Traces (after respond p calls) (contours ++ more) run' := by
  induction calls generalizing p contours run with
  | nil => exact ⟨[], run, by rwa [List.append_nil]⟩
  | cons c calls ih =>
    obtain ⟨more, run', h'⟩ := traces_respond h hcalls.1
    exact exists_traces_trans (ih h' hcalls.2)

theorem pending_after (hcalls : Accepted respond p calls) :
    (pending p).toList <+: (pending (after respond p calls)).toList := by
  induction calls generalizing p with
  | nil => exact List.prefix_refl _
  | cons c calls ih =>
    obtain ⟨added, hadded⟩ := exists_pending_respond hcalls.1
    have hstep : (pending p).toList <+: (pending (respond p c).1).toList := by
      rw [hadded, Array.toList_append]
      exact List.prefix_append _ _
    exact hstep.trans (ih hcalls.2)

/-- Accepted calls only add to a sketch. -/
theorem extendedTo_after (h : ∃ contours run, Traces p contours run)
    (hcalls : Accepted respond p calls) :
    (sketch p).ExtendedTo (sketch (after respond p calls)) := by
  obtain ⟨contours, run, h⟩ := h
  obtain ⟨more, run', h'⟩ := traces_after h hcalls
  exact (reads_of_traces h).extendedTo (reads_of_traces h') (pending_after hcalls)

theorem exists_traces_after (h : ∃ contours run, Traces p contours run)
    (calls : List (Call Mark)) :
    ∃ contours run, Traces (after respond p calls) contours run := by
  induction calls generalizing p with
  | nil => exact h
  | cons c calls ih => exact ih (exists_traces_draw h (.call c))

end OutlinePen

namespace Resolution

variable {π Mark : Type} [Pen π Mark] [SMul Affine Mark] {job : Job} {a b : Resolution π}
  {turns : List (Turn π)}

def Turn.calls (job : Job) (t : Turn π) : List (Call Mark) :=
  match t.outcome job with
  | .decomposed source => (drawn π source t.reference).calls Pen.respond t.state.pen
  | .missing | .selfReferring | .kept => []

def nextCalls (job : Job) (a : Resolution π) : List (Call Mark) :=
  match (Pen.pending a.pen)[a.next]? with
  | some r => Turn.calls job ⟨a, r⟩
  | none => []

theorem nextCalls_of_some {r : Reference} (hr : (Pen.pending a.pen)[a.next]? = some r) :
    a.nextCalls job = Turn.calls job ⟨a, r⟩ := by
  rw [nextCalls, hr]

theorem pen_step (job : Job) (a : Resolution π) (r : Reference) :
    (a.step job r).1.pen = after Pen.respond a.pen (Turn.calls job ⟨a, r⟩) := by
  rw [step_eq, Turn.calls, Turn.outcome]
  cases a.outcome job r with
  | missing | selfReferring | kept => rfl
  | decomposed source => exact (Drawing.after_calls Pen.respond (drawn π source r) a.pen).symm

/-- A resolution does nothing to its pen but make the calls of its turns. -/
theorem Turns.pen_eq (h : Turns job a turns b) :
    b.pen = after Pen.respond a.pen (turns.flatMap (Turn.calls job)) := by
  induction h with
  | refl => rfl
  | @snoc turns b c r _ _ hc ih =>
    have hstep := pen_step job b r
    rw [hc] at hstep
    rw [hstep, ih, List.flatMap_append, List.flatMap_singleton, after_append]

/-- Up to the next turn, a resolution has made some of the calls that it makes to its end. -/
theorem Turns.calls_isPrefix {c : Resolution π} {earlier : List (Turn π)}
    (h : Turns job a turns b) (hended : b.Ended job) (hc : Turns job a earlier c) :
    earlier.flatMap (Turn.calls job) ++ c.nextCalls job <+:
      turns.flatMap (Turn.calls job) ++ b.nextCalls job := by
  obtain ⟨later, rfl, hlater⟩ := h.exists_later hended hc
  rw [List.flatMap_append, List.append_assoc, List.prefix_append_right_inj]
  cases later with
  | nil =>
    rw [hlater.eq_of_nil]
    exact List.prefix_refl _
  | cons t later =>
    -- the turn that comes next after `earlier` is the first of the later ones
    obtain ⟨rfl, hr, -⟩ := hlater.of_cons
    rw [nextCalls_of_some hr, List.flatMap_cons, List.append_assoc]
    exact List.prefix_append _ _

end Resolution

namespace Pen

open Resolution

section Made

variable {π Mark : Type} [Pen π Mark] [SMul Affine Mark] {setting : Setting} {options : Options}
  {p q : π} {request : Request Mark} {calls calls' : List (Call Mark)}

/-- At some moment of answering the request, the pen `p` has received these calls. -/
inductive Made (setting : Setting) (p : π) : Request Mark → List (Call Mark) → Prop
  | drawing {d : Drawing Mark} {calls : List (Call Mark)} (h : calls <+: d.calls respond p) :
      Made setting p (.draw d) calls
  | finishing {options : Options} {turns : List (Turn π)} {a : Resolution π}
      {calls : List (Call Mark)} (ho : obstacle? p = none)
      (hturns : (start p).Turns (job setting options p) turns a)
      (h : calls <+: turns.flatMap (Turn.calls (job setting options p)) ++
        a.nextCalls (job setting options p)) : Made setting p (.finish options) calls

/-- The moments of a request come one after the other. -/
theorem Made.prefix_or_prefix (h : Made setting p request calls)
    (h' : Made setting p request calls') : calls <+: calls' ∨ calls' <+: calls := by
  cases h with
  | drawing h =>
    cases h' with
    | drawing h' => exact List.prefix_or_prefix_of_prefix h h'
  | @finishing options _ _ _ _ hturns h =>
    cases h' with
    | finishing _ hturns' h' =>
      obtain ⟨turns, b, hb, hend⟩ := exists_turns_run (job setting options p) (start p)
      have hended : b.Ended (job setting options p) := by
        intro r hr
        rcases hend with ⟨hnone, -⟩ | ⟨r', c, e, hr', hc, -⟩
        · cases hnone.symm.trans hr
        · obtain rfl : r' = r := Option.some.inj (hr'.symm.trans hr)
          exact ⟨e, congrArg Prod.snd hc⟩
      exact List.prefix_or_prefix_of_prefix (h.trans (hb.calls_isPrefix hended hturns))
        (h'.trans (hb.calls_isPrefix hended hturns'))

/-- Whatever state the pen passes, calls of the request have led it there. -/
theorem Passes.exists_made (h : Passes setting p request q) :
    ∃ calls, Made setting p request calls ∧ after respond p calls = q := by
  cases h with
  | drawing hq =>
    obtain ⟨calls, hprefix, hcalls⟩ := Drawing.exists_prefix_of_mem_trail hq
    exact ⟨calls, .drawing hprefix, hcalls⟩
  | @decomposing options turns a r source q ho hturns hr hsource hq =>
    obtain ⟨calls, hprefix, hcalls⟩ := Drawing.exists_prefix_of_mem_trail hq
    have hnext : a.nextCalls (job setting options p) = (drawn π source r).calls respond a.pen := by
      rw [nextCalls_of_some hr, Turn.calls, Turn.outcome, hsource]
    rw [← hnext] at hprefix
    refine ⟨_, .finishing ho hturns ((List.prefix_append_right_inj _).2 hprefix), ?_⟩
    rw [after_append, ← hcalls, hturns.pen_eq]
    rfl

/-- When a glyph is finished, its calls lead to the pen that is cleared then. -/
theorem exists_made_resolved (ho : obstacle? p = none) (options : Options) :
    ∃ calls, Made setting p (.finish options) calls ∧
      after respond p calls = (resolved setting options p).1.pen := by
  obtain ⟨turns, b, hb, hend⟩ := exists_turns_run (job setting options p) (start p)
  refine ⟨_, .finishing ho hb (List.prefix_refl _), ?_⟩
  rw [after_append, resolved, show after respond p _ = b.pen from hb.pen_eq.symm]
  rcases hend with ⟨hnone, hrun⟩ | ⟨r, c, e, hr, hc, hrun⟩
  · rw [hrun, nextCalls, hnone]
    rfl
  · have hstep := pen_step (job setting options p) b r
    rw [hc] at hstep
    rw [hrun, hstep, nextCalls_of_some hr]

end Made

section AppendsOnly

variable {π Mark : Type} [SMul Affine Mark] [OutlinePen π Mark] {setting : Setting} {p : π}

/-- What is drawn on the pen is added to its sketch, as long as nothing is refused. -/
structure AppendsOnly (setting : Setting) (p : π) : Prop where
  /-- From any moment to any later one, accepted calls add to the sketch. -/
  calls (earlier : List (Call Mark)) {later : List (Call Mark)}
    (h : Accepted respond (after respond p earlier) later) :
    (sketch (after respond p earlier)).ExtendedTo (sketch (after respond p (earlier ++ later)))
  drawing {d : Drawing Mark} (h : d.refusal? respond p = none) :
    (sketch p).ExtendedTo (sketch (draw p d).1)
  moments {request : Request Mark} {calls calls' : List (Call Mark)}
    (h : Made setting p request calls) (h' : Made setting p request calls') :
    calls <+: calls' ∨ calls' <+: calls
  passes {request : Request Mark} {q : π} (h : Passes setting p request q) :
    ∃ calls, Made setting p request calls ∧ after respond p calls = q
  /-- Finishing is no exception until the sketch is cleared. -/
  finishing (ho : obstacle? p = none) (options : Options) :
    ∃ calls, Made setting p (.finish options) calls ∧
      after respond p calls = (resolved setting options p).1.pen

/-- Whatever has been drawn on a pen, also in the middle of a request: what stands in its sketch up
to the last end stays until a call is refused or the glyph is finished. -/
theorem Attained.appends_only (hp : Attained setting p) : AppendsOnly setting p where
  calls earlier later h := by
    rw [after_append]
    exact OutlinePen.extendedTo_after (OutlinePen.exists_traces_after hp.exists_traces earlier) h
  drawing h := by
    rw [draw, ← Drawing.after_calls]
    exact OutlinePen.extendedTo_after hp.exists_traces (Drawing.accepted_calls_iff.2 h)
  moments h h' := h.prefix_or_prefix h'
  passes h := h.exists_made
  finishing ho options := exists_made_resolved ho options

end AppendsOnly

section Burr

def burr : List (Call Stroke) :=
  [.mark .close, .mark (.move ⟨0, 4⟩), .mark .finish, .component ⟨"wild", .identity⟩,
    .mark (.line ⟨7, 7⟩), .mark (.line ⟨8, 8⟩), .mark (.line ⟨7, 7⟩), .mark .close, .mark .close]

def speck : List (Call PathStep) :=
  [.mark .start, .component ⟨"wild", .identity⟩, .mark .stop, .mark .start,
    .mark (.point ⟨1, 2⟩ (some .line) false none), .mark .stop]

/-- A triangle stays as it is while the burr is drawn after it. In the course of a decomposition a
dot stays as it is too. -/
theorem appends_only_burr :
    (wildStrokes.sketch.ends = #[2] ∧ Accepted respond wildStrokes burr ∧
      wildStrokes.sketch.ExtendedTo (after respond wildStrokes burr).sketch) ∧
    (strayPath.sketch.ends = #[0] ∧ Accepted respond strayPath speck ∧
      strayPath.sketch.ExtendedTo (after respond strayPath speck).sketch) ∧
    ∃ calls, Made wildSetting wildStrokes (.finish {}) calls ∧
      after respond wildStrokes calls = (resolved wildSetting {} wildStrokes).1.pen := by
  have hstrokes : Attained wildSetting wildStrokes := .inl ⟨_, rfl⟩
  have hburr : Accepted respond wildStrokes burr :=
    ⟨rfl, rfl, rfl, rfl, rfl, rfl, rfl, rfl, rfl, trivial⟩
  have hspeck : Accepted respond strayPath speck := ⟨rfl, rfl, rfl, rfl, rfl, rfl, trivial⟩
  exact ⟨⟨rfl, hburr, hstrokes.appends_only.calls [] hburr⟩,
    ⟨rfl, hspeck, attained_strayPath.appends_only.calls [] hspeck⟩,
    hstrokes.appends_only.finishing rfl {}⟩

end Burr

end Pen

end GlyphDrawing
