import GlyphDrawing.Proofs.Course
import GlyphDrawing.Proofs.Drawing.Rest
import GlyphDrawing.Proofs.Pen.StrokeHistory
import GlyphDrawing.Proofs.Resolution.Failure

/-!
# What an error leaves behind

A pen that refuses a call forgets everything, so from then on it cannot be told from a new pen,
neither by the rest of the drawing that made the call nor by any request after it. A stroke pen that
has finished a glyph cannot either, whether or not it failed. A member that cannot be drawn ends the
resolution with its error, and what is still pending then has no part in the result
(`error_aborts`).
-/

namespace GlyphDrawing

namespace Resolution

variable {π Mark : Type} [Pen π Mark] [SMul Affine Mark] {job : Job} {a b : Resolution π}
  {turns : List (Turn π)}

/-- References have their turns in the order in which they are pending. -/
theorem Turns.indices_eq (h : Turns job a turns b) :
    turns.map (·.state.next) = List.range' a.next turns.length := by
  induction h with
  | refl => rfl
  | snoc hb _ _ ih =>
    rw [List.map_append, ih, List.map_singleton, hb.next_eq, List.length_append,
      List.length_singleton, List.range'_concat, Nat.one_mul]

end Resolution

namespace Pen

open Resolution

variable {π Mark : Type} [Pen π Mark] [SMul Affine Mark] {setting : Setting} {options : Options}
  {p : π} {turns : List (Turn π)} {b : Resolution π} {r : Reference} {e : DrawError}

/-- No request tells the pen from a new one. -/
def AnswersAsNew (setting : Setting) (p : π) : Prop :=
  ∀ requests, (session setting p requests).2 = (session setting (empty : π) requests).2

/-- The resolution stops with the error of its turn for `r`, the first one that fails. -/
structure StopsAfter (setting : Setting) (options : Options) (p : π) (turns : List (Turn π))
    (b : Resolution π) (r : Reference) (e : DrawError) : Prop where
  result_eq : (finish setting options p).result = .error e
  succeeds {t : Turn π} (ht : t ∈ turns) : (t.step (job setting options p)).2 = .ok ()
  indices_eq : (turns ++ [Turn.mk b r]).map (·.state.next) = List.range (turns.length + 1)
  /-- No turn comes after it. -/
  isPrefix {earlier : List (Turn π)} {c : Resolution π}
    (h : (start p).Turns (job setting options p) earlier c) : earlier <+: turns
  notices_eq : (finish setting options p).notices.toList =
    (turns ++ [Turn.mk b r]).flatMap (Turn.notices (job setting options p))
  /-- No call comes after those of the drawing that fails. -/
  pen_eq : ∃ source, setting.repertoire[r.name]? = some source ∧
    (resolved setting options p).1.pen = (draw b.pen (drawn π source r)).1
  /-- No other name is looked up. -/
  finish_of_lookups {repertoire : Repertoire}
    (h : ∀ t ∈ turns ++ [⟨b, r⟩],
      repertoire[t.reference.name]? = setting.repertoire[t.reference.name]?) :
    finish { setting with repertoire := repertoire } options p = finish setting options p

theorem FailsAfter.stopsAfter (h : FailsAfter setting options p turns b r e) :
    StopsAfter setting options p turns b r e where
  result_eq := h.result_eq
  succeeds ht := by
    obtain ⟨-, -, c, -, -, -, hstep, -⟩ := h.turns.of_mem ht
    rw [hstep]
  indices_eq := by
    have hnext : b.next = turns.length := h.turns.next_eq.trans (Nat.zero_add _)
    rw [List.map_append, h.turns.indices_eq, List.map_singleton, hnext, List.range_succ,
      List.range_eq_range']
    rfl
  isPrefix hc := h.turns.isPrefix h.ended hc
  notices_eq := h.notices_eq
  pen_eq := by
    obtain ⟨source, hsource, -⟩ := h.fails
    refine ⟨source, (outcome_eq_decomposed_iff.1 hsource).1, ?_⟩
    rw [h.resolved_eq, step_of_decomposed hsource]
    rfl
  finish_of_lookups := h.finish_of_lookups

structure Aborts (π : Type) {Mark : Type} [Pen π Mark] [SMul Affine Mark] (setting : Setting) :
    Prop where
  /-- After a refused call the pen is as new. -/
  call {p : π} {c : Call Mark} {e : DrawError} (h : (respond p c).2 = .error e) :
    AnswersAsNew setting (respond p c).1
  /-- What comes after a call that is refused in the middle of a drawing, in it and after it, comes
  as on a new pen. -/
  drawing {p : π} {d : Drawing Mark} {e : DrawError} (h : d.refusal? respond p = some e) :
    ∃ rest, d.rest? respond p = some rest ∧ draw p d = draw empty rest ∧
      ∀ requests, (session setting p (.draw d :: requests)).2 =
        (session setting (empty : π) (.draw rest :: requests)).2
  /-- A member that cannot be drawn ends the resolution. -/
  member {options : Options} {p : π} {turns : List (Turn π)} {b : Resolution π} {r : Reference}
    {e : DrawError} (h : FailsAfter setting options p turns b r e) :
    StopsAfter setting options p turns b r e

omit [SMul Affine Mark] in
theorem respond_of_error {c : Call Mark} (h : (respond p c).2 = .error e) :
    (respond p c).1 = empty := by
  cases c with
  | mark m => exact eq_empty_of_mark (Prod.ext rfl h)
  | component r => cases h

theorem answersAsNew_empty (setting : Setting) : AnswersAsNew setting (empty : π) :=
  fun _ => rfl

theorem aborts (π : Type) {Mark : Type} [Pen π Mark] [SMul Affine Mark] (setting : Setting) :
    Aborts π setting where
  call h := by
    rw [respond_of_error h]
    exact answersAsNew_empty setting
  drawing {p d e} h := by
    obtain ⟨rest, hrest⟩ := Drawing.exists_rest? h
    have hdraw : draw p d = draw empty rest :=
      Drawing.run_eq_of_rest? (fun _ _ _ he => respond_of_error he) hrest
    refine ⟨rest, hrest, hdraw, fun requests => ?_⟩
    simp only [session, answer, hdraw]
  member h := h.stopsAfter

/-- Whatever has been drawn on a pen, and whatever the members of its repertoire do: a refused call
leaves it as new, and a member that cannot be drawn ends the resolution with its error. A stroke pen
is as new whenever it has been asked to finish. -/
theorem error_aborts (setting : Setting) :
    Aborts StrokePen setting ∧ Aborts PathPen setting ∧
      ∀ (options : Options) (p : StrokePen),
        AnswersAsNew setting (finish setting options p).pen := by
  refine ⟨aborts StrokePen setting, aborts PathPen setting, fun options p => ?_⟩
  rw [StrokePen.pen_finish]
  exact answersAsNew_empty setting

section Blot

def blots : Setting where
  repertoire := ((∅ : Repertoire).insert "mute" (.custom .done .done)).insert "blot"
    (.custom (.ofMarks [.line ⟨1, 1⟩, .cubic #[]]) .done)

def blotted : StrokePen :=
  (session blots empty [
    .draw (.ofMarks [.move ⟨0, 0⟩, .line ⟨4, 0⟩, .line ⟨0, 4⟩, .close]),
    .draw (.ofReferences [⟨"mute", .identity⟩, ⟨"blot", .identity⟩, ⟨"ghost", .identity⟩])]).1

def blottedOnce : Resolution StrokePen :=
  ⟨blotted, Array.replicate 3 none, 1, #[], #[.decomposing "mute"]⟩

theorem vertices_blotted : (sketch blotted).vertices ≠ #[] :=
  fun h => nomatch congrArg Array.size h

theorem outcome_mute : (start blotted).outcome (job blots {} blotted) ⟨"mute", .identity⟩ =
    .decomposed (.custom .done .done) :=
  outcome_start_eq_decomposed rfl vertices_blotted

theorem outcome_blot : blottedOnce.outcome (job blots {} blotted) ⟨"blot", .identity⟩ =
    .decomposed (.custom (.ofMarks [.line ⟨1, 1⟩, .cubic #[]]) .done) :=
  outcome_eq_decomposed_iff.2 ⟨rfl, .inl vertices_blotted, by decide +kernel⟩

theorem failsAfter_blotted :
    FailsAfter blots {} blotted [⟨start blotted, ⟨"mute", .identity⟩⟩] blottedOnce
      ⟨"blot", .identity⟩ .cubicCurve :=
  ⟨rfl, Turns.refl.snoc rfl ((step_of_decomposed outcome_mute).trans rfl), rfl, _, outcome_blot,
    rfl⟩

def halfPath : PathPen :=
  (session blots empty [.draw (.ofMarks [.start, .point ⟨3, 3⟩ none false none])]).1

/-- A stroke is refused under two transforms, and the drawing goes on as on a new pen. A path is
refused inside another one. The second of three components cannot be drawn, and it makes no
difference what the third one names. -/
theorem abort_blots :
    (∃ rest, (Drawing.through .identity (.through .identity wild.strokes)).rest? respond blotted =
        some rest ∧
      draw blotted (.through .identity (.through .identity wild.strokes)) = draw empty rest) ∧
    ((respond halfPath (.mark .start)).2 = .error .pathAlreadyStarted ∧
      AnswersAsNew blots (respond halfPath (.mark .start)).1) ∧
    ((finish blots {} blotted).result = .error .cubicCurve ∧
      (finish blots {} blotted).notices.toList = [.decomposing "mute", .decomposing "blot"] ∧
      (∀ source, finish { blots with repertoire := blots.repertoire.insert "ghost" source } {}
        blotted = finish blots {} blotted) ∧
      AnswersAsNew blots (finish blots {} blotted).pen) := by
  obtain ⟨hstrokes, hpaths, hfinish⟩ := error_aborts blots
  have hstops := hstrokes.member failsAfter_blotted
  obtain ⟨rest, hrest, hdraw, -⟩ := hstrokes.drawing (p := blotted) (e := .contourOpen)
    (d := .through .identity (.through .identity wild.strokes)) rfl
  have hstart : (respond halfPath (.mark .start)).2 = .error .pathAlreadyStarted := rfl
  refine ⟨⟨rest, hrest, hdraw⟩, ⟨hstart, hpaths.call hstart⟩, hstops.result_eq, ?_,
    fun source => hstops.finish_of_lookups fun t ht => ?_, hfinish {} blotted⟩
  · simp only [hstops.notices_eq, List.cons_append, List.nil_append, List.flatMap_cons,
      List.flatMap_nil, Turn.notices, Turn.outcome, outcome_mute, outcome_blot]
  · have hname : t.reference.name = "mute" ∨ t.reference.name = "blot" := by
      rcases List.mem_cons.1 ht with rfl | ht
      · exact .inl rfl
      · exact .inr (congrArg (·.reference.name) (List.mem_singleton.1 ht))
    rw [Std.TreeMap.getElem?_insert, if_neg]
    rcases hname with hname | hname <;> rw [hname] <;> decide

end Blot

end Pen

end GlyphDrawing
