import GlyphDrawing.Proofs.Resolution.OpenEnds

/-!
# A path pen that is used again

Finishing forgets the sketch of a pen and nothing else. A path pen also knows whether a path is
started, and a member that is decomposed may start one and not stop it. So a path pen that has
finished a glyph answers as a new one exactly if no member has left a path started
(`answers_as_new_iff`).
-/

namespace GlyphDrawing.PathPen

open Pen

variable {setting : Setting} {options : Options} {p : PathPen}

theorem pen_finish_of_obstacle_none (ho : Pen.obstacle? p = none) :
    (finish setting options p).pen = ⟨.empty, (resolved setting options p).1.pen.path⟩ := by
  rw [finish_eq ho]
  rfl

/-- A pen without sketch answers as a new one if it is a new one: otherwise it refuses to start a
path. -/
theorem answers_eq_iff (setting : Setting) (path : Option Nat) :
    (∀ requests, (session setting (⟨.empty, path⟩ : PathPen) requests).2 =
        (session setting (Pen.empty : PathPen) requests).2) ↔ path = none := by
  constructor
  · intro h
    cases path with
    | none => rfl
    | some count =>
      have hstart : [Answer.drawn (.error .pathAlreadyStarted)] = [Answer.drawn (.ok ())] :=
        h [.draw (.call (.mark .start))]
      cases hstart
  · rintro rfl requests
    rfl

theorem answers_finish_eq_iff (setting : Setting) (options : Options) (p : PathPen) :
    (∀ requests, (session setting (finish setting options p).pen requests).2 =
        (session setting (Pen.empty : PathPen) requests).2) ↔
      (Pen.obstacle? p = none → (resolved setting options p).1.pen.path = none) := by
  cases ho : Pen.obstacle? p with
  | some e =>
    rw [finish_of_obstacle ho]
    exact iff_of_true (fun _ => rfl) fun h => by cases h
  | none =>
    rw [pen_finish_of_obstacle_none ho, answers_eq_iff]
    exact ⟨fun h _ => h, fun h => h rfl⟩

/-- After a glyph has been finished, with or without success, a path pen answers as a new one
exactly if the resolution has left no path started. If it has left one, the next start of a path is
refused, and the pen is as new after that. Members that leave nothing open leave no path started. -/
theorem answers_as_new_iff (setting : Setting) (options : Options) (p : PathPen) :
    ((∀ requests, (session setting (finish setting options p).pen requests).2 =
        (session setting (Pen.empty : PathPen) requests).2) ↔
      (Pen.obstacle? p = none → (resolved setting options p).1.pen.path = none)) ∧
    (Pen.obstacle? p = none → (resolved setting options p).1.pen.path ≠ none →
      respond (finish setting options p).pen (.mark .start) =
        (Pen.empty, .error .pathAlreadyStarted)) ∧
    (Reachable setting p → setting.repertoire.LeavesNothingOpen PathPen →
      ∀ requests, (session setting (finish setting options p).pen requests).2 =
        (session setting (Pen.empty : PathPen) requests).2) := by
  refine ⟨answers_finish_eq_iff setting options p, fun ho hpath => ?_, fun hp hmembers => ?_⟩
  · obtain ⟨count, hcount⟩ := Option.ne_none_iff_exists'.1 hpath
    rw [pen_finish_of_obstacle_none ho, hcount]
    rfl
  · refine (answers_finish_eq_iff setting options p).2 fun ho => ?_
    exact obstacle?_eq_none_iff.1 (obstacle?_resolved hmembers hp.exists_traces ho options)

section Snag

def snag : Source :=
  .custom .done (.andThen (.call (.mark .start)) (.fail .cubicCurve))

def snagSetting : Setting where
  repertoire := (∅ : Repertoire).insert "snag" snag

def snagged : PathPen :=
  (session snagSetting Pen.empty [
    .draw (.ofMarks [.start, .point ⟨3, 3⟩ (some .line) false none, .stop]),
    .draw (.ofReferences [⟨"snag", .identity⟩])]).1

theorem finish_snagged :
    finish snagSetting {} snagged =
      ⟨⟨.empty, some 0⟩, #[.decomposing "snag"], .error .cubicCurve⟩ := by
  have hvertices : (sketch snagged).vertices ≠ #[] := fun h => nomatch congrArg Array.size h
  rw [finish_of_single rfl rfl hvertices rfl rfl]
  rfl

/-- Finishing fails in the middle of a path, and a path that is then started is refused. So it is
after a glyph that has been finished with a path left open. -/
theorem start_refused_after_finish :
    ((finish snagSetting {} snagged).result = .error .cubicCurve ∧
      (session snagSetting (finish snagSetting {} snagged).pen
        [.draw (.call (.mark .start))]).2 ≠
          (session snagSetting (Pen.empty : PathPen) [.draw (.call (.mark .start))]).2) ∧
      (∃ o, (finish spikeSetting {} spikedSteps).result = .ok (.simple o)) ∧
        (session spikeSetting (finish spikeSetting {} spikedSteps).pen
          [.draw (.call (.mark .start))]).2 ≠
            (session spikeSetting (Pen.empty : PathPen) [.draw (.call (.mark .start))]).2 := by
  obtain ⟨-, hpen, hresult⟩ := finish_spiked
  refine ⟨⟨by rw [finish_snagged], ?_⟩, ⟨_, hresult⟩, ?_⟩
  · rw [finish_snagged]
    exact fun h => by cases h
  · rw [hpen]
    exact fun h => by cases h

/-- No request tells the pen from a new one after the dots; the snag leaves a path started. -/
theorem answers_after_snag :
    (¬ ∀ requests, (session snagSetting (finish snagSetting {} snagged).pen requests).2 =
        (session snagSetting (Pen.empty : PathPen) requests).2) ∧
      respond (finish snagSetting {} snagged).pen (.mark .start) =
        (Pen.empty, .error .pathAlreadyStarted) ∧
      ∀ requests, (session dots (finish dots {} dottedSteps).pen requests).2 =
        (session dots (Pen.empty : PathPen) requests).2 := by
  obtain ⟨hiff, hrefused, -⟩ := answers_as_new_iff snagSetting {} snagged
  obtain ⟨-, -, hnew⟩ := answers_as_new_iff dots {} dottedSteps
  have hpath : (resolved snagSetting {} snagged).1.pen.path = some 0 :=
    congrArg path ((pen_finish_of_obstacle_none rfl).symm.trans
      (congrArg Finished.pen finish_snagged))
  have hne : (resolved snagSetting {} snagged).1.pen.path ≠ none := by
    rw [hpath]
    exact Option.some_ne_none 0
  have hglyphs : dots.repertoire.OfGlyphs := (Repertoire.all_empty _).insert _ ⟨_, rfl⟩
  exact ⟨fun h => hne (hiff.1 h rfl), hrefused rfl hne,
    hnew ⟨_, rfl⟩ (hglyphs.leavesNothingOpen PathPen)⟩

end Snag

end GlyphDrawing.PathPen
