import GlyphDrawing.Proofs.Pen.PathOutline
import GlyphDrawing.Proofs.Pen.DrawnGlyph
import GlyphDrawing.Proofs.Resolution.Genealogy
import GlyphDrawing.Proofs.Resolution.Kept
import GlyphDrawing.Proofs.Session

/-!
# All components or none

Whether components are kept is decided once, for all of them, by the pen at the start: without
vertices and without a transform that overflows, all references that name a member are kept as they
stand; otherwise none is, also none that a decomposition adds. The test for vertices is made anew
in every turn, but closed contours stay on the pen (`traces_draw`), so that it cannot turn out
otherwise later (`kept_or_decomposed_together`).
-/

namespace GlyphDrawing

namespace Pen

variable {π Mark : Type} [Pen π Mark] {setting : Setting} {p : π}

/-- The glyph cannot be made of components: the pen has vertices, or some pending transform has an
entry that cannot be made to fit. -/
def Forced (setting : Setting) (p : π) : Prop :=
  (sketch p).vertices ≠ #[] ∨
    setting.fit = true ∧ ∃ r ∈ pending p, ∃ v ∈ r.placement.linear.toList, v > 2 ∨ v < -2

theorem forced_iff (options : Options) :
    Forced setting p ↔
      (sketch p).vertices ≠ #[] ∨ (job setting options p).overflowing = true := by
  rw [Forced, job, Bool.and_eq_true, Array.any_eq_true']
  simp [Linear.overflows]

theorem not_forced_iff (options : Options) :
    ¬ Forced setting p ↔
      (sketch p).vertices = #[] ∧ (job setting options p).overflowing = false := by
  rw [forced_iff options]
  simp

def components (setting : Setting) (options : Options) (p : π) : Array Component :=
  ((pending p).filter fun r => setting.repertoire.contains r.name).map fun r =>
    ⟨r.name, r.placement.offset.map roundToInt32, r.placement.linear.stored? setting.fit, options⟩

end Pen

namespace Resolution

section Unforced

variable {π Mark : Type} [Pen π Mark] {setting : Setting} {options : Options} {p : π}
  {a b : Resolution π} {r : Reference} {turns : List (Turn π)}

theorem not_decomposed_of_not_forced (h : ¬ Pen.Forced setting p) (ha : a.pen = p)
    (source : Source) : a.outcome (Pen.job setting options p) r ≠ .decomposed source := by
  obtain ⟨hvertices, hoverflowing⟩ := (Pen.not_forced_iff options).1 h
  intro ho
  obtain ⟨-, hne | htrue, -⟩ := outcome_eq_decomposed_iff.1 ho
  · exact hne (ha ▸ hvertices)
  · rw [hoverflowing] at htrue
    cases htrue

/-- The pen is untouched, and what stands before the next reference has been kept or is missing. -/
structure Gathered (setting : Setting) (options : Options) (p : π) (a : Resolution π) : Prop where
  pen_eq : a.pen = p
  kept_eq : a.kept.toList =
    (((Pen.pending p).toList.take a.next).filter fun r =>
      setting.repertoire.contains r.name).map (Component.ofReference setting.fit options)

theorem gathered_start : Gathered setting options p (start p) where
  pen_eq := rfl
  kept_eq := by simp [start]

theorem Gathered.kept_eq_components (ha : Gathered setting options p a)
    (hnone : (Pen.pending a.pen)[a.next]? = none) : a.kept = Pen.components setting options p := by
  obtain ⟨hpen, hkept⟩ := ha
  rw [hpen, Array.getElem?_eq_none_iff, ← Array.length_toList] at hnone
  rw [List.take_of_length_le hnone] at hkept
  rw [← Array.toList_inj, hkept, Pen.components, Array.toList_map, Array.toList_filter]
  rfl

variable [SMul Affine Mark]

theorem gathered_step (h : ¬ Pen.Forced setting p) (ha : Gathered setting options p a)
    (hr : (Pen.pending a.pen)[a.next]? = some r)
    (hb : a.step (Pen.job setting options p) r = (b, .ok ())) :
    Gathered setting options p b := by
  obtain ⟨hpen, hkept⟩ := ha
  rw [hpen, ← Array.getElem?_toList] at hr
  have htake := take_succ_of_getElem? hr
  obtain ⟨ho, rfl⟩ | ⟨ho, rfl⟩ | ⟨source, ho, -⟩ | ⟨ho, rfl⟩ := step_cases hb
  · have hmissing : setting.repertoire.contains r.name = false := by
      have := outcome_eq_missing_iff.1 ho
      rw [Std.TreeMap.contains_eq_isSome_getElem?]
      exact Option.isSome_eq_false_iff.2 (Option.isNone_iff_eq_none.2 this)
    have hfilter : [r].filter (fun r => setting.repertoire.contains r.name) = [] := by
      simp [hmissing]
    refine ⟨hpen, ?_⟩
    rw [skip, htake, List.filter_append, hfilter, List.append_nil]
    exact hkept
  · obtain ⟨⟨source, hsource⟩, hforced, -⟩ := outcome_eq_selfReferring_iff.1 ho
    rw [hpen] at hforced
    exact absurd ((Pen.forced_iff options).2 hforced) h
  · exact absurd ho (not_decomposed_of_not_forced h hpen source)
  · obtain ⟨⟨source, hsource⟩, -⟩ := outcome_eq_kept_iff.1 ho
    have hmember : setting.repertoire.contains r.name = true := by
      rw [Std.TreeMap.contains_eq_isSome_getElem?]
      exact Option.isSome_of_eq_some hsource
    have hfilter : [r].filter (fun r => setting.repertoire.contains r.name) = [r] := by
      simp [hmember]
    refine ⟨hpen, ?_⟩
    rw [keep, htake, List.filter_append, hfilter, List.map_append, Array.toList_push, hkept]
    rfl

theorem Turns.gathered (h : ¬ Pen.Forced setting p)
    (hturns : Turns (Pen.job setting options p) (start p) turns b) :
    Gathered setting options p b :=
  hturns.invariant gathered_start fun _ _ _ ha hr hb => gathered_step h ha hr hb

theorem resolved_of_not_forced (options : Options) (h : ¬ Pen.Forced setting p) :
    (Pen.resolved setting options p).2 = .ok () ∧ (Pen.resolved setting options p).1.pen = p ∧
        (Pen.resolved setting options p).1.kept = Pen.components setting options p := by
  obtain ⟨turns, b, hb, ⟨hnone, hrun⟩ | ⟨r, c, e, -, hc, -⟩⟩ :=
    exists_turns_run (Pen.job setting options p) (start p)
  · have hgathered := hb.gathered h
    rw [Pen.resolved, hrun]
    exact ⟨rfl, hgathered.pen_eq, hgathered.kept_eq_components hnone⟩
  · obtain ⟨source, ho, -⟩ := decomposed_of_step_error hc
    exact absurd ho (not_decomposed_of_not_forced h (hb.gathered h).pen_eq source)

end Unforced

section Forced

variable {π Mark : Type} [SMul Affine Mark] [OutlinePen π Mark] {job : Job} {a b : Resolution π}
  {r : Reference} {turns : List (Turn π)}

/-- Nothing has been kept and nothing will be: the pen has closed contours, or some transform
overflows. -/
structure Filled (job : Job) (a : Resolution π) : Prop where
  kept_eq : a.kept = #[]
  exists_traces : ∃ contours run, OutlinePen.Traces a.pen contours run ∧
    (contours ≠ [] ∨ job.overflowing = true)

theorem Filled.not_kept (ha : Filled job a) (r : Reference) : a.outcome job r ≠ .kept := by
  intro ho
  obtain ⟨-, hvertices, hoverflowing⟩ := outcome_eq_kept_iff.1 ho
  obtain ⟨contours, run, htraces, hne | htrue⟩ := ha.exists_traces
  · exact hne ((OutlinePen.reads_of_traces htraces).vertices_eq_empty_iff.1 hvertices).1
  · rw [hoverflowing] at htrue
    cases htrue

theorem Filled.step (hmembers : job.repertoire.Forwards π) (ha : Filled job a)
    (hb : a.step job r = (b, .ok ())) : Filled job b := by
  have hcalm := calm_of_forwards hmembers hb
  obtain ⟨-, rfl⟩ | ⟨-, rfl⟩ | ⟨source, ho, hb⟩ | ⟨ho, -⟩ := step_cases hb
  · exact ⟨ha.kept_eq, ha.exists_traces⟩
  · exact ⟨ha.kept_eq, ha.exists_traces⟩
  · obtain ⟨contours, run, htraces, hforced⟩ := ha.exists_traces
    obtain ⟨more, run', hdrawn⟩ := OutlinePen.traces_draw htraces (hcalm source ho)
    refine ⟨(kept_eq_of_decompose hb).trans ha.kept_eq, contours ++ more, run', ?_, ?_⟩
    · rw [decompose_eq] at hb
      rw [← (Prod.mk.inj hb).1]
      exact hdrawn
    · exact hforced.imp_left fun hne hnil => hne (List.append_eq_nil_iff.1 hnil).1
  · exact absurd ho (ha.not_kept r)

theorem filled_start {setting : Setting} (options : Options) {p : π}
    (hp : Pen.Reachable setting p) (ho : Pen.obstacle? p = none) (h : Pen.Forced setting p) :
    Filled (Pen.job setting options p) (start p) := by
  obtain ⟨contours, run, htraces⟩ := hp.exists_traces
  have hclosed := OutlinePen.traces_of_obstacle htraces ho
  refine ⟨rfl, contours, [], hclosed, ?_⟩
  refine ((Pen.forced_iff options).1 h).imp_left fun hne hnil => hne ?_
  exact (OutlinePen.reads_of_traces hclosed).vertices_eq_empty_iff.2 ⟨hnil, rfl⟩

theorem Turns.filled (hmembers : job.repertoire.Forwards π) (h : Turns job a turns b)
    (ha : Filled job a) : Filled job b :=
  h.invariant ha fun _ _ _ hs _ hstep => hs.step hmembers hstep

theorem kept_run_eq_empty (hmembers : job.repertoire.Forwards π) (ha : Filled job a) :
    (a.run job).1.kept = #[] := by
  obtain ⟨turns, b, hb, ⟨-, hrun⟩ | ⟨r, c, e, -, hc, hrun⟩⟩ := exists_turns_run job a
  · rw [hrun]
    exact (hb.filled hmembers ha).kept_eq
  · obtain ⟨source, -, hc⟩ := decomposed_of_step_error hc
    rw [hrun]
    exact (kept_eq_of_decompose hc).trans (hb.filled hmembers ha).kept_eq

end Forced

end Resolution

namespace Pen

open Resolution

variable {π Mark : Type} [SMul Affine Mark] [OutlinePen π Mark] {setting : Setting} {p : π}

theorem finish_of_not_forced (hp : Reachable setting p) (ho : obstacle? p = none)
    (hfree : ¬ Forced setting p) (options : Options) :
    (finish setting options p).result =
      .ok (if components setting options p = #[] then .simple .empty
        else .composite (components setting options p)) := by
  obtain ⟨hreply, hpen, hkept⟩ := resolved_of_not_forced options hfree
  obtain ⟨contours, run, htraces⟩ := hp.exists_traces
  have hreads := OutlinePen.reads_of_traces (OutlinePen.traces_of_obstacle htraces ho)
  obtain ⟨rfl, -⟩ := hreads.vertices_eq_empty_iff.1 ((not_forced_iff options).1 hfree).1
  rw [finish_eq ho, hreply, hpen, hkept, hreads.outline_eq]
  simp only [Array.isEmpty_iff]
  rfl

/-- A forced glyph that is finished has had a turn for each of its references. -/
theorem exists_turns_of_finish_ok (hp : Reachable setting p) (ho : obstacle? p = none)
    (hmembers : setting.repertoire.Forwards π) (hforced : Forced setting p) {options : Options}
    {glyph : Glyph} (h : (finish setting options p).result = .ok glyph) :
    ∃ turns b, (start p).Turns (job setting options p) turns b ∧
      turns.map (·.reference) = (pending b.pen).toList ∧
        glyph = .simple (sketch b.pen).outline := by
  have hempty := kept_run_eq_empty hmembers (filled_start options hp ho hforced)
  obtain ⟨turns, b, hb, ⟨hnone, hrun⟩ | ⟨r, c, e, -, hc, hrun⟩⟩ :=
    exists_turns_run (job setting options p) (start p)
  · have hreferences := hb.references_eq (rooted_start p) (hb.calm hmembers)
    rw [Array.getElem?_eq_none_iff, ← Array.length_toList] at hnone
    rw [List.take_of_length_le hnone] at hreferences
    rw [hrun] at hempty
    rw [finish_eq ho, resolved, hrun, hempty] at h
    exact ⟨turns, b, hb, hreferences, (Except.ok.inj h).symm⟩
  · rw [finish_eq ho, resolved, hrun] at h
    cases h

end Pen

open Resolution Pen in
/-- A glyph that is not forced into an outline draws no glyph and keeps every pending reference to
a member, in order. One that is forced keeps none, also none that is added on the way, and if no
drawing fails then each of them has had its turn. -/
theorem kept_or_decomposed_together {π Mark : Type} [SMul Affine Mark] [OutlinePen π Mark]
    {setting : Setting} {p : π} (hp : Reachable setting p) (ho : obstacle? p = none)
    (hmembers : setting.repertoire.Forwards π) (options : Options) :
    (¬ Forced setting p →
      (finish setting options p).result =
          .ok (if components setting options p = #[] then .simple .empty
            else .composite (components setting options p)) ∧
        ∀ turns b r, (start p).Turns (job setting options p) turns b →
          (pending b.pen)[b.next]? = some r →
            ∀ source, b.outcome (job setting options p) r ≠ .decomposed source) ∧
    (Forced setting p →
      (∀ kept, (finish setting options p).result ≠ .ok (.composite kept)) ∧
      (∀ turns b, (start p).Turns (job setting options p) turns b →
        turns.map (·.reference) = (pending b.pen).toList.take turns.length ∧
          ∀ r, (pending b.pen)[b.next]? = some r →
            b.outcome (job setting options p) r = .missing ∨
              b.outcome (job setting options p) r = .selfReferring ∨
                ∃ source, b.outcome (job setting options p) r = .decomposed source) ∧
      ∀ glyph, (finish setting options p).result = .ok glyph →
        ∃ turns b, (start p).Turns (job setting options p) turns b ∧
          turns.map (·.reference) = (pending b.pen).toList ∧
            glyph = .simple (sketch b.pen).outline) := by
  refine ⟨fun hfree => ⟨finish_of_not_forced hp ho hfree options, fun turns b r hb _ source => ?_⟩,
    fun hforced => ⟨fun kept hresult => ?_, fun turns b hb => ?_, fun glyph hresult => ?_⟩⟩
  · exact not_decomposed_of_not_forced hfree (hb.gathered hfree).pen_eq source
  · obtain ⟨hkept, hne⟩ := kept_of_finish_eq_composite hresult
    exact hne (hkept ▸ kept_run_eq_empty hmembers (filled_start options hp ho hforced))
  · have hreferences := hb.references_eq (rooted_start p) (hb.calm hmembers)
    have hnext := hb.next_eq
    simp only [start, Nat.zero_add, List.drop_zero] at hnext hreferences
    refine ⟨hnext ▸ hreferences, fun r _ => ?_⟩
    cases hout : b.outcome (job setting options p) r with
    | missing => exact .inl rfl
    | selfReferring => exact .inr (.inl rfl)
    | decomposed source => exact .inr (.inr ⟨source, rfl⟩)
    | kept =>
      have hfilled := hb.filled hmembers (filled_start options hp ho hforced)
      exact absurd hout (hfilled.not_kept r)
  · exact exists_turns_of_finish_ok hp ho hmembers hforced hresult

def boxes : Repertoire :=
  ((∅ : Repertoire).insert "box" (Source.glyph
      (.simple ⟨#[⟨0, 0⟩, ⟨4, 0⟩, ⟨0, 4⟩], #[true, true, true], #[2], #[]⟩))).insert
    "pair" (Source.custom .done (.inOrder [.call (.mark .start),
      .call (.mark (.point ⟨1, 1⟩ (some .line) false none)), .call (.mark .stop),
      .call (.component ⟨"box", ⟨⟨1, 0, 0, 1⟩, ⟨8, 0⟩⟩⟩)]))

def boxed (scale : Float) : PathPen :=
  (Pen.session ⟨boxes, true⟩ Pen.empty [.draw (.ofReferences
    [⟨"box", ⟨⟨0.5, 0, 0, 1⟩, ⟨2.5, -7⟩⟩⟩, ⟨"gone", .identity⟩,
      ⟨"pair", ⟨⟨scale, 0, 0, 1⟩, ⟨0, 0⟩⟩⟩])]).1

theorem forwards_boxes : boxes.Forwards PathPen := by
  refine Repertoire.forwards_of_scripts ?_
  refine ((Repertoire.all_empty _).insert _ ?_).insert _ ?_
  · exact OutlinePen.forwards_glyph PathPen _
  · refine Drawing.forwards_inOrder fun d hd => ?_
    simp only [List.mem_cons, List.not_mem_nil, or_false] at hd
    rcases hd with rfl | rfl | rfl | rfl <;> exact Drawing.forwards_call _

open Pen in
/-- Stretched by two, the pair is kept with the box. Stretched by more, neither of them is. -/
theorem finish_boxed :
    (∀ scale, Reachable ⟨boxes, true⟩ (boxed scale)) ∧ boxes.Forwards PathPen ∧
    (obstacle? (boxed 2) = none ∧ ¬ Forced ⟨boxes, true⟩ (boxed 2) ∧
      (finish ⟨boxes, true⟩ {} (boxed 2)).result =
        .ok (.composite #[⟨"box", ⟨3, -7⟩, some ⟨0.5, 0, 0, 1⟩, {}⟩,
          ⟨"pair", ⟨0, 0⟩, some ⟨Fixed.maximum, 0, 0, 1⟩, {}⟩])) ∧
    (obstacle? (boxed 2.01) = none ∧ Forced ⟨boxes, true⟩ (boxed 2.01) ∧
      ∀ kept, (finish ⟨boxes, true⟩ {} (boxed 2.01)).result ≠ .ok (.composite kept)) := by
  have hreachable : ∀ scale, Reachable ⟨boxes, true⟩ (boxed scale) := fun scale => ⟨_, rfl⟩
  have hobstacle : ∀ scale, obstacle? (boxed scale) = none := fun scale => rfl
  have hfree : ¬ Forced ⟨boxes, true⟩ (boxed 2) :=
    (not_forced_iff {}).2 (by decide +kernel)
  have hforced : Forced ⟨boxes, true⟩ (boxed 2.01) :=
    (forced_iff {}).2 (by decide +kernel)
  refine ⟨hreachable, forwards_boxes, ⟨hobstacle _, hfree, ?_⟩, hobstacle _, hforced, ?_⟩
  · rw [((kept_or_decomposed_together (hreachable 2) (hobstacle 2) forwards_boxes {}).1 hfree).1]
    exact congrArg Except.ok (by decide +kernel)
  · exact ((kept_or_decomposed_together (hreachable 2.01) (hobstacle 2.01) forwards_boxes {}).2
      hforced).1

end GlyphDrawing
