import GlyphDrawing.Proofs.Glyph.Stored
import GlyphDrawing.Proofs.Pen.StrokeOutline
import GlyphDrawing.Proofs.Resolution.Failure

/-!
# Composite glyphs drawn again

What is kept for a reference is settled: the offset is whole and the map is stored as it is. So the
components of a glyph, placed on a new pen, force no outline and need no clamp, and each of them
stands for itself (`redraw_of_settled`). Hence a composite glyph that is drawn again in either
protocol becomes itself again, whatever glyphs stand behind its names (`redraw_composite`).
-/

namespace GlyphDrawing

namespace Component

structure Settled (c : Component) : Prop where
  linear : (c.linear.getD .identity).Settled
  again : ofReference true c.options c.toReference = c

theorem settled_ofReference {r : Reference} (options : Options)
    (hnan : ∀ v ∈ r.placement.linear.toList, v ≠ Float.nan)
    (hfits : r.placement.linear.overflows = false) :
    (ofReference true options r).Settled := by
  obtain ⟨hsettled, hagain⟩ := Linear.stored?_stored? (Linear.within_of_fits hnan hfits)
  refine ⟨hsettled, ?_⟩
  have hoffset : ((r.placement.offset.map roundToInt32).map toDouble).map roundToInt32 =
      r.placement.offset.map roundToInt32 := by
    simp only [Point.map, roundToInt32_toDouble]
  simp only [ofReference, toReference, placement, hagain, hoffset]

end Component

namespace Pen

open Resolution

section Notices

variable {π Mark : Type} [Pen π Mark] [SMul Affine Mark] {setting : Setting} {options : Options}
  {p : π}

/-- Nothing is reported of references that are kept without a clamp. -/
theorem notices_of_not_forced (ho : obstacle? p = none) (hfree : ¬ Forced setting p)
    (hmembers : ∀ r ∈ pending p, setting.repertoire.contains r.name = true)
    (hclamps : ∀ r ∈ pending p, r.placement.linear.clamps setting.fit = false) :
    (finish setting options p).notices = #[] := by
  obtain ⟨turns, b, hb, ⟨-, hrun⟩ | ⟨r, c, e, -, hc, -⟩⟩ :=
    exists_turns_run (job setting options p) (start p)
  · have hnotices : turns.flatMap (Turn.notices (job setting options p)) = [] := by
      rw [List.flatMap_eq_nil_iff]
      intro t ht
      obtain ⟨before, -, -, -, hbefore, hr, -, -⟩ := hb.of_mem ht
      have hpen := (hbefore.gathered hfree).pen_eq
      have hmem : t.reference ∈ pending p := Array.mem_of_getElem? (hpen ▸ hr)
      have hkept : t.outcome (job setting options p) = .kept := by
        obtain ⟨hvertices, hoverflowing⟩ := (not_forced_iff options).1 hfree
        refine outcome_eq_kept_iff.2 ⟨?_, by rwa [hpen], hoverflowing⟩
        have hcontains := hmembers _ hmem
        rw [Std.TreeMap.contains_eq_isSome_getElem?] at hcontains
        exact Option.isSome_iff_exists.1 hcontains
      rw [Turn.notices, hkept]
      exact if_neg (by rw [show (job setting options p).fit = setting.fit from rfl,
        hclamps _ hmem]; exact Bool.false_ne_true)
    rw [finish_eq ho, resolved, hrun, ← Array.toList_eq_nil_iff, hb.notices_eq, hnotices]
    rfl
  · obtain ⟨source, hsource, -⟩ := decomposed_of_step_error hc
    exact absurd hsource (not_decomposed_of_not_forced hfree (hb.gathered hfree).pen_eq source)

end Notices

/-- Settled components are drawn and finished as they are. -/
theorem redraw_of_settled (ρ : Type) {Mark : Type} [SMul Affine Mark] [OutlinePen ρ Mark]
    {setting : Setting} (hfit : setting.fit = true) {options : Options}
    {components : Array Component} (hne : components ≠ #[])
    (hsettled : ∀ c ∈ components, c.Settled) (hoptions : ∀ c ∈ components, c.options = options)
    (hmembers : ∀ c ∈ components, setting.repertoire.contains c.name = true) :
    (session setting (empty : ρ)
      [.draw (script ρ (.glyph (.composite components))), .finish options]).2 =
        [.drawn (.ok ()), .finished #[] (.ok (.composite components))] := by
  obtain ⟨q, hdraw, ho, htraces, hpending⟩ := OutlinePen.exists_draw_ofReferences
    (p := (empty : ρ)) OutlinePen.traces_empty (components.toList.map Component.toReference)
  have hscript : script ρ (.glyph (.composite components)) =
      .ofReferences (components.toList.map Component.toReference) := OutlinePen.script_glyph _
  have hplaced : pending q = components.map Component.toReference := by
    rw [hpending, ← Array.toList_inj]
    simp [pending, sketch_empty, Sketch.empty]
  have hreachable : Reachable setting q :=
    ⟨[.draw (.ofReferences (components.toList.map Component.toReference))], by
      rw [session, answer, hdraw]
      rfl⟩
  have hfree : ¬ Forced setting q := by
    rintro (hvertices | ⟨-, r, hr, v, hv, hout⟩)
    · exact hvertices ((OutlinePen.reads_of_traces htraces).vertices_eq_empty_iff.2 ⟨rfl, rfl⟩)
    · rw [hplaced] at hr
      obtain ⟨c, hc, rfl⟩ := Array.mem_map.1 hr
      have hfits := Linear.overflows_eq_false_iff.1 (hsettled c hc).linear.overflows v hv
      exact hout.elim hfits.1 hfits.2
  have hmember : ∀ r ∈ pending q, setting.repertoire.contains r.name = true := by
    rw [hplaced, Array.forall_mem_map]
    exact hmembers
  have hclamps : ∀ r ∈ pending q, r.placement.linear.clamps setting.fit = false := by
    rw [hplaced, Array.forall_mem_map]
    exact fun c hc => (hsettled c hc).linear.clamps _
  have hagain : Pen.components setting options q = components := by
    have hcomponent : ∀ c ∈ components, Component.ofReference true options c.toReference = c :=
      fun c hc => hoptions c hc ▸ (hsettled c hc).again
    change ((pending q).filter fun r => setting.repertoire.contains r.name).map
      (Component.ofReference setting.fit options) = components
    rw [Array.filter_eq_self.2 hmember, hplaced, hfit, Array.map_map]
    exact (Array.map_congr_left hcomponent).trans (Array.map_id _)
  have hempty : obstacle? q = none := ho.trans OutlinePen.obstacle?_empty
  have hresult := finish_of_not_forced hreachable hempty hfree options
  rw [hagain, if_neg hne] at hresult
  simp only [session, answer, hscript, hdraw, hresult,
    notices_of_not_forced hempty hfree hmember hclamps]

/-- The components of a glyph whose transforms were numbers are settled, and carry its options. -/
theorem settled_of_composite {π Mark : Type} [SMul Affine Mark] [OutlinePen π Mark]
    {setting : Setting} (hfit : setting.fit = true) {p : π} (hp : Reachable setting p)
    (hforwards : setting.repertoire.Forwards π)
    (hnan : ∀ r ∈ pending p, ∀ v ∈ r.placement.linear.toList, v ≠ Float.nan) {options : Options}
    {components : Array Component}
    (h : (finish setting options p).result = .ok (.composite components)) :
    ∀ c ∈ components, c.Settled ∧ c.options = options := by
  intro c hc
  rw [components_of_finish hp hforwards h, Pen.components, hfit] at hc
  obtain ⟨r, hr, rfl⟩ := Array.mem_map.1 hc
  have hpending := (Array.mem_filter.1 hr).1
  exact ⟨Component.settled_ofReference options (hnan r hpending)
    (overflows_of_composite hfit h hpending), rfl⟩

end Pen

open Pen in
/-- A composite glyph with fitted transforms, made from references whose transforms are numbers, is
drawn in either protocol without refusal and finished with nothing to report, as the glyph that it
is. This needs a repertoire that knows its names, whatever they stand for. -/
theorem redraw_composite {π Mark : Type} [SMul Affine Mark] [OutlinePen π Mark]
    {setting again : Setting} (hfit : setting.fit = true) (hagain : again.fit = true) {p : π}
    (hp : Reachable setting p) (hforwards : setting.repertoire.Forwards π)
    (hnan : ∀ r ∈ pending p, ∀ v ∈ r.placement.linear.toList, v ≠ Float.nan) {options : Options}
    {components : Array Component}
    (h : (finish setting options p).result = .ok (.composite components))
    (hmembers : ∀ c ∈ components, again.repertoire.contains c.name = true) :
    (session again (empty : StrokePen)
        [.draw (Glyph.composite components).strokes, .finish options]).2 =
      [.drawn (.ok ()), .finished #[] (.ok (.composite components))] ∧
    (session again (empty : PathPen)
        [.draw (Glyph.composite components).pathSteps, .finish options]).2 =
      [.drawn (.ok ()), .finished #[] (.ok (.composite components))] := by
  have hne := (kept_of_finish_eq_composite h).2
  have hsettled := settled_of_composite hfit hp hforwards hnan h
  exact ⟨redraw_of_settled StrokePen hagain hne (fun c hc => (hsettled c hc).1)
      (fun c hc => (hsettled c hc).2) hmembers,
    redraw_of_settled PathPen hagain hne (fun c hc => (hsettled c hc).1)
      (fun c hc => (hsettled c hc).2) hmembers⟩

def otherBoxes : Repertoire :=
  ((∅ : Repertoire).insert "box" (Source.glyph (.simple .empty))).insert "pair"
    (Source.glyph (.composite #[]))

def boxedComponents : Array Component :=
  #[⟨"box", ⟨3, -7⟩, some ⟨0.5, 0, 0, 1⟩, {}⟩, ⟨"pair", ⟨0, 0⟩, some ⟨Fixed.maximum, 0, 0, 1⟩, {}⟩]

open Pen in
/-- Drawn again with other glyphs behind their names, both components stay as they are. -/
theorem redraw_boxed :
    (Reachable ⟨boxes, true⟩ (boxed 2) ∧ boxes.Forwards PathPen ∧
      (∀ r ∈ pending (boxed 2), ∀ v ∈ r.placement.linear.toList, v ≠ Float.nan) ∧
      (finish ⟨boxes, true⟩ {} (boxed 2)).result = .ok (.composite boxedComponents) ∧
      ∀ c ∈ boxedComponents, otherBoxes.contains c.name = true) ∧
    (session ⟨otherBoxes, true⟩ (empty : StrokePen)
        [.draw (Glyph.composite boxedComponents).strokes, .finish {}]).2 =
      [.drawn (.ok ()), .finished #[] (.ok (.composite boxedComponents))] ∧
    (session ⟨otherBoxes, true⟩ (empty : PathPen)
        [.draw (Glyph.composite boxedComponents).pathSteps, .finish {}]).2 =
      [.drawn (.ok ()), .finished #[] (.ok (.composite boxedComponents))] := by
  have hreachable : Reachable ⟨boxes, true⟩ (boxed 2) := ⟨_, rfl⟩
  have hfree : ¬ Forced ⟨boxes, true⟩ (boxed 2) := (not_forced_iff {}).2 (by decide +kernel)
  have hnan : ∀ r ∈ pending (boxed 2), ∀ v ∈ r.placement.linear.toList, v ≠ Float.nan := by
    decide +kernel
  have hresult : (finish ⟨boxes, true⟩ {} (boxed 2)).result =
      .ok (.composite boxedComponents) := by
    rw [finish_of_not_forced hreachable rfl hfree]
    exact congrArg Except.ok (by decide +kernel)
  have hnames : ∀ c ∈ boxedComponents, otherBoxes.contains c.name = true := by decide +kernel
  exact ⟨⟨hreachable, forwards_boxes, hnan, hresult, hnames⟩,
    redraw_composite rfl rfl hreachable forwards_boxes hnan hresult hnames⟩

end GlyphDrawing
