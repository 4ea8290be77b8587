import GlyphDrawing.Proofs.Number.Grid
import GlyphDrawing.Proofs.Resolution.Forced

/-!
# Which components can be encoded

With `fit`, the transforms that are pending at the start are tested for an overflow, and kept
components are clamped. The test lets NaN pass, and it is not made for references that come later.
So a component of a finished glyph can be encoded exactly if the entries that it is kept with snap
to numbers between minus two and two, and for a reference that was pending at the start exactly if
none of its entries is NaN (`composite_encodable_iff`).
-/

namespace GlyphDrawing

theorem bind_eq_ok_iff {α β ε : Type} {x : Except ε α} {f : α → Except ε β} {b : β} :
    x >>= f = .ok b ↔ ∃ a, x = .ok a ∧ f a = .ok b := by
  cases x with
  | error e => exact iff_of_false (fun h => by cases h) fun ⟨a, h, _⟩ => by cases h
  | ok a => exact ⟨fun h => ⟨a, rfl, h⟩, fun ⟨_, ha, h⟩ => Except.ok.inj ha ▸ h⟩

namespace Linear

theorem exists_mapM_eq_ok_iff {α β ε : Type} {f : α → Except ε β} {l : Linear α} :
    (∃ m, l.mapM f = .ok m) ↔ ∀ v ∈ l.toList, ∃ b, f v = .ok b := by
  simp only [toList, List.forall_mem_cons, mapM, bind_eq_ok_iff]
  constructor
  · rintro ⟨m, xx, hxx, xy, hxy, yx, hyx, yy, hyy, -⟩
    exact ⟨⟨xx, hxx⟩, ⟨xy, hxy⟩, ⟨yx, hyx⟩, ⟨yy, hyy⟩, List.forall_mem_nil _⟩
  · rintro ⟨⟨xx, hxx⟩, ⟨xy, hxy⟩, ⟨yx, hyx⟩, ⟨yy, hyy⟩, -⟩
    exact ⟨_, xx, hxx, xy, hxy, yx, hyx, yy, hyy, rfl⟩

theorem exists_encode_eq_ok_iff {l : Linear Float} :
    (∃ bits, l.encode = .ok bits) ↔ ∀ v ∈ l.toList, (Fixed.encode? v).isSome := by
  rw [encode, exists_mapM_eq_ok_iff]
  refine forall₂_congr fun v _ => ?_
  cases Fixed.encode? v <;> simp

theorem toList_map {α β : Type} (f : α → β) (l : Linear α) :
    (l.map f).toList = l.toList.map f := rfl

theorem overflows_eq_false_iff {l : Linear Float} :
    l.overflows = false ↔ ∀ v ∈ l.toList, ¬ v > 2 ∧ ¬ v < -2 := by
  simp [overflows]

theorem between_of_isIdentity {l : Linear Float} (h : l.isIdentity = true) :
    ∀ v ∈ l.toList, -2 ≤ v ∧ v ≤ 2 := by
  have hone : ∀ v : Float, (v == 1) = true → -2 ≤ v ∧ v ≤ 2 := fun v hv => by
    obtain ⟨-, -, rfl | ⟨rfl, -⟩ | ⟨rfl, -⟩⟩ := Float.beq_iff_ne_nan_and_eq.1 hv <;>
      exact ⟨le_iff_compare.2 rfl, le_iff_compare.2 rfl⟩
  have hzero : ∀ v : Float, (v == 0) = true → -2 ≤ v ∧ v ≤ 2 := fun v hv => by
    obtain ⟨-, -, rfl | ⟨rfl, -⟩ | ⟨rfl, -⟩⟩ := Float.beq_iff_ne_nan_and_eq.1 hv <;>
      exact ⟨le_iff_compare.2 rfl, le_iff_compare.2 rfl⟩
  obtain ⟨hxx, hxy, hyx, hyy⟩ : (l.xx == 1) = true ∧ (l.xy == 0) = true ∧ (l.yx == 0) = true ∧
      (l.yy == 1) = true := by
    change (l.xx == 1 && (l.xy == 0 && (l.yx == 0 && l.yy == 1))) = true at h
    simpa only [Bool.and_eq_true] using h
  simp only [toList, List.forall_mem_cons]
  exact ⟨hone _ hxx, hzero _ hxy, hzero _ hyx, hone _ hyy, List.forall_mem_nil _⟩

end Linear

namespace Component

/-- The component has a stored form: it carries no linear map, or one that can be encoded. -/
def Encodable (c : Component) : Prop :=
  ∀ l ∈ c.linear, ∃ bits, l.encode = .ok bits

variable {options : Options} {r : Reference}

theorem encodable_ofReference_iff :
    (ofReference true options r).Encodable ↔
      ∀ v ∈ r.placement.linear.toList, -2 ≤ Fixed.snap v ∧ Fixed.snap v ≤ 2 := by
  rw [Encodable, ofReference, Linear.stored?]
  -- an identity is not kept; that its entries lie between the bounds has to be seen apart
  by_cases hidentity : r.placement.linear.snap.isIdentity = true
  · have hbetween := Linear.between_of_isIdentity hidentity
    rw [Linear.snap, Linear.toList_map, List.forall_mem_map] at hbetween
    rw [if_pos hidentity]
    exact iff_of_true (fun l hl => by cases hl) hbetween
  · rw [if_neg hidentity, if_pos rfl]
    simp only [Option.mem_def, Option.some.injEq, forall_eq', Linear.exists_encode_eq_ok_iff,
      Linear.snap, Linear.toList_map, List.forall_mem_map, isSome_encode?_clamp_iff]

theorem encodable_ofReference_iff_of_fits (h : r.placement.linear.overflows = false) :
    (ofReference true options r).Encodable ↔
      ∀ v ∈ r.placement.linear.toList, v ≠ Float.nan := by
  rw [encodable_ofReference_iff]
  rw [Linear.overflows_eq_false_iff] at h
  exact forall₂_congr fun v hv => snap_between_iff (h v hv).1 (h v hv).2

end Component

namespace Resolution

variable {π Mark : Type} [Pen π Mark] {job : Job} {a b : Resolution π} {c : Component}

def KeptBy (job : Job) (turns : List (Turn π)) (c : Component) : Prop :=
  ∃ t ∈ turns, t.outcome job = .kept ∧ c = .ofReference job.fit job.options t.reference

theorem KeptBy.concat {turns : List (Turn π)} (h : KeptBy job turns c) (t : Turn π) :
    KeptBy job (turns ++ [t]) c := by
  obtain ⟨s, hs, hkept⟩ := h
  exact ⟨s, List.mem_append_left _ hs, hkept⟩

variable [SMul Affine Mark]

theorem Turns.keptBy_of_mem {turns : List (Turn π)} (h : Turns job a turns b) (hc : c ∈ b.kept) :
    c ∈ a.kept ∨ KeptBy job turns c := by
  induction h with
  | refl => exact .inl hc
  | @snoc turns b d r hb hr hd ih =>
    obtain ⟨-, rfl⟩ | ⟨-, rfl⟩ | ⟨source, -, hd⟩ | ⟨ho, rfl⟩ := step_cases hd
    · exact (ih hc).imp_right (·.concat _)
    · exact (ih hc).imp_right (·.concat _)
    · rw [kept_eq_of_decompose hd] at hc
      exact (ih hc).imp_right (·.concat _)
    · rcases Array.mem_push.1 hc with hc | hc
      · exact (ih hc).imp_right (·.concat _)
      · exact .inr ⟨⟨b, r⟩, List.mem_append_right _ (List.mem_singleton_self _), ho, hc⟩

theorem exists_turn_of_mem_kept_run (hc : c ∈ (a.run job).1.kept) :
    c ∈ a.kept ∨
      ∃ turns b r, Turns job a turns b ∧ (Pen.pending b.pen)[b.next]? = some r ∧
        b.outcome job r = .kept ∧ c = Component.ofReference job.fit job.options r := by
  obtain ⟨turns, b, hb, hkept⟩ : ∃ turns b, Turns job a turns b ∧ (a.run job).1.kept = b.kept := by
    obtain ⟨turns, b, hb, ⟨-, hrun⟩ | ⟨r, d, e, -, hd, hrun⟩⟩ := exists_turns_run job a
    · exact ⟨turns, b, hb, by rw [hrun]⟩
    -- a turn that fails is a decomposition, and keeps nothing
    · obtain ⟨source, -, hd⟩ := decomposed_of_step_error hd
      exact ⟨turns, b, hb, by rw [hrun, kept_eq_of_decompose hd]⟩
  refine (hb.keptBy_of_mem (hkept ▸ hc)).imp_right ?_
  rintro ⟨t, ht, houtcome, hcomponent⟩
  obtain ⟨before, -, -, -, hbefore, hr, -, -⟩ := hb.of_mem ht
  exact ⟨before, t.state, t.reference, hbefore, hr, houtcome, hcomponent⟩

end Resolution

namespace Pen

open Resolution

variable {π Mark : Type} [SMul Affine Mark] [OutlinePen π Mark] {setting : Setting} {p : π}
  {options : Options} {components : Array Component}

theorem exists_turn_of_mem_composite
    (h : (finish setting options p).result = .ok (.composite components)) {c : Component}
    (hc : c ∈ components) :
    ∃ turns b r, (start p).Turns (job setting options p) turns b ∧
      (pending b.pen)[b.next]? = some r ∧ b.outcome (job setting options p) r = .kept ∧
        c = .ofReference setting.fit options r := by
  obtain ⟨rfl, -⟩ := kept_of_finish_eq_composite h
  exact (exists_turn_of_mem_kept_run hc).resolve_left (Array.not_mem_empty c)

/-- The transforms that were pending when a composite glyph is finished pass the test. -/
theorem overflows_of_composite (hfit : setting.fit = true)
    (h : (finish setting options p).result = .ok (.composite components)) {r : Reference}
    (hr : r ∈ pending p) : r.placement.linear.overflows = false := by
  obtain ⟨hkept, hne⟩ := kept_of_finish_eq_composite h
  have hoverflowing := (keeping_run (keeping_start (job setting options p) p) (hkept ▸ hne)).2
  rw [job, hfit, Bool.true_and, Array.any_eq_false'] at hoverflowing
  simpa using hoverflowing r hr

theorem components_of_finish (hp : Reachable setting p) (hmembers : setting.repertoire.Forwards π)
    (h : (finish setting options p).result = .ok (.composite components)) :
    components = Pen.components setting options p := by
  obtain ⟨hkept, hne⟩ := kept_of_finish_eq_composite h
  have ho : obstacle? p = none := by
    by_contra hsome
    obtain ⟨e, he⟩ := Option.ne_none_iff_exists'.1 hsome
    rw [finish_of_obstacle he] at h
    cases h
  by_cases hforced : Forced setting p
  · exact absurd (hkept ▸ kept_run_eq_empty hmembers (filled_start options hp ho hforced)) hne
  · rw [← hkept]
    exact (resolved_of_not_forced options hforced).2.2

/-- Every component of a composite glyph stands for a reference that was kept in its turn, and can
be encoded exactly if the entries of its map snap to numbers between minus two and two. For one
that was pending from the start, NaN is the only obstacle. If the members end with the first
refusal that they meet, then all components can be encoded exactly if no pending reference to a
member has an entry that is NaN. -/
theorem composite_encodable_iff (hfit : setting.fit = true) (hp : Reachable setting p)
    (h : (finish setting options p).result = .ok (.composite components)) :
    (∀ c ∈ components, ∃ turns b r, (start p).Turns (job setting options p) turns b ∧
      (pending b.pen)[b.next]? = some r ∧ b.outcome (job setting options p) r = .kept ∧
      c = .ofReference true options r ∧
      (c.Encodable ↔
        ∀ v ∈ r.placement.linear.toList, -2 ≤ Fixed.snap v ∧ Fixed.snap v ≤ 2) ∧
      (r ∈ pending p →
        (c.Encodable ↔ ∀ v ∈ r.placement.linear.toList, v ≠ Float.nan))) ∧
    (setting.repertoire.Forwards π →
      ((∀ c ∈ components, c.Encodable) ↔
        ∀ r ∈ pending p, setting.repertoire.contains r.name = true →
          ∀ v ∈ r.placement.linear.toList, v ≠ Float.nan)) := by
  constructor
  · intro c hc
    obtain ⟨turns, b, r, hb, hr, ho, rfl⟩ := exists_turn_of_mem_composite h hc
    rw [hfit]
    exact ⟨turns, b, r, hb, hr, ho, rfl, Component.encodable_ofReference_iff,
      fun hpending => Component.encodable_ofReference_iff_of_fits
        (overflows_of_composite hfit h hpending)⟩
  · intro hmembers
    have hencodable : ∀ r ∈ pending p, ((Component.ofReference true options r).Encodable ↔
        ∀ v ∈ r.placement.linear.toList, v ≠ Float.nan) := fun r hr =>
      Component.encodable_ofReference_iff_of_fits (overflows_of_composite hfit h hr)
    have hcomponents : components = ((pending p).filter fun r =>
        setting.repertoire.contains r.name).map (Component.ofReference true options) := by
      rw [components_of_finish hp hmembers h, Pen.components, hfit]
      rfl
    simp only [hcomponents, Array.forall_mem_map, Array.mem_filter, and_imp]
    exact forall₂_congr fun r hr => imp_congr_right fun _ => hencodable r hr

section Stretched

def stretch : Source :=
  .custom
    (.attempt (.call (.mark (.cubic #[]))) .done
      (.ofReferences [⟨"box", .identity⟩, ⟨"box", ⟨⟨3, 0, 0, 1⟩, ⟨0, 0⟩⟩⟩]))
    .done

def stretchSetting : Setting where
  repertoire := boxes.insert "stretch" stretch

def stretched : StrokePen :=
  (session stretchSetting empty [
    .draw (.ofMarks [.move ⟨0, 0⟩, .line ⟨4, 0⟩, .line ⟨0, 4⟩, .close]),
    .draw (.ofReferences [⟨"stretch", .identity⟩])]).1

def afterStretch : Resolution StrokePen where
  pen := ⟨⟨#[], #[], #[⟨"box", .identity⟩, ⟨"box", ⟨⟨3, 0, 0, 1⟩, ⟨0, 0⟩⟩⟩]⟩⟩
  parents := Ancestry.adopt #[none] 0 1 2
  next := 1
  kept := #[]
  notices := #[.decomposing "stretch"]

theorem step_stretched :
    (start stretched).step (job stretchSetting {} stretched) ⟨"stretch", .identity⟩ =
      (afterStretch, .ok ()) := by
  have hvertices : (sketch stretched).vertices ≠ #[] := fun h => nomatch congrArg Array.size h
  have hdrawn : draw (start stretched).pen (drawn StrokePen stretch ⟨"stretch", .identity⟩) =
      (afterStretch.pen, .ok ()) := rfl
  rw [step_of_decomposed (outcome_start_eq_decomposed rfl hvertices), decompose_eq, hdrawn]
  rfl

theorem finish_stretched :
    (finish stretchSetting {} stretched).result =
      .ok (.composite #[⟨"box", ⟨0, 0⟩, some ⟨3, 0, 0, 1⟩, {}⟩]) := by
  have hkept : afterStretch.outcome (job stretchSetting {} stretched)
      ⟨"box", ⟨⟨3, 0, 0, 1⟩, ⟨0, 0⟩⟩⟩ = .kept :=
    outcome_eq_kept_iff.2 ⟨⟨_, rfl⟩, rfl, by decide +kernel⟩
  rw [finish_eq rfl, resolved, run_of_step_ok rfl step_stretched,
    run_of_step_ok rfl (step_of_kept hkept), run_of_none rfl]
  exact congrArg Except.ok (by decide +kernel)

/-- The pair is stretched by NaN, which is not an overflow. -/
theorem finish_boxed_nan :
    (finish ⟨boxes, true⟩ {} (boxed Float.nan)).result =
      .ok (.composite #[⟨"box", ⟨3, -7⟩, some ⟨0.5, 0, 0, 1⟩, {}⟩,
        ⟨"pair", ⟨0, 0⟩, some ⟨Float.nan, 0, 0, 1⟩, {}⟩]) := by
  have hreachable : Reachable ⟨boxes, true⟩ (boxed Float.nan) := ⟨_, rfl⟩
  have hfree : ¬ Forced ⟨boxes, true⟩ (boxed Float.nan) :=
    (not_forced_iff {}).2 (by decide +kernel)
  rw [finish_of_not_forced hreachable rfl hfree]
  exact congrArg Except.ok (by decide +kernel)

/-- NaN is kept, and so is what a reference brings that comes after the test for an overflow. -/
theorem unencodable_composites :
    (∃ components, (finish ⟨boxes, true⟩ {} (boxed Float.nan)).result =
        .ok (.composite components) ∧ ∃ c ∈ components, ¬ c.Encodable) ∧
      ∃ components, (finish stretchSetting {} stretched).result = .ok (.composite components) ∧
        ∃ c ∈ components, ¬ c.Encodable := by
  have hnan : ¬ (⟨"pair", ⟨0, 0⟩, some ⟨Float.nan, 0, 0, 1⟩, {}⟩ : Component).Encodable := fun h =>
    nomatch Linear.exists_encode_eq_ok_iff.1 (h _ rfl) Float.nan List.mem_cons_self
  have hthree : ¬ (⟨"box", ⟨0, 0⟩, some ⟨3, 0, 0, 1⟩, {}⟩ : Component).Encodable := fun h =>
    nomatch Linear.exists_encode_eq_ok_iff.1 (h _ rfl) 3 List.mem_cons_self
  exact ⟨⟨_, finish_boxed_nan, _, by simp, hnan⟩, ⟨_, finish_stretched, _, by simp, hthree⟩⟩

/-- Stretched by two, all components can be encoded; stretched by NaN, not all. -/
theorem encodable_boxed :
    (∃ components, (finish ⟨boxes, true⟩ {} (boxed 2)).result = .ok (.composite components) ∧
        ∀ c ∈ components, c.Encodable) ∧
      ∃ components, (finish ⟨boxes, true⟩ {} (boxed Float.nan)).result =
        .ok (.composite components) ∧ ¬ ∀ c ∈ components, c.Encodable := by
  have hfree : ¬ Forced ⟨boxes, true⟩ (boxed 2) :=
    (not_forced_iff {}).2 (by decide +kernel)
  have hreachable : ∀ scale, Reachable ⟨boxes, true⟩ (boxed scale) := fun scale => ⟨_, rfl⟩
  have hresult := finish_of_not_forced (hreachable 2) rfl hfree {}
  rw [if_neg (by decide +kernel)] at hresult
  have htwo := (composite_encodable_iff rfl (hreachable 2) hresult).2 forwards_boxes
  have hnan := (composite_encodable_iff rfl (hreachable _) finish_boxed_nan).2 forwards_boxes
  have hpair : ⟨"pair", ⟨⟨Float.nan, 0, 0, 1⟩, ⟨0, 0⟩⟩⟩ ∈ pending (boxed Float.nan) :=
    Array.mem_of_getElem? (i := 2) rfl
  exact ⟨⟨_, hresult, htwo.2 (by decide +kernel)⟩, ⟨_, finish_boxed_nan, fun h =>
    hnan.1 h _ hpair rfl Float.nan List.mem_cons_self rfl⟩⟩

end Stretched

end Pen

end GlyphDrawing
