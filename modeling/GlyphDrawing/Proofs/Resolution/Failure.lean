import GlyphDrawing.Proofs.Resolution.Kept

/-!
# Members that fail

A resolution stops in the turn in which the drawing of a member fails. Every other row of its turns
is a beginning of the row up to that turn (`Turns.isPrefix`), its notices are those of these turns
(`Turns.notices_eq`), and it looks up the names of their references and no others
(`FailsAfter.finish_of_lookups`).
-/

namespace GlyphDrawing

namespace Resolution

variable {π Mark : Type} [Pen π Mark]

def Turn.notices (job : Job) (t : Turn π) : List Notice :=
  match t.outcome job with
  | .missing => [.missing t.reference.name]
  | .selfReferring => [.selfReference t.reference.name]
  | .decomposed _ => [.decomposing t.reference.name]
  | .kept =>
    if t.reference.placement.linear.clamps job.fit then
      [.clamping t.reference.placement.linear.snap]
    else []

variable {job : Job} {a b c : Resolution π} {turns earlier : List (Turn π)} {t : Turn π}
  {r : Reference} {repertoire : Repertoire}

theorem outcome_of_lookup (h : repertoire[r.name]? = job.repertoire[r.name]?) :
    a.outcome { job with repertoire := repertoire } r = a.outcome job r := by
  unfold outcome
  rw [h]

variable [SMul Affine Mark]

/-- A turn adds its notices, also if it fails. -/
theorem notices_step (job : Job) (a : Resolution π) (r : Reference) :
    (a.step job r).1.notices.toList = a.notices.toList ++ Turn.notices job ⟨a, r⟩ := by
  rw [step_eq, Turn.notices, Turn.outcome]
  cases a.outcome job r with
  | missing | selfReferring => exact Array.toList_push
  | decomposed source => exact Array.toList_push
  | kept =>
    dsimp only [keep]
    split
    · exact Array.toList_push
    · rw [List.append_nil]

theorem Turns.notices_eq (h : Turns job a turns b) :
    b.notices.toList = a.notices.toList ++ turns.flatMap (Turn.notices job) := by
  induction h with
  | refl => rw [List.flatMap_nil, List.append_nil]
  | @snoc turns b c r _ _ hc ih =>
    have hstep := notices_step job b r
    rw [hc] at hstep
    rw [hstep, ih, List.flatMap_append, List.flatMap_singleton, List.append_assoc]

section Prefix

theorem Turns.eq_of_nil (h : Turns job a [] b) : b = a := by
  generalize hturns : ([] : List (Turn π)) = turns at h
  cases h with
  | refl => rfl
  | snoc => simp at hturns

theorem Turns.of_cons (h : Turns job a (t :: turns) b) :
    t.state = a ∧ (Pen.pending a.pen)[a.next]? = some t.reference ∧
      ∃ c, a.step job t.reference = (c, .ok ()) ∧ Turns job c turns b := by
  generalize hrow : t :: turns = row at h
  induction h generalizing turns with
  | refl => cases hrow
  | @snoc row b d r hb hr hd ih =>
    cases row with
    | nil =>
      obtain ⟨rfl, rfl⟩ := List.cons.inj hrow
      obtain rfl := hb.eq_of_nil
      exact ⟨rfl, hr, d, hd, .refl⟩
    | cons t' row =>
      obtain ⟨rfl, rfl⟩ := List.cons.inj hrow
      obtain ⟨hstate, href, c, hc, hrest⟩ := ih rfl
      exact ⟨hstate, href, c, hc, hrest.snoc hr hd⟩

/-- Turns that no turn can follow go on from the end of every other row. -/
theorem Turns.exists_later (h : Turns job a turns b) (hended : b.Ended job)
    (hc : Turns job a earlier c) : ∃ later, turns = earlier ++ later ∧ Turns job c later b := by
  induction hc with
  | refl => exact ⟨turns, rfl, h⟩
  | @snoc earlier c d r _ hr hd ih =>
    obtain ⟨later, rfl, hlater⟩ := ih
    cases later with
    | nil =>
      obtain rfl := hlater.eq_of_nil
      obtain ⟨e, he⟩ := hended r hr
      rw [hd] at he
      cases he
    | cons t later =>
      obtain ⟨hstate, href, d', hd', hrest⟩ := hlater.of_cons
      obtain rfl : r = t.reference := Option.some.inj (hr.symm.trans href)
      obtain rfl : d = d' := congrArg Prod.fst (hd.symm.trans hd')
      obtain rfl := hstate
      exact ⟨later, List.append_cons _ _ _, hrest⟩

theorem Turns.isPrefix (h : Turns job a turns b) (hended : b.Ended job)
    (hc : Turns job a earlier c) : earlier <+: turns := by
  obtain ⟨later, rfl, -⟩ := h.exists_later hended hc
  exact List.prefix_append _ _

end Prefix

section Lookups

/-- A turn looks up the name of its reference only. -/
theorem step_of_lookup (h : repertoire[r.name]? = job.repertoire[r.name]?) :
    a.step { job with repertoire := repertoire } r = a.step job r := by
  unfold step
  rw [h]
  rfl

theorem Turns.of_lookups (h : Turns job a turns b)
    (hnames : ∀ t ∈ turns, repertoire[t.reference.name]? = job.repertoire[t.reference.name]?) :
    Turns { job with repertoire := repertoire } a turns b := by
  induction h with
  | refl => exact .refl
  | @snoc turns b c r _ hr hc ih =>
    have hlast := hnames ⟨b, r⟩ (List.mem_append_right _ (List.mem_singleton_self _))
    exact (ih fun t ht => hnames t (List.mem_append_left _ ht)).snoc hr
      ((step_of_lookup hlast).trans hc)

end Lookups

end Resolution

namespace Pen

open Resolution

variable {π Mark : Type} [Pen π Mark] [SMul Affine Mark] {setting : Setting} {options : Options}
  {p : π} {turns : List (Turn π)} {b : Resolution π} {r : Reference} {e : DrawError}

/-- When the pen is finished, the turn after `turns` decomposes what `r` names, and drawing that
fails. -/
structure FailsAfter (setting : Setting) (options : Options) (p : π) (turns : List (Turn π))
    (b : Resolution π) (r : Reference) (e : DrawError) : Prop where
  unobstructed : obstacle? p = none
  turns : (start p).Turns (job setting options p) turns b
  pending : (pending b.pen)[b.next]? = some r
  fails : ∃ source, b.outcome (job setting options p) r = .decomposed source ∧
    (draw b.pen (drawn π source r)).2 = .error e

/-- A glyph is not finished if the pen has an obstacle, or else if a member fails. -/
theorem finish_eq_error_iff :
    (finish setting options p).result = .error e ↔
      obstacle? p = some e ∨ ∃ turns b r, FailsAfter setting options p turns b r e := by
  cases ho : obstacle? p with
  | some e' =>
    rw [finish_of_obstacle ho]
    have hnone : ¬ ∃ turns b r, FailsAfter setting options p turns b r e := by
      rintro ⟨turns, b, r, h⟩
      cases ho.symm.trans h.unobstructed
    simp [hnone]
  | none =>
    have hresult : (finish setting options p).result = .error e ↔
        (resolved setting options p).2 = .error e := by
      rw [finish_eq ho]
      cases (resolved setting options p).2 <;> simp [Except.map]
    rw [hresult, resolved, run_eq_error_iff]
    constructor
    · rintro ⟨turns, b, r, source, hb, hr, hsource, he⟩
      exact .inr ⟨turns, b, r, ho, hb, hr, source, hsource, he⟩
    · rintro (h | ⟨turns, b, r, -, hb, hr, source, hsource, he⟩)
      · cases h
      · exact ⟨turns, b, r, source, hb, hr, hsource, he⟩

/-- The same, where one test decides whether the pen has its only obstacle. -/
theorem finish_eq_error_iff_of_ite {P : Prop} [Decidable P] {obstacle : DrawError}
    (ho : obstacle? p = if P then none else some obstacle) :
    (finish setting options p).result = .error e ↔
      (¬P ∧ e = obstacle) ∨ (P ∧ ∃ turns b r, FailsAfter setting options p turns b r e) := by
  rw [finish_eq_error_iff, ho]
  by_cases hP : P
  · simp [hP]
  · rw [if_neg hP] at ho ⊢
    have hnone : ¬ ∃ turns b r, FailsAfter setting options p turns b r e := by
      rintro ⟨turns, b, r, h⟩
      cases ho.symm.trans h.unobstructed
    simp [hP, hnone, eq_comm]

namespace FailsAfter

theorem step_eq (h : FailsAfter setting options p turns b r e) :
    b.step (job setting options p) r = ((b.step (job setting options p) r).1, .error e) := by
  obtain ⟨source, hsource, he⟩ := h.fails
  refine Prod.ext rfl ?_
  rw [step_of_decomposed hsource]
  exact he

theorem ended (h : FailsAfter setting options p turns b r e) :
    b.Ended (job setting options p) := by
  intro r' hr'
  obtain rfl : r = r' := Option.some.inj (h.pending.symm.trans hr')
  exact ⟨e, congrArg Prod.snd h.step_eq⟩

theorem resolved_eq (h : FailsAfter setting options p turns b r e) :
    resolved setting options p = ((b.step (job setting options p) r).1, .error e) := by
  rw [resolved, h.turns.run_eq, run_of_step_error h.pending h.step_eq]

/-- The error of the member is that of the glyph. -/
theorem result_eq (h : FailsAfter setting options p turns b r e) :
    (finish setting options p).result = .error e :=
  finish_eq_error_iff.2 (.inr ⟨turns, b, r, h⟩)

/-- The turn that fails is the last one that is reported. -/
theorem notices_eq (h : FailsAfter setting options p turns b r e) :
    (finish setting options p).notices.toList =
      (turns ++ [Turn.mk b r]).flatMap (Turn.notices (job setting options p)) := by
  rw [finish_eq h.unobstructed, h.resolved_eq]
  dsimp only
  rw [notices_step, h.turns.notices_eq, List.flatMap_append, List.flatMap_singleton]
  rfl

/-- Finishing does not depend on what stands under any other name. -/
theorem finish_of_lookups (h : FailsAfter setting options p turns b r e) {repertoire : Repertoire}
    (hnames : ∀ t ∈ turns ++ [⟨b, r⟩],
      repertoire[t.reference.name]? = setting.repertoire[t.reference.name]?) :
    finish { setting with repertoire := repertoire } options p = finish setting options p := by
  have hlast := hnames ⟨b, r⟩ (List.mem_append_right _ (List.mem_singleton_self _))
  have hother : FailsAfter { setting with repertoire := repertoire } options p turns b r e := by
    refine ⟨h.unobstructed, h.turns.of_lookups fun t ht => hnames t (List.mem_append_left _ ht),
      h.pending, ?_⟩
    obtain ⟨source, hsource, he⟩ := h.fails
    exact ⟨source, (outcome_of_lookup hlast).trans hsource, he⟩
  have hstep : b.step { job setting options p with repertoire := repertoire } r =
      b.step (job setting options p) r := step_of_lookup hlast
  change b.step (job { setting with repertoire := repertoire } options p) r = _ at hstep
  rw [finish_eq h.unobstructed, finish_eq h.unobstructed, hother.resolved_eq, h.resolved_eq,
    hstep]

end FailsAfter

end Pen

end GlyphDrawing
