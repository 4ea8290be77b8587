import GlyphDrawing.Pen.StrokePen
import GlyphDrawing.Proofs.Resolution.Turns

/-!
# Kept components

A component is kept only while the pen has no vertices and nothing overflows. Since keeping leaves
the pen as it is, all later turns find it so: no glyph is drawn after the first kept component, and
a composite glyph throws no vertices away (`composite_discards_nothing`).
-/

namespace GlyphDrawing

namespace Resolution

variable {π Mark : Type} [Pen π Mark] {job : Job}

def Keeping (job : Job) (a : Resolution π) : Prop :=
  a.kept ≠ #[] → (Pen.sketch a.pen).vertices = #[] ∧ job.overflowing = false

theorem keeping_start (job : Job) (p : π) : Keeping job (start p) :=
  fun h => absurd rfl h

theorem not_decomposed_of_keeping {a : Resolution π} (h : Keeping job a) (hkept : a.kept ≠ #[])
    (r : Reference) (source : Source) : a.outcome job r ≠ .decomposed source := by
  intro ho
  obtain ⟨hempty, hoverflowing⟩ := h hkept
  obtain ⟨-, hvertices | htrue, -⟩ := outcome_eq_decomposed_iff.1 ho
  · exact hvertices hempty
  · rw [hoverflowing] at htrue
    cases htrue

variable [SMul Affine Mark]

theorem kept_eq_of_decompose {a b : Resolution π} {source : Source} {r : Reference} {reply : Reply}
    (h : a.decompose source r = (b, reply)) : b.kept = a.kept := by
  rw [decompose_eq] at h
  rw [← (Prod.mk.inj h).1]

theorem keeping_step {a b : Resolution π} {r : Reference} (ha : Keeping job a)
    (hb : a.step job r = (b, .ok ())) : Keeping job b := by
  obtain ⟨-, rfl⟩ | ⟨-, rfl⟩ | ⟨source, ho, hb⟩ | ⟨ho, rfl⟩ := step_cases hb
  · exact ha
  · exact ha
  · intro hkept
    rw [kept_eq_of_decompose hb] at hkept
    exact absurd ho (not_decomposed_of_keeping ha hkept r source)
  · intro _
    obtain ⟨-, hvertices, hoverflowing⟩ := outcome_eq_kept_iff.1 ho
    exact ⟨hvertices, hoverflowing⟩

theorem Turns.keeping {a b : Resolution π} {turns : List (Turn π)} (h : Turns job a turns b)
    (ha : Keeping job a) : Keeping job b :=
  h.invariant ha fun _ _ _ hs _ hstep => keeping_step hs hstep

/-- A failing turn is a decomposition, which keeps nothing. -/
theorem decomposed_of_step_error {a b : Resolution π} {r : Reference} {e : DrawError}
    (h : a.step job r = (b, .error e)) :
    ∃ source, a.outcome job r = .decomposed source ∧ a.decompose source r = (b, .error e) := by
  rw [step_eq] at h
  cases ho : a.outcome job r with
  | decomposed source =>
    rw [ho] at h
    exact ⟨source, rfl, h⟩
  | missing | selfReferring | kept =>
    rw [ho] at h
    cases congrArg Prod.snd h

/-- A resolution fails exactly where some turn decomposes a member whose drawing fails. -/
theorem run_eq_error_iff {a : Resolution π} {e : DrawError} :
    (a.run job).2 = .error e ↔
      ∃ turns b r source, Turns job a turns b ∧ (Pen.pending b.pen)[b.next]? = some r ∧
        b.outcome job r = .decomposed source ∧
          (Pen.draw b.pen (drawn π source r)).2 = .error e := by
  constructor
  · intro h
    obtain ⟨turns, b, hb, ⟨-, hrun⟩ | ⟨r, c, e', hr, hstep, hrun⟩⟩ := exists_turns_run job a
    · rw [hrun] at h
      cases h
    · rw [hrun] at h
      obtain rfl : e' = e := Except.error.inj h
      obtain ⟨source, ho, hc⟩ := decomposed_of_step_error hstep
      exact ⟨turns, b, r, source, hb, hr, ho, congrArg Prod.snd hc⟩
  · rintro ⟨turns, b, r, source, hb, hr, ho, he⟩
    have hstep : b.step job r = ((b.decompose source r).1, .error e) :=
      (step_of_decomposed ho).trans (Prod.ext rfl he)
    rw [hb.run_eq, run_of_step_error hr hstep]

theorem keeping_run {a : Resolution π} (ha : Keeping job a) : Keeping job (a.run job).1 := by
  obtain ⟨turns, b, hb, ⟨-, hrun⟩ | ⟨r, c, e, -, hstep, hrun⟩⟩ := exists_turns_run job a
  · rw [hrun]
    exact hb.keeping ha
  · rw [hrun]
    intro hkept
    obtain ⟨source, ho, hc⟩ := decomposed_of_step_error hstep
    rw [kept_eq_of_decompose hc] at hkept
    exact absurd ho (not_decomposed_of_keeping (hb.keeping ha) hkept r source)

/-- Components are only ever added to those that are kept. -/
theorem kept_ne_empty_step {a b : Resolution π} {r : Reference} (ha : a.kept ≠ #[])
    (hb : a.step job r = (b, .ok ())) : b.kept ≠ #[] := by
  obtain ⟨-, rfl⟩ | ⟨-, rfl⟩ | ⟨source, -, hb⟩ | ⟨-, rfl⟩ := step_cases hb
  · exact ha
  · exact ha
  · rwa [kept_eq_of_decompose hb]
  · exact Array.push_ne_empty

theorem Turns.kept_ne_empty {a b : Resolution π} {turns : List (Turn π)} {t : Turn π}
    (h : Turns job a turns b) (ht : t ∈ turns) (hkept : t.outcome job = .kept) : b.kept ≠ #[] := by
  induction h with
  | refl => cases ht
  | @snoc turns b c r hb hr hc ih =>
    rcases List.mem_append.1 ht with ht | ht
    · exact kept_ne_empty_step (ih ht) hc
    · obtain rfl := List.mem_singleton.1 ht
      obtain ⟨ho, -⟩ | ⟨ho, -⟩ | ⟨source, ho, -⟩ | ⟨-, rfl⟩ := step_cases hc
      · cases ho.symm.trans hkept
      · cases ho.symm.trans hkept
      · cases ho.symm.trans hkept
      · exact Array.push_ne_empty

end Resolution

open Resolution in
/-- Whatever is drawn and in whichever pen, a composite glyph leaves no vertices behind on the pen
that is then cleared, and no glyph is drawn in any turn after one that keeps a component. -/
theorem composite_discards_nothing {π Mark : Type} [Pen π Mark] [SMul Affine Mark]
    (setting : Setting) (options : Options) (p : π) :
    (∀ components, (Pen.finish setting options p).result = .ok (.composite components) →
      (Pen.sketch ((start p).run (Pen.job setting options p)).1.pen).vertices = #[]) ∧
    ∀ turns b, (start p).Turns (Pen.job setting options p) turns b →
      (∃ t ∈ turns, t.outcome (Pen.job setting options p) = .kept) →
        ∀ r source, b.outcome (Pen.job setting options p) r ≠ .decomposed source := by
  refine ⟨fun components h => ?_, fun turns b hb ⟨t, ht, hkept⟩ r source => ?_⟩
  · obtain ⟨hkept, hne⟩ := Pen.kept_of_finish_eq_composite h
    exact (keeping_run (keeping_start _ p) (hkept ▸ hne)).1
  · exact not_decomposed_of_keeping (hb.keeping (keeping_start _ p)) (hb.kept_ne_empty ht hkept)
      r source

section Dots

open Resolution

def dots : Setting where
  repertoire := (∅ : Repertoire).insert "dot" (Source.glyph
    (.simple ⟨#[⟨0, 0⟩, ⟨4, 0⟩, ⟨0, 4⟩], #[true, true, true], #[2], #[]⟩))

def dotsPen : StrokePen :=
  ⟨⟨#[], #[], #[⟨"dot", .identity⟩, ⟨"dot", ⟨.identity, ⟨5, 0⟩⟩⟩]⟩⟩

def firstDot : Turn StrokePen :=
  ⟨start dotsPen, ⟨"dot", .identity⟩⟩

def secondDot : Turn StrokePen :=
  ⟨(start dotsPen).keep (Pen.job dots {} dotsPen) firstDot.reference,
    ⟨"dot", ⟨.identity, ⟨5, 0⟩⟩⟩⟩

theorem outcome_firstDot : firstDot.outcome (Pen.job dots {} dotsPen) = .kept :=
  outcome_eq_kept_iff.2 ⟨⟨_, rfl⟩, rfl, by decide +kernel⟩

theorem step_firstDot :
    (start dotsPen).step (Pen.job dots {} dotsPen) firstDot.reference =
      (secondDot.state, .ok ()) :=
  step_of_kept outcome_firstDot

theorem run_dotsPen :
    (start dotsPen).run (Pen.job dots {} dotsPen) =
      (secondDot.state.keep (Pen.job dots {} dotsPen) secondDot.reference, .ok ()) := by
  have hsecond : secondDot.outcome (Pen.job dots {} dotsPen) = .kept :=
    outcome_eq_kept_iff.2 ⟨⟨_, rfl⟩, rfl, by decide +kernel⟩
  rw [run_of_step_ok rfl step_firstDot, run_of_step_ok rfl (step_of_kept hsecond), run_of_none rfl]

/-- Both dots are kept, the second after the first. -/
theorem dots_discard_nothing :
    (Pen.finish dots {} dotsPen).result =
        .ok (.composite #[⟨"dot", ⟨0, 0⟩, none, {}⟩, ⟨"dot", ⟨5, 0⟩, none, {}⟩]) ∧
      (Pen.sketch ((start dotsPen).run (Pen.job dots {} dotsPen)).1.pen).vertices = #[] ∧
      (start dotsPen).Turns (Pen.job dots {} dotsPen) [firstDot] secondDot.state ∧
      firstDot.outcome (Pen.job dots {} dotsPen) = .kept ∧
      ∀ r source, secondDot.state.outcome (Pen.job dots {} dotsPen) r ≠ .decomposed source := by
  have hresult : (Pen.finish dots {} dotsPen).result =
      .ok (.composite #[⟨"dot", ⟨0, 0⟩, none, {}⟩, ⟨"dot", ⟨5, 0⟩, none, {}⟩]) := by
    rw [Pen.finish_eq rfl, Pen.resolved, run_dotsPen]
    exact congrArg Except.ok (by decide +kernel)
  have hturns : (start dotsPen).Turns (Pen.job dots {} dotsPen) [firstDot] secondDot.state :=
    Turns.refl.snoc rfl step_firstDot
  obtain ⟨hvertices, hkept⟩ := composite_discards_nothing dots {} dotsPen
  exact ⟨hresult, hvertices _ hresult, hturns, outcome_firstDot,
    hkept _ _ hturns ⟨firstDot, List.mem_singleton_self _, outcome_firstDot⟩⟩

end Dots

end GlyphDrawing
