import GlyphDrawing.Resolution.Run

/-!
# The turns of a resolution

Each turn of a resolution has one of four outcomes for its reference. `Turns` is the relation
between the state in which a resolution starts and the states in which its later turns begin, with
the turns between them. Every resolution is a row of turns up to its last state
(`exists_turns_run`), and the turns of a row are themselves turns of the resolution
(`Turns.of_mem`).
-/

namespace GlyphDrawing

theorem take_succ_of_getElem? {α : Type} {l : List α} {n : Nat} {x : α} (h : l[n]? = some x) :
    l.take (n + 1) = l.take n ++ [x] := by
  rw [List.take_add_one, h, Option.toList_some]

namespace Resolution

variable {π Mark : Type} [Pen π Mark]

inductive Outcome where
  | missing
  | selfReferring
  | decomposed (source : Source)
  | kept

def outcome (job : Job) (a : Resolution π) (r : Reference) : Outcome :=
  match job.repertoire[r.name]? with
  | none => .missing
  | some source =>
    if !(Pen.sketch a.pen).vertices.isEmpty || job.overflowing then
      if a.parents.isCyclic (Pen.pending a.pen) a.next then .selfReferring else .decomposed source
    else .kept

section Outcome

variable {job : Job} {a : Resolution π} {r : Reference} {source : Source}

theorem outcome_eq_missing_iff : a.outcome job r = .missing ↔ job.repertoire[r.name]? = none := by
  unfold outcome
  grind

theorem outcome_eq_kept_iff :
    a.outcome job r = .kept ↔
      (∃ source, job.repertoire[r.name]? = some source) ∧
        (Pen.sketch a.pen).vertices = #[] ∧ job.overflowing = false := by
  unfold outcome
  grind

theorem outcome_eq_selfReferring_iff :
    a.outcome job r = .selfReferring ↔
      (∃ source, job.repertoire[r.name]? = some source) ∧
        ((Pen.sketch a.pen).vertices ≠ #[] ∨ job.overflowing = true) ∧
          a.parents.isCyclic (Pen.pending a.pen) a.next = true := by
  unfold outcome
  grind

theorem outcome_eq_decomposed_iff :
    a.outcome job r = .decomposed source ↔
      job.repertoire[r.name]? = some source ∧
        ((Pen.sketch a.pen).vertices ≠ #[] ∨ job.overflowing = true) ∧
          a.parents.isCyclic (Pen.pending a.pen) a.next = false := by
  unfold outcome
  grind

/-- The first reference has no ancestors. -/
theorem isCyclic_start (p : π) (pending : Array Reference) :
    (start p).parents.isCyclic pending (start p).next = false := by
  have hnone : (start p).parents[0]?.join = none := by
    rw [start, Array.getElem?_replicate]
    split <;> rfl
  have hancestors : (start p).parents.ancestors (start p).next = [] := by
    rw [Ancestry.ancestors, show (start p).next = 0 from rfl, hnone]
  rw [Ancestry.isCyclic, hancestors]
  cases pending[(start p).next]? <;> rfl

theorem outcome_start_eq_decomposed {p : π} (hsource : job.repertoire[r.name]? = some source)
    (hvertices : (Pen.sketch p).vertices ≠ #[]) :
    (start p).outcome job r = .decomposed source :=
  outcome_eq_decomposed_iff.2 ⟨hsource, .inl hvertices, isCyclic_start p _⟩

end Outcome

variable [SMul Affine Mark]

theorem step_eq (job : Job) (a : Resolution π) (r : Reference) :
    a.step job r =
      match a.outcome job r with
      | .missing => (a.skip (.missing r.name), .ok ())
      | .selfReferring => (a.skip (.selfReference r.name), .ok ())
      | .decomposed source => a.decompose source r
      | .kept => (a.keep job r, .ok ()) := by
  unfold step outcome
  cases job.repertoire[r.name]? with
  | none => rfl
  | some source =>
    dsimp only
    split
    · split <;> rfl
    · rfl

theorem step_of_decomposed {job : Job} {a : Resolution π} {r : Reference} {source : Source}
    (h : a.outcome job r = .decomposed source) : a.step job r = a.decompose source r := by
  rw [step_eq, h]

theorem step_of_kept {job : Job} {a : Resolution π} {r : Reference} (h : a.outcome job r = .kept) :
    a.step job r = (a.keep job r, .ok ()) := by
  rw [step_eq, h]

/-- A step that succeeds, by its outcome. -/
theorem step_cases {job : Job} {a b : Resolution π} {r : Reference}
    (h : a.step job r = (b, .ok ())) :
    (a.outcome job r = .missing ∧ b = a.skip (.missing r.name)) ∨
      (a.outcome job r = .selfReferring ∧ b = a.skip (.selfReference r.name)) ∨
      (∃ source, a.outcome job r = .decomposed source ∧ a.decompose source r = (b, .ok ())) ∨
      (a.outcome job r = .kept ∧ b = a.keep job r) := by
  rw [step_eq] at h
  cases ho : a.outcome job r with
  | missing =>
    rw [ho] at h
    exact .inl ⟨rfl, (congrArg Prod.fst h).symm⟩
  | selfReferring =>
    rw [ho] at h
    exact .inr (.inl ⟨rfl, (congrArg Prod.fst h).symm⟩)
  | decomposed source =>
    rw [ho] at h
    exact .inr (.inr (.inl ⟨source, rfl, h⟩))
  | kept =>
    rw [ho] at h
    exact .inr (.inr (.inr ⟨rfl, (congrArg Prod.fst h).symm⟩))

def drawn (π : Type) {Mark : Type} [Pen π Mark] (source : Source) (r : Reference) : Drawing Mark :=
  .through r.placement (Pen.script π source)

theorem decompose_eq (a : Resolution π) (source : Source) (r : Reference) :
    a.decompose source r =
      (⟨(Pen.draw a.pen (drawn π source r)).1,
        a.parents.adopt a.next (Pen.pending a.pen).size
          (Pen.pending (Pen.draw a.pen (drawn π source r)).1).size,
        a.next + 1, a.kept, a.notices.push (.decomposing r.name)⟩,
        (Pen.draw a.pen (drawn π source r)).2) := rfl

theorem next_of_step {job : Job} {a b : Resolution π} {r : Reference}
    (h : a.step job r = (b, .ok ())) : b.next = a.next + 1 := by
  obtain ⟨-, rfl⟩ | ⟨-, rfl⟩ | ⟨source, -, hb⟩ | ⟨-, rfl⟩ := step_cases h
  · rfl
  · rfl
  · rw [decompose_eq] at hb
    rw [← (Prod.mk.inj hb).1]
  · rfl

section Run

variable {job : Job} {a b : Resolution π} {r : Reference}

theorem run_of_none (h : (Pen.pending a.pen)[a.next]? = none) : a.run job = (a, .ok ()) := by
  rw [run.eq_def]
  split
  · rfl
  · rename_i r hr
    rw [h] at hr
    cases hr

theorem run_of_step_ok (hr : (Pen.pending a.pen)[a.next]? = some r)
    (hb : a.step job r = (b, .ok ())) : a.run job = b.run job := by
  rw [run.eq_def]
  split
  · rename_i hnone
    rw [hr] at hnone
    cases hnone
  · rename_i r' hr'
    obtain rfl : r = r' := Option.some.inj (hr.symm.trans hr')
    split <;> rename_i hstep <;> rw [hb] at hstep <;> cases hstep
    rfl

theorem run_of_step_error {e : DrawError} (hr : (Pen.pending a.pen)[a.next]? = some r)
    (hb : a.step job r = (b, .error e)) : a.run job = (b, .error e) := by
  rw [run.eq_def]
  split
  · rename_i hnone
    rw [hr] at hnone
    cases hnone
  · rename_i r' hr'
    obtain rfl : r = r' := Option.some.inj (hr.symm.trans hr')
    split <;> rename_i hstep <;> rw [hb] at hstep <;> cases hstep
    rfl

end Run

/-- A turn of a resolution: the state in which it begins, and the reference that it resolves. -/
structure Turn (π : Type) where
  state : Resolution π
  reference : Reference

def Turn.outcome (job : Job) (t : Turn π) : Outcome :=
  t.state.outcome job t.reference

def Turn.step (job : Job) (t : Turn π) : Resolution π × Reply :=
  t.state.step job t.reference

/-- The turns, none of which fails, lead from `a` to `b`. -/
inductive Turns (job : Job) (a : Resolution π) : List (Turn π) → Resolution π → Prop
  | refl : Turns job a [] a
  | snoc {turns : List (Turn π)} {b c : Resolution π} {r : Reference} (h : Turns job a turns b)
      (hr : (Pen.pending b.pen)[b.next]? = some r) (hc : b.step job r = (c, .ok ())) :
      Turns job a (turns ++ [⟨b, r⟩]) c

/-- No turn of the resolution follows: nothing is left to resolve, or the next turn fails. -/
def Ended (job : Job) (a : Resolution π) : Prop :=
  ∀ r, (Pen.pending a.pen)[a.next]? = some r → ∃ e, (a.step job r).2 = .error e

namespace Turns

variable {job : Job} {a b c : Resolution π} {turns later : List (Turn π)}

theorem trans (h : Turns job a turns b) (h' : Turns job b later c) :
    Turns job a (turns ++ later) c := by
  induction h' with
  | refl => rwa [List.append_nil]
  | snoc _ hr hc ih =>
    rw [← List.append_assoc]
    exact ih.snoc hr hc

/-- What every turn keeps holds of every state that the turns reach. -/
theorem invariant {P : Resolution π → Prop} (h : Turns job a turns b) (ha : P a)
    (hstep : ∀ s r s', P s → (Pen.pending s.pen)[s.next]? = some r →
      s.step job r = (s', .ok ()) → P s') : P b := by
  induction h with
  | refl => exact ha
  | snoc _ hr hc ih => exact hstep _ _ _ ih hr hc

theorem run_eq (h : Turns job a turns b) : a.run job = b.run job := by
  induction h with
  | refl => rfl
  | snoc _ hr hc ih => exact ih.trans (run_of_step_ok hr hc)

theorem next_eq (h : Turns job a turns b) : b.next = a.next + turns.length := by
  induction h with
  | refl => rfl
  | snoc _ _ hc ih =>
    rw [next_of_step hc, ih, List.length_append, List.length_singleton, Nat.add_assoc]

/-- A turn of the row begins where the turns before it lead, and the turns after it begin where it
leads. -/
theorem of_mem {t : Turn π} (h : Turns job a turns b) (ht : t ∈ turns) :
    ∃ before after c, turns = before ++ t :: after ∧ Turns job a before t.state ∧
      (Pen.pending t.state.pen)[t.state.next]? = some t.reference ∧ t.step job = (c, .ok ()) ∧
        Turns job c after b := by
  induction h with
  | refl => cases ht
  | @snoc turns b c r hb hr hc ih =>
    rcases List.mem_append.1 ht with ht | ht
    · obtain ⟨before, after, d, rfl, hbefore, href, hstep, hafter⟩ := ih ht
      exact ⟨before, after ++ [⟨b, r⟩], d, by simp, hbefore, href, hstep, hafter.snoc hr hc⟩
    · obtain rfl := List.mem_singleton.1 ht
      exact ⟨turns, [], c, rfl, hb, hr, hc, .refl⟩

theorem length_add_potential_le (h : Turns job a turns b) :
    turns.length + b.potential job ≤ a.potential job := by
  induction h with
  | refl => simp
  | snoc _ hr hc ih =>
    have := potential_step_lt hr hc
    rw [List.length_append, List.length_singleton]
    omega

end Turns

/-- The turns of a resolution end, and its result is that of the last state. -/
theorem exists_turns_run (job : Job) (a : Resolution π) :
    ∃ turns b, Turns job a turns b ∧
      (((Pen.pending b.pen)[b.next]? = none ∧ a.run job = (b, .ok ())) ∨
        ∃ r c e, (Pen.pending b.pen)[b.next]? = some r ∧ b.step job r = (c, .error e) ∧
          a.run job = (c, .error e)) := by
  induction hn : a.potential job using Nat.strongRecOn generalizing a with
  | ind n ih =>
    cases hr : (Pen.pending a.pen)[a.next]? with
    | none => exact ⟨[], a, .refl, .inl ⟨hr, run_of_none hr⟩⟩
    | some r =>
      match hb : a.step job r with
      | (b, .error e) => exact ⟨[], a, .refl, .inr ⟨r, b, e, hr, hb, run_of_step_error hr hb⟩⟩
      | (b, .ok ()) =>
        have hlt : b.potential job < n := hn ▸ potential_step_lt hr hb
        obtain ⟨turns, c, hc, hend⟩ := ih _ hlt b rfl
        rw [← run_of_step_ok hr hb] at hend
        exact ⟨[⟨a, r⟩] ++ turns, c, (Turns.refl.snoc hr hb).trans hc, hend⟩

end Resolution

namespace Pen

variable {π Mark : Type} [Pen π Mark] [SMul Affine Mark]

def resolved (setting : Setting) (options : Options) (p : π) : Resolution π × Reply :=
  (Resolution.start p).run (job setting options p)

theorem finish_of_obstacle {setting : Setting} {options : Options} {p : π} {e : DrawError}
    (h : obstacle? p = some e) : finish setting options p = ⟨empty, #[], .error e⟩ := by
  unfold finish
  rw [h]

theorem finish_eq {setting : Setting} {options : Options} {p : π} (h : obstacle? p = none) :
    finish setting options p =
      ⟨clear (resolved setting options p).1.pen, (resolved setting options p).1.notices,
        (resolved setting options p).2.map fun _ =>
          if (resolved setting options p).1.kept.isEmpty then
            .simple (sketch (resolved setting options p).1.pen).outline
          else .composite (resolved setting options p).1.kept⟩ := by
  unfold finish
  rw [h]
  rfl

/-- Without references the glyph is what has been drawn. -/
theorem finish_of_pending_eq_empty {p : π} (ho : obstacle? p = none) (hpending : pending p = #[])
    (setting : Setting) (options : Options) :
    finish setting options p = ⟨clear p, #[], .ok (.simple (sketch p).outline)⟩ := by
  have hnone : (pending (Resolution.start p).pen)[(Resolution.start p).next]? = none := by
    rw [show pending (Resolution.start p).pen = #[] from hpending]
    rfl
  rw [finish_eq ho, resolved, Resolution.run_of_none hnone]
  rfl

/-- A composite glyph consists of the kept components, and there are some. -/
theorem kept_of_finish_eq_composite {setting : Setting} {options : Options} {p : π}
    {components : Array Component}
    (h : (finish setting options p).result = .ok (.composite components)) :
    (resolved setting options p).1.kept = components ∧ components ≠ #[] := by
  cases ho : obstacle? p with
  | some e =>
    rw [finish_of_obstacle ho] at h
    cases h
  | none =>
    rw [finish_eq ho] at h
    cases hreply : (resolved setting options p).2 with
    | error e => simp [hreply, Except.map] at h
    | ok =>
      simp only [hreply, Except.map, Except.ok.injEq] at h
      split at h
      · cases h
      · rename_i hkept
        obtain rfl := Glyph.composite.inj h
        exact ⟨rfl, by simpa using hkept⟩

end Pen

end GlyphDrawing
