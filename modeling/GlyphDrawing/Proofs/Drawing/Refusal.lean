import GlyphDrawing.Drawing.Basic

/-!
# Refused calls

A drawing may fail on its own or because a pen refuses one of its calls, and it may go on after
both. `refusal?` is the first error that a call meets. A drawing none of whose calls is refused can
be compared call by call with another run of it (`run_related`), and a property that every call
keeps is kept by every drawing (`run_invariant`).
-/

namespace GlyphDrawing.Drawing

variable {σ τ Mark : Type} [SMul Affine Mark]

/-- The first error with which a call is answered, if any is. -/
def refusal? (respond : Responder σ Mark) : Drawing Mark → σ → Option DrawError
  | done, _ | fail _, _ => none
  | call c, s =>
    match (respond s c).2 with
    | .ok () => none
    | .error e => some e
  | andThen first second, s =>
    first.refusal? respond s <|>
      match first.run respond s with
      | (s, .ok ()) => second.refusal? respond s
      | (_, .error _) => none
  | attempt trial onSuccess onFailure, s =>
    trial.refusal? respond s <|>
      match trial.run respond s with
      | (s, .ok ()) => onSuccess.refusal? respond s
      | (s, .error _) => onFailure.refusal? respond s
  | through a inner, s => inner.refusal? (fun s c => respond s (a • c)) s

/-- Whatever it is drawn on, the drawing ends with the first refusal that it meets. -/
def Forwards (d : Drawing Mark) : Prop :=
  ∀ {σ : Type} (respond : Responder σ Mark) (s : σ) (e : DrawError),
    d.refusal? respond s = some e → (d.run respond s).2 = .error e

theorem run_invariant {P : σ → Prop} {respond : Responder σ Mark}
    (hcall : ∀ s c, P s → P (respond s c).1) (d : Drawing Mark) {s : σ} (hs : P s) :
    P (d.run respond s).1 := by
  induction d generalizing respond s with
  | done | fail => exact hs
  | call c => exact hcall s c hs
  | andThen first second ih₁ ih₂ =>
    have h₁ := ih₁ hcall hs
    simp only [run]
    split <;> rename_i heq <;> rw [heq] at h₁
    · exact ih₂ hcall h₁
    · exact h₁
  | attempt trial onSuccess onFailure ih₁ ih₂ ih₃ =>
    have h₁ := ih₁ hcall hs
    simp only [run]
    split <;> rename_i heq <;> rw [heq] at h₁
    · exact ih₂ hcall h₁
    · exact ih₃ hcall h₁
  | through a inner ih => exact ih (fun s c => hcall s (a • c)) hs

/-- Two pens that stay related as long as the first accepts the calls end related, with the same
reply. -/
theorem run_related {R : σ → τ → Prop} {respond : Responder σ Mark} {respond' : Responder τ Mark}
    (hcall : ∀ s t c, R s t → (respond s c).2 = .ok () →
      R (respond s c).1 (respond' t c).1 ∧ (respond' t c).2 = .ok ())
    (d : Drawing Mark) {s : σ} {t : τ} (hst : R s t) (hd : d.refusal? respond s = none) :
    R (d.run respond s).1 (d.run respond' t).1 ∧ (d.run respond' t).2 = (d.run respond s).2 := by
  induction d generalizing respond respond' s t with
  | done | fail => exact ⟨hst, rfl⟩
  | call c =>
    cases hc : (respond s c).2 with
    | ok =>
      obtain ⟨hR, hreply⟩ := hcall s t c hst hc
      exact ⟨hR, hreply.trans hc.symm⟩
    | error e => simp [refusal?, hc] at hd
  | andThen first second ih₁ ih₂ =>
    simp only [refusal?, Option.orElse_eq_orElse, Option.orElse_eq_or, Option.or_eq_none_iff] at hd
    obtain ⟨hR, hreply⟩ := ih₁ hcall hst hd.1
    match h₁ : first.run respond s, h₂ : first.run respond' t with
    | (s', .ok ()), (t', .ok ()) =>
      simp only [h₁, h₂] at hR hd
      simpa only [run, h₁, h₂] using ih₂ hcall hR hd.2
    | (s', .error e), (t', .error e') =>
      simp only [h₁, h₂] at hR hreply
      simpa only [run, h₁, h₂] using And.intro hR hreply
    | (s', .ok ()), (t', .error e') => simp [h₁, h₂] at hreply
    | (s', .error e), (t', .ok ()) => simp [h₁, h₂] at hreply
  | attempt trial onSuccess onFailure ih₁ ih₂ ih₃ =>
    simp only [refusal?, Option.orElse_eq_orElse, Option.orElse_eq_or, Option.or_eq_none_iff] at hd
    obtain ⟨hR, hreply⟩ := ih₁ hcall hst hd.1
    match h₁ : trial.run respond s, h₂ : trial.run respond' t with
    | (s', .ok ()), (t', .ok ()) =>
      simp only [h₁, h₂] at hR hd
      simpa only [run, h₁, h₂] using ih₂ hcall hR hd.2
    | (s', .error e), (t', .error e') =>
      simp only [h₁, h₂] at hR hd
      simpa only [run, h₁, h₂] using ih₃ hcall hR hd.2
    | (s', .ok ()), (t', .error e') => simp [h₁, h₂] at hreply
    | (s', .error e), (t', .ok ()) => simp [h₁, h₂] at hreply
  | through a inner ih => exact ih (fun s t c => hcall s t (a • c)) hst hd

/-- A property that every accepted call keeps is kept by a drawing that meets no refusal. -/
theorem run_invariant_of_calm {P : σ → Prop} {respond : Responder σ Mark}
    (hcall : ∀ s c, P s → (respond s c).2 = .ok () → P (respond s c).1) {d : Drawing Mark} {s : σ}
    (hs : P s) (hd : d.refusal? respond s = none) : P (d.run respond s).1 := by
  have h := run_related (R := fun s t => P s ∧ s = t)
    (fun s t c ⟨hs, hst⟩ hc => ⟨⟨hcall s c hs hc, congrArg (fun s => (respond s c).1) hst⟩,
      hst ▸ hc⟩) d ⟨hs, rfl⟩ hd
  exact h.1.1

theorem Forwards.refusal?_eq_none {d : Drawing Mark} (hd : d.Forwards)
    {respond : Responder σ Mark} {s : σ} (h : (d.run respond s).2 = .ok ()) :
    d.refusal? respond s = none := by
  cases he : d.refusal? respond s with
  | none => rfl
  | some e =>
    rw [hd respond s e he] at h
    cases h

theorem forwards_done : (done : Drawing Mark).Forwards := by
  intro σ respond s e h
  cases h

theorem forwards_call (c : Call Mark) : (call c).Forwards := by
  intro σ respond s e h
  change (respond s c).2 = .error e
  cases hc : (respond s c).2 with
  | ok => simp [refusal?, hc] at h
  | error e' =>
    obtain rfl : e' = e := by simpa [refusal?, hc] using h
    rfl

theorem Forwards.andThen {first second : Drawing Mark} (h₁ : first.Forwards)
    (h₂ : second.Forwards) : (first.andThen second).Forwards := by
  intro σ respond s e h
  match hr : first.run respond s with
  | (s', .ok ()) =>
    have hnone := h₁.refusal?_eq_none (congrArg Prod.snd hr)
    simp only [refusal?, hnone, hr, Option.orElse_eq_orElse, Option.orElse_eq_or,
      Option.none_or] at h
    simpa only [run, hr] using h₂ respond s' e h
  | (s', .error e') =>
    simp only [refusal?, hr, Option.orElse_eq_orElse, Option.orElse_eq_or, Option.or_none] at h
    have he := h₁ respond s e h
    simp only [hr] at he
    simpa only [run, hr] using he

theorem Forwards.through {d : Drawing Mark} (hd : d.Forwards) (a : Affine) :
    (through a d).Forwards :=
  fun respond s e h => hd (fun s c => respond s (a • c)) s e h

theorem forwards_inOrder {drawings : List (Drawing Mark)} (h : ∀ d ∈ drawings, d.Forwards) :
    (inOrder drawings).Forwards := by
  induction drawings with
  | nil => exact forwards_done
  | cons d drawings ih =>
    exact Forwards.andThen (h d List.mem_cons_self)
      (ih fun d hd => h d (List.mem_cons_of_mem _ hd))

theorem forwards_ofMarks (marks : List Mark) : (ofMarks marks).Forwards := by
  refine forwards_inOrder fun d hd => ?_
  obtain ⟨m, -, rfl⟩ := List.mem_map.1 hd
  exact forwards_call _

theorem forwards_ofReferences (references : List Reference) :
    (ofReferences references : Drawing Mark).Forwards := by
  refine forwards_inOrder fun d hd => ?_
  obtain ⟨r, -, rfl⟩ := List.mem_map.1 hd
  exact forwards_call _

end GlyphDrawing.Drawing
