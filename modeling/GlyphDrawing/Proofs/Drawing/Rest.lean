import GlyphDrawing.Proofs.Drawing.Refusal

/-!
# What is left of a drawing

A drawing that meets a refused call may still go on, and the rest of it is a drawing again. If all
refused calls leave a pen in one and the same state, the drawing ends as its rest does from that
state (`run_eq_of_rest?`).
-/

namespace GlyphDrawing.Drawing

variable {σ Mark : Type} [SMul Affine Mark] {respond : Responder σ Mark} {d rest : Drawing Mark}
  {s fresh : σ}

/-- What the drawing does after its first refused call, if it meets one. -/
def rest? (respond : Responder σ Mark) : Drawing Mark → σ → Option (Drawing Mark)
  | done, _ | fail _, _ => none
  | call c, s =>
    match (respond s c).2 with
    | .ok () => none
    | .error e => some (fail e)
  | andThen first second, s =>
    (first.rest? respond s).map (andThen · second) <|>
      match first.run respond s with
      | (s, .ok ()) => second.rest? respond s
      | (_, .error _) => none
  | attempt trial onSuccess onFailure, s =>
    (trial.rest? respond s).map (attempt · onSuccess onFailure) <|>
      match trial.run respond s with
      | (s, .ok ()) => onSuccess.rest? respond s
      | (s, .error _) => onFailure.rest? respond s
  | through a inner, s => (inner.rest? (fun s c => respond s (a • c)) s).map (through a)

theorem rest?_eq_none_iff (respond : Responder σ Mark) (d : Drawing Mark) (s : σ) :
    d.rest? respond s = none ↔ d.refusal? respond s = none := by
  induction d generalizing respond s with
  | done | fail => exact ⟨fun _ => rfl, fun _ => rfl⟩
  | call c =>
    simp only [rest?, refusal?]
    cases (respond s c).2 <;> simp
  | andThen first second ih₁ ih₂ =>
    simp only [rest?, refusal?, Option.orElse_eq_orElse, Option.orElse_eq_or,
      Option.or_eq_none_iff, Option.map_eq_none_iff, ih₁]
    rcases first.run respond s with ⟨s', e | ⟨⟩⟩
    · exact and_congr_right' ⟨fun _ => rfl, fun _ => rfl⟩
    · exact and_congr_right' (ih₂ respond s')
  | attempt trial onSuccess onFailure ih₁ ih₂ ih₃ =>
    simp only [rest?, refusal?, Option.orElse_eq_orElse, Option.orElse_eq_or,
      Option.or_eq_none_iff, Option.map_eq_none_iff, ih₁]
    rcases trial.run respond s with ⟨s', e | ⟨⟩⟩
    · exact and_congr_right' (ih₃ respond s')
    · exact and_congr_right' (ih₂ respond s')
  | through a inner ih =>
    simp only [rest?, refusal?, Option.map_eq_none_iff]
    exact ih _ s

theorem exists_rest? {e : DrawError} (h : d.refusal? respond s = some e) :
    ∃ rest, d.rest? respond s = some rest := by
  refine Option.ne_none_iff_exists'.1 fun hnone => ?_
  rw [rest?_eq_none_iff, h] at hnone
  cases hnone

/-- Where all refused calls lead to one state, a drawing goes on from there with its rest. -/
theorem run_eq_of_rest? (hrefused : ∀ s c e, (respond s c).2 = .error e → (respond s c).1 = fresh)
    (h : d.rest? respond s = some rest) : d.run respond s = rest.run respond fresh := by
  induction d generalizing respond s rest with
  | done | fail => cases h
  | call c =>
    cases hc : (respond s c).2 with
    | ok => simp [rest?, hc] at h
    | error e =>
      obtain rfl : fail e = rest := by simpa [rest?, hc] using h
      exact Prod.ext (hrefused s c e hc) hc
  | andThen first second ih₁ ih₂ =>
    simp only [rest?, Option.orElse_eq_orElse, Option.orElse_eq_or, Option.or_eq_some_iff,
      Option.map_eq_some_iff, Option.map_eq_none_iff] at h
    rcases h with ⟨rest₁, h₁, rfl⟩ | ⟨-, h₂⟩
    · simp only [run, ih₁ hrefused h₁]
    · rcases hr : first.run respond s with ⟨s', e | ⟨⟩⟩
      · simp [hr] at h₂
      · simp only [hr] at h₂
        simpa only [run, hr] using ih₂ hrefused h₂
  | attempt trial onSuccess onFailure ih₁ ih₂ ih₃ =>
    simp only [rest?, Option.orElse_eq_orElse, Option.orElse_eq_or, Option.or_eq_some_iff,
      Option.map_eq_some_iff, Option.map_eq_none_iff] at h
    rcases h with ⟨rest₁, h₁, rfl⟩ | ⟨-, h₂⟩
    · simp only [run, ih₁ hrefused h₁]
    · rcases hr : trial.run respond s with ⟨s', e | ⟨⟩⟩ <;> simp only [hr] at h₂
      · simpa only [run, hr] using ih₃ hrefused h₂
      · simpa only [run, hr] using ih₂ hrefused h₂
  | through a inner ih =>
    obtain ⟨rest₁, h₁, rfl⟩ := Option.map_eq_some_iff.1 h
    exact ih (fun s c => hrefused s (a • c)) h₁

end GlyphDrawing.Drawing
