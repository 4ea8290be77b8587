import GlyphDrawing.Proofs.Drawing.Refusal

/-!
# Trails

A run of a drawing shows its last state only. The trail of a drawing is the row of all states
between the calls, one after each call that is made, whether it is accepted or refused. What every
call keeps holds all along the trail (`trail_invariant`).
-/

namespace GlyphDrawing.Drawing

variable {σ Mark : Type} [SMul Affine Mark]

def trail (respond : Responder σ Mark) : Drawing Mark → σ → List σ
  | done, _ | fail _, _ => []
  | call c, s => [(respond s c).1]
  | andThen first second, s =>
    first.trail respond s ++
      match first.run respond s with
      | (s, .ok ()) => second.trail respond s
      | (_, .error _) => []
  | attempt trial onSuccess onFailure, s =>
    trial.trail respond s ++
      match trial.run respond s with
      | (s, .ok ()) => onSuccess.trail respond s
      | (s, .error _) => onFailure.trail respond s
  | through a inner, s => inner.trail (fun s c => respond s (a • c)) s

theorem trail_invariant {P : σ → Prop} {respond : Responder σ Mark}
    (hcall : ∀ s c, P s → P (respond s c).1) (d : Drawing Mark) {s : σ} (hs : P s) :
    ∀ t ∈ d.trail respond s, P t := by
  induction d generalizing respond s with
  | done | fail => exact fun t ht => nomatch ht
  | call c =>
    intro t ht
    obtain rfl := List.mem_singleton.1 ht
    exact hcall s c hs
  | andThen first second ih₁ ih₂ =>
    intro t ht
    rcases List.mem_append.1 ht with ht | ht
    · exact ih₁ hcall hs t ht
    · have hrun := run_invariant hcall first hs
      split at ht <;> rename_i heq <;> rw [heq] at hrun
      · exact ih₂ hcall hrun t ht
      · cases ht
  | attempt trial onSuccess onFailure ih₁ ih₂ ih₃ =>
    intro t ht
    rcases List.mem_append.1 ht with ht | ht
    · exact ih₁ hcall hs t ht
    · have hrun := run_invariant hcall trial hs
      split at ht <;> rename_i heq <;> rw [heq] at hrun
      · exact ih₂ hcall hrun t ht
      · exact ih₃ hcall hrun t ht
  | through a inner ih => exact ih (fun s c => hcall s (a • c)) hs

end GlyphDrawing.Drawing
