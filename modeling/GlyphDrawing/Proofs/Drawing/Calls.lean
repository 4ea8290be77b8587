import GlyphDrawing.Proofs.Drawing.Trail

/-!
# The calls of a drawing

Drawn on a pen, a drawing comes down to the calls that reach the pen, each mapped by the transforms
around it. Made one after the other they lead where the drawing leads (`after_calls`), and through
the same states (`exists_prefix_of_mem_trail`). The drawing meets no refusal exactly if the pen
accepts them all (`accepted_calls_iff`).
-/

namespace GlyphDrawing

section Row

variable {σ Mark : Type} {respond : Responder σ Mark} {s : σ} {earlier later : List (Call Mark)}

def after (respond : Responder σ Mark) (s : σ) (calls : List (Call Mark)) : σ :=
  calls.foldl (fun s c => (respond s c).1) s

def Accepted (respond : Responder σ Mark) (s : σ) : List (Call Mark) → Prop
  | [] => True
  | c :: calls => (respond s c).2 = .ok () ∧ Accepted respond (respond s c).1 calls

theorem after_append (respond : Responder σ Mark) (s : σ) (earlier later : List (Call Mark)) :
    after respond s (earlier ++ later) = after respond (after respond s earlier) later :=
  List.foldl_append

theorem exists_prefix_append {t : σ}
    (h : ∃ calls, calls <+: later ∧ after respond (after respond s earlier) calls = t) :
    ∃ calls, calls <+: earlier ++ later ∧ after respond s calls = t := by
  obtain ⟨calls, hprefix, rfl⟩ := h
  exact ⟨earlier ++ calls, (List.prefix_append_right_inj _).2 hprefix, after_append _ _ _ _⟩

theorem accepted_append :
    Accepted respond s (earlier ++ later) ↔
      Accepted respond s earlier ∧ Accepted respond (after respond s earlier) later := by
  induction earlier generalizing s with
  | nil => exact (iff_of_eq (true_and _)).symm
  | cons c earlier ih =>
    rw [List.cons_append, Accepted, Accepted, ih, and_assoc]
    rfl

section Map

variable [SMul Affine Mark] (a : Affine)

theorem after_map (respond : Responder σ Mark) (s : σ) (calls : List (Call Mark)) :
    after respond s (calls.map (a • ·)) = after (fun s c => respond s (a • c)) s calls :=
  List.foldl_map

theorem accepted_map {calls : List (Call Mark)} :
    Accepted respond s (calls.map (a • ·)) ↔ Accepted (fun s c => respond s (a • c)) s calls := by
  induction calls generalizing s with
  | nil => exact Iff.rfl
  | cons c calls ih => exact and_congr_right' ih

end Map

end Row

namespace Drawing

variable {σ Mark : Type} [SMul Affine Mark]

/-- The calls that the drawing makes, as they reach the pen. -/
def calls (respond : Responder σ Mark) : Drawing Mark → σ → List (Call Mark)
  | done, _ | fail _, _ => []
  | call c, _ => [c]
  | andThen first second, s =>
    first.calls respond s ++
      match first.run respond s with
      | (s, .ok ()) => second.calls respond s
      | (_, .error _) => []
  | attempt trial onSuccess onFailure, s =>
    trial.calls respond s ++
      match trial.run respond s with
      | (s, .ok ()) => onSuccess.calls respond s
      | (s, .error _) => onFailure.calls respond s
  | through a inner, s => (inner.calls (fun s c => respond s (a • c)) s).map (a • ·)

theorem after_calls (respond : Responder σ Mark) (d : Drawing Mark) (s : σ) :
    after respond s (d.calls respond s) = (d.run respond s).1 := by
  induction d generalizing respond s with
  | done | fail | call => rfl
  | andThen first second ih₁ ih₂ =>
    rw [calls, after_append, ih₁, run]
    rcases first.run respond s with ⟨s', e | ⟨⟩⟩
    · rfl
    · exact ih₂ respond s'
  | attempt trial onSuccess onFailure ih₁ ih₂ ih₃ =>
    rw [calls, after_append, ih₁, run]
    rcases trial.run respond s with ⟨s', e | ⟨⟩⟩
    · exact ih₃ respond s'
    · exact ih₂ respond s'
  | through a inner ih =>
    rw [calls, after_map]
    exact ih _ s

theorem accepted_calls_iff {respond : Responder σ Mark} {d : Drawing Mark} {s : σ} :
    Accepted respond s (d.calls respond s) ↔ d.refusal? respond s = none := by
  induction d generalizing respond s with
  | done | fail => exact iff_of_true trivial rfl
  | call c =>
    simp only [calls, Accepted, refusal?]
    cases (respond s c).2 <;> simp
  | andThen first second ih₁ ih₂ =>
    simp only [calls, accepted_append, after_calls, refusal?, Option.orElse_eq_orElse,
      Option.orElse_eq_or, Option.or_eq_none_iff, ih₁]
    rcases first.run respond s with ⟨s', e | ⟨⟩⟩
    · exact and_congr_right' (iff_of_true trivial rfl)
    · exact and_congr_right' ih₂
  | attempt trial onSuccess onFailure ih₁ ih₂ ih₃ =>
    simp only [calls, accepted_append, after_calls, refusal?, Option.orElse_eq_orElse,
      Option.orElse_eq_or, Option.or_eq_none_iff, ih₁]
    rcases trial.run respond s with ⟨s', e | ⟨⟩⟩
    · exact and_congr_right' ih₃
    · exact and_congr_right' ih₂
  | through a inner ih =>
    rw [calls, accepted_map]
    exact ih

/-- Every state on the trail comes after some first calls. -/
theorem exists_prefix_of_mem_trail {respond : Responder σ Mark} {d : Drawing Mark} {s t : σ}
    (ht : t ∈ d.trail respond s) :
    ∃ earlier, earlier <+: d.calls respond s ∧ after respond s earlier = t := by
  induction d generalizing respond s with
  | done | fail => cases ht
  | call c => exact ⟨[c], List.prefix_refl _, (List.mem_singleton.1 ht).symm⟩
  | andThen first second ih₁ ih₂ =>
    rw [trail] at ht
    rw [calls]
    rcases List.mem_append.1 ht with ht | ht
    · obtain ⟨earlier, hprefix, rfl⟩ := ih₁ ht
      exact ⟨earlier, hprefix.trans (List.prefix_append _ _), rfl⟩
    · refine exists_prefix_append ?_
      rw [after_calls]
      rcases hr : first.run respond s with ⟨s', e | ⟨⟩⟩
      · simp [hr] at ht
      · simp only [hr] at ht
        exact ih₂ ht
  | attempt trial onSuccess onFailure ih₁ ih₂ ih₃ =>
    rw [trail] at ht
    rw [calls]
    rcases List.mem_append.1 ht with ht | ht
    · obtain ⟨earlier, hprefix, rfl⟩ := ih₁ ht
      exact ⟨earlier, hprefix.trans (List.prefix_append _ _), rfl⟩
    · refine exists_prefix_append ?_
      rw [after_calls]
      rcases hr : trial.run respond s with ⟨s', e | ⟨⟩⟩ <;> simp only [hr] at ht
      · exact ih₃ ht
      · exact ih₂ ht
  | through a inner ih =>
    obtain ⟨earlier, hprefix, rfl⟩ := ih ht
    exact ⟨earlier.map (a • ·), hprefix.map _, after_map a respond s earlier⟩

end Drawing

end GlyphDrawing
