import GlyphDrawing.Pen.Basic

/-!
# How pending references grow

Drawing on a pen either adds references after those that are pending, or empties the pen on the
way. In both cases no more are new than the drawing places components (`grown_draw`).
-/

namespace GlyphDrawing

/-- From `before` to `after`, at most `count` references are new. -/
def Grown (before after : Array Reference) (count : Nat) : Prop :=
  (∃ added : Array Reference, after = before ++ added ∧ added.size ≤ count) ∨ after.size ≤ count

namespace Grown

variable {a b c : Array Reference} {m n : Nat}

theorem refl (a : Array Reference) : Grown a a 0 :=
  .inl ⟨#[], by simp, Nat.le_refl 0⟩

theorem mono (h : Grown a b m) (hmn : m ≤ n) : Grown a b n := by
  rcases h with ⟨added, hb, hle⟩ | hle
  · exact .inl ⟨added, hb, Nat.le_trans hle hmn⟩
  · exact .inr (Nat.le_trans hle hmn)

theorem trans (h : Grown a b m) (h' : Grown b c n) : Grown a c (m + n) := by
  rcases h' with ⟨added, rfl, hle⟩ | hle
  · rcases h with ⟨earlier, rfl, hle'⟩ | hle'
    · refine .inl ⟨earlier ++ added, Array.append_assoc, ?_⟩
      rw [Array.size_append]
      omega
    · refine .inr ?_
      rw [Array.size_append]
      omega
  · exact .inr (by omega)

end Grown

theorem Drawing.grown_run {σ Mark : Type} [SMul Affine Mark] {respond : Responder σ Mark}
    {view : σ → Array Reference}
    (hcall : ∀ s c, Grown (view s) (view (respond s c).1) (call c).placements)
    (d : Drawing Mark) (s : σ) : Grown (view s) (view (d.run respond s).1) d.placements := by
  induction d generalizing respond s with
  | done | fail => exact .refl _
  | call c => exact hcall s c
  | andThen first second ih₁ ih₂ =>
    have h₁ := ih₁ hcall s
    simp only [run, placements]
    split <;> rename_i heq <;> rw [heq] at h₁
    · exact h₁.trans (ih₂ hcall _)
    · exact h₁.mono (by omega)
  | attempt trial onSuccess onFailure ih₁ ih₂ ih₃ =>
    have h₁ := ih₁ hcall s
    simp only [run, placements]
    split <;> rename_i heq <;> rw [heq] at h₁
    · exact (h₁.trans (ih₂ hcall _)).mono (by omega)
    · exact (h₁.trans (ih₃ hcall _)).mono (by omega)
  | through a inner ih =>
    refine ih (fun s c => ?_) s
    have h := hcall s (a • c)
    cases c <;> exact h

namespace Pen

variable {π Mark : Type} [Pen π Mark]

theorem grown_respond (p : π) (c : Call Mark) :
    Grown (pending p) (pending (respond p c).1) (Drawing.call c).placements := by
  cases c with
  | component r =>
    refine .inl ⟨#[r], ?_, by simp [Drawing.placements]⟩
    simp [respond, addReference, pending, sketch_mapSketch, Sketch.addReference]
  | mark m =>
    simp only [respond, Drawing.placements]
    match h : Pen.mark p m with
    | (q, .ok ()) =>
      rw [pending, pending, pending_mark h]
      exact .refl _
    | (q, .error e) =>
      rw [eq_empty_of_mark h, pending, pending, sketch_empty]
      exact .inr (Nat.le_refl 0)

theorem grown_draw [SMul Affine Mark] (p : π) (d : Drawing Mark) :
    Grown (pending p) (pending (draw p d).1) d.placements :=
  Drawing.grown_run grown_respond d p

end Pen

end GlyphDrawing
