import GlyphDrawing.Proofs.Repertoire
import GlyphDrawing.Proofs.Resolution.Ancestry
import GlyphDrawing.Proofs.Resolution.Turns

/-!
# The ancestry kept by a resolution

In every state of a resolution the ancestry covers the pending references, and parents stand before
their children (`Turns.rooted`). As long as no pen refuses a call, pending references and their
parents stay as they are (`Turns.stable`), so that the parent of a reference is the one whose
decomposition added it (`Turns.parent_eq`).
-/

namespace GlyphDrawing

namespace Pen

variable {π Mark : Type} [Pen π Mark]

theorem exists_pending_respond {p : π} {c : Call Mark} (h : (respond p c).2 = .ok ()) :
    ∃ added : Array Reference, pending (respond p c).1 = pending p ++ added := by
  cases c with
  | component r =>
    refine ⟨#[r], ?_⟩
    simp [respond, addReference, pending, sketch_mapSketch, Sketch.addReference]
  | mark m =>
    refine ⟨#[], ?_⟩
    rw [Array.append_empty]
    have hm : mark p m = ((respond p (.mark m)).1, .ok ()) := Prod.ext rfl h
    exact pending_mark hm

theorem exists_pending_draw [SMul Affine Mark] {p : π} {d : Drawing Mark}
    (h : d.refusal? respond p = none) :
    ∃ added : Array Reference, pending (draw p d).1 = pending p ++ added := by
  refine Drawing.run_invariant_of_calm
    (P := fun q : π => ∃ added : Array Reference, pending q = pending p ++ added)
    (fun q c hq hc => ?_) ⟨#[], by simp⟩ h
  obtain ⟨earlier, hearlier⟩ := hq
  obtain ⟨added, hadded⟩ := exists_pending_respond hc
  exact ⟨earlier ++ added, by rw [hadded, hearlier, Array.append_assoc]⟩

end Pen

namespace Resolution

variable {π Mark : Type} [Pen π Mark] {a b c : Resolution π}

/-- The references of `a` stand in `b` at the same places and with the same parents. -/
def Stable (a b : Resolution π) : Prop :=
  ∀ i < (Pen.pending a.pen).size, i < (Pen.pending b.pen).size ∧
    (Pen.pending b.pen)[i]? = (Pen.pending a.pen)[i]? ∧ b.parents[i]? = a.parents[i]?

theorem stable_refl (a : Resolution π) : Stable a a :=
  fun _ hi => ⟨hi, rfl, rfl⟩

theorem Stable.trans (h : Stable a b) (h' : Stable b c) : Stable a c := by
  intro i hi
  obtain ⟨hib, hpending, hparents⟩ := h i hi
  obtain ⟨hic, hpending', hparents'⟩ := h' i hib
  exact ⟨hic, hpending'.trans hpending, hparents'.trans hparents⟩

theorem Stable.ancestors_eq (h : Stable a b) {i : Nat} (hi : i < (Pen.pending a.pen).size) :
    b.parents.ancestors i = a.parents.ancestors i :=
  Ancestry.ancestors_congr fun j hj => (h j (by omega)).2.2

structure Rooted (a : Resolution π) : Prop where
  size_eq : a.parents.size = (Pen.pending a.pen).size
  descending : a.parents.Descending

theorem rooted_start (p : π) : Rooted (start p) where
  size_eq := Array.size_replicate
  descending := Ancestry.descending_replicate _

variable [SMul Affine Mark] {job : Job} {turns : List (Turn π)}
  {r : Reference}

theorem Rooted.step (ha : Rooted a) (hr : (Pen.pending a.pen)[a.next]? = some r)
    (hb : a.step job r = (b, .ok ())) : Rooted b := by
  obtain ⟨-, rfl⟩ | ⟨-, rfl⟩ | ⟨source, -, hb⟩ | ⟨-, rfl⟩ := step_cases hb
  · exact ⟨ha.size_eq, ha.descending⟩
  · exact ⟨ha.size_eq, ha.descending⟩
  · have hnext : a.next < (Pen.pending a.pen).size := (Array.getElem?_eq_some_iff.1 hr).1
    obtain ⟨rfl, -⟩ := Prod.mk.inj hb
    exact ⟨Ancestry.size_adopt, ha.descending.adopt ha.size_eq hnext⟩
  · exact ⟨ha.size_eq, ha.descending⟩

theorem Turns.rooted (h : Turns job a turns b) (ha : Rooted a) : Rooted b :=
  h.invariant ha fun _ _ _ hs hr hstep => hs.step hr hstep

def Turn.Calm (job : Job) (t : Turn π) : Prop :=
  ∀ source, t.outcome job = .decomposed source →
    (drawn π source t.reference).refusal? Pen.respond t.state.pen = none

theorem calm_of_forwards (hmembers : job.repertoire.Forwards π)
    (hb : a.step job r = (b, .ok ())) : Turn.Calm job ⟨a, r⟩ := by
  intro source ho
  have hreply : (Pen.draw a.pen (drawn π source r)).2 = .ok () := by
    rw [step_of_decomposed ho] at hb
    exact congrArg Prod.snd hb
  refine Option.eq_none_iff_forall_ne_some.2 fun e he => ?_
  have hfails := hmembers _ _ (outcome_eq_decomposed_iff.1 ho).1 r.placement a.pen e he
  cases hreply.symm.trans hfails

theorem stable_step (ha : Rooted a) (hb : a.step job r = (b, .ok ()))
    (hcalm : Turn.Calm job ⟨a, r⟩) : Stable a b := by
  obtain ⟨-, rfl⟩ | ⟨-, rfl⟩ | ⟨source, ho, hb⟩ | ⟨-, rfl⟩ := step_cases hb
  · exact stable_refl a
  · exact stable_refl a
  · intro i hi
    obtain ⟨added, hadded⟩ := Pen.exists_pending_draw (hcalm source ho)
    rw [decompose_eq] at hb
    obtain ⟨rfl, -⟩ := Prod.mk.inj hb
    simp only [Pen.draw] at hadded ⊢
    rw [hadded, Array.size_append]
    refine ⟨by omega, Array.getElem?_append_left hi, ?_⟩
    exact Ancestry.getElem?_adopt_of_lt hi (by omega) (by rw [ha.size_eq]; exact hi)
  · exact stable_refl a

theorem Turns.stable (h : Turns job a turns b) (ha : Rooted a) (hcalm : ∀ t ∈ turns, t.Calm job) :
    Stable a b := by
  induction h with
  | refl => exact stable_refl a
  | @snoc turns b c r hb hr hc ih =>
    have hlast : Turn.Calm job ⟨b, r⟩ := hcalm _ (by simp)
    exact (ih fun t ht => hcalm t (by simp [ht])).trans (stable_step (hb.rooted ha) hc hlast)

/-- A turn of a calm row began in a state that stands as it was. -/
theorem Turns.stable_of_mem {t : Turn π} (h : Turns job a turns b) (ha : Rooted a)
    (hcalm : ∀ t ∈ turns, t.Calm job) (ht : t ∈ turns) :
    Stable t.state b ∧ (Pen.pending t.state.pen)[t.state.next]? = some t.reference := by
  obtain ⟨before, after, c, rfl, hbefore, href, hstep, hafter⟩ := h.of_mem ht
  have hroot := hbefore.rooted ha
  have hfirst := stable_step hroot hstep (hcalm t ht)
  exact ⟨hfirst.trans (hafter.stable (hroot.step href hstep) fun s hs => hcalm s (by simp [hs])),
    href⟩

theorem Turns.calm (h : Turns job a turns b) (hmembers : job.repertoire.Forwards π) :
    ∀ t ∈ turns, t.Calm job := by
  intro t ht
  obtain ⟨-, -, c, -, -, -, hstep, -⟩ := h.of_mem ht
  exact calm_of_forwards hmembers hstep

/-- The turns resolve the pending references from the first on. -/
theorem Turns.references_eq (h : Turns job a turns b) (ha : Rooted a)
    (hcalm : ∀ t ∈ turns, t.Calm job) :
    turns.map (·.reference) = ((Pen.pending b.pen).toList.take b.next).drop a.next := by
  induction h with
  | refl => simp
  | @snoc turns b c r hb hr hc ih =>
    have hnext : b.next < (Pen.pending b.pen).size := (Array.getElem?_eq_some_iff.1 hr).1
    have hstable := stable_step (hb.rooted ha) hc (hcalm _ (by simp))
    have htake : (Pen.pending c.pen).toList.take (b.next + 1) =
        (Pen.pending b.pen).toList.take b.next ++ [r] := by
      rw [← take_succ_of_getElem? (Array.getElem?_toList.trans hr)]
      refine List.ext_getElem? fun i => ?_
      rw [List.getElem?_take, List.getElem?_take]
      split_ifs with hi
      · rw [Array.getElem?_toList, Array.getElem?_toList]
        exact (hstable i (by omega)).2.1
      · rfl
    have hlength : a.next ≤ ((Pen.pending b.pen).toList.take b.next).length := by
      have := hb.next_eq
      rw [List.length_take, Array.length_toList]
      omega
    rw [List.map_append, ih fun t ht => hcalm t (by simp [ht]), next_of_step hc, htake,
      List.drop_append_of_le_length hlength]
    rfl

/-- The parent of a reference is the one in whose turn it was added. -/
theorem Turns.parent_eq {t : Turn π} {i : Nat} (h : Turns job a turns b) (ha : Rooted a)
    (hcalm : ∀ t ∈ turns, t.Calm job) (ht : t ∈ turns)
    (hi : (Pen.pending t.state.pen).size ≤ i) (hadded : i < (Pen.pending (t.step job).1.pen).size) :
    b.parents[i]? = some (some t.state.next) := by
  obtain ⟨before, after, c, rfl, hbefore, href, hstep, hafter⟩ := h.of_mem ht
  have hroot := (hbefore.rooted ha).step href hstep
  have hstable := hafter.stable hroot fun s hs => hcalm s (by simp [hs])
  rw [hstep] at hadded
  rw [(hstable i hadded).2.2]
  obtain ⟨-, rfl⟩ | ⟨-, rfl⟩ | ⟨source, -, hc⟩ | ⟨-, rfl⟩ := step_cases hstep
  · exact absurd hadded (Nat.not_lt_of_le hi)
  · exact absurd hadded (Nat.not_lt_of_le hi)
  · rw [decompose_eq] at hc
    obtain ⟨rfl, -⟩ := Prod.mk.inj hc
    exact Ancestry.getElem?_adopt_child hi hadded
  · exact absurd hadded (Nat.not_lt_of_le hi)

end Resolution

end GlyphDrawing
