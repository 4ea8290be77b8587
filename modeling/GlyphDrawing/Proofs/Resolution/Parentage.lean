import Mathlib.Logic.Relation
import GlyphDrawing.Proofs.Resolution.Arrivals
import GlyphDrawing.Proofs.Resolution.Termination

/-!
# Parents and the calls that made them

A decomposition gives one parent to all references that are new on the pen when it is over, however
they got there. In every state of a resolution the parents cover what is pending and stand before
their children. As long as no call is refused, they also tell the truth (`Turns.parentage`): the
parent of a reference is the one in whose decomposition a call has placed it, and a reference counts
as cyclic exactly if one that it comes from, over any number of decompositions, has its name.
-/

namespace GlyphDrawing

/-- The ancestors are reached by steps from child to parent. -/
theorem Ancestry.Descending.mem_ancestors_iff {parents : Ancestry} (h : parents.Descending)
    {i p : Nat} :
    p ∈ parents.ancestors i ↔
      Relation.TransGen (fun child parent => parents[child]? = some (some parent)) i p := by
  constructor
  · intro hp
    induction i using Nat.strongRecOn with
    | ind i ih =>
      rw [h.ancestors_eq] at hp
      cases hparent : parents[i]?.join with
      | none => simp [hparent] at hp
      | some q =>
        have hstep : parents[i]? = some (some q) := Option.join_eq_some_iff.1 hparent
        rw [hparent] at hp
        rcases List.mem_cons.1 hp with rfl | hp
        · exact .single hstep
        · exact .head hstep (ih q (h i q hparent) hp)
  · intro hp
    induction hp using Relation.TransGen.head_induction_on with
    | single hstep =>
      rw [h.ancestors_eq, Option.join_eq_some_iff.2 hstep]
      exact List.mem_cons_self
    | head hstep _ ih =>
      rw [h.ancestors_eq, Option.join_eq_some_iff.2 hstep]
      exact List.mem_cons_of_mem _ ih

theorem Call.exists_of_getElem?_placed {Mark : Type} {calls : List (Call Mark)} {k : Nat}
    {r : Reference} (h : (calls.filterMap placed?)[k]? = some r) :
    ∃ earlier later, calls = earlier ++ component r :: later ∧
      (earlier.filterMap placed?).length = k := by
  induction calls generalizing k with
  | nil => cases h
  | cons c calls ih =>
    cases c with
    | mark m =>
      obtain ⟨earlier, later, rfl, hlength⟩ := ih h
      exact ⟨mark m :: earlier, later, rfl, hlength⟩
    | component r' =>
      cases k with
      | zero =>
        obtain rfl : r' = r := Option.some.inj h
        exact ⟨[], calls, rfl, rfl⟩
      | succ k =>
        obtain ⟨earlier, later, rfl, hlength⟩ := ih h
        exact ⟨component r' :: earlier, later, rfl, congrArg Nat.succ hlength⟩

namespace Pen

variable {π Mark : Type} [Pen π Mark] {p : π} {calls : List (Call Mark)} {i : Nat}

theorem pending_after_eq (h : Accepted respond p calls) :
    (pending (after respond p calls)).toList =
      (pending p).toList ++ calls.filterMap Call.placed? := by
  have hrow := advances_after (List.suffix_refl (pending p).toList) calls
  have hnone : forgotten p (pending p).toList = 0 := by
    rw [forgotten, Array.length_toList, Nat.sub_self]
  rw [hrow.holds.pending_eq, hrow.forgotten_eq h, hnone, List.drop_zero]

theorem size_after_eq (h : Accepted respond p calls) :
    (pending (after respond p calls)).size =
      (pending p).size + (calls.filterMap Call.placed?).length := by
  rw [← Array.length_toList, pending_after_eq h, List.length_append, Array.length_toList]

/-- What has become pending in a row of accepted calls was placed by one of them. -/
theorem exists_component (h : Accepted respond p calls) (hp : (pending p).size ≤ i)
    (hi : i < (pending (after respond p calls)).size) :
    ∃ earlier r later, calls = earlier ++ .component r :: later ∧
      (pending (after respond p earlier)).size = i ∧
      (pending (after respond p calls))[i]? = some r := by
  obtain ⟨r, hr⟩ : ∃ r, (pending (after respond p calls))[i]? = some r :=
    ⟨_, Array.getElem?_eq_getElem hi⟩
  have hplaced : (calls.filterMap Call.placed?)[i - (pending p).size]? = some r := by
    rw [← Array.getElem?_toList, pending_after_eq h,
      List.getElem?_append_right (by rwa [Array.length_toList]), Array.length_toList] at hr
    exact hr
  obtain ⟨earlier, later, hcalls, hlength⟩ := Call.exists_of_getElem?_placed hplaced
  rw [hcalls, accepted_append] at h
  refine ⟨earlier, r, later, hcalls, ?_, hr⟩
  rw [size_after_eq h.1, hlength]
  omega

/-- In a row of accepted calls, each component has its place behind what was pending before. -/
theorem size_le_of_component {earlier later : List (Call Mark)} {r : Reference}
    (h : Accepted respond p (earlier ++ .component r :: later)) :
    (pending p).size ≤ (pending (after respond p earlier)).size ∧
      (pending (after respond p earlier)).size <
        (pending (after respond p (earlier ++ .component r :: later))).size := by
  rw [size_after_eq h, size_after_eq (accepted_append.1 h).1, List.filterMap_append,
    List.length_append]
  refine ⟨Nat.le_add_right _ _, ?_⟩
  rw [List.filterMap_cons, Call.placed?, List.length_cons]
  omega

end Pen

namespace Resolution

open Pen (stragglers straggled straggledTurns straggledEnd)

variable {π Mark : Type} [Pen π Mark] [SMul Affine Mark] {job : Job} {a b : Resolution π}
  {turns : List (Turn π)} {t : Turn π} {i j : Nat}

/-- In one of the turns up to the state `b`, the reference at index `parent` is decomposed, and one
of the calls places what stands at index `child`. -/
def Begets (job : Job) (turns : List (Turn π)) (b : Resolution π) (parent child : Nat) : Prop :=
  ∃ t ∈ turns, t.state.next = parent ∧ (Pen.pending b.pen)[parent]? = some t.reference ∧
    ∃ source earlier r later, t.outcome job = .decomposed source ∧
      (drawn π source t.reference).calls Pen.respond t.state.pen =
        earlier ++ .component r :: later ∧
      (Pen.pending (after Pen.respond t.state.pen earlier)).size = child ∧
      (Pen.pending b.pen)[child]? = some r

/-- What is pending was pending at the start or has been added in one of the turns. -/
theorem Turns.lt_or_added (h : Turns job a turns b) (hi : i < (Pen.pending b.pen).size) :
    i < (Pen.pending a.pen).size ∨ ∃ t ∈ turns, (Pen.pending t.state.pen).size ≤ i ∧
      i < (Pen.pending (t.step job).1.pen).size := by
  induction h with
  | refl => exact .inl hi
  | @snoc turns b c r hb hr hc ih =>
    by_cases hlt : i < (Pen.pending b.pen).size
    · rcases ih hlt with hfirst | ⟨t, ht, hadded⟩
      · exact .inl hfirst
      · exact .inr ⟨t, List.mem_append_left _ ht, hadded⟩
    · refine .inr ⟨⟨b, r⟩, List.mem_append_right _ List.mem_cons_self, Nat.le_of_not_lt hlt, ?_⟩
      rw [Turn.step, hc]
      exact hi

/-- What stands after a turn of a calm row stays. -/
theorem Turns.stable_step_of_mem (h : Turns job a turns b) (ha : Rooted a)
    (hcalm : ∀ t ∈ turns, t.Calm job) (ht : t ∈ turns) : Stable (t.step job).1 b := by
  obtain ⟨before, after, c, rfl, hbefore, href, hstep, hafter⟩ := h.of_mem ht
  rw [hstep]
  exact hafter.stable ((hbefore.rooted ha).step href hstep) fun s hs => hcalm s (by simp [hs])

theorem Turn.pen_step (job : Job) (t : Turn π) :
    (t.step job).1.pen = after Pen.respond t.state.pen (t.calls job) :=
  Resolution.pen_step job t.state t.reference

theorem Turn.calls_of_decomposed {source : Source} (h : t.outcome job = .decomposed source) :
    t.calls job = (drawn π source t.reference).calls Pen.respond t.state.pen := by
  rw [Turn.calls, h]

/-- A turn that adds a reference is a decomposition. -/
theorem Turn.exists_decomposed (hi : (Pen.pending t.state.pen).size ≤ i)
    (hadded : i < (Pen.pending (t.step job).1.pen).size) :
    ∃ source, t.outcome job = .decomposed source := by
  rw [Turn.pen_step, Turn.calls] at hadded
  cases ho : t.outcome job with
  | decomposed source => exact ⟨source, rfl⟩
  | missing | selfReferring | kept =>
    rw [ho] at hadded
    exact absurd hadded (Nat.not_lt_of_le hi)

/-- What a turn of a calm row adds is placed by one of its calls. -/
theorem Turns.begets_of_added (h : Turns job a turns b) (ha : Rooted a)
    (hcalm : ∀ t ∈ turns, t.Calm job) (ht : t ∈ turns) (hi : (Pen.pending t.state.pen).size ≤ i)
    (hadded : i < (Pen.pending (t.step job).1.pen).size) :
    Begets job turns b t.state.next i := by
  obtain ⟨hstable, href⟩ := h.stable_of_mem ha hcalm ht
  have hparent : t.state.next < (Pen.pending t.state.pen).size :=
    (Array.getElem?_eq_some_iff.1 href).1
  have hchild := (h.stable_step_of_mem ha hcalm ht i hadded).2.1
  obtain ⟨source, ho⟩ := Turn.exists_decomposed hi hadded
  rw [Turn.pen_step] at hadded hchild
  obtain ⟨earlier, r, later, hcalls, hsize, hr⟩ :=
    Pen.exists_component (t.calm_iff.1 (hcalm t ht)) hi hadded
  rw [Turn.calls_of_decomposed ho] at hcalls
  exact ⟨t, ht, rfl, (hstable _ hparent).2.1.trans href, source, earlier, r, later, ho, hcalls,
    hsize, hchild.trans hr⟩

theorem Turns.parent_of_begets (h : Turns job a turns b) (ha : Rooted a)
    (hcalm : ∀ t ∈ turns, t.Calm job) (hbegets : Begets job turns b j i) :
    b.parents[i]? = some (some j) := by
  obtain ⟨t, ht, rfl, -, source, earlier, r, later, ho, hcalls, rfl, -⟩ := hbegets
  have haccepted := t.calm_iff.1 (hcalm t ht)
  rw [← Turn.calls_of_decomposed ho] at hcalls
  rw [hcalls] at haccepted
  obtain ⟨hle, hlt⟩ := Pen.size_le_of_component haccepted
  rw [← hcalls, ← Turn.pen_step] at hlt
  exact h.parent_eq ha hcalm ht hle hlt

omit [SMul Affine Mark] in
theorem parents_start (p : π) (hi : i < (Pen.pending p).size) :
    (start p).parents[i]? = some none := by
  rw [start, Array.getElem?_replicate, if_pos hi]

/-- What the parents say about the references that are pending after some turns. -/
structure Parentage (job : Job) (p : π) (turns : List (Turn π)) (b : Resolution π) : Prop where
  size_eq : b.parents.size = (Pen.pending b.pen).size
  lt_of_parent {i j : Nat} (h : b.parents[i]? = some (some j)) : j < i
  parent_iff (hcalm : ∀ t ∈ turns, t.Calm job) {i j : Nat} :
    b.parents[i]? = some (some j) ↔ Begets job turns b j i
  /-- The references that were pending at the start have no parent. -/
  no_parent_iff (hcalm : ∀ t ∈ turns, t.Calm job) {i : Nat} :
    b.parents[i]? = some none ↔ i < (Pen.pending p).size
  isCyclic_iff (hcalm : ∀ t ∈ turns, t.Calm job) {i : Nat} :
    b.parents.isCyclic (Pen.pending b.pen) i = true ↔
      ∃ j, Relation.TransGen (fun child parent => Begets job turns b parent child) i j ∧
        ∃ r r', (Pen.pending b.pen)[i]? = some r ∧ (Pen.pending b.pen)[j]? = some r' ∧
          r'.name = r.name

section Start

variable {p : π}

/-- A reference was pending at the start, or the parent that it has begot it. -/
theorem Turns.parent_cases (h : Turns job (start p) turns b) (hcalm : ∀ t ∈ turns, t.Calm job)
    (hi : i < b.parents.size) :
    (i < (Pen.pending p).size ∧ b.parents[i]? = some none) ∨
      ∃ j, b.parents[i]? = some (some j) ∧ Begets job turns b j i := by
  have hroot := rooted_start p
  rw [(h.rooted hroot).size_eq] at hi
  rcases h.lt_or_added hi with hfirst | ⟨t, ht, hle, hadded⟩
  · have hstart := (h.stable hroot hcalm i hfirst).2.2
    exact .inl ⟨hfirst, hstart.trans (parents_start p hfirst)⟩
  · have hparent := h.parent_eq hroot hcalm ht hle hadded
    exact .inr ⟨t.state.next, hparent, h.begets_of_added hroot hcalm ht hle hadded⟩

theorem Turns.parent_iff (h : Turns job (start p) turns b) (hcalm : ∀ t ∈ turns, t.Calm job) :
    b.parents[i]? = some (some j) ↔ Begets job turns b j i := by
  refine ⟨fun hparent => ?_, h.parent_of_begets (rooted_start p) hcalm⟩
  rcases h.parent_cases hcalm (Array.getElem?_eq_some_iff.1 hparent).1 with
    ⟨-, hnone⟩ | ⟨j', hsome, hbegets⟩
  · cases hnone.symm.trans hparent
  · obtain rfl : j' = j := Option.some.inj (Option.some.inj (hsome.symm.trans hparent))
    exact hbegets

theorem Turns.no_parent_iff (h : Turns job (start p) turns b)
    (hcalm : ∀ t ∈ turns, t.Calm job) :
    b.parents[i]? = some none ↔ i < (Pen.pending p).size := by
  constructor
  · intro hparent
    rcases h.parent_cases hcalm (Array.getElem?_eq_some_iff.1 hparent).1 with
      ⟨hfirst, -⟩ | ⟨j, hsome, -⟩
    · exact hfirst
    · cases hsome.symm.trans hparent
  · intro hfirst
    rw [(h.stable (rooted_start p) hcalm i hfirst).2.2, parents_start p hfirst]

theorem Turns.isCyclic_iff (h : Turns job (start p) turns b) (hcalm : ∀ t ∈ turns, t.Calm job) :
    b.parents.isCyclic (Pen.pending b.pen) i = true ↔
      ∃ j, Relation.TransGen (fun child parent => Begets job turns b parent child) i j ∧
        ∃ r r', (Pen.pending b.pen)[i]? = some r ∧ (Pen.pending b.pen)[j]? = some r' ∧
          r'.name = r.name := by
  have hsteps : (fun child parent => b.parents[child]? = some (some parent)) =
      fun child parent => Begets job turns b parent child :=
    funext₂ fun _ _ => propext (h.parent_iff hcalm)
  have hdescending := (h.rooted (rooted_start p)).descending
  simp only [Ancestry.isCyclic, Option.any_eq_true, List.any_eq_true, beq_iff_eq,
    hdescending.mem_ancestors_iff, hsteps]
  constructor
  · rintro ⟨r, hr, j, hancestor, r', hr', hname⟩
    exact ⟨j, hancestor, r, r', hr, hr', hname⟩
  · rintro ⟨j, hancestor, r, r', hr, hr', hname⟩
    exact ⟨r, hr, j, hancestor, r', hr', hname⟩

/-- Whenever another reference is to be resolved, or nothing is left, each pending reference has its
entry among the parents and no reference is before its parent. If no call has been refused, the
parents are those that begot the references. -/
theorem Turns.parentage {setting : Setting} {options : Options}
    (h : Turns (Pen.job setting options p) (start p) turns b) :
    Parentage (Pen.job setting options p) p turns b where
  size_eq := (h.rooted (rooted_start p)).size_eq
  lt_of_parent hparent :=
    (h.rooted (rooted_start p)).descending _ _ (Option.join_eq_some_iff.2 hparent)
  parent_iff hcalm := h.parent_iff hcalm
  no_parent_iff hcalm := h.no_parent_iff hcalm
  isCyclic_iff hcalm := h.isCyclic_iff hcalm

end Start

def innerHead : Resolution StrokePen :=
  (tailTurn.step (Pen.job headTail {} largeHead)).1

/-- The head in the tail comes from the head, so it is cyclic. The straggler has emptied the pen,
and what it has placed first stands where a reference without a parent stood before. -/
theorem innerHead_parentage :
    (start largeHead).Turns (Pen.job headTail {} largeHead) [headTurn, tailTurn] innerHead ∧
      (∀ t ∈ [headTurn, tailTurn], t.Calm (Pen.job headTail {} largeHead)) ∧
      Begets (Pen.job headTail {} largeHead) [headTurn, tailTurn] innerHead 0 1 ∧
      Begets (Pen.job headTail {} largeHead) [headTurn, tailTurn] innerHead 1 2 ∧
      innerHead.parents.isCyclic (Pen.pending innerHead.pen) 2 = true ∧
      (start straggled).Turns (Pen.job stragglers {} straggled) straggledTurns straggledEnd ∧
      straggledEnd.parents = #[none, some 0] ∧
      straggledEnd.parents.size = (Pen.pending straggledEnd.pen).size := by
  have hhead : headTurn.step (Pen.job headTail {} largeHead) = (tailTurn.state, .ok ()) := by
    refine Prod.ext rfl ?_
    rw [Turn.step, step_of_decomposed outcome_headTurn]
    rfl
  have htail : tailTurn.step (Pen.job headTail {} largeHead) = (innerHead, .ok ()) := by
    refine Prod.ext rfl ?_
    rw [Turn.step, step_of_decomposed outcome_tailTurn]
    rfl
  have hturns : (start largeHead).Turns (Pen.job headTail {} largeHead) [headTurn, tailTurn]
      innerHead :=
    (Turns.refl.snoc rfl hhead).snoc (by decide +kernel) htail
  have hcalm := hturns.calm forwards_headTail
  have hparentage := hturns.parentage
  have hparents : innerHead.parents = #[none, some 0, some 1] := by decide +kernel
  have hfirst : Begets (Pen.job headTail {} largeHead) [headTurn, tailTurn] innerHead 0 1 :=
    (hparentage.parent_iff hcalm).1 (by rw [hparents]; rfl)
  have hsecond : Begets (Pen.job headTail {} largeHead) [headTurn, tailTurn] innerHead 1 2 :=
    (hparentage.parent_iff hcalm).1 (by rw [hparents]; rfl)
  have hstraggled := Pen.completes_straggled.turns
  refine ⟨hturns, hcalm, hfirst, hsecond, ?_, hstraggled, rfl, hstraggled.parentage.size_eq⟩
  have hhere : (Pen.pending innerHead.pen)[2]? = some ⟨"head", ⟨⟨3, 0, 0, 3⟩, ⟨3, 3⟩⟩⟩ := by
    decide +kernel
  have habove : (Pen.pending innerHead.pen)[0]? = some ⟨"head", ⟨⟨3, 0, 0, 3⟩, ⟨0, 0⟩⟩⟩ := by
    decide +kernel
  exact (hparentage.isCyclic_iff hcalm).2
    ⟨0, .head hsecond (.single hfirst), _, _, hhere, habove, rfl⟩

end Resolution

end GlyphDrawing
