import Mathlib.Data.List.Chain
import GlyphDrawing.Pen.StrokePen
import GlyphDrawing.Proofs.Resolution.Genealogy

/-!
# Every resolution ends

The potential bounds the turns of a resolution from any pen, whatever is drawn and refused on the
way. The chains of decompositions that make up the bound are as long as they look only while no
call is refused: then the names along a chain differ, since each of its references was compared
with all that stand above it (`resolution_ends`).
-/

namespace GlyphDrawing

namespace Resolution

variable {π Mark : Type} [Pen π Mark]

theorem potential_start_le (job : Job) (p : π) :
    (start p).potential job ≤
      ((Pen.pending p).size + width π job.repertoire * width π job.repertoire) *
        Ancestry.treeSize (width π job.repertoire) job.repertoire.size := by
  have htotal : ∀ f : Nat → Nat, (∀ i, f i ≤ Ancestry.treeSize (width π job.repertoire)
      job.repertoire.size) → Ancestry.total f 0 ((Pen.pending p).size - 0) ≤
        (Pen.pending p).size * Ancestry.treeSize (width π job.repertoire) job.repertoire.size :=
    fun f hf => Ancestry.total_le_mul fun i _ _ => hf i
  have hunused := htotal _ fun i => Ancestry.treeSize_mono <|
    (Ancestry.unused_le job.repertoire.keys (start p).parents (Pen.pending p) i).trans_eq
      Std.TreeMap.length_keys
  rw [Nat.add_mul, Nat.mul_assoc, potential, Ancestry.potential, Std.TreeMap.length_keys]
  exact Nat.add_le_add hunused le_rfl

variable [SMul Affine Mark] {job : Job} {a b : Resolution π} {turns : List (Turn π)}
  {r : Reference}

/-- The reference of `t'` is one that the decomposition in `t` added. -/
def Turn.Adds (job : Job) (t t' : Turn π) : Prop :=
  (Pen.pending t.state.pen).size ≤ t'.state.next ∧
    t'.state.next < (Pen.pending (t.step job).1.pen).size

theorem exists_ended (job : Job) (a : Resolution π) :
    ∃ turns b, a.Turns job turns b ∧ b.Ended job := by
  obtain ⟨turns, b, hb, ⟨hnone, -⟩ | ⟨r, c, e, hr, hstep, -⟩⟩ := exists_turns_run job a
  · refine ⟨turns, b, hb, fun r hr => ?_⟩
    rw [hnone] at hr
    cases hr
  · refine ⟨turns, b, hb, fun r' hr' => ⟨e, ?_⟩⟩
    obtain rfl : r = r' := Option.some.inj (hr.symm.trans hr')
    exact congrArg Prod.snd hstep

/-- The turns that have begun in `b`: those before it, and the one that follows. -/
theorem Turns.begun {t : Turn π} (h : Turns job a turns b) (ha : Rooted a)
    (hcalm : ∀ t ∈ turns, t.Calm job) (hr : (Pen.pending b.pen)[b.next]? = some r)
    (ht : t ∈ turns ++ [⟨b, r⟩]) :
    Stable t.state b ∧ (Pen.pending t.state.pen)[t.state.next]? = some t.reference := by
  rcases List.mem_append.1 ht with ht | ht
  · exact h.stable_of_mem ha hcalm ht
  · obtain rfl := List.mem_singleton.1 ht
    exact ⟨stable_refl b, hr⟩

theorem Turns.mem_ancestors {t t' : Turn π} (h : Turns job a turns b) (ha : Rooted a)
    (hcalm : ∀ t ∈ turns, t.Calm job) (hr : (Pen.pending b.pen)[b.next]? = some r)
    (ht : t ∈ turns ++ [⟨b, r⟩]) (ht' : t' ∈ turns ++ [⟨b, r⟩]) (hadds : t.Adds job t') :
    t.state.next ∈ b.parents.ancestors t'.state.next := by
  rcases List.mem_append.1 ht with ht | ht
  · have hparent := h.parent_eq ha hcalm ht hadds.1 hadds.2
    rw [(h.rooted ha).descending.ancestors_eq, hparent]
    exact List.mem_cons_self
  · obtain rfl := List.mem_singleton.1 ht
    have hb : b.next < (Pen.pending b.pen).size := (Array.getElem?_eq_some_iff.1 hr).1
    have hle : t'.state.next ≤ b.next := by
      rcases List.mem_append.1 ht' with ht' | ht'
      · obtain ⟨before, after, c, rfl, hbefore, -⟩ := h.of_mem ht'
        rw [h.next_eq, hbefore.next_eq, List.length_append]
        omega
      · rw [List.mem_singleton.1 ht']
    have := hadds.1
    dsimp only at this
    omega

/-- A decomposed reference has another name than each of its ancestors. -/
theorem Turns.name_ne {t t' : Turn π} {source : Source} (h : Turns job a turns b) (ha : Rooted a)
    (hcalm : ∀ t ∈ turns, t.Calm job) (hr : (Pen.pending b.pen)[b.next]? = some r)
    (ht : t ∈ turns ++ [⟨b, r⟩]) (ht' : t' ∈ turns ++ [⟨b, r⟩])
    (ho : t'.outcome job = .decomposed source)
    (hmem : t.state.next ∈ b.parents.ancestors t'.state.next) :
    t.reference.name ≠ t'.reference.name := by
  obtain ⟨hstable, href⟩ := h.begun ha hcalm hr ht
  obtain ⟨hstable', href'⟩ := h.begun ha hcalm hr ht'
  have hsize : t.state.next < (Pen.pending t.state.pen).size :=
    (Array.getElem?_eq_some_iff.1 href).1
  have hsize' : t'.state.next < (Pen.pending t'.state.pen).size :=
    (Array.getElem?_eq_some_iff.1 href').1
  have hlt := Ancestry.lt_of_mem_ancestors hmem
  have hsame : (Pen.pending t'.state.pen)[t.state.next]? = some t.reference := by
    rw [← (hstable' _ (hlt.trans hsize')).2.1, (hstable _ hsize).2.1, href]
  rw [hstable'.ancestors_eq hsize'] at hmem
  obtain ⟨-, -, hcyclic⟩ := outcome_eq_decomposed_iff.1 ho
  simp only [Ancestry.isCyclic, href', Option.any_some, List.any_eq_false] at hcyclic
  simpa [hsame] using hcyclic _ hmem

end Resolution

open Resolution in
/-- From every pen, with every repertoire, a resolution ends after a bounded number of turns, and
so does each search among the ancestors of a reference. While no call is refused, the references
along a chain of decompositions have different names, so there are no more of them than names. -/
theorem resolution_ends {π Mark : Type} [Pen π Mark] [SMul Affine Mark] (setting : Setting)
    (options : Options) (p : π) :
    (∀ turns b, (start p).Turns (Pen.job setting options p) turns b →
      turns.length ≤
          ((Pen.pending p).size + width π setting.repertoire * width π setting.repertoire) *
            Ancestry.treeSize (width π setting.repertoire) setting.repertoire.size ∧
        (∃ later c, b.Turns (Pen.job setting options p) later c ∧
          c.Ended (Pen.job setting options p)) ∧
        ∀ i, b.parents.walk (i + 1) i = none ∧
          ∀ n, (b.parents.ancestors i)[n]? = b.parents.walk (n + 1) i) ∧
    ∀ turns b r, (start p).Turns (Pen.job setting options p) turns b →
      (Pen.pending b.pen)[b.next]? = some r →
      (∀ t ∈ turns, t.Calm (Pen.job setting options p)) →
      ∀ chain : List (Turn π), chain.IsChain (Turn.Adds (Pen.job setting options p)) →
        (∀ t ∈ chain, t ∈ turns ++ [⟨b, r⟩] ∧
          ∃ source, t.outcome (Pen.job setting options p) = .decomposed source) →
        (chain.map (·.reference.name)).Nodup ∧ chain.length ≤ setting.repertoire.size := by
  refine ⟨fun turns b hb => ⟨?_, exists_ended _ b, fun i => ?_⟩, ?_⟩
  · have hlength := hb.length_add_potential_le
    have hstart := potential_start_le (Pen.job setting options p) p
    exact (Nat.le_add_right _ _).trans (hlength.trans hstart)
  · have hdescending := (hb.rooted (rooted_start p)).descending
    exact ⟨hdescending.walk_eq_none i, hdescending.getElem?_ancestors i⟩
  · intro turns b r hb hr hcalm chain hchain hturns
    have hroot := rooted_start p
    have hancestors : chain.Pairwise
        fun t t' => t.state.next ∈ b.parents.ancestors t'.state.next := by
      have htrans : IsTrans (Turn π) fun t t' => t.state.next ∈ b.parents.ancestors t'.state.next :=
        ⟨fun _ _ _ h h' => Ancestry.mem_ancestors_trans h' h⟩
      refine List.isChain_iff_pairwise.1 (hchain.imp_of_mem_imp fun t t' ht ht' hadds => ?_)
      exact hb.mem_ancestors hroot hcalm hr (hturns t ht).1 (hturns t' ht').1 hadds
    have hnodup : (chain.map (·.reference.name)).Nodup := by
      rw [List.Nodup, List.pairwise_map]
      refine hancestors.imp_of_mem fun ht ht' hmem => ?_
      obtain ⟨source, ho⟩ := (hturns _ ht').2
      exact hb.name_ne hroot hcalm hr (hturns _ ht).1 (hturns _ ht').1 ho hmem
    have hsubset : chain.map (·.reference.name) ⊆ setting.repertoire.keys := by
      intro name hname
      obtain ⟨t, ht, rfl⟩ := List.mem_map.1 hname
      obtain ⟨source, ho⟩ := (hturns t ht).2
      rw [Std.TreeMap.mem_keys, Std.TreeMap.mem_iff_isSome_getElem?]
      exact Option.isSome_of_eq_some (outcome_eq_decomposed_iff.1 ho).1
    refine ⟨hnodup, ?_⟩
    have hlength := hnodup.length_le_of_subset hsubset
    rwa [List.length_map, Std.TreeMap.length_keys] at hlength

section HeadTail

open Resolution

def headTail : Setting where
  repertoire := ((∅ : Repertoire).insert "head" (Source.glyph
      (.composite #[⟨"tail", ⟨1, 0⟩, none, {}⟩]))).insert
    "tail" (Source.glyph (.composite #[⟨"head", ⟨0, 1⟩, none, {}⟩]))

def largeHead : StrokePen :=
  ⟨⟨#[], #[], #[⟨"head", ⟨⟨3, 0, 0, 3⟩, ⟨0, 0⟩⟩⟩]⟩⟩

def headTurn : Turn StrokePen :=
  ⟨start largeHead, ⟨"head", ⟨⟨3, 0, 0, 3⟩, ⟨0, 0⟩⟩⟩⟩

def tailTurn : Turn StrokePen :=
  ⟨(headTurn.step (Pen.job headTail {} largeHead)).1, ⟨"tail", ⟨⟨3, 0, 0, 3⟩, ⟨3, 0⟩⟩⟩⟩

theorem forwards_headTail : headTail.repertoire.Forwards StrokePen := by
  refine Repertoire.forwards_of_scripts (((Repertoire.all_empty _).insert _ ?_).insert _ ?_)
  · exact Drawing.forwards_ofReferences _
  · exact Drawing.forwards_ofReferences _

theorem outcome_headTurn : headTurn.outcome (Pen.job headTail {} largeHead) =
    .decomposed (.glyph (.composite #[⟨"tail", ⟨1, 0⟩, none, {}⟩])) :=
  outcome_eq_decomposed_iff.2 ⟨rfl, .inr (by decide +kernel), by decide +kernel⟩

theorem outcome_tailTurn : tailTurn.outcome (Pen.job headTail {} largeHead) =
    .decomposed (.glyph (.composite #[⟨"head", ⟨0, 1⟩, none, {}⟩])) :=
  outcome_eq_decomposed_iff.2 ⟨rfl, .inr (by decide +kernel), by decide +kernel⟩

/-- The head adds the tail, which is decomposed too; the head below that one would be the third of
a chain with two names. -/
theorem headTail_resolution_ends :
    (start largeHead).Turns (Pen.job headTail {} largeHead) [headTurn] tailTurn.state ∧
      (∀ t ∈ [headTurn], t.Calm (Pen.job headTail {} largeHead)) ∧
      [headTurn, tailTurn].IsChain (Turn.Adds (Pen.job headTail {} largeHead)) ∧
      ([headTurn, tailTurn].map (·.reference.name)).Nodup ∧
      [headTurn, tailTurn].length ≤ headTail.repertoire.size ∧
      ∃ later c, tailTurn.state.Turns (Pen.job headTail {} largeHead) later c ∧
        c.Ended (Pen.job headTail {} largeHead) := by
  have hstep : headTurn.step (Pen.job headTail {} largeHead) = (tailTurn.state, .ok ()) := by
    refine Prod.ext rfl ?_
    rw [Turn.step, step_of_decomposed outcome_headTurn]
    rfl
  have hturns : (start largeHead).Turns (Pen.job headTail {} largeHead) [headTurn] tailTurn.state :=
    Turns.refl.snoc rfl hstep
  have hcalm := hturns.calm forwards_headTail
  have hchain : [headTurn, tailTurn].IsChain (Turn.Adds (Pen.job headTail {} largeHead)) :=
    List.isChain_pair.2 ⟨by decide +kernel, by decide +kernel⟩
  obtain ⟨hnodup, hlength⟩ := (resolution_ends headTail {} largeHead).2 [headTurn] tailTurn.state
    tailTurn.reference hturns (by decide +kernel) hcalm [headTurn, tailTurn] hchain (by
      intro t ht
      refine ⟨ht, ?_⟩
      simp only [List.mem_cons, List.not_mem_nil, or_false] at ht
      rcases ht with rfl | rfl
      · exact ⟨_, outcome_headTurn⟩
      · exact ⟨_, outcome_tailTurn⟩)
  have hended := ((resolution_ends headTail {} largeHead).1 _ _ hturns).2.1
  exact ⟨hturns, hcalm, hchain, hnodup, hlength, hended⟩

end HeadTail

end GlyphDrawing
