import GlyphDrawing.Proofs.Pen.AppendOnly

/-!
# Which pending references are resolved

References arrive on a pen one after the other, and those that are pending are always the last ones
that have arrived: an accepted component is added behind them, and a refused call takes all of them
away. A resolution resolves some arrivals, each once and in their order. But it counts its turns,
and the count goes on when a member that goes on after a refused call has emptied the pen. What the
member adds then stands at indices whose turn is over. So what is still pending at the end has been
resolved, but for the references at the index of a turn that was followed by a refusal
(`pending_resolved_iff`).
-/

namespace GlyphDrawing

namespace Pen

variable {π Mark : Type} [Pen π Mark] {p q r : π} {arrived more more' : List Reference}
  {calm calm' : Prop}

def Holds (p : π) (arrived : List Reference) : Prop :=
  (pending p).toList <:+ arrived

def forgotten (p : π) (arrived : List Reference) : Nat :=
  arrived.length - (pending p).size

theorem Holds.size_le (h : Holds p arrived) : (pending p).size ≤ arrived.length := by
  rw [← Array.length_toList]
  exact h.length_le

theorem Holds.forgotten_add_size (h : Holds p arrived) :
    forgotten p arrived + (pending p).size = arrived.length :=
  Nat.sub_add_cancel h.size_le

theorem Holds.pending_eq (h : Holds p arrived) :
    (pending p).toList = arrived.drop (forgotten p arrived) := by
  have hdrop := List.suffix_iff_eq_drop.1 h
  rwa [Array.length_toList] at hdrop

theorem Holds.getElem?_pending (h : Holds p arrived) (i : Nat) :
    (pending p)[i]? = arrived[forgotten p arrived + i]? := by
  rw [← Array.getElem?_toList, h.pending_eq, List.getElem?_drop]

/-- What becomes of pending references while more of them arrive: none is forgotten if all calls
are accepted, and otherwise all that were there before. -/
structure Advances (p : π) (arrived : List Reference) (q : π) (more : List Reference)
    (calm : Prop) : Prop where
  holds : Holds q (arrived ++ more)
  forgotten_le : forgotten p arrived ≤ forgotten q (arrived ++ more)
  forgotten_eq (h : calm) : forgotten q (arrived ++ more) = forgotten p arrived
  length_le (h : ¬ calm) : arrived.length ≤ forgotten q (arrived ++ more)

theorem advances_refl (h : Holds p arrived) : Advances p arrived p [] True where
  holds := by rwa [List.append_nil]
  forgotten_le := by rw [List.append_nil]
  forgotten_eq _ := by rw [List.append_nil]
  length_le hnot := absurd trivial hnot

theorem Advances.trans (h : Advances p arrived q more calm)
    (h' : Advances q (arrived ++ more) r more' calm') :
    Advances p arrived r (more ++ more') (calm ∧ calm') := by
  obtain ⟨-, hle, heq, hlength⟩ := h
  obtain ⟨hholds, hle', heq', hlength'⟩ := h'
  rw [List.append_assoc] at hholds hle' heq' hlength'
  refine ⟨hholds, hle.trans hle', fun hcalm => (heq' hcalm.2).trans (heq hcalm.1), fun hnot => ?_⟩
  rcases not_and_or.1 hnot with hfirst | hsecond
  · exact (hlength hfirst).trans hle'
  · have := hlength' hsecond
    rw [List.length_append] at this
    omega

theorem Advances.of_iff (h : Advances p arrived q more calm) (hiff : calm ↔ calm') :
    Advances p arrived q more calm' :=
  propext hiff ▸ h

theorem advances_of_pending_eq (h : Holds p arrived)
    (hq : (pending q).toList = (pending p).toList ++ more) : Advances p arrived q more True := by
  obtain ⟨before, rfl⟩ := h
  have hsize : (pending q).size = (pending p).size + more.length := by
    rw [← Array.length_toList, hq, List.length_append, Array.length_toList]
  have heq : forgotten q (before ++ (pending p).toList ++ more) =
      forgotten p (before ++ (pending p).toList) := by
    simp only [forgotten, List.length_append, hsize]
    omega
  refine ⟨⟨before, ?_⟩, heq.ge, fun _ => heq, fun hnot => absurd trivial hnot⟩
  rw [hq, List.append_assoc]

theorem advances_of_pending_eq_empty (hq : pending q = #[]) : Advances p arrived q [] False := by
  have heq : forgotten q (arrived ++ []) = arrived.length := by
    rw [forgotten, hq, List.append_nil, Array.size_empty, Nat.sub_zero]
  refine ⟨?_, ?_, False.elim, fun _ => heq.ge⟩
  · rw [Holds, hq]
    exact List.nil_suffix
  · rw [heq]
    exact Nat.sub_le _ _

/-- An accepted call keeps what is pending, and a refused one forgets it. -/
theorem advances_respond (h : Holds p arrived) (c : Call Mark) :
    Advances p arrived (respond p c).1 c.placed?.toList ((respond p c).2 = .ok ()) := by
  cases c with
  | component r =>
    refine (advances_of_pending_eq h ?_).of_iff (iff_of_true trivial rfl)
    simp [respond, pending, addReference, sketch_mapSketch, Sketch.addReference, Call.placed?]
  | mark m =>
    cases hm : respond p (.mark m) with
    | mk q reply =>
      cases reply with
      | ok =>
        refine (advances_of_pending_eq h ?_).of_iff (iff_of_true trivial rfl)
        rw [pending, pending_mark hm]
        exact (List.append_nil _).symm
      | error e =>
        refine (advances_of_pending_eq_empty ?_).of_iff (by simp)
        rw [eq_empty_of_mark hm, pending, sketch_empty]
        rfl

theorem advances_after (h : Holds p arrived) (calls : List (Call Mark)) :
    Advances p arrived (after respond p calls) (calls.filterMap Call.placed?)
      (Accepted respond p calls) := by
  induction calls generalizing p arrived with
  | nil => exact advances_refl h
  | cons c calls ih =>
    have hfirst := advances_respond h c
    have hrow := hfirst.trans (ih hfirst.holds)
    have hreferences : (c :: calls).filterMap Call.placed? =
        c.placed?.toList ++ calls.filterMap Call.placed? := by
      cases c <;> rfl
    rw [hreferences]
    exact hrow

end Pen

namespace Resolution

variable {π Mark : Type} [Pen π Mark] [SMul Affine Mark] {job : Job} {a b c : Resolution π}
  {turns : List (Turn π)} {r : Reference} {arrived : List Reference}

def Turn.arrivals (job : Job) (t : Turn π) : List Reference :=
  (t.calls job).filterMap Call.placed?

def arrivals (job : Job) (a : Resolution π) (turns : List (Turn π)) : List Reference :=
  (Pen.pending a.pen).toList ++ turns.flatMap (Turn.arrivals job)

/-- Where the reference of the turn stands in the row of those that have arrived before it. -/
def Turn.place (t : Turn π) (arrived : List Reference) : Nat :=
  Pen.forgotten t.state.pen arrived + t.state.next

def places (job : Job) (arrived : List Reference) : List (Turn π) → List Nat
  | [] => []
  | t :: turns => t.place arrived :: places job (arrived ++ t.arrivals job) turns

theorem places_concat (job : Job) (arrived : List Reference) (turns : List (Turn π)) (t : Turn π) :
    places job arrived (turns ++ [t]) =
      places job arrived turns ++ [t.place (arrived ++ turns.flatMap (Turn.arrivals job))] := by
  induction turns generalizing arrived with
  | nil =>
    rw [List.flatMap_nil, List.append_nil]
    rfl
  | cons t' turns ih =>
    rw [List.cons_append, places, places, ih, List.flatMap_cons, List.append_assoc]
    rfl

theorem arrivals_concat (job : Job) (a : Resolution π) (turns : List (Turn π)) (t : Turn π) :
    arrivals job a (turns ++ [t]) = arrivals job a turns ++ t.arrivals job := by
  rw [arrivals, arrivals, List.flatMap_append, List.flatMap_singleton, List.append_assoc]

/-- A turn is calm if the pen accepts all its calls. -/
theorem Turn.calm_iff (t : Turn π) :
    t.Calm job ↔ Accepted Pen.respond t.state.pen (t.calls job) := by
  rw [Turn.Calm, Turn.calls]
  cases ho : t.outcome job with
  | decomposed source =>
    rw [Drawing.accepted_calls_iff]
    exact ⟨fun h => h source rfl, fun h source' hsource => Outcome.decomposed.inj hsource ▸ h⟩
  | missing | selfReferring | kept =>
    exact iff_of_true (fun source hsource => by cases hsource) trivial

theorem advances_step (h : Pen.Holds b.pen arrived) (hc : b.step job r = (c, .ok ())) :
    Pen.Advances b.pen arrived c.pen (Turn.arrivals job ⟨b, r⟩) (Turn.Calm job ⟨b, r⟩) := by
  have hpen := pen_step job b r
  rw [hc] at hpen
  rw [show c.pen = _ from hpen]
  exact (Pen.advances_after h _).of_iff (Turn.calm_iff ⟨b, r⟩).symm

/-- Up to the state `b`, the turns have resolved arrivals in their order, and the one that stands at
the index of a turn is that of the turn if and only if no refusal has come since. -/
structure Settles (job : Job) (a : Resolution π) (turns : List (Turn π)) (b : Resolution π) :
    Prop where
  holds : Pen.Holds b.pen (arrivals job a turns)
  lt_of_mem {m : Nat} (h : m ∈ places job (Pen.pending a.pen).toList turns) :
    m < Pen.forgotten b.pen (arrivals job a turns) + b.next
  pairwise : (places job (Pen.pending a.pen).toList turns).Pairwise (· < ·)
  references_eq : (places job (Pen.pending a.pen).toList turns).map ((arrivals job a turns)[·]?) =
    turns.map (some ·.reference)
  mem_iff {i : Nat} (h : i < turns.length) :
    Pen.forgotten b.pen (arrivals job a turns) + i ∈ places job (Pen.pending a.pen).toList turns ↔
      ∀ t ∈ turns.drop i, t.Calm job

theorem settles_refl (a : Resolution π) : Settles job a [] a where
  holds := by
    rw [arrivals, List.flatMap_nil, List.append_nil]
    exact List.suffix_refl _
  lt_of_mem h := absurd h List.not_mem_nil
  pairwise := .nil
  references_eq := rfl
  mem_iff h := absurd h (Nat.not_lt_zero _)

/-- All places so far are those of references that have arrived. -/
theorem Settles.lt_length (h : Settles job a turns b)
    (hr : (Pen.pending b.pen)[b.next]? = some r) {m : Nat}
    (hm : m ∈ places job (Pen.pending a.pen).toList turns ++
      [Pen.forgotten b.pen (arrivals job a turns) + b.next]) :
    m < (arrivals job a turns).length := by
  have hindex : b.next < (Pen.pending b.pen).size := (Array.getElem?_eq_some_iff.1 hr).1
  have hlength := h.holds.forgotten_add_size
  rcases List.mem_append.1 hm with hm | hm
  · have := h.lt_of_mem hm
    omega
  · rw [List.mem_singleton.1 hm]
    omega

theorem Settles.snoc (h : Settles job a turns b) (hnext : b.next = turns.length)
    (hr : (Pen.pending b.pen)[b.next]? = some r) (hc : b.step job r = (c, .ok ())) :
    Settles job a (turns ++ [⟨b, r⟩]) c := by
  obtain ⟨hholds, hle, hcalm, hnotcalm⟩ := advances_step h.holds hc
  rw [← arrivals_concat] at hholds hle hcalm hnotcalm
  have hnext' := next_of_step hc
  have hplaces : places job (Pen.pending a.pen).toList (turns ++ [⟨b, r⟩]) =
      places job (Pen.pending a.pen).toList turns ++
        [Pen.forgotten b.pen (arrivals job a turns) + b.next] := places_concat _ _ _ _
  refine ⟨hholds, fun hm => ?_, ?_, ?_, fun {i} hi => ?_⟩
  · rw [hplaces] at hm
    rcases List.mem_append.1 hm with hm | hm
    · have := h.lt_of_mem hm
      omega
    · rw [List.mem_singleton.1 hm]
      omega
  · rw [hplaces]
    refine List.pairwise_append.2 ⟨h.pairwise, List.pairwise_singleton _ _, fun m hm m' hm' => ?_⟩
    rw [List.mem_singleton.1 hm']
    exact h.lt_of_mem hm
  · have hearlier : (places job (Pen.pending a.pen).toList turns ++
        [Pen.forgotten b.pen (arrivals job a turns) + b.next]).map
          ((arrivals job a (turns ++ [⟨b, r⟩]))[·]?) =
        (places job (Pen.pending a.pen).toList turns ++
          [Pen.forgotten b.pen (arrivals job a turns) + b.next]).map
            ((arrivals job a turns)[·]?) := by
      refine List.map_congr_left fun m hm => ?_
      rw [arrivals_concat]
      exact List.getElem?_append_left (h.lt_length hr hm)
    rw [hplaces, hearlier, List.map_append, List.map_append, h.references_eq, List.map_singleton,
      List.map_singleton, ← h.holds.getElem?_pending, hr]
  · rw [List.length_append, List.length_singleton] at hi
    rw [hplaces, List.drop_append_of_le_length (by omega), List.forall_mem_append,
      List.forall_mem_singleton]
    by_cases hlast : Turn.Calm job ⟨b, r⟩
    · rw [hcalm hlast, List.mem_append, List.mem_singleton]
      rcases (Nat.lt_succ_iff_lt_or_eq.1 hi) with hlt | rfl
      · rw [h.mem_iff hlt]
        refine ⟨fun hor => ⟨hor.resolve_right (by omega), hlast⟩, fun hall => .inl hall.1⟩
      · rw [List.drop_length, hnext]
        exact iff_of_true (.inr rfl) ⟨List.forall_mem_nil _, hlast⟩
    -- the refusal has taken away all that was there before
    · refine iff_of_false (fun hm => ?_) fun hall => hlast hall.2
      have := h.lt_length hr hm
      have := hnotcalm hlast
      omega

theorem Turns.settles {p : π} (h : Turns job (start p) turns b) :
    Settles job (start p) turns b := by
  induction h with
  | refl => exact settles_refl _
  | snoc hb hr hc ih => exact ih.snoc (hb.next_eq.trans (Nat.zero_add _)) hr hc

def Turn.kept (job : Job) (t : Turn π) : List Component :=
  match t.outcome job with
  | .kept => [.ofReference job.fit job.options t.reference]
  | .missing | .selfReferring | .decomposed _ => []

theorem kept_step (hc : b.step job r = (c, .ok ())) :
    c.kept.toList = b.kept.toList ++ Turn.kept job ⟨b, r⟩ := by
  rw [Turn.kept, Turn.outcome]
  obtain ⟨ho, rfl⟩ | ⟨ho, rfl⟩ | ⟨source, ho, hc⟩ | ⟨ho, rfl⟩ := step_cases hc
  · rw [ho]
    exact (List.append_nil _).symm
  · rw [ho]
    exact (List.append_nil _).symm
  · rw [ho, kept_eq_of_decompose hc]
    exact (List.append_nil _).symm
  · rw [ho]
    exact Array.toList_push

theorem Turns.kept_eq (h : Turns job a turns b) :
    b.kept.toList = a.kept.toList ++ turns.flatMap (Turn.kept job) := by
  induction h with
  | refl => rw [List.flatMap_nil, List.append_nil]
  | snoc _ _ hc ih =>
    rw [kept_step hc, ih, List.flatMap_append, List.flatMap_singleton, List.append_assoc]

end Resolution

namespace Pen

open Resolution

variable {π Mark : Type} [Pen π Mark] [SMul Affine Mark] {setting : Setting} {options : Options}
  {p : π} {turns : List (Turn π)} {b : Resolution π}

/-- When the pen is finished, these are all turns, and `b` is the state in which nothing is left at
the index of the next one. -/
structure Completes (setting : Setting) (options : Options) (p : π) (turns : List (Turn π))
    (b : Resolution π) : Prop where
  unobstructed : obstacle? p = none
  turns : (start p).Turns (job setting options p) turns b
  ended : (pending b.pen)[b.next]? = none

/-- How many of the turns resolve what is pending at index `i` in the end. -/
def timesResolved (setting : Setting) (options : Options) (p : π) (turns : List (Turn π))
    (b : Resolution π) (i : Nat) : Nat :=
  (places (job setting options p) (pending p).toList turns).count
    (forgotten b.pen (arrivals (job setting options p) (start p) turns) + i)

/-- The turns of a pen that is finished, and what is pending after them. -/
structure Accounts (setting : Setting) (options : Options) (p : π) (turns : List (Turn π))
    (b : Resolution π) : Prop where
  result_eq : (finish setting options p).result = .ok
    (if turns.flatMap (Turn.kept (job setting options p)) = [] then .simple (sketch b.pen).outline
      else .composite (turns.flatMap (Turn.kept (job setting options p))).toArray)
  notices_eq : (finish setting options p).notices.toList =
    turns.flatMap (Turn.notices (job setting options p))
  /-- A turn resolves the arrival at its place. -/
  references_eq : (places (job setting options p) (pending p).toList turns).map
    ((arrivals (job setting options p) (start p) turns)[·]?) = turns.map (some ·.reference)
  nodup_places : (places (job setting options p) (pending p).toList turns).Nodup
  /-- What is pending in the end are the last arrivals. -/
  pending_eq (i : Nat) : (pending b.pen)[i]? = (arrivals (job setting options p) (start p) turns)[
    forgotten b.pen (arrivals (job setting options p) (start p) turns) + i]?
  resolved_iff {i : Nat} (hi : i < (pending b.pen).size) :
    timesResolved setting options p turns b i = 1 ↔
      ∀ t ∈ turns.drop i, t.Calm (job setting options p)
  all_resolved_iff :
    (∀ i < (pending b.pen).size, timesResolved setting options p turns b i = 1) ↔
      pending b.pen = #[] ∨ ∀ t ∈ turns, t.Calm (job setting options p)
  of_forwards (h : setting.repertoire.Forwards π) :
    ∀ i < (pending b.pen).size, timesResolved setting options p turns b i = 1

theorem Completes.resolved_eq (h : Completes setting options p turns b) :
    resolved setting options p = (b, .ok ()) := by
  rw [resolved, h.turns.run_eq, run_of_none h.ended]

theorem Completes.size_le (h : Completes setting options p turns b) :
    (pending b.pen).size ≤ turns.length := by
  have hended := Array.getElem?_eq_none_iff.1 h.ended
  rwa [h.turns.next_eq, show (start p).next = 0 from rfl, Nat.zero_add] at hended

theorem finish_eq_ok_iff :
    (∃ glyph, (finish setting options p).result = .ok glyph) ↔
      ∃ turns b, Completes setting options p turns b := by
  constructor
  · rintro ⟨glyph, h⟩
    have ho : obstacle? p = none := by
      by_contra hsome
      obtain ⟨e, he⟩ := Option.ne_none_iff_exists'.1 hsome
      rw [finish_of_obstacle he] at h
      cases h
    obtain ⟨turns, b, hb, ⟨hnone, -⟩ | ⟨r, c, e, -, -, hrun⟩⟩ :=
      exists_turns_run (job setting options p) (start p)
    · exact ⟨turns, b, ho, hb, hnone⟩
    · rw [finish_eq ho, resolved, hrun] at h
      cases h
  · rintro ⟨turns, b, h⟩
    rw [finish_eq h.unobstructed, h.resolved_eq]
    exact ⟨_, rfl⟩

theorem Completes.resolved_iff (h : Completes setting options p turns b) {i : Nat}
    (hi : i < (pending b.pen).size) :
    timesResolved setting options p turns b i = 1 ↔
      ∀ t ∈ turns.drop i, t.Calm (job setting options p) := by
  have hsettles := h.turns.settles
  have hnodup : (places (job setting options p) (pending p).toList turns).Nodup :=
    hsettles.pairwise.imp Nat.ne_of_lt
  rw [← hsettles.mem_iff (hi.trans_le h.size_le), timesResolved]
  constructor
  · intro hcount
    exact List.count_pos_iff.1 (hcount ▸ Nat.one_pos)
  · exact fun hmem => List.count_eq_one_of_mem hnodup hmem

theorem Completes.all_resolved_iff (h : Completes setting options p turns b) :
    (∀ i < (pending b.pen).size, timesResolved setting options p turns b i = 1) ↔
      pending b.pen = #[] ∨ ∀ t ∈ turns, t.Calm (job setting options p) := by
  constructor
  · intro hall
    rcases Nat.eq_zero_or_pos (pending b.pen).size with hzero | hpos
    · exact .inl (Array.eq_empty_of_size_eq_zero hzero)
    · exact .inr ((h.resolved_iff hpos).1 (hall 0 hpos))
  · rintro (hempty | hcalm) i hi
    · rw [hempty] at hi
      exact absurd hi (Nat.not_lt_zero i)
    · exact (h.resolved_iff hi).2 fun t ht => hcalm t (List.mem_of_mem_drop ht)

theorem Completes.accounts (h : Completes setting options p turns b) :
    Accounts setting options p turns b where
  result_eq := by
    have hkept : b.kept.toList = turns.flatMap (Turn.kept (job setting options p)) :=
      h.turns.kept_eq
    rw [finish_eq h.unobstructed, h.resolved_eq, ← hkept]
    simp [Except.map]
  notices_eq := by
    rw [finish_eq h.unobstructed, h.resolved_eq]
    exact h.turns.notices_eq
  references_eq := h.turns.settles.references_eq
  nodup_places := h.turns.settles.pairwise.imp Nat.ne_of_lt
  pending_eq := h.turns.settles.holds.getElem?_pending
  resolved_iff := h.resolved_iff
  all_resolved_iff := h.all_resolved_iff
  of_forwards hforwards := h.all_resolved_iff.2 (.inr (h.turns.calm hforwards))

/-- A glyph is finished exactly if there are turns up to a state with nothing left at the next
index. Each of them resolves another arrival: it keeps it as a component, decomposes it or reports
it. What is pending in the end has been resolved, and once, exactly if no call was refused from the
turn with its index on; so all of it has, if no call was refused at all, as it is with members that
end with the first refusal. -/
theorem pending_resolved_iff (setting : Setting) (options : Options) (p : π) :
    ((∃ glyph, (finish setting options p).result = .ok glyph) ↔
      ∃ turns b, Completes setting options p turns b) ∧
    ∀ turns b, Completes setting options p turns b → Accounts setting options p turns b :=
  ⟨finish_eq_ok_iff, fun _ _ h => h.accounts⟩

section Straggler

def straggler : Source :=
  .custom (.inOrder [.ignoringFailure (.call (.mark (.cubic #[⟨0, 0⟩]))),
    .call (.component ⟨"dot", .identity⟩),
    .call (.component ⟨"dot", ⟨.identity, ⟨5, 0⟩⟩⟩)]) .done

def stragglers : Setting where
  repertoire := dots.repertoire.insert "straggler" straggler

def straggled : StrokePen :=
  (session stragglers empty [
    .draw (.ofMarks [.move ⟨0, 0⟩, .line ⟨4, 0⟩, .line ⟨0, 4⟩, .close]),
    .draw (.ofReferences [⟨"straggler", .identity⟩])]).1

def afterStraggler : Resolution StrokePen where
  pen := ⟨⟨#[], #[], #[⟨"dot", .identity⟩, ⟨"dot", ⟨.identity, ⟨5, 0⟩⟩⟩]⟩⟩
  parents := Ancestry.adopt #[none] 0 1 2
  next := 1
  kept := #[]
  notices := #[.decomposing "straggler"]

def straggledTurns : List (Turn StrokePen) :=
  [⟨start straggled, ⟨"straggler", .identity⟩⟩, ⟨afterStraggler, ⟨"dot", ⟨.identity, ⟨5, 0⟩⟩⟩⟩]

def straggledEnd : Resolution StrokePen :=
  afterStraggler.keep (job stragglers {} straggled) ⟨"dot", ⟨.identity, ⟨5, 0⟩⟩⟩

theorem outcome_straggler :
    (start straggled).outcome (job stragglers {} straggled) ⟨"straggler", .identity⟩ =
      .decomposed straggler :=
  outcome_start_eq_decomposed rfl fun h => nomatch congrArg Array.size h

theorem outcome_secondDot :
    afterStraggler.outcome (job stragglers {} straggled) ⟨"dot", ⟨.identity, ⟨5, 0⟩⟩⟩ = .kept :=
  outcome_eq_kept_iff.2 ⟨⟨_, rfl⟩, rfl, by decide +kernel⟩

theorem completes_straggled :
    Completes stragglers {} straggled straggledTurns straggledEnd := by
  have hdrawn : draw (start straggled).pen (drawn StrokePen straggler ⟨"straggler", .identity⟩) =
      (afterStraggler.pen, .ok ()) := rfl
  have hfirst : (start straggled).step (job stragglers {} straggled) ⟨"straggler", .identity⟩ =
      (afterStraggler, .ok ()) := by
    rw [step_of_decomposed outcome_straggler, decompose_eq, hdrawn]
    rfl
  exact ⟨rfl, (Turns.refl.snoc rfl hfirst).snoc rfl (step_of_kept outcome_secondDot), rfl⟩

/-- Both dots arrive in the first turn. -/
theorem arrivals_straggled :
    arrivals (job stragglers {} straggled) (start straggled) straggledTurns =
      [⟨"straggler", .identity⟩, ⟨"dot", .identity⟩, ⟨"dot", ⟨.identity, ⟨5, 0⟩⟩⟩] := by
  simp only [arrivals, straggledTurns, List.flatMap_cons, List.flatMap_nil, Turn.arrivals,
    Turn.calls, Turn.outcome, outcome_straggler, outcome_secondDot]
  rfl

theorem places_straggled :
    places (job stragglers {} straggled) (pending straggled).toList straggledTurns = [0, 2] := by
  simp only [straggledTurns, places, Turn.arrivals, Turn.calls, Turn.outcome, outcome_straggler]
  rfl

/-- The glyph is finished with the second dot alone. The first one is neither kept nor decomposed,
and nothing is reported of it. -/
theorem straggler_left_out :
    (finish stragglers {} straggled).result = .ok (.composite #[⟨"dot", ⟨5, 0⟩, none, {}⟩]) ∧
      (finish stragglers {} straggled).notices = #[.decomposing "straggler"] ∧
      Completes stragglers {} straggled straggledTurns straggledEnd ∧
      ¬ ∀ i < (pending straggledEnd.pen).size,
        timesResolved stragglers {} straggled straggledTurns straggledEnd i = 1 := by
  have hkept : straggledEnd.kept = #[⟨"dot", ⟨5, 0⟩, none, {}⟩] := by decide +kernel
  have hnotices : straggledEnd.notices = #[.decomposing "straggler"] := by decide +kernel
  refine ⟨?_, ?_, completes_straggled, fun hall => ?_⟩
  · rw [finish_eq completes_straggled.unobstructed, completes_straggled.resolved_eq, hkept]
    rfl
  · rw [finish_eq completes_straggled.unobstructed, completes_straggled.resolved_eq, hnotices]
  · have hfirst := hall 0 Nat.two_pos
    rw [timesResolved, places_straggled, arrivals_straggled] at hfirst
    exact Nat.zero_ne_one hfirst

/-- The straggler is not calm, so the first dot, at its index, is not resolved; the second one is,
in a turn of its own. -/
theorem straggled_resolved :
    Completes stragglers {} straggled straggledTurns straggledEnd ∧
      (∃ glyph, (finish stragglers {} straggled).result = .ok glyph) ∧
      (1 < (pending straggledEnd.pen).size ∧
        timesResolved stragglers {} straggled straggledTurns straggledEnd 1 = 1) ∧
      (0 < (pending straggledEnd.pen).size ∧
        timesResolved stragglers {} straggled straggledTurns straggledEnd 0 ≠ 1) := by
  obtain ⟨hfinish, haccounts⟩ := pending_resolved_iff stragglers {} straggled
  have hcompletes := completes_straggled
  have hresolved := haccounts _ _ hcompletes
  have hsecond : 1 < (pending straggledEnd.pen).size := Nat.one_lt_two
  have hfirst : 0 < (pending straggledEnd.pen).size := Nat.two_pos
  refine ⟨hcompletes, hfinish.2 ⟨_, _, hcompletes⟩, ⟨hsecond, ?_⟩, hfirst, ?_⟩
  · rw [hresolved.resolved_iff hsecond]
    intro t ht source ho
    obtain rfl : t = ⟨afterStraggler, ⟨"dot", ⟨.identity, ⟨5, 0⟩⟩⟩⟩ := List.mem_singleton.1 ht
    cases outcome_secondDot.symm.trans ho
  · intro hcount
    have hcalm := (hresolved.resolved_iff hfirst).1 hcount _ List.mem_cons_self straggler
      outcome_straggler
    have hrefused : (drawn StrokePen straggler ⟨"straggler", .identity⟩).refusal? respond
        (start straggled).pen = some .cubicCurve := rfl
    cases hrefused.symm.trans hcalm

end Straggler

end Pen

end GlyphDrawing
