import Mathlib
import GlyphDrawing.Proofs.Pen.DrawnContours
import GlyphDrawing.Proofs.Resolution.BreadthFirst

/-!
# The two pens agree on decomposition

A stroke pen gets back every contour as it is drawn if the contours are faithful: they start on the
curve or have no vertex there, and their ends do not coincide where closing would take one of them
away. Then each glyph leaves the same sketch on both pens (`Node.drawnContours_eq_of_faithful`),
and as a turn of a resolution sees nothing of the pen but its sketch, the resolutions on both go in
step (`run_onPaths`) and finish the same glyph (`finish_agrees`).
-/

namespace GlyphDrawing

namespace Point

def hasNaN (p : Point Float) : Bool :=
  p.x.isNaN || p.y.isNaN

theorem beq_self_of_not_hasNaN {p : Point Float} (h : p.hasNaN = false) : (p == p) = true := by
  obtain ⟨hx, hy⟩ := Bool.or_eq_false_iff.1 h
  rw [Float.isNaN_eq_decide_eq_nan, decide_eq_false_iff_not] at hx hy
  change (p.x == p.x && p.y == p.y) = true
  rw [Float.beq_self_iff.2 hx, Float.beq_self_iff.2 hy, Bool.and_self]

end Point

namespace Contour

/-- The contour comes out of a walk along its segments as it went in. Its first vertex is on the
curve, or none is. Where the walk comes back to the first vertex because the last one is a control,
the first one must be equal to itself; otherwise the two must lie apart. -/
def Faithful (contour : List (Vertex Float)) : Prop :=
  2 ≤ contour.length ∧
    (contour.head?.any (·.onCurve) = true ∨ ∀ v ∈ contour, v.onCurve = false) ∧
      if contour.head?.any (·.onCurve) = true ∧ contour.getLast?.any (!·.onCurve) = true then
        ∀ first ∈ contour.head?, first.position.hasNaN = false
      else (contour.head?.map (·.position) == contour.getLast?.map (·.position)) = false

instance (contour : List (Vertex Float)) : Decidable (Faithful contour) :=
  inferInstanceAs (Decidable (_ ∧ _ ∧ _))

variable {contour : List (Vertex Float)}

theorem endsInControl_of_starts
    (h : contour.head?.any (·.onCurve) = true ∨ ∀ v ∈ contour, v.onCurve = false) :
    endsInControl contour = true ↔
      contour.head?.any (·.onCurve) = true ∧ contour.getLast?.any (!·.onCurve) = true := by
  rw [endsInControl, Bool.and_eq_true]
  refine and_congr_left fun _ => ?_
  rw [List.any_eq_true]
  constructor
  · rintro ⟨v, hv, hcurve⟩
    exact h.resolve_right fun hnone => by simp [hnone v hv] at hcurve
  · intro hhead
    obtain ⟨first, hfirst, hcurve⟩ := (Option.any_eq_true _ _).1 hhead
    exact ⟨first, List.mem_of_head? hfirst, hcurve⟩

theorem closing_circuit_of_faithful (h : Faithful contour) :
    Sketch.closing (circuit contour) = [contour] := by
  obtain ⟨hlength, hstarts, happart⟩ := h
  have hends := endsInControl_of_starts hstarts
  obtain ⟨first, rest, rfl⟩ := List.exists_cons_of_length_pos (by omega : 0 < contour.length)
  rw [circuit, fromCurve_of_starts hstarts]
  split_ifs at happart with hcontrol
  · rw [if_pos (hends.2 hcontrol)]
    exact closing_concat_head rfl (Point.beq_self_of_not_hasNaN (happart first rfl))
  · rw [if_neg fun hc => hcontrol (hends.1 hc), List.append_nil, Sketch.closing,
      if_neg (by omega), happart, if_neg Bool.false_ne_true]

theorem ending_of_faithful (h : Faithful contour) : Sketch.ending contour = [contour] := by
  have hlength := h.1
  refine if_neg fun hnil => ?_
  rw [hnil] at hlength
  cases hlength

end Contour

namespace Node

def placedContours (repertoire : Repertoire) (n : Node) : List (List (Vertex Float)) :=
  match n.source? repertoire with
  | some (.glyph (.simple o)) => o.contours.map (Contour.placed n.placement)
  | _ => []

theorem drawnContours_eq_of_faithful {repertoire : Repertoire} {n : Node} {g : Glyph}
    (hsource : n.source? repertoire = some (.glyph g))
    (h : ∀ contour ∈ n.placedContours repertoire, Contour.Faithful contour) :
    OutlinePen.drawnContours StrokePen (.glyph g) n.placement =
      OutlinePen.drawnContours PathPen (.glyph g) n.placement := by
  rw [placedContours, hsource] at h
  cases g with
  | simple o =>
    rw [OutlinePen.drawnContours_strokes, OutlinePen.drawnContours_pathSteps]
    refine List.flatMap_congr fun contour hcontour => ?_
    have hfaithful := h _ (List.mem_map_of_mem hcontour)
    rw [Contour.closing_circuit_of_faithful hfaithful, Contour.ending_of_faithful hfaithful]
  | composite components =>
    rw [OutlinePen.drawnContours_composite, OutlinePen.drawnContours_composite]

end Node

theorem mem_breadthFirst {repertoire : Repertoire} {references : List Reference}
    {nodes : List Node} {k : Nat}
    (h : nodes = roots references ++ (nodes.take k).flatMap (Node.children repertoire)) {n : Node}
    (hn : n ∈ nodes) : n ∈ breadthFirst repertoire (roots references) := by
  have hlevel : n ∈ level repertoire (roots references) n.lineage.length := by
    -- a child has one name more in its lineage than its parent
    induction hlength : n.lineage.length generalizing n with
    | zero =>
      rw [h] at hn
      rcases List.mem_append.1 hn with hn | hn
      · exact hn
      · obtain ⟨parent, -, hchild⟩ := List.mem_flatMap.1 hn
        rw [Node.lineage_of_mem_children hchild] at hlength
        cases hlength
    | succ depth ih =>
      rw [h] at hn
      rcases List.mem_append.1 hn with hn | hn
      · obtain ⟨r, -, rfl⟩ := List.mem_map.1 hn
        cases hlength
      · obtain ⟨parent, hparent, hchild⟩ := List.mem_flatMap.1 hn
        rw [Node.lineage_of_mem_children hchild, List.length_cons] at hlength
        exact List.mem_flatMap.2
          ⟨parent, ih (List.mem_of_mem_take hparent) (Nat.succ.inj hlength), hchild⟩
  refine List.mem_flatMap.2 ⟨n.lineage.length, List.mem_range.2 ?_, hlevel⟩
  by_contra hdeep
  rw [Nat.not_lt, Nat.succ_le_iff] at hdeep
  rw [level_eq_nil references hdeep] at hlevel
  cases hlevel

def StrokePen.onPaths (p : StrokePen) : PathPen :=
  ⟨p.sketch, none⟩

namespace Resolution

open Pen

def onPaths (a : Resolution StrokePen) : Resolution PathPen :=
  ⟨a.pen.onPaths, a.parents, a.next, a.kept, a.notices⟩

/-- Drawn on either pen, the source leaves the same sketch and no open path. -/
def DrawsAlike (p : StrokePen) (source : Source) (r : Reference) : Prop :=
  draw p.onPaths (drawn PathPen source r) =
    ((draw p (drawn StrokePen source r)).1.onPaths, (draw p (drawn StrokePen source r)).2)

variable {job : Job} {a b : Resolution StrokePen} {turns : List (Turn StrokePen)}

theorem outcome_onPaths (job : Job) (a : Resolution StrokePen) (r : Reference) :
    a.onPaths.outcome job r = a.outcome job r := rfl

theorem step_onPaths {r : Reference}
    (h : ∀ source, a.outcome job r = .decomposed source → DrawsAlike a.pen source r) :
    a.onPaths.step job r = ((a.step job r).1.onPaths, (a.step job r).2) := by
  rw [step_eq, step_eq, outcome_onPaths]
  cases ho : a.outcome job r with
  | missing | selfReferring | kept => rfl
  | decomposed source =>
    have hpen : a.onPaths.pen = a.pen.onPaths := rfl
    simp only [decompose_eq, hpen]
    rw [show draw a.pen.onPaths (drawn PathPen source r) = _ from h source ho]
    rfl

def AllAlike (job : Job) (a : Resolution StrokePen) : Prop :=
  ∀ turns b r source, Turns job a turns b → (pending b.pen)[b.next]? = some r →
    b.outcome job r = .decomposed source → DrawsAlike b.pen source r

theorem Turns.run_onPaths (h : Turns job a turns b) (halike : AllAlike job a) :
    a.onPaths.run job = b.onPaths.run job := by
  induction h with
  | refl => rfl
  | @snoc turns b c r hb hr hc ih =>
    have hstep := step_onPaths fun source => halike turns b r source hb hr
    rw [hc] at hstep
    exact ih.trans (run_of_step_ok hr hstep)

theorem run_onPaths (halike : AllAlike job a) :
    a.onPaths.run job = ((a.run job).1.onPaths, (a.run job).2) := by
  obtain ⟨turns, b, hb, hend⟩ := exists_turns_run job a
  rw [hb.run_onPaths halike]
  rcases hend with ⟨hnone, hrun⟩ | ⟨r, c, e, hr, hc, hrun⟩
  · rw [hrun]
    exact run_of_none hnone
  · have hstep := step_onPaths fun source => halike turns b r source hb hr
    rw [hc] at hstep
    rw [hrun]
    exact run_of_step_error hr hstep

theorem drawsAlike_of_drawnContours {p : StrokePen} {contours : List (List (Vertex Float))}
    (hp : p.sketch.Reads contours []) (g : Glyph) (r : Reference)
    (h : OutlinePen.drawnContours StrokePen (.glyph g) r.placement =
      OutlinePen.drawnContours PathPen (.glyph g) r.placement) :
    DrawsAlike p (.glyph g) r := by
  have hstrokes : obstacle? p = none :=
    StrokePen.obstacle?_eq_none_iff.2 (hp.isClosed_iff.2 rfl)
  have hpaths : OutlinePen.Traces p.onPaths contours [] := ⟨hp, fun _ => rfl⟩
  obtain ⟨q₁, hdraw₁, -, htraces₁, hpending₁⟩ :=
    OutlinePen.draw_glyph (p := p) hp hstrokes r.placement g
  obtain ⟨q₂, hdraw₂, hobstacle₂, htraces₂, hpending₂⟩ :=
    OutlinePen.draw_glyph hpaths rfl r.placement g
  have hreads := OutlinePen.reads_of_traces htraces₂
  rw [← h] at hreads
  have hsketch : q₂.sketch = q₁.sketch := hreads.ext htraces₁ (hpending₂.trans hpending₁.symm)
  have hpath : q₂ = q₁.onPaths := by
    rw [StrokePen.onPaths, ← hsketch, ← PathPen.obstacle?_eq_none_iff.1 hobstacle₂]
  rw [DrawsAlike, drawn, drawn, hdraw₁, hdraw₂, hpath]

theorem Expanding.source?_eq {references : List Reference} {contours : List (List (Vertex Float))}
    {nodes : List Node} {n : Node} {source : Source}
    (h : Expanding job.repertoire references contours a nodes) (hn : nodes[a.next]? = some n)
    (ho : a.outcome job n.reference = .decomposed source) :
    n.source? job.repertoire = some source := by
  obtain ⟨hsource, -, hfalse⟩ := outcome_eq_decomposed_iff.1 ho
  have hmem : n.name ∉ n.lineage := fun hmem => by
    rw [(h.isCyclic_iff hn).2 hmem] at hfalse
    cases hfalse
  exact (if_neg hmem).trans hsource

end Resolution

namespace Pen

open Resolution

theorem allAlike {setting : Setting} {p : StrokePen} (hp : Reachable setting p)
    (ho : obstacle? p = none) (hglyphs : setting.repertoire.OfGlyphs) (options : Options)
    (hfaithful : Forced setting p →
      ∀ n ∈ breadthFirst setting.repertoire (roots (pending p).toList),
        ∀ contour ∈ n.placedContours setting.repertoire, Contour.Faithful contour) :
    AllAlike (job setting options p) (start p) := by
  intro turns b r source hb hr hout
  by_cases hforced : Forced setting p
  · obtain ⟨contours, run, htraces⟩ := hp.exists_traces
    have hclosed := OutlinePen.traces_of_obstacle htraces ho
    obtain ⟨nodes, hnodes⟩ := hb.expanding hglyphs (filled_start options hp ho hforced)
      (expanding_start hclosed ho setting.repertoire)
    obtain ⟨n, hn, rfl⟩ : ∃ n, nodes[b.next]? = some n ∧ n.reference = r := by
      rw [hnodes.getElem?_pending] at hr
      exact Option.map_eq_some_iff.1 hr
    obtain ⟨g, rfl⟩ := hglyphs _ _ (outcome_eq_decomposed_iff.1 hout).1
    have hcontours := hfaithful hforced n
      (mem_breadthFirst hnodes.nodes_eq (List.mem_of_getElem? hn))
    exact drawsAlike_of_drawnContours hnodes.traces g _
      (Node.drawnContours_eq_of_faithful (hnodes.source?_eq hn hout) hcontours)
  · have hpen := (hb.gathered hforced).pen_eq
    exact absurd hout (not_decomposed_of_not_forced hforced hpen source)

/-- Pens of both kinds with the same sketch and nothing open finish the same glyph, and give the
same notices, if every contour at the nodes of their forest is faithful where it is placed. -/
theorem finish_agrees {setting : Setting} {p : StrokePen} {q : PathPen} (hp : Reachable setting p)
    (hop : obstacle? p = none) (hoq : obstacle? q = none) (hsketch : sketch p = sketch q)
    (hglyphs : setting.repertoire.OfGlyphs) (options : Options)
    (hfaithful : Forced setting p →
      ∀ n ∈ breadthFirst setting.repertoire (roots (pending p).toList),
        ∀ contour ∈ n.placedContours setting.repertoire, Contour.Faithful contour) :
    ∃ g, (finish setting options p).result = .ok g ∧ (finish setting options q).result = .ok g ∧
      (finish setting options p).notices = (finish setting options q).notices := by
  obtain ⟨g, hg⟩ := exists_finish_eq_ok hp hop hglyphs options
  have hq : q = p.onPaths := by
    obtain ⟨t, path⟩ := q
    obtain rfl : path = none := PathPen.obstacle?_eq_none_iff.1 hoq
    exact congrArg (PathPen.mk · none) hsketch.symm
  have hresolved : resolved setting options q =
      ((resolved setting options p).1.onPaths, (resolved setting options p).2) := by
    rw [hq]
    exact run_onPaths (allAlike hp hop hglyphs options hfaithful)
  refine ⟨g, hg, ?_, ?_⟩
  · rw [← hg, finish_eq hop, finish_eq hoq, hresolved]
    rfl
  · rw [finish_eq hop, finish_eq hoq, hresolved]
    rfl

section Leaves

def leaves : Repertoire :=
  ((∅ : Repertoire).insert "leaf" (Source.glyph (.simple
      ⟨#[⟨0, 0⟩, ⟨4, 0⟩, ⟨0, 4⟩, ⟨1, 1⟩, ⟨2, 1⟩, ⟨2, 2⟩, ⟨5, 5⟩, ⟨6, 5⟩, ⟨6, 6⟩],
        #[true, false, true, true, true, false, false, false, false], #[2, 5, 8], #[]⟩))).insert
    "twig" (Source.glyph (.composite #[⟨"leaf", ⟨7, 0⟩, none, {}⟩,
      ⟨"leaf", ⟨0, 9⟩, some ⟨1.5, 0, 0.25, 1⟩, {}⟩, ⟨"twig", ⟨0, 0⟩, none, {}⟩]))

def leavesSetting : Setting where
  repertoire := leaves

def twigReference : Reference :=
  ⟨"twig", ⟨⟨0, 1, -1, 0⟩, ⟨0.5, 0⟩⟩⟩

def twigStrokes : StrokePen :=
  (session leavesSetting empty [
    .draw (.ofMarks [.move ⟨0, 0⟩, .line ⟨9, 0⟩, .line ⟨0, 9⟩, .line ⟨0, 0⟩, .close]),
    .draw (.ofReferences [twigReference])]).1

def twigPath : PathPen :=
  (session leavesSetting empty [
    .draw (.ofMarks [.start, .point ⟨0, 0⟩ (some .line) false none,
      .point ⟨9, 0⟩ (some .line) false none, .point ⟨0, 9⟩ (some .line) false none, .stop]),
    .draw (.ofReferences [twigReference])]).1

theorem ofGlyphs_leaves : leaves.OfGlyphs :=
  ((Repertoire.all_empty _).insert _ ⟨_, rfl⟩).insert _ ⟨_, rfl⟩

theorem twigs_agree :
    Reachable leavesSetting twigStrokes ∧ sketch twigStrokes = sketch twigPath ∧
      Forced leavesSetting twigStrokes ∧
      ((breadthFirst leaves (roots [twigReference])).flatMap
        (Node.placedContours leaves)).length = 6 ∧
      ∃ g, (finish leavesSetting {} twigStrokes).result = .ok g ∧
        (finish leavesSetting {} twigPath).result = .ok g ∧
        (finish leavesSetting {} twigStrokes).notices =
          (finish leavesSetting {} twigPath).notices := by
  have hreachable : Reachable leavesSetting twigStrokes := ⟨_, rfl⟩
  have hsketch : sketch twigStrokes = sketch twigPath := by decide +kernel
  have hfaithful : ∀ n ∈ breadthFirst leaves (roots (pending twigStrokes).toList),
      ∀ contour ∈ n.placedContours leaves, Contour.Faithful contour := by
    decide +kernel
  refine ⟨hreachable, hsketch, (forced_iff {}).2 (by decide +kernel), by decide +kernel, ?_⟩
  exact finish_agrees hreachable (by decide +kernel) (by decide +kernel) hsketch ofGlyphs_leaves {}
    fun _ => hfaithful

end Leaves

end Pen

end GlyphDrawing
