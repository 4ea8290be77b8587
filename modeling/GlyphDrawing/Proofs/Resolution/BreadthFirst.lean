import GlyphDrawing.Proofs.Pen.StrokeOutline
import GlyphDrawing.Proofs.Resolution.Forced
import GlyphDrawing.Proofs.Resolution.Forest

/-!
# A forced resolution is a breadth-first walk

While nothing is kept, each turn of a resolution stands at the next node of the forest: it puts the
node's children behind all pending references and adds the node's contours to the pen. The
ancestors of a pending reference name the lineage of its node, so that the turn skips just the
references whose nodes draw nothing.
-/

namespace GlyphDrawing

def lineageAt (parents : Ancestry) (nodes : List Node) (i : Nat) : List String :=
  (parents.ancestors i).filterMap fun j => nodes[j]?.map (·.name)

section Lineage

variable {parents : Ancestry} {nodes added : List Node} {n : Node} {parent after i : Nat}

theorem lineageAt_adopt (hsize : parents.size = nodes.length) (ha : nodes.length ≤ after)
    (hi : i < nodes.length) :
    lineageAt (parents.adopt parent nodes.length after) (nodes ++ added) i =
      lineageAt parents nodes i := by
  rw [lineageAt, Ancestry.ancestors_adopt_of_lt hsize ha hi]
  refine List.filterMap_congr fun j hj => ?_
  have hlt := Ancestry.lt_of_mem_ancestors hj
  rw [List.getElem?_append_left (by omega)]

theorem lineageAt_adopt_child (hsize : parents.size = nodes.length)
    (hparent : nodes[parent]? = some n) (hi : nodes.length ≤ i) (ha : i < after) :
    lineageAt (parents.adopt parent nodes.length after) (nodes ++ added) i =
      n.name :: lineageAt parents nodes parent := by
  have hlt : parent < nodes.length := (List.getElem?_eq_some_iff.1 hparent).1
  have hkept : lineageAt (parents.adopt parent nodes.length after) (nodes ++ added) parent =
      lineageAt parents nodes parent := lineageAt_adopt hsize (by omega) hlt
  rw [← hkept, lineageAt, Ancestry.ancestors_adopt_child hlt hi ha, List.filterMap_cons_some]
  · rfl
  · rw [List.getElem?_append_left hlt, hparent]
    rfl

end Lineage

namespace Resolution

variable {π Mark : Type} [SMul Affine Mark] [OutlinePen π Mark] {job : Job}
  {references : List Reference} {contours : List (List (Vertex Float))} {a b : Resolution π}
  {nodes : List Node} {n : Node}

/-- The pending references stand for the nodes, of which those before the next one are drawn after
`contours` and have their children among the nodes. -/
structure Expanding (repertoire : Repertoire) (references : List Reference)
    (contours : List (List (Vertex Float))) (a : Resolution π) (nodes : List Node) : Prop where
  rooted : Rooted a
  references_eq : (Pen.pending a.pen).toList = nodes.map Node.reference
  lineage_eq : ∀ i n, nodes[i]? = some n → n.lineage = lineageAt a.parents nodes i
  nodes_eq : nodes = roots references ++ (nodes.take a.next).flatMap (Node.children repertoire)
  obstacle_eq : Pen.obstacle? a.pen = none
  traces : OutlinePen.Traces a.pen
    (contours ++ (nodes.take a.next).flatMap (Node.contours π repertoire)) []

namespace Expanding

variable (h : Expanding job.repertoire references contours a nodes)

include h

theorem length_eq : nodes.length = (Pen.pending a.pen).size := by
  rw [← Array.length_toList, h.references_eq, List.length_map]

theorem getElem?_pending (i : Nat) : (Pen.pending a.pen)[i]? = nodes[i]?.map Node.reference := by
  rw [← Array.getElem?_toList, h.references_eq, List.getElem?_map]

theorem isCyclic_iff {i : Nat} (hn : nodes[i]? = some n) :
    a.parents.isCyclic (Pen.pending a.pen) i = true ↔ n.name ∈ n.lineage := by
  rw [h.lineage_eq i n hn, lineageAt, List.mem_filterMap, Ancestry.isCyclic, h.getElem?_pending i,
    hn]
  simp only [Option.map_some, Option.any_some, List.any_eq_true, h.getElem?_pending]
  refine exists_congr fun j => and_congr_right fun _ => ?_
  cases nodes[j]? <;> simp [Node.reference]

theorem skip (hn : nodes[a.next]? = some n) (hsource : n.source? job.repertoire = none)
    (notice : Notice) : Expanding job.repertoire references contours (a.skip notice) nodes where
  rooted := ⟨h.rooted.size_eq, h.rooted.descending⟩
  references_eq := h.references_eq
  lineage_eq := h.lineage_eq
  nodes_eq := by
    rw [Resolution.skip, take_succ_of_getElem? hn, List.flatMap_append, List.flatMap_singleton,
      Node.children_of_none hsource, List.append_nil]
    exact h.nodes_eq
  obstacle_eq := h.obstacle_eq
  traces := by
    rw [Resolution.skip, take_succ_of_getElem? hn, List.flatMap_append, List.flatMap_singleton,
      Node.contours_of_none π hsource, List.append_nil]
    exact h.traces

theorem parents_size_eq : a.parents.size = nodes.length :=
  h.rooted.size_eq.trans h.length_eq.symm

/-- Once the next node has adopted its children, they and the others have their lineages. -/
theorem lineage_adopt (hn : nodes[a.next]? = some n) {i : Nat} {m : Node}
    (hm : (nodes ++ n.children job.repertoire)[i]? = some m) :
    m.lineage = lineageAt
      (a.parents.adopt a.next nodes.length (nodes ++ n.children job.repertoire).length)
      (nodes ++ n.children job.repertoire) i := by
  have hlt : i < (nodes ++ n.children job.repertoire).length := (List.getElem?_eq_some_iff.1 hm).1
  rcases Nat.lt_or_ge i nodes.length with hi | hi
  · rw [List.getElem?_append_left hi] at hm
    rw [h.lineage_eq i m hm, lineageAt_adopt h.parents_size_eq (by simp) hi]
  · rw [List.getElem?_append_right hi] at hm
    rw [lineageAt_adopt_child h.parents_size_eq hn hi hlt, ← h.lineage_eq a.next n hn]
    exact Node.lineage_of_mem_children (List.mem_of_getElem? hm)

theorem decompose {g : Glyph} (hn : nodes[a.next]? = some n)
    (hsource : n.source? job.repertoire = some (.glyph g)) :
    ∃ b, a.decompose (.glyph g) n.reference = (b, .ok ()) ∧
      Expanding job.repertoire references contours b (nodes ++ n.children job.repertoire) := by
  obtain ⟨q, hdraw, hobstacle, htraces, hpending⟩ :=
    OutlinePen.draw_glyph h.traces h.obstacle_eq n.placement g
  have hnext : a.next < nodes.length := (List.getElem?_eq_some_iff.1 hn).1
  have hsize : (Pen.pending q).size = (nodes ++ n.children job.repertoire).length := by
    rw [hpending, ← Node.children_of_source hsource]
    simp [h.length_eq]
  have htake :
      (nodes ++ n.children job.repertoire).take (a.next + 1) = nodes.take a.next ++ [n] := by
    rw [List.take_append_of_le_length hnext, take_succ_of_getElem? hn]
  have hb : a.decompose (.glyph g) n.reference =
      (⟨q, a.parents.adopt a.next nodes.length (nodes ++ n.children job.repertoire).length,
        a.next + 1, a.kept, a.notices.push (.decomposing n.name)⟩, .ok ()) := by
    have hdrawn : Pen.draw a.pen (drawn π (.glyph g) n.reference) = (q, .ok ()) := hdraw
    rw [decompose_eq, hdrawn, hsize, h.length_eq]
    rfl
  refine ⟨_, hb, ⟨⟨?_, ?_⟩, ?_, fun i m hm => h.lineage_adopt hn hm, ?_, hobstacle, ?_⟩⟩
  · rw [Ancestry.size_adopt, hsize]
  · exact h.rooted.descending.adopt h.parents_size_eq hnext
  · rw [hpending, List.map_append, Node.children_of_source hsource, Array.toList_append,
      h.references_eq]
  · rw [htake, List.flatMap_append, List.flatMap_singleton, ← List.append_assoc, ← h.nodes_eq]
  · rw [htake, List.flatMap_append, List.flatMap_singleton, ← List.append_assoc,
      Node.contours_of_source hsource]
    exact htraces

end Expanding

theorem expanding_start {p : π} (htraces : OutlinePen.Traces p contours [])
    (ho : Pen.obstacle? p = none) (repertoire : Repertoire) :
    Expanding repertoire (Pen.pending p).toList contours (start p)
      (roots (Pen.pending p).toList) where
  rooted := rooted_start p
  references_eq := by simp [start, roots, Node.reference, Function.comp_def]
  lineage_eq i n hn := by
    have hnone : (start p).parents.ancestors i = [] := by
      rw [(rooted_start p).descending.ancestors_eq]
      simp only [start, Array.getElem?_replicate]
      split_ifs <;> rfl
    obtain ⟨r, -, rfl⟩ := List.mem_map.1 (List.mem_of_getElem? hn)
    rw [lineageAt, hnone]
    rfl
  nodes_eq := by simp [start]
  obstacle_eq := ho
  traces := by simpa [start] using htraces

/-- A turn that keeps nothing succeeds, and the children of its node are then among the nodes. -/
theorem Expanding.step {r : Reference} (h : Expanding job.repertoire references contours a nodes)
    (hglyphs : job.repertoire.OfGlyphs) (hr : (Pen.pending a.pen)[a.next]? = some r)
    (hkept : a.outcome job r ≠ .kept) :
    ∃ b nodes', a.step job r = (b, .ok ()) ∧
      Expanding job.repertoire references contours b nodes' := by
  obtain ⟨n, hn, rfl⟩ : ∃ n, nodes[a.next]? = some n ∧ n.reference = r := by
    rw [h.getElem?_pending] at hr
    exact Option.map_eq_some_iff.1 hr
  have hcyclic := h.isCyclic_iff hn
  rw [step_eq]
  cases ho : a.outcome job n.reference with
  | missing =>
    have hnone : job.repertoire[n.name]? = none := outcome_eq_missing_iff.1 ho
    exact ⟨_, nodes, rfl, h.skip hn (by simp [Node.source?, hnone]) _⟩
  | selfReferring =>
    have hmem := hcyclic.1 (outcome_eq_selfReferring_iff.1 ho).2.2
    exact ⟨_, nodes, rfl, h.skip hn (by simp [Node.source?, hmem]) _⟩
  | decomposed source =>
    obtain ⟨hsource, -, hfalse⟩ := outcome_eq_decomposed_iff.1 ho
    have hmem : n.name ∉ n.lineage := fun hmem => by
      rw [hcyclic.2 hmem] at hfalse
      cases hfalse
    obtain ⟨g, rfl⟩ := hglyphs _ _ hsource
    obtain ⟨b, hb, hexpanding⟩ := h.decompose hn ((if_neg hmem).trans hsource)
    exact ⟨b, _, hb, hexpanding⟩
  | kept => exact absurd ho hkept

theorem Turns.expanding {turns : List (Turn π)} (hturns : Turns job a turns b)
    (hglyphs : job.repertoire.OfGlyphs) (hfilled : Filled job a)
    (ha : Expanding job.repertoire references contours a nodes) :
    ∃ nodes', Expanding job.repertoire references contours b nodes' := by
  refine (hturns.invariant
    (P := fun s => Filled job s ∧ ∃ nodes', Expanding job.repertoire references contours s nodes')
    ⟨hfilled, nodes, ha⟩ fun s r s' hs hr hstep => ?_).2
  obtain ⟨hs, nodes', h⟩ := hs
  obtain ⟨c, more, hc, hexpanding⟩ := h.step hglyphs hr (hs.not_kept r)
  obtain rfl : c = s' := congrArg Prod.fst (hc.symm.trans hstep)
  exact ⟨hs.step (hglyphs.forwards π) hstep, more, hexpanding⟩

/-- The nodes of a resolution that has nothing left to resolve are the forest. -/
theorem Expanding.eq_breadthFirst (h : Expanding job.repertoire references contours a nodes)
    (hnone : (Pen.pending a.pen)[a.next]? = none) :
    nodes = breadthFirst job.repertoire (roots references) ∧
      OutlinePen.Traces a.pen
        (contours ++ nodes.flatMap (Node.contours π job.repertoire)) [] := by
  have hle : nodes.length ≤ a.next := by
    rw [h.length_eq]
    exact Array.getElem?_eq_none_iff.1 hnone
  have hnodes := h.nodes_eq
  have htraces := h.traces
  rw [List.take_of_length_le hle] at hnodes htraces
  exact ⟨GlyphDrawing.eq_breadthFirst hnodes, htraces⟩

/-- The resolution comes to its end, and has then drawn the whole forest. -/
theorem exists_run_eq (hglyphs : job.repertoire.OfGlyphs) (hfilled : Filled job a)
    (ha : Expanding job.repertoire references contours a nodes) :
    ∃ b, a.run job = (b, .ok ()) ∧ b.kept = #[] ∧
      OutlinePen.Traces b.pen
        (contours ++ (breadthFirst job.repertoire (roots references)).flatMap
          (Node.contours π job.repertoire)) [] := by
  obtain ⟨turns, b, hb, hend⟩ := exists_turns_run job a
  obtain ⟨nodes', hexpanding⟩ := hb.expanding hglyphs hfilled ha
  have hbfilled := hb.filled (hglyphs.forwards π) hfilled
  rcases hend with ⟨hnone, hrun⟩ | ⟨r, c, e, hr, hc, -⟩
  · obtain ⟨rfl, htraces⟩ := hexpanding.eq_breadthFirst hnone
    exact ⟨b, hrun, hbfilled.kept_eq, htraces⟩
  · obtain ⟨d, more, hd, -⟩ := hexpanding.step hglyphs hr (hbfilled.not_kept r)
    cases congrArg Prod.snd (hc.symm.trans hd)

end Resolution

namespace Pen

variable {π Mark : Type} [SMul Affine Mark] [OutlinePen π Mark]

/-- The contours of the pen, and then the contours of all nodes of its forest, breadth first. -/
def expansion (setting : Setting) (p : π) : List (List (Vertex Float)) :=
  (sketch p).contours ++
    (breadthFirst setting.repertoire (roots (pending p).toList)).flatMap
      (Node.contours π setting.repertoire)

/-- A glyph that cannot be made of components, in a repertoire of glyphs, is finished as the outline
of its expansion, rounded. -/
theorem finish_eq_expansion {setting : Setting} {p : π} (hp : Reachable setting p)
    (ho : obstacle? p = none) (hglyphs : setting.repertoire.OfGlyphs) (hforced : Forced setting p)
    (options : Options) :
    (finish setting options p).result = .ok (.simple (.ofContours (expansion setting p))) ∧
      (Outline.ofContours (expansion setting p)).contours =
        (expansion setting p).map (·.map Vertex.round) := by
  obtain ⟨contours, run, htraces⟩ := hp.exists_traces
  have hclosed := OutlinePen.traces_of_obstacle htraces ho
  obtain ⟨b, hrun, hkept, hdrawn⟩ := Resolution.exists_run_eq hglyphs
    (Resolution.filled_start options hp ho hforced)
    (Resolution.expanding_start hclosed ho setting.repertoire)
  have hreads := OutlinePen.reads_of_traces hdrawn
  have hexpansion : expansion setting p = contours ++
      (breadthFirst setting.repertoire (roots (pending p).toList)).flatMap
        (Node.contours π setting.repertoire) := by
    rw [expansion, (OutlinePen.reads_of_traces hclosed).contours_eq]
  rw [hexpansion]
  refine ⟨?_, Outline.contours_ofContours hreads.nonempty⟩
  rw [finish_eq ho, resolved, hrun, hkept]
  exact congrArg (fun outline => Except.ok (Glyph.simple outline)) hreads.outline_eq

/-- In a repertoire of glyphs nothing fails but the finishing of a pen with an obstacle. -/
theorem exists_finish_eq_ok {setting : Setting} {p : π} (hp : Reachable setting p)
    (ho : obstacle? p = none) (hglyphs : setting.repertoire.OfGlyphs) (options : Options) :
    ∃ g, (finish setting options p).result = .ok g := by
  by_cases hforced : Forced setting p
  · obtain ⟨contours, run, htraces⟩ := hp.exists_traces
    have hclosed := OutlinePen.traces_of_obstacle htraces ho
    obtain ⟨b, hrun, -⟩ := Resolution.exists_run_eq hglyphs
      (Resolution.filled_start options hp ho hforced)
      (Resolution.expanding_start hclosed ho setting.repertoire)
    rw [finish_eq ho, resolved, hrun]
    exact ⟨_, rfl⟩
  · exact ⟨_, finish_of_not_forced hp ho hforced options⟩

theorem finish_eq_error_iff_of_glyphs {setting : Setting} {p : π} {P : Prop} [Decidable P]
    {obstacle e : DrawError} (hp : Reachable setting p)
    (ho : obstacle? p = if P then none else some obstacle) (hglyphs : setting.repertoire.OfGlyphs)
    (options : Options) :
    (finish setting options p).result = .error e ↔ ¬P ∧ e = obstacle := by
  by_cases hP : P
  · rw [if_pos hP] at ho
    obtain ⟨g, hg⟩ := exists_finish_eq_ok hp ho hglyphs options
    simp [hg, hP]
  · rw [if_neg hP] at ho
    rw [finish_of_obstacle ho]
    simp [hP, eq_comm]

def knot : Repertoire :=
  (((∅ : Repertoire).insert "dot" (Source.glyph
      (.simple ⟨#[⟨0, 0⟩, ⟨4, 0⟩, ⟨0, 4⟩], #[true, true, false], #[2], #[]⟩))).insert
    "pair" (Source.glyph (.composite #[⟨"dot", ⟨0, 0⟩, none, {}⟩, ⟨"pair", ⟨9, 0⟩, none, {}⟩,
      ⟨"ring", ⟨5, 5⟩, none, {}⟩, ⟨"gone", ⟨0, 0⟩, none, {}⟩]))).insert
    "ring" (Source.glyph (.composite #[⟨"pair", ⟨1, 1⟩, none, {}⟩,
      ⟨"dot", ⟨20, 0⟩, some ⟨2, 0, 0, 1⟩, {}⟩]))

def knotted : StrokePen :=
  (session ⟨knot, true⟩ empty [.draw (.ofReferences
    [⟨"pair", ⟨.identity, ⟨100, 0⟩⟩⟩, ⟨"dot", ⟨⟨3, 0, 0, 3⟩, ⟨0.5, 0⟩⟩⟩])]).1

theorem ofGlyphs_knot : knot.OfGlyphs := by
  unfold knot
  exact (((Repertoire.all_empty _).insert _ ⟨_, rfl⟩).insert _ ⟨_, rfl⟩).insert _ ⟨_, rfl⟩

/-- The large dot is drawn first, as a root; then the dot of the pair, and that of its ring. -/
theorem finish_knotted :
    Reachable ⟨knot, true⟩ knotted ∧ obstacle? knotted = none ∧ knot.OfGlyphs ∧
      Forced ⟨knot, true⟩ knotted ∧
      (finish ⟨knot, true⟩ {} knotted).result = .ok (.simple ⟨#[⟨1, 0⟩, ⟨13, 0⟩, ⟨1, 12⟩,
          ⟨100, 0⟩, ⟨104, 0⟩, ⟨100, 4⟩, ⟨125, 5⟩, ⟨133, 5⟩, ⟨125, 9⟩],
        #[true, true, false, true, true, false, true, true, false], #[2, 5, 8], #[]⟩) := by
  have hreachable : Reachable ⟨knot, true⟩ knotted := ⟨_, rfl⟩
  have hobstacle : obstacle? knotted = none := by decide +kernel
  have hforced : Forced ⟨knot, true⟩ knotted := (forced_iff {}).2 (by decide +kernel)
  refine ⟨hreachable, hobstacle, ofGlyphs_knot, hforced, ?_⟩
  rw [(finish_eq_expansion hreachable hobstacle ofGlyphs_knot hforced {}).1]
  exact congrArg (fun outline => Except.ok (Glyph.simple outline)) (by decide +kernel)

end Pen

end GlyphDrawing
