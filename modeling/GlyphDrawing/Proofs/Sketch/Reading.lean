import Mathlib.Tactic.SplitIfs
import GlyphDrawing.Pen.Sketch

/-!
# Reading a sketch

The row of vertices and the row of ends of a sketch are read as closed contours, none of them
empty, and an open run. Every operation on sketches acts on this reading: a vertex goes to the
run, and closing or ending the run makes at most one contour of it. A sketch is determined by its
reading and its pending references (`Reads.ext`).
-/

namespace GlyphDrawing

/-- The index of the last member of each piece, where the first piece begins at `start`. -/
def lastIndices {α : Type} (start : Nat) : List (List α) → List Nat
  | [] => []
  | piece :: pieces => (start + piece.length - 1) :: lastIndices (start + piece.length) pieces

section LastIndices

variable {α β : Type}

theorem lastIndices_append (start : Nat) (pieces more : List (List α)) :
    lastIndices start (pieces ++ more) =
      lastIndices start pieces ++ lastIndices (start + pieces.flatten.length) more := by
  induction pieces generalizing start with
  | nil => rfl
  | cons piece pieces ih =>
    simp only [List.cons_append, lastIndices, ih, List.flatten_cons, List.length_append,
      Nat.add_assoc]

theorem map_add_lastIndices {pieces : List (List α)} (h : ∀ piece ∈ pieces, piece ≠ [])
    (offset start : Nat) :
    (lastIndices start pieces).map (offset + ·) = lastIndices (offset + start) pieces := by
  induction pieces generalizing start with
  | nil => rfl
  | cons piece pieces ih =>
    have hpos := List.length_pos_iff.2 (h piece List.mem_cons_self)
    simp only [lastIndices, List.map_cons, ih fun p hp => h p (List.mem_cons_of_mem _ hp)]
    rw [show offset + (start + piece.length - 1) = offset + start + piece.length - 1 by omega,
      Nat.add_assoc]

theorem lastIndices_map (f : α → β) (start : Nat) (pieces : List (List α)) :
    lastIndices start (pieces.map (·.map f)) = lastIndices start pieces := by
  induction pieces generalizing start with
  | nil => rfl
  | cons piece pieces ih => simp only [List.map_cons, lastIndices, List.length_map, ih]

theorem getLast?_lastIndices_concat (start : Nat) (pieces : List (List α)) (piece : List α) :
    (lastIndices start (pieces ++ [piece])).getLast? =
      some (start + (pieces ++ [piece]).flatten.length - 1) := by
  rw [lastIndices_append]
  simp [lastIndices, Nat.add_assoc]

end LastIndices

namespace Sketch

/-- The sketch consists of the closed `contours` and the open `run`. -/
structure Reads (s : Sketch) (contours : List (List (Vertex Float))) (run : List (Vertex Float)) :
    Prop where
  nonempty : ∀ contour ∈ contours, contour ≠ []
  vertices : s.vertices.toList = contours.flatten ++ run
  ends : s.ends.toList = lastIndices 0 contours

/-- What closing a run makes of it: nothing of a single vertex, and otherwise a contour without
its last vertex if that lies where the first one does. -/
def closing (run : List (Vertex Float)) : List (List (Vertex Float)) :=
  if run.length ≤ 1 then []
  else if run.head?.map (·.position) == run.getLast?.map (·.position) then [run.dropLast]
  else [run]

def ending (run : List (Vertex Float)) : List (List (Vertex Float)) :=
  if run = [] then [] else [run]

/-- Ended one after the other, runs leave those that have a vertex. -/
theorem flatMap_ending (runs : List (List (Vertex Float))) :
    runs.flatMap ending = runs.filter (· ≠ []) := by
  induction runs with
  | nil => rfl
  | cons run runs ih =>
    rw [List.flatMap_cons, ih, ending]
    by_cases hrun : run = []
    · rw [if_pos hrun, List.filter_cons_of_neg (by simpa using hrun), List.nil_append]
    · rw [if_neg hrun, List.filter_cons_of_pos (by simpa using hrun), List.singleton_append]

variable {s t : Sketch} {contours more : List (List (Vertex Float))} {run : List (Vertex Float)}

theorem reads_empty : Sketch.empty.Reads [] [] where
  nonempty := by simp
  vertices := rfl
  ends := rfl

theorem Reads.ext (hs : s.Reads contours run) (ht : t.Reads contours run)
    (hpending : s.pending = t.pending) : s = t := by
  have hvertices : s.vertices = t.vertices :=
    Array.toList_inj.1 (hs.vertices.trans ht.vertices.symm)
  have hends : s.ends = t.ends := Array.toList_inj.1 (hs.ends.trans ht.ends.symm)
  obtain ⟨_, _, _⟩ := s
  obtain ⟨_, _, _⟩ := t
  simp only at hvertices hends hpending
  rw [hvertices, hends, hpending]

theorem Reads.size_eq (h : s.Reads contours run) :
    s.vertices.size = contours.flatten.length + run.length := by
  rw [← Array.length_toList, h.vertices, List.length_append]

theorem Reads.vertices_eq_empty_iff (h : s.Reads contours run) :
    s.vertices = #[] ↔ contours = [] ∧ run = [] := by
  rw [← Array.toList_eq_nil_iff, h.vertices, List.append_eq_nil_iff, List.flatten_eq_nil_iff]
  constructor
  · rintro ⟨hcontours, hrun⟩
    refine ⟨List.eq_nil_iff_forall_not_mem.2 fun contour hmem => ?_, hrun⟩
    exact h.nonempty contour hmem (hcontours contour hmem)
  · rintro ⟨rfl, hrun⟩
    exact ⟨by simp, hrun⟩

theorem Reads.flatten_ne_nil (h : s.Reads contours run) (hne : contours ≠ []) :
    contours.flatten ≠ [] := by
  obtain ⟨contour, hmem⟩ := List.exists_mem_of_ne_nil contours hne
  intro hnil
  exact h.nonempty contour hmem (List.flatten_eq_nil_iff.1 hnil contour hmem)

theorem Reads.back?_ends (h : s.Reads contours run) :
    s.ends.back? = if contours = [] then none else some (contours.flatten.length - 1) := by
  rw [← Array.getLast?_toList, h.ends]
  rcases List.eq_nil_or_concat contours with rfl | ⟨earlier, last, rfl⟩
  · rfl
  · rw [List.concat_eq_append, getLast?_lastIndices_concat, if_neg (by simp), Nat.zero_add]

theorem Reads.runStart_eq (h : s.Reads contours run) : s.runStart = contours.flatten.length := by
  unfold runStart
  rw [h.back?_ends]
  by_cases hne : contours = []
  · rw [if_pos hne, hne]
    rfl
  · have := List.length_pos_iff.2 (h.flatten_ne_nil hne)
    rw [if_neg hne]
    dsimp only
    omega

theorem Reads.isClosed_iff (h : s.Reads contours run) : s.isClosed = true ↔ run = [] := by
  unfold isClosed
  rw [h.back?_ends, Bool.or_eq_true, Array.isEmpty_iff, h.vertices_eq_empty_iff, h.size_eq]
  by_cases hne : contours = []
  · simp [hne]
  · have := List.length_pos_iff.2 (h.flatten_ne_nil hne)
    rw [if_neg hne, beq_iff_eq, Option.some.injEq, ← List.length_eq_zero_iff (l := run)]
    constructor
    · rintro (⟨hnil, -⟩ | hsize)
      · exact absurd hnil hne
      · omega
    · intro hlength
      exact .inr (by omega)

theorem Reads.addVertex (h : s.Reads contours run) (p : Point Float) (onCurve : Bool) :
    (s.addVertex p onCurve).Reads contours (run ++ [⟨p, onCurve⟩]) where
  nonempty := h.nonempty
  vertices := by simp [Sketch.addVertex, h.vertices]
  ends := h.ends

theorem Reads.addReference (h : s.Reads contours run) (r : Reference) :
    (s.addReference r).Reads contours run :=
  ⟨h.nonempty, h.vertices, h.ends⟩

theorem Reads.dropVertex (h : s.Reads contours run) (hne : run ≠ []) :
    s.dropVertex.Reads contours run.dropLast where
  nonempty := h.nonempty
  vertices := by
    rw [Sketch.dropVertex, Array.toList_pop, h.vertices, List.dropLast_append_of_ne_nil hne]
  ends := h.ends

theorem Reads.endRun (h : s.Reads contours run) : s.endRun.Reads (contours ++ ending run) [] := by
  unfold Sketch.endRun ending
  by_cases hrun : run = []
  · rw [if_pos (h.isClosed_iff.2 hrun), if_pos hrun, List.append_nil]
    exact hrun ▸ h
  · have hopen : ¬ s.isClosed = true := fun hc => hrun (h.isClosed_iff.1 hc)
    rw [if_neg hopen, if_neg hrun]
    refine ⟨?_, by simp [h.vertices], ?_⟩
    · intro contour hmem
      rcases List.mem_append.1 hmem with hmem | hmem
      · exact h.nonempty contour hmem
      · rw [List.mem_singleton.1 hmem]
        exact hrun
    · have := List.length_pos_iff.2 hrun
      simp only [Array.toList_push, h.ends, lastIndices_append, lastIndices, h.size_eq,
        Nat.zero_add]

theorem Reads.returns_eq (h : s.Reads contours run) (hne : run ≠ []) :
    s.returns = (run.head?.map (·.position) == run.getLast?.map (·.position)) := by
  have hfirst : s.vertices[s.runStart]? = run.head? := by
    rw [h.runStart_eq, ← Array.getElem?_toList, h.vertices,
      List.getElem?_append_right (Nat.le_refl _), Nat.sub_self, List.head?_eq_getElem?]
  have hlast : s.vertices.back? = run.getLast? := by
    rw [← Array.getLast?_toList, h.vertices, List.getLast?_append,
      List.getLast?_eq_some_getLast hne, Option.some_or]
  rw [Sketch.returns, hfirst, hlast]

theorem Reads.closeRun (h : s.Reads contours run) :
    s.closeRun.Reads (contours ++ closing run) [] := by
  unfold Sketch.closeRun closing
  by_cases hrun : run = []
  · rw [if_pos (h.isClosed_iff.2 hrun), if_pos (by simp [hrun]), List.append_nil]
    exact hrun ▸ h
  · have hopen : ¬ s.isClosed = true := fun hc => hrun (h.isClosed_iff.1 hc)
    have hpos := List.length_pos_iff.2 hrun
    rw [if_neg hopen, h.runStart_eq, h.size_eq, h.returns_eq hrun]
    by_cases hone : run.length ≤ 1
    · rw [if_pos (by omega), if_pos hone, List.append_nil]
      obtain ⟨v, rfl⟩ := List.length_eq_one_iff.1 (Nat.le_antisymm hone hpos)
      exact h.dropVertex hrun
    · rw [if_neg (by omega), if_neg hone]
      split_ifs with hreturns
      · have hshort : run.dropLast ≠ [] := by
          rw [← List.length_pos_iff, List.length_dropLast]
          omega
        have := (h.dropVertex hrun).endRun
        rwa [ending, if_neg hshort] at this
      · have := h.endRun
        rwa [ending, if_neg hrun] at this

end Sketch

end GlyphDrawing
