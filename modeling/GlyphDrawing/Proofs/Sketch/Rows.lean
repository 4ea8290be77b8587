import Mathlib.Data.Nat.PSub
import GlyphDrawing.Proofs.Sketch.Contours

/-!
# Rows that are read by index

The ends of a sketch that reads as contours and a run increase and lie among its vertices (`Fits`).

A sketch keeps each vertex whole, and its operations give a value whatever the rows hold. In `Rows`
positions and flags stand apart, and closing a contour fails where a difference of indices would be
negative or an index lies outside its row. On the rows of a sketch that reads as contours and a run
it never fails, and it does what the operations of sketches do (`closeRun?_rows`, `endRun?_rows`).
-/

namespace GlyphDrawing

section LastIndices

variable {α : Type} {pieces : List (List α)} {i start : Nat}

theorem length_lastIndices (start : Nat) (pieces : List (List α)) :
    (lastIndices start pieces).length = pieces.length := by
  induction pieces generalizing start with
  | nil => rfl
  | cons piece pieces ih => rw [lastIndices, List.length_cons, ih, List.length_cons]

theorem bounds_of_mem_lastIndices (h : ∀ piece ∈ pieces, piece ≠ [])
    (hi : i ∈ lastIndices start pieces) : start ≤ i ∧ i < start + pieces.flatten.length := by
  induction pieces generalizing start with
  | nil => cases hi
  | cons piece pieces ih =>
    have hpos := List.length_pos_iff.2 (h piece List.mem_cons_self)
    rw [List.flatten_cons, List.length_append]
    rcases List.mem_cons.1 hi with rfl | hi
    · omega
    · have := ih (fun p hp => h p (List.mem_cons_of_mem _ hp)) hi
      omega

theorem pairwise_lastIndices (h : ∀ piece ∈ pieces, piece ≠ []) (start : Nat) :
    (lastIndices start pieces).Pairwise (· < ·) := by
  induction pieces generalizing start with
  | nil => exact .nil
  | cons piece pieces ih =>
    have hpos := List.length_pos_iff.2 (h piece List.mem_cons_self)
    have hrest : ∀ p ∈ pieces, p ≠ [] := fun p hp => h p (List.mem_cons_of_mem _ hp)
    refine List.pairwise_cons.2 ⟨fun i hi => ?_, ih hrest _⟩
    have := (bounds_of_mem_lastIndices hrest hi).1
    omega

end LastIndices

namespace Sketch

variable {s : Sketch} {contours : List (List (Vertex Float))} {run : List (Vertex Float)}

structure Fits (s : Sketch) : Prop where
  increasing : s.ends.toList.Pairwise (· < ·)
  lt_size : ∀ last ∈ s.ends, last < s.vertices.size
  ends_eq_empty : s.vertices = #[] → s.ends = #[]
  /-- No vertex lies after the last end. -/
  isClosed_iff :
    s.isClosed = true ↔ ∀ i < s.vertices.size, ∃ last, s.ends.back? = some last ∧ i ≤ last

theorem Reads.size_ends (h : s.Reads contours run) : s.ends.size = contours.length := by
  rw [← Array.length_toList, h.ends, length_lastIndices]

theorem Reads.fits (h : s.Reads contours run) : s.Fits where
  increasing := h.ends ▸ pairwise_lastIndices h.nonempty 0
  lt_size last hlast := by
    rw [← Array.mem_toList_iff, h.ends] at hlast
    have := (bounds_of_mem_lastIndices h.nonempty hlast).2
    rw [h.size_eq]
    omega
  ends_eq_empty hempty := by
    obtain ⟨rfl, -⟩ := h.vertices_eq_empty_iff.1 hempty
    exact Array.toList_eq_nil_iff.1 h.ends
  isClosed_iff := by
    rw [h.isClosed_iff, h.back?_ends, h.size_eq]
    constructor
    · rintro rfl i hi
      have hne : contours ≠ [] := by
        rintro rfl
        exact absurd hi (Nat.not_lt_zero i)
      rw [List.length_nil] at hi
      exact ⟨_, if_neg hne, by omega⟩
    · intro hcovered
      by_contra hrun
      have hpos := List.length_pos_iff.2 hrun
      obtain ⟨last, hlast, hle⟩ := hcovered (contours.flatten.length + run.length - 1) (by omega)
      split at hlast
      · cases hlast
      · obtain rfl := Option.some.inj hlast
        rename_i hne
        have := List.length_pos_iff.2 (h.flatten_ne_nil hne)
        omega

end Sketch

/-- A sketch as rows of positions, flags and ends. -/
structure Rows where
  positions : Array (Point Float)
  /-- For each position, whether it is that of a point on the curve. -/
  flags : Array Bool
  ends : Array Nat
  deriving DecidableEq, Repr

namespace Rows

def drop (r : Rows) : Rows :=
  ⟨r.positions.pop, r.flags.pop, r.ends⟩

def addEnd (r : Rows) (last : Nat) : Rows :=
  { r with ends := r.ends.push last }

def start (r : Rows) : Nat :=
  match r.ends.back? with
  | some last => last + 1
  | none => 0

def isClosed? (r : Rows) : Option Bool :=
  if r.positions.isEmpty then some true
  else
    match r.ends.back? with
    | some last => (r.positions.size.psub 1).map (last == ·)
    | none => some false

def endRun? (r : Rows) : Option Rows := do
  if ← r.isClosed? then return r
  let last ← r.positions.size.psub 1
  return r.addEnd last

def closeRun? (r : Rows) : Option Rows := do
  if ← r.isClosed? then return r
  let last ← r.positions.size.psub 1
  if last = r.start then return r.drop
  let first ← r.positions[r.start]?
  let final ← r.positions[last]?
  if first == final then
    let earlier ← last.psub 1
    return r.drop.addEnd earlier
  return r.addEnd last

end Rows

namespace Sketch

def rows (s : Sketch) : Rows :=
  ⟨s.vertices.map (·.position), s.vertices.map (·.onCurve), s.ends⟩

variable {s : Sketch} {contours : List (List (Vertex Float))} {run : List (Vertex Float)}

@[simp] theorem size_positions_rows (s : Sketch) : s.rows.positions.size = s.vertices.size :=
  Array.size_map

@[simp] theorem size_flags_rows (s : Sketch) : s.rows.flags.size = s.vertices.size :=
  Array.size_map

theorem getElem?_positions_rows (s : Sketch) (i : Nat) :
    s.rows.positions[i]? = s.vertices[i]?.map (·.position) :=
  Array.getElem?_map

theorem rows_dropVertex (s : Sketch) : s.dropVertex.rows = s.rows.drop := by
  simp [rows, dropVertex, Rows.drop]

theorem start_rows (s : Sketch) : s.rows.start = s.runStart := rfl

theorem isClosed?_rows (s : Sketch) : s.rows.isClosed? = some s.isClosed := by
  unfold Rows.isClosed? isClosed
  by_cases hempty : s.vertices = #[]
  · simp [rows, hempty]
  · have hpos : 1 ≤ s.vertices.size := Nat.one_le_iff_ne_zero.2 (by simpa using hempty)
    have hrow : s.rows.positions.isEmpty = false := by simpa [rows] using hempty
    have hvertices : s.vertices.isEmpty = false := by simpa using hempty
    rw [hrow, hvertices, size_positions_rows, Nat.psub_eq_sub hpos]
    change (match s.ends.back? with | some last => _ | none => _) = _
    cases s.ends.back? <;> simp

theorem Reads.one_le_size (h : s.Reads contours run) (hrun : run ≠ []) :
    1 ≤ s.vertices.size := by
  have := List.length_pos_iff.2 hrun
  rw [h.size_eq]
  omega

theorem rows_endRun_of_open (hopen : s.isClosed = false) :
    s.endRun.rows = s.rows.addEnd (s.vertices.size - 1) := by
  rw [endRun, if_neg (Bool.not_eq_true _ ▸ hopen)]
  rfl

theorem Reads.isClosed_eq_false (h : s.Reads contours run) (hrun : run ≠ []) :
    s.isClosed = false :=
  Bool.eq_false_iff.2 fun hc => hrun (h.isClosed_iff.1 hc)

theorem endRun?_rows (h : s.Reads contours run) : s.rows.endRun? = some s.endRun.rows := by
  by_cases hrun : run = []
  · have hclosed := h.isClosed_iff.2 hrun
    rw [Rows.endRun?, isClosed?_rows, endRun, hclosed]
    rfl
  · have hopen := h.isClosed_eq_false hrun
    rw [Rows.endRun?, isClosed?_rows, hopen, rows_endRun_of_open hopen, size_positions_rows,
      Nat.psub_eq_sub (h.one_le_size hrun)]
    rfl

/-- The two positions that closing compares lie in the row. -/
theorem Reads.exists_compared (h : s.Reads contours run) (hrun : run ≠ []) :
    ∃ first final, s.rows.positions[s.runStart]? = some first ∧
      s.rows.positions[s.vertices.size - 1]? = some final ∧ s.returns = (first == final) := by
  have hpos := List.length_pos_iff.2 hrun
  have hsize := h.size_eq
  have hstart : s.runStart < s.vertices.size := by
    rw [h.runStart_eq]
    omega
  have hlast : s.vertices.size - 1 < s.vertices.size := by omega
  refine ⟨s.vertices[s.runStart].position, s.vertices[s.vertices.size - 1].position, ?_, ?_, ?_⟩
  · rw [getElem?_positions_rows, Array.getElem?_eq_getElem hstart, Option.map_some]
  · rw [getElem?_positions_rows, Array.getElem?_eq_getElem hlast, Option.map_some]
  · rw [returns, Array.getElem?_eq_getElem hstart, Array.back?_eq_getElem?,
      Array.getElem?_eq_getElem hlast]
    rfl

theorem closeRun?_rows (h : s.Reads contours run) : s.rows.closeRun? = some s.closeRun.rows := by
  by_cases hrun : run = []
  · have hclosed := h.isClosed_iff.2 hrun
    rw [Rows.closeRun?, isClosed?_rows, closeRun, hclosed]
    rfl
  · have hopen := h.isClosed_eq_false hrun
    have hpos := List.length_pos_iff.2 hrun
    have hsize := h.size_eq
    have hstart := h.runStart_eq
    obtain ⟨first, final, hfirst, hfinal, hreturns⟩ := h.exists_compared hrun
    rw [Rows.closeRun?, isClosed?_rows, hopen, size_positions_rows,
      Nat.psub_eq_sub (h.one_le_size hrun), closeRun, hopen]
    simp only [Option.bind_eq_bind, Option.bind_some, Bool.false_eq_true, if_false, start_rows,
      hfirst, hfinal, hreturns]
    by_cases hone : s.runStart + 1 = s.vertices.size
    · rw [if_pos (by omega), if_pos hone, rows_dropVertex]
      rfl
    · rw [if_neg (by omega), if_neg hone]
      by_cases hsame : (first == final) = true
      · -- the run has a second vertex, so the dropped one leaves it open
        have hshort : run.dropLast ≠ [] := by
          rw [← List.length_pos_iff, List.length_dropLast]
          omega
        have hdropped := rows_endRun_of_open ((h.dropVertex hrun).isClosed_eq_false hshort)
        rw [if_pos hsame, if_pos hsame, Nat.psub_eq_sub (by omega), hdropped, rows_dropVertex]
        simp [dropVertex]
      · rw [if_neg hsame, if_neg hsame, rows_endRun_of_open hopen]
        rfl

end Sketch

end GlyphDrawing
