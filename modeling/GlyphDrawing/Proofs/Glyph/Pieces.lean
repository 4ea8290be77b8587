import Mathlib.Order.Bounds.Defs
import Mathlib.Tactic.SplitIfs
import GlyphDrawing.Glyph.Outline

/-!
# The pieces of an outline

Nothing is asked of the ends of an outline: they may fall, be repeated or lie beyond the points, and
points and flags may differ in number. The contours are what the longest orderly row of first ends
cuts off both rows, one contour for each of these ends and no member left out or taken twice
(`cutAtEnds`). Cutting takes no account of the size of a word, and it takes what there is of a
piece; `pieces` cuts each row for itself, and stops where a sum does not fit in a word or a piece
does not lie in its row. Both cut the same pieces.
-/

namespace GlyphDrawing.Outline

section Cut

variable {α : Type} {row rest : List α} {ends : List Nat} {size start : Nat}

/-- The ends do not fall, and all of them are ends of pieces that begin at `start` in a row of
`size` members. -/
structure Orderly (size start : Nat) (ends : List Nat) : Prop where
  sorted : ends.Pairwise (· ≤ ·)
  bounded : ∀ last ∈ ends, start ≤ last + 1 ∧ last < size

theorem orderly_nil (size start : Nat) : Orderly size start [] where
  sorted := .nil
  bounded _ h := nomatch h

theorem orderly_cons_iff {last : Nat} :
    Orderly size start (last :: ends) ↔
      (last < size ∧ start ≤ last + 1) ∧ Orderly size (last + 1) ends := by
  constructor
  · rintro ⟨hsorted, hbounded⟩
    obtain ⟨hlast, hsorted⟩ := List.pairwise_cons.1 hsorted
    refine ⟨(hbounded last List.mem_cons_self).symm, hsorted, fun next hnext => ?_⟩
    exact ⟨Nat.succ_le_succ (hlast next hnext), (hbounded next (List.mem_cons_of_mem _ hnext)).2⟩
  · rintro ⟨hfits, hsorted, hbounded⟩
    refine ⟨List.pairwise_cons.2 ⟨fun next hnext => ?_, hsorted⟩, fun next hnext => ?_⟩
    · exact Nat.le_of_succ_le_succ (hbounded next hnext).1
    · rcases List.mem_cons.1 hnext with rfl | hnext
      · exact hfits.symm
      · exact ⟨Nat.le_trans hfits.2 (hbounded next hnext).1, (hbounded next hnext).2⟩

/-- As many pieces are cut as there are ends in the longest orderly beginning. -/
theorem isGreatest_length_cut (size start : Nat) (rest : List α) (ends : List Nat) :
    IsGreatest {k | k ≤ ends.length ∧ Orderly size start (ends.take k)}
      (cut size start rest ends).length := by
  induction ends generalizing start rest with
  | nil => exact ⟨⟨Nat.le_refl 0, orderly_nil _ _⟩, fun k hk => hk.1⟩
  | cons last ends ih =>
    rw [cut]
    split_ifs with hfits
    · obtain ⟨⟨hle, horderly⟩, hgreatest⟩ := ih (last + 1) (rest.drop (last + 1 - start))
      refine ⟨⟨Nat.succ_le_succ hle, orderly_cons_iff.2 ⟨hfits, horderly⟩⟩, fun k hk => ?_⟩
      cases k with
      | zero => exact Nat.zero_le _
      | succ k =>
        obtain ⟨hle, horderly⟩ := hk
        rw [List.take_succ_cons, orderly_cons_iff] at horderly
        exact Nat.succ_le_succ (hgreatest ⟨Nat.le_of_succ_le_succ hle, horderly.2⟩)
    · refine ⟨⟨Nat.zero_le _, orderly_nil _ _⟩, fun k hk => ?_⟩
      cases k with
      | zero => exact Nat.zero_le _
      | succ k =>
        obtain ⟨-, horderly⟩ := hk
        rw [List.take_succ_cons, orderly_cons_iff] at horderly
        exact absurd horderly.1 hfits

def starts (start : Nat) (ends : List Nat) : List Nat :=
  start :: ends.map (· + 1)

theorem drop_drop_of_le (row : List α) {last : Nat} (h : start ≤ last + 1) :
    (row.drop start).drop (last + 1 - start) = row.drop (last + 1) := by
  rw [List.drop_drop, Nat.add_sub_of_le h]

/-- A piece lies in the row, between the start and the end that have its index. -/
theorem exists_of_getElem?_cut {i : Nat} {piece : List α}
    (h : (cut row.length start (row.drop start) ends)[i]? = some piece) :
    ∃ first last, (starts start ends)[i]? = some first ∧ ends[i]? = some last ∧
      (first ≤ last + 1 ∧ last < row.length) ∧
      piece = (row.drop first).take (last + 1 - first) := by
  induction ends generalizing start i with
  | nil => cases h
  | cons last ends ih =>
    rw [cut] at h
    split_ifs at h with hfits
    · cases i with
      | zero =>
        obtain rfl : (row.drop start).take (last + 1 - start) = piece := Option.some.inj h
        exact ⟨start, last, rfl, rfl, hfits.symm, rfl⟩
      | succ i =>
        rw [List.getElem?_cons_succ, drop_drop_of_le row hfits.2] at h
        exact ih h
    · cases h

/-- Put together, the pieces are the row up to the start at which no piece is cut any more. -/
theorem exists_flatten_cut_eq (row : List α) (ends : List Nat) (hstart : start ≤ row.length) :
    ∃ stop, (starts start ends)[(cut row.length start (row.drop start) ends).length]? = some stop ∧
      (start ≤ stop ∧ stop ≤ row.length) ∧
      (cut row.length start (row.drop start) ends).flatten =
        (row.drop start).take (stop - start) := by
  induction ends generalizing start with
  | nil => exact ⟨start, rfl, ⟨Nat.le_refl _, hstart⟩, by rw [Nat.sub_self, List.take_zero]; rfl⟩
  | cons last ends ih =>
    rw [cut]
    split_ifs with hfits
    · obtain ⟨stop, hstop, ⟨hle, hbound⟩, hflatten⟩ := ih (Nat.succ_le_of_lt hfits.1)
      refine ⟨stop, ?_, ⟨Nat.le_trans hfits.2 hle, hbound⟩, ?_⟩
      · rw [drop_drop_of_le row hfits.2]
        exact hstop
      · have hsum : stop - start = (last + 1 - start) + (stop - (last + 1)) := by omega
        rw [List.flatten_cons, drop_drop_of_le row hfits.2, hflatten, hsum, List.take_add,
          drop_drop_of_le row hfits.2]
    · refine ⟨start, rfl, ⟨Nat.le_refl _, hstart⟩, ?_⟩
      rw [Nat.sub_self, List.take_zero, List.flatten_nil]

end Cut

section Rows

theorem length_vertices (o : Outline) : o.vertices.length = min o.points.size o.onCurve.size := by
  rw [vertices, List.length_zipWith, Array.length_toList, Array.length_toList]

theorem lt_length_vertices_iff {o : Outline} {i : Nat} :
    i < o.vertices.length ↔ i < o.points.size ∧ i < o.onCurve.size := by
  rw [length_vertices, Nat.lt_min]

theorem map_zipWith_mk {α : Type} {positions : List (Point α)} {flags : List Bool}
    (h : positions.length = flags.length) :
    (positions.zipWith Vertex.mk flags).map (·.position) = positions ∧
      (positions.zipWith Vertex.mk flags).map (·.onCurve) = flags := by
  rw [← List.map_uncurry_zip_eq_zipWith, List.map_map, List.map_map]
  exact ⟨List.map_fst_zip (Nat.le_of_eq h), List.map_snd_zip (Nat.le_of_eq h.symm)⟩

/-- A slice of the vertices is a slice of either row. -/
theorem map_slice_vertices (o : Outline) (first : Nat) {stop : Nat}
    (hstop : stop ≤ o.vertices.length) :
    ((o.vertices.drop first).take (stop - first)).map (·.position) =
        (o.points.extract first stop).toList ∧
      ((o.vertices.drop first).take (stop - first)).map (·.onCurve) =
        (o.onCurve.extract first stop).toList := by
  rw [length_vertices, Nat.le_min] at hstop
  have hlength : ((o.points.toList.drop first).take (stop - first)).length =
      ((o.onCurve.toList.drop first).take (stop - first)).length := by
    simp only [List.length_take, List.length_drop, Array.length_toList]
    omega
  rw [vertices, List.drop_zipWith, List.take_zipWith, Array.toList_extract, Array.toList_extract,
    List.extract_eq_take_drop, List.extract_eq_take_drop]
  exact map_zipWith_mk hlength

def slice? {α : Type} (row : Array α) (first stop : Nat) : Option (List α) :=
  if first ≤ stop ∧ stop ≤ row.size then some (row.extract first stop).toList else none

def next? (i : Nat) : Option Nat :=
  if i + 1 < UInt64.size then some (i + 1) else none

/-- The pieces of both rows, each row cut for itself. -/
def pieces (o : Outline) (first : Nat) : List Nat → List (List (Point Int32) × List Bool)
  | [] => []
  | last :: ends =>
    match next? last with
    | none => []
    | some stop =>
      match slice? o.points first stop, slice? o.onCurve first stop with
      | some points, some flags => (points, flags) :: pieces o stop ends
      | _, _ => []

def split (contour : List (Vertex Int32)) : List (Point Int32) × List Bool :=
  (contour.map (·.position), contour.map (·.onCurve))

theorem pieces_cons_of_fits {o : Outline} {first last : Nat} (ends : List Nat)
    (hword : o.points.size < UInt64.size) (hfits : last < o.vertices.length ∧ first ≤ last + 1) :
    o.pieces first (last :: ends) =
      split ((o.vertices.drop first).take (last + 1 - first)) :: o.pieces (last + 1) ends := by
  obtain ⟨hlast, hle⟩ := hfits
  obtain ⟨hpositions, hflags⟩ := map_slice_vertices o first hlast
  rw [lt_length_vertices_iff] at hlast
  have hnext : next? last = some (last + 1) := if_pos (by omega)
  have hpoints : slice? o.points first (last + 1) =
      some (o.points.extract first (last + 1)).toList := if_pos ⟨hle, hlast.1⟩
  have hcurve : slice? o.onCurve first (last + 1) =
      some (o.onCurve.extract first (last + 1)).toList := if_pos ⟨hle, hlast.2⟩
  rw [pieces, hnext]
  simp only [hpoints, hcurve]
  rw [split, hpositions, hflags]

theorem pieces_cons_of_not_fits {o : Outline} {first last : Nat} (ends : List Nat)
    (hfits : ¬ (last < o.vertices.length ∧ first ≤ last + 1)) :
    o.pieces first (last :: ends) = [] := by
  rw [lt_length_vertices_iff] at hfits
  rw [pieces, next?]
  split
  · rfl
  · rename_i stop hstop
    split_ifs at hstop with hword
    obtain rfl := Option.some.inj hstop
    split
    · rename_i points flags hpoints hflags
      rw [slice?] at hpoints hflags
      split_ifs at hpoints hflags with hin hin'
      exact absurd ⟨⟨hin.2, hin'.2⟩, hin.1⟩ hfits
    · rfl

theorem pieces_eq_map_split_cut {o : Outline} (hword : o.points.size < UInt64.size) (first : Nat)
    (ends : List Nat) :
    o.pieces first ends =
      (cut o.vertices.length first (o.vertices.drop first) ends).map split := by
  induction ends generalizing first with
  | nil => rfl
  | cons last ends ih =>
    rw [cut]
    split_ifs with hfits
    · rw [pieces_cons_of_fits ends hword hfits, ih, List.map_cons,
        drop_drop_of_le o.vertices hfits.2]
    · exact pieces_cons_of_not_fits ends hfits

end Rows

/-- The contours are what the ends cut off both rows. -/
structure CutAtEnds (o : Outline) : Prop where
  /-- As many as the ends up to the first that falls or lies beyond one of the rows. -/
  isGreatest_length : IsGreatest
    {k | k ≤ o.ends.size ∧ (o.ends.toList.take k).Pairwise (· ≤ ·) ∧
      ∀ last ∈ o.ends.toList.take k, last < o.points.size ∧ last < o.onCurve.size}
    o.contours.length
  /-- Each of them from the index after the end before it through its own end. -/
  contour {i : Nat} {contour : List (Vertex Int32)} (h : o.contours[i]? = some contour) :
    ∃ first last, (starts 0 o.ends.toList)[i]? = some first ∧ o.ends[i]? = some last ∧
      (first ≤ last + 1 ∧ last < o.points.size ∧ last < o.onCurve.size) ∧
      contour.map (·.position) = (o.points.extract first (last + 1)).toList ∧
      contour.map (·.onCurve) = (o.onCurve.extract first (last + 1)).toList ∧
      contour.length = last + 1 - first
  /-- One that has no vertex stands for an end that repeats the one before it. -/
  eq_nil_iff {i : Nat} {contour : List (Vertex Int32)} (h : o.contours[i]? = some contour) :
    contour = [] ↔ ∃ j, i = j + 1 ∧ o.ends[j]? = o.ends[i]?
  flatten : ∃ stop, (starts 0 o.ends.toList)[o.contours.length]? = some stop ∧
    (stop ≤ o.points.size ∧ stop ≤ o.onCurve.size) ∧
    o.contours.flatten.map (·.position) = (o.points.extract 0 stop).toList ∧
    o.contours.flatten.map (·.onCurve) = (o.onCurve.extract 0 stop).toList
  /-- The rows cut one by one, where a word holds every size. -/
  pieces (hword : o.points.size < UInt64.size) :
    o.pieces 0 o.ends.toList = o.contours.map split ∧
      ∀ piece ∈ o.pieces 0 o.ends.toList, piece.1.length = piece.2.length

/-- A start is 0 or follows the end before it. -/
theorem getElem?_starts_eq_some_succ_iff {ends : List Nat} {i last : Nat} :
    (starts 0 ends)[i]? = some (last + 1) ↔ ∃ j, i = j + 1 ∧ ends[j]? = some last := by
  cases i with
  | zero => simp [starts]
  | succ i => simp [starts]

theorem exists_of_getElem?_contours {o : Outline} {i : Nat} {contour : List (Vertex Int32)}
    (h : o.contours[i]? = some contour) :
    ∃ first last, (starts 0 o.ends.toList)[i]? = some first ∧ o.ends[i]? = some last ∧
      (first ≤ last + 1 ∧ last < o.points.size ∧ last < o.onCurve.size) ∧
      contour.map (·.position) = (o.points.extract first (last + 1)).toList ∧
      contour.map (·.onCurve) = (o.onCurve.extract first (last + 1)).toList ∧
      contour.length = last + 1 - first := by
  obtain ⟨first, last, hfirst, hlast, ⟨hle, hlt⟩, rfl⟩ := exists_of_getElem?_cut h
  obtain ⟨hpositions, hflags⟩ := map_slice_vertices o first hlt
  refine ⟨first, last, hfirst, by rwa [Array.getElem?_toList] at hlast,
    ⟨hle, lt_length_vertices_iff.1 hlt⟩, hpositions, hflags, ?_⟩
  rw [List.length_take, List.length_drop]
  omega

theorem contour_eq_nil_iff {o : Outline} {i : Nat} {contour : List (Vertex Int32)}
    (h : o.contours[i]? = some contour) :
    contour = [] ↔ ∃ j, i = j + 1 ∧ o.ends[j]? = o.ends[i]? := by
  obtain ⟨first, last, hfirst, hlast, ⟨hle, -⟩, -, -, hlength⟩ := exists_of_getElem?_contours h
  have hnil : contour = [] ↔ first = last + 1 := by
    rw [← List.length_eq_zero_iff]
    omega
  have hstart : first = last + 1 ↔ (starts 0 o.ends.toList)[i]? = some (last + 1) := by
    rw [hfirst, Option.some.injEq]
  rw [hnil, hstart, getElem?_starts_eq_some_succ_iff, hlast]
  simp only [Array.getElem?_toList]

/-- Whatever ends, points and flags an outline has, its contours are cut off at the ends, up to the
first that cannot be the end of one. -/
theorem cutAtEnds (o : Outline) : o.CutAtEnds where
  isGreatest_length := by
    have hgreatest := isGreatest_length_cut o.vertices.length 0 o.vertices o.ends.toList
    have hset : {k | k ≤ o.ends.toList.length ∧
        Orderly o.vertices.length 0 (o.ends.toList.take k)} =
          {k | k ≤ o.ends.size ∧ (o.ends.toList.take k).Pairwise (· ≤ ·) ∧
            ∀ last ∈ o.ends.toList.take k, last < o.points.size ∧ last < o.onCurve.size} := by
      ext k
      refine and_congr_right fun _ => ⟨fun h => ⟨h.sorted, fun last hlast => ?_⟩,
        fun h => ⟨h.1, fun last hlast => ⟨Nat.zero_le _, ?_⟩⟩⟩
      · exact lt_length_vertices_iff.1 (h.bounded last hlast).2
      · exact lt_length_vertices_iff.2 (h.2 last hlast)
    rw [← hset]
    exact hgreatest
  contour h := exists_of_getElem?_contours h
  eq_nil_iff h := contour_eq_nil_iff h
  flatten := by
    obtain ⟨stop, hstop, ⟨-, hle⟩, hflatten⟩ :=
      exists_flatten_cut_eq o.vertices o.ends.toList (Nat.zero_le _)
    obtain ⟨hpositions, hflags⟩ := map_slice_vertices o 0 hle
    refine ⟨stop, hstop, ?_, ?_, ?_⟩
    · rwa [length_vertices, Nat.le_min] at hle
    · exact (congrArg _ hflatten).trans hpositions
    · exact (congrArg _ hflatten).trans hflags
  pieces hword := by
    have hpieces : o.pieces 0 o.ends.toList = o.contours.map split :=
      pieces_eq_map_split_cut hword 0 o.ends.toList
    refine ⟨hpieces, fun piece hpiece => ?_⟩
    rw [hpieces] at hpiece
    obtain ⟨contour, -, rfl⟩ := List.mem_map.1 hpiece
    rw [split, List.length_map, List.length_map]

def frayed : Outline :=
  ⟨#[⟨1, 1⟩, ⟨2, 2⟩, ⟨3, 3⟩, ⟨4, 4⟩, ⟨5, 5⟩], #[true, false, true, true],
    #[1, 1, 2, UInt64.size - 1, 3], #[]⟩

/-- Three pieces are cut off both rows, the second without members. -/
theorem frayed_cutAtEnds :
    frayed.points.size < UInt64.size ∧
      frayed.pieces 0 frayed.ends.toList =
        [([⟨1, 1⟩, ⟨2, 2⟩], [true, false]), ([], []), ([⟨3, 3⟩], [true])] ∧
      frayed.contours[1]? = some [] ∧ ∃ j, 1 = j + 1 ∧ frayed.ends[j]? = frayed.ends[1]? := by
  have hword : frayed.points.size < UInt64.size := by decide
  have hcontours : frayed.contours =
      [[⟨⟨1, 1⟩, true⟩, ⟨⟨2, 2⟩, false⟩], [], [⟨⟨3, 3⟩, true⟩]] := rfl
  have hcut := frayed.cutAtEnds
  have hempty : frayed.contours[1]? = some [] := by rw [hcontours]; rfl
  refine ⟨hword, ?_, hempty, (hcut.eq_nil_iff hempty).1 rfl⟩
  rw [(hcut.pieces hword).1, hcontours]
  rfl

end GlyphDrawing.Outline
