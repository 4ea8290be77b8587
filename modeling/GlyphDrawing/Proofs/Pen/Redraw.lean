import GlyphDrawing.Proofs.Number.Whole
import GlyphDrawing.Proofs.Pen.DrawnContours
import GlyphDrawing.Proofs.Resolution.Turns

/-!
# Drawing an outline again

The coordinates of an outline are doubles that round to them, and two of these are equal as doubles
only if they are equal. So a stroke pen closes the walk around a contour by the same rule as if all
coordinates were integers (`closing_circuit_toDouble`), and the outline that it finishes has the
contours of the first one in their normal form (`redraw_eq_normal`).
-/

namespace GlyphDrawing

theorem Point.map_toDouble_beq (p q : Point Int32) :
    (p.map toDouble == q.map toDouble) = decide (p = q) := by
  obtain ⟨px, py⟩ := p
  obtain ⟨qx, qy⟩ := q
  change (toDouble px == toDouble qx && toDouble py == toDouble qy) = _
  rw [toDouble_beq_toDouble, toDouble_beq_toDouble, ← Bool.decide_and]
  exact decide_eq_decide.2 (by rw [Point.mk.injEq])

theorem Vertex.round_toDouble (v : Vertex Int32) : v.toDouble.round = v := by
  obtain ⟨⟨x, y⟩, onCurve⟩ := v
  simp only [Vertex.round, Vertex.toDouble, Point.map, roundToInt32_toDouble]

namespace Contour

section Map

variable {α β : Type} {f : Vertex α → Vertex β} (hf : ∀ v, (f v).onCurve = v.onCurve)

include hf

theorem fromCurve_map (contour : List (Vertex α)) :
    fromCurve (contour.map f) = (fromCurve contour).map f := by
  have hcurve : (fun v : Vertex β => v.onCurve) ∘ f = fun v : Vertex α => v.onCurve := funext hf
  rw [fromCurve, fromCurve, List.findIdx_map, hcurve, List.map_rotate]

theorem endsInControl_map (contour : List (Vertex α)) :
    endsInControl (contour.map f) = endsInControl contour := by
  rw [endsInControl, endsInControl, List.any_map, List.getLast?_map, Option.any_map]
  simp only [Function.comp_def, hf]

end Map

/-- The contour from its first vertex on the curve on. If the last vertex of this is on the curve,
or none is, then a last vertex that lies where the first one does is left out. -/
def normal (contour : List (Vertex Int32)) : List (Vertex Int32) :=
  let r := fromCurve contour
  if endsInControl r = false ∧ r.head?.map (·.position) = r.getLast?.map (·.position) then
    r.dropLast
  else r

theorem endsInControl_of_length_le_one {contour : List (Vertex Int32)} (h : contour.length ≤ 1) :
    endsInControl contour = false := by
  match contour with
  | [] => rfl
  | [v] => simp [endsInControl]

theorem head_beq_last_toDouble (contour : List (Vertex Int32)) :
    ((contour.map Vertex.toDouble).head?.map (·.position) ==
        (contour.map Vertex.toDouble).getLast?.map (·.position)) =
      decide (contour.head?.map (·.position) = contour.getLast?.map (·.position)) := by
  rw [List.head?_map, List.getLast?_map]
  cases contour with
  | nil => rfl
  | cons first rest =>
    rw [List.head?_cons, List.getLast?_eq_some_getLast (List.cons_ne_nil first rest)]
    have h := Point.map_toDouble_beq first.position
      ((first :: rest).getLast (List.cons_ne_nil first rest)).position
    rw [Option.map_some, Option.map_some, Option.map_some, Option.map_some]
    exact h.trans (decide_eq_decide.2 Option.some_inj.symm)

theorem closing_circuit_toDouble (contour : List (Vertex Int32)) :
    Sketch.closing (circuit (contour.map Vertex.toDouble)) =
      if 2 ≤ contour.length then [(normal contour).map Vertex.toDouble] else [] := by
  have hlength := length_fromCurve contour
  have hcurve (v : Vertex Int32) : v.toDouble.onCurve = v.onCurve := rfl
  rw [circuit, fromCurve_map hcurve, endsInControl_map hcurve, normal, ← hlength]
  generalize fromCurve contour = r
  by_cases hlong : 2 ≤ r.length
  · rw [if_pos hlong]
    cases hends : endsInControl r with
    | true =>
      obtain ⟨first, rest, rfl⟩ := List.exists_cons_of_length_pos (by omega : 0 < r.length)
      have hself : (first.toDouble.position == first.toDouble.position) = true :=
        (Point.map_toDouble_beq first.position first.position).trans (decide_eq_true rfl)
      rw [if_pos rfl, if_neg (by simp)]
      exact closing_concat_head rfl hself
    | false =>
      rw [if_neg Bool.false_ne_true, List.append_nil, Sketch.closing,
        if_neg (by rw [List.length_map]; omega), head_beq_last_toDouble]
      -- nothing is repeated, so the two ends of the contour itself are compared
      by_cases hsame : r.head?.map (·.position) = r.getLast?.map (·.position)
      · rw [if_pos (decide_eq_true hsame), if_pos ⟨rfl, hsame⟩, List.map_dropLast]
      · rw [if_neg (by simpa using hsame), if_neg fun h => hsame h.2]
  · rw [if_neg hlong, endsInControl_of_length_le_one (by omega), if_neg Bool.false_ne_true,
      List.append_nil, Sketch.closing, if_pos (by rw [List.length_map]; omega)]

theorem normal_ne_nil {contour : List (Vertex Int32)} (h : 2 ≤ contour.length) :
    normal contour ≠ [] := by
  have hlength := length_fromCurve contour
  rw [normal, ← List.length_pos_iff]
  split_ifs
  · rw [List.length_dropLast]
    omega
  · omega

end Contour

namespace Outline

def join (contours : List (List (Vertex Int32))) : Outline where
  points := (contours.flatten.map (·.position)).toArray
  onCurve := (contours.flatten.map (·.onCurve)).toArray
  ends := (lastIndices 0 contours).toArray
  instructions := #[]

theorem ofContours_toDouble (contours : List (List (Vertex Int32))) :
    ofContours (contours.map (·.map Vertex.toDouble)) = join contours := by
  have hposition (v : Vertex Int32) : v.toDouble.position.map roundToInt32 = v.position :=
    congrArg Vertex.position v.round_toDouble
  rw [ofContours, join, lastIndices_map, ← List.map_flatten, List.map_map, List.map_map]
  simp only [Function.comp_def, hposition]
  rfl

theorem contours_join {contours : List (List (Vertex Int32))} (h : ∀ c ∈ contours, c ≠ []) :
    (join contours).contours = contours := by
  have hround : Vertex.round ∘ Vertex.toDouble = id := funext Vertex.round_toDouble
  rw [← ofContours_toDouble, contours_ofContours (by simpa using h), List.map_map]
  simp [Function.comp_def, Vertex.round_toDouble]

/-- The outline that is drawn again: its contours of two or more vertices, as normal ones. -/
def normalContours (o : Outline) : List (List (Vertex Int32)) :=
  (o.contours.filter (2 ≤ ·.length)).map Contour.normal

theorem flatMap_closing_circuit (contours : List (List (Vertex Int32))) :
    (contours.flatMap fun c => Sketch.closing (Contour.circuit (c.map Vertex.toDouble))) =
      ((contours.filter (2 ≤ ·.length)).map Contour.normal).map (·.map Vertex.toDouble) := by
  induction contours with
  | nil => rfl
  | cons c contours ih =>
    rw [List.flatMap_cons, ih, Contour.closing_circuit_toDouble, List.filter_cons]
    by_cases hlong : 2 ≤ c.length
    · rw [if_pos hlong, if_pos (by simpa using hlong)]
      rfl
    · rw [if_neg hlong, if_neg (by simpa using hlong)]
      rfl

/-- Each point has a flag, and the ends cut the points into contours, none of them empty. -/
structure WellFormed (o : Outline) : Prop where
  size_eq : o.onCurve.size = o.points.size
  increasing : o.ends.toList.Pairwise (· < ·)
  covers : (o.ends.back?.map (· + 1)).getD 0 = o.points.size

theorem cut_eq {α : Type} {rest : List α} {size start : Nat} {ends : List Nat}
    (hsize : start + rest.length = size) (hincreasing : ends.Pairwise (· < ·))
    (hstart : ∀ last ∈ ends, start ≤ last)
    (hcovers : (ends.getLast?.map (· + 1)).getD start = size) :
    (cut size start rest ends).flatten = rest ∧
      lastIndices start (cut size start rest ends) = ends := by
  -- along the ends; `rest` is what lies from the index `start` on
  induction ends generalizing start rest with
  | nil =>
    have hrest : rest = [] := by
      rw [← List.length_eq_zero_iff]
      simp at hcovers
      omega
    rw [hrest]
    exact ⟨rfl, rfl⟩
  | cons last ends ih =>
    obtain ⟨hlast, hincreasing⟩ := List.pairwise_cons.1 hincreasing
    have hle := hstart last List.mem_cons_self
    obtain ⟨hcovers', hlt⟩ :
        (ends.getLast?.map (· + 1)).getD (last + 1) = size ∧ last < size := by
      rcases List.eq_nil_or_concat ends with rfl | ⟨front, final, rfl⟩
      · have hsize : last + 1 = size := hcovers
        exact ⟨hsize, by omega⟩
      · rw [List.concat_eq_append] at hcovers hlast ⊢
        have hfinal := hlast final (List.mem_append_right _ (List.mem_singleton_self _))
        rw [← List.cons_append, List.getLast?_concat] at hcovers
        rw [List.getLast?_concat]
        have hsize : final + 1 = size := hcovers
        exact ⟨hsize, by omega⟩
    have hlength : (rest.take (last + 1 - start)).length = last + 1 - start := by
      rw [List.length_take]
      omega
    have hrest : last + 1 + (rest.drop (last + 1 - start)).length = size := by
      rw [List.length_drop]
      omega
    obtain ⟨hflatten, hindices⟩ := ih hrest hincreasing hlast hcovers'
    rw [cut, if_pos ⟨hlt, by omega⟩, List.flatten_cons, hflatten, List.take_append_drop,
      lastIndices, hlength, show start + (last + 1 - start) = last + 1 by omega, hindices]
    exact ⟨rfl, rfl⟩

theorem map_vertices {o : Outline} (h : o.onCurve.size = o.points.size) :
    o.vertices.map (·.position) = o.points.toList ∧
      o.vertices.map (·.onCurve) = o.onCurve.toList := by
  have hlength : o.onCurve.toList.length = o.points.toList.length := by simpa using h
  rw [vertices, ← List.map_uncurry_zip_eq_zipWith, List.map_map, List.map_map]
  exact ⟨List.map_fst_zip hlength.ge, List.map_snd_zip hlength.le⟩

theorem WellFormed.join_contours {o : Outline} (h : o.WellFormed) (hi : o.instructions = #[]) :
    join o.contours = o := by
  obtain ⟨hpositions, hflags⟩ := map_vertices h.size_eq
  have hsize : 0 + o.vertices.length = o.vertices.length := Nat.zero_add _
  have hcovers : (o.ends.toList.getLast?.map (· + 1)).getD 0 = o.vertices.length := by
    have := congrArg List.length hpositions
    rw [List.length_map] at this
    rw [this, Array.length_toList, Array.getLast?_toList, h.covers]
  obtain ⟨hflatten, hends⟩ := cut_eq hsize h.increasing (fun _ _ => Nat.zero_le _) hcovers
  rw [join, contours, hflatten, hends, hpositions, hflags, ← hi]

end Outline

theorem Contour.normal_eq_self {contour : List (Vertex Int32)}
    (hstarts : contour.head?.any (·.onCurve) = true ∨ ∀ v ∈ contour, v.onCurve = false)
    (happart : ¬ (endsInControl contour = false ∧
      contour.head?.map (·.position) = contour.getLast?.map (·.position))) :
    normal contour = contour := by
  rw [normal, fromCurve_of_starts hstarts]
  exact if_neg happart

namespace Pen

theorem draw_strokes_eq (o : Outline) :
    ∃ q : StrokePen, draw empty (Glyph.simple o).strokes = (q, .ok ()) ∧ obstacle? q = none ∧
      pending q = #[] ∧ (sketch q).outline = .join o.normalContours := by
  obtain ⟨q, hq, hoq, htraces⟩ := OutlinePen.keeps_closing.exists_accepts
    (p := (empty : StrokePen)) OutlinePen.traces_empty rfl (o.contours.map (·.map Vertex.toDouble))
  have hreads := OutlinePen.reads_of_traces htraces
  rw [List.nil_append, List.flatMap_map, Outline.flatMap_closing_circuit] at hreads
  rw [List.flatMap_map] at hq
  refine ⟨q, hq.draw_eq, hoq, hq.pending_eq, ?_⟩
  rw [hreads.outline_eq, Outline.ofContours_toDouble, Outline.normalContours]

/-- Drawn again as strokes, every outline is finished as the outline of its normal contours; one
that is well formed, with normal contours and without instructions, is finished as it is. -/
theorem redraw_eq_normal (setting : Setting) (options : Options) (o : Outline) :
    (session setting (empty : StrokePen) [.draw (Glyph.simple o).strokes, .finish options]).2 =
        [.drawn (.ok ()), .finished #[] (.ok (.simple (.join o.normalContours)))] ∧
      (Outline.join o.normalContours).contours = o.normalContours ∧
      (o.WellFormed → o.instructions = #[] →
        (∀ c ∈ o.contours, 2 ≤ c.length ∧
          (c.head?.any (·.onCurve) = true ∨ ∀ v ∈ c, v.onCurve = false) ∧
          ¬ (Contour.endsInControl c = false ∧
            c.head?.map (·.position) = c.getLast?.map (·.position))) →
        Outline.join o.normalContours = o) := by
  refine ⟨?_, Outline.contours_join ?_, fun hformed hinstructions hnormal => ?_⟩
  · obtain ⟨q, hdraw, hobstacle, hpending, houtline⟩ := draw_strokes_eq o
    simp only [session, answer, hdraw, finish_of_pending_eq_empty hobstacle hpending, houtline]
  · intro c hc
    obtain ⟨contour, hcontour, rfl⟩ := List.mem_map.1 hc
    exact Contour.normal_ne_nil (by simpa using (List.mem_filter.1 hcontour).2)
  · have hall : o.contours.filter (2 ≤ ·.length) = o.contours :=
      List.filter_eq_self.2 fun c hc => by simpa using (hnormal c hc).1
    have hsame : o.contours.map Contour.normal = o.contours :=
      (List.map_congr_left fun c hc =>
        Contour.normal_eq_self (hnormal c hc).2.1 (hnormal c hc).2.2).trans (List.map_id _)
    rw [Outline.normalContours, hall, hsame, hformed.join_contours hinstructions]

def curl : Outline :=
  ⟨#[⟨9, 9⟩, ⟨0, 0⟩, ⟨4, 0⟩, ⟨7, 7⟩, ⟨1, 1⟩, ⟨2, 2⟩, ⟨1, 1⟩],
    #[false, true, true, true, true, true, true], #[2, 3, 6, 5], #[7]⟩

def uncurled : Outline :=
  ⟨#[⟨0, 0⟩, ⟨4, 0⟩, ⟨9, 9⟩, ⟨1, 1⟩, ⟨2, 2⟩, ⟨3, 3⟩, ⟨5, 3⟩],
    #[true, true, false, true, true, false, false], #[2, 4, 6], #[]⟩

theorem redraw_curl :
    (session ⟨∅, true⟩ (empty : StrokePen) [.draw (Glyph.simple curl).strokes, .finish {}]).2 =
        [.drawn (.ok ()), .finished #[] (.ok (.simple ⟨#[⟨0, 0⟩, ⟨4, 0⟩, ⟨9, 9⟩, ⟨1, 1⟩, ⟨2, 2⟩],
          #[true, true, false, true, true], #[2, 4], #[]⟩))] ∧
      (session ⟨∅, true⟩ (empty : StrokePen) [.draw (Glyph.simple uncurled).strokes,
        .finish {}]).2 = [.drawn (.ok ()), .finished #[] (.ok (.simple uncurled))] := by
  have hcurl : Outline.join curl.normalContours =
      ⟨#[⟨0, 0⟩, ⟨4, 0⟩, ⟨9, 9⟩, ⟨1, 1⟩, ⟨2, 2⟩], #[true, true, false, true, true], #[2, 4],
        #[]⟩ := by
    decide +kernel
  have hformed : uncurled.WellFormed := ⟨rfl, by decide, rfl⟩
  obtain ⟨hagain, -, -⟩ := redraw_eq_normal ⟨∅, true⟩ {} curl
  obtain ⟨hsame, -, hnormal⟩ := redraw_eq_normal ⟨∅, true⟩ {} uncurled
  rw [hcurl] at hagain
  rw [hnormal hformed rfl (by decide +kernel)] at hsame
  exact ⟨hagain, hsame⟩

end Pen

end GlyphDrawing
