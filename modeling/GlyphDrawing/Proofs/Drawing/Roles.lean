import Mathlib.Data.List.DropRight
import GlyphDrawing.Proofs.Drawing.OnceAround

/-!
# Roles and segments

Drawn by points, a contour tells of each point on the curve what kind of segment ends there, and it
looks at the point before it on the cycle. Drawn by strokes, it is walked around from the first
vertex on the curve, and controls are gathered until a vertex on the curve comes. Both describe the
same segments (`Outline.drawn_alike`): the strokes follow from the roles, and from the controls that
stand before each vertex on the cycle.
-/

namespace GlyphDrawing

namespace Contour

/-- The vertex before the one at index `i`, where the last one stands before the first. -/
def before? (contour : List (Vertex Float)) (i : Nat) : Option (Vertex Float) :=
  contour[(i + contour.length - 1) % contour.length]?

/-- What the point at index `i` does: nothing if it is a control, and otherwise it ends a line from
a point on the curve, or a spline. -/
def roleAt? (contour : List (Vertex Float)) (i : Nat) : Option Role :=
  match contour[i]?, before? contour i with
  | some v, some before =>
    if v.onCurve then some (if before.onCurve then .line else .quadratic) else none
  | _, _ => none

/-- The controls that stand before the vertex at index `i` on the cycle, back to the next vertex on
the curve. -/
def approach (contour : List (Vertex Float)) (i : Nat) : List (Vertex Float) :=
  (contour.rotate i).rtakeWhile (!·.onCurve)

/-- The stroke to the vertex at index `i`. A line to where the walk began is left to the close. -/
def strokeTo? (contour : List (Vertex Float)) (first i : Nat) : Option Stroke :=
  match contour[i]?, roleAt? contour i with
  | some v, some .line => if i = first then none else some (.line v.position)
  | some v, some .quadratic =>
    some (.quadratic ((approach contour i).map (·.position)).toArray (some v.position))
  | _, _ => none

theorem exists_before {contour : List (Vertex Float)} {i : Nat} (h : i < contour.length) :
    ∃ before, before? contour i = some before := by
  have hlt : (i + contour.length - 1) % contour.length < contour.length :=
    Nat.mod_lt _ (Nat.zero_lt_of_lt h)
  exact ⟨_, List.getElem?_eq_getElem hlt⟩

theorem before?_zero (contour : List (Vertex Float)) : before? contour 0 = contour.getLast? := by
  cases contour with
  | nil => rfl
  | cons v contour =>
    rw [before?, List.getLast?_eq_getElem?, Nat.zero_add, Nat.mod_eq_of_lt]
    exact Nat.sub_lt (Nat.succ_pos _) Nat.one_pos

theorem before?_succ {contour : List (Vertex Float)} {i : Nat} (h : i + 1 < contour.length) :
    before? contour (i + 1) = contour[i]? := by
  rw [before?, show i + 1 + contour.length - 1 = i + contour.length by omega, Nat.add_mod_right,
    Nat.mod_eq_of_lt (by omega)]

/-- Scanned from its first vertex on, a contour shows before each vertex the one that stands before
it on the cycle, if the scan begins with the last vertex. -/
theorem getElem?_scan {contour : List (Vertex Float)} {i : Nat} (h : i < contour.length) :
    (((contour.getLast?.map (·.onCurve)).getD false) :: contour.map (·.onCurve))[i]? =
      (before? contour i).map (·.onCurve) := by
  cases i with
  | zero =>
    obtain ⟨before, hbefore⟩ := exists_before h
    rw [hbefore, ← before?_zero, hbefore]
    rfl
  | succ i =>
    rw [List.getElem?_cons_succ, List.getElem?_map, before?_succ h]

theorem before?_eq_getLast? {contour : List (Vertex Float)} {i : Nat} (h : i < contour.length) :
    before? contour i = (contour.rotate i).getLast? := by
  have hpos := Nat.zero_lt_of_lt h
  rw [List.getLast?_eq_getElem?, List.length_rotate, List.getElem?_rotate (Nat.sub_one_lt_of_lt h),
    before?, show i + contour.length - 1 = contour.length - 1 + i by omega]

/-- A spline ends where controls stand before, and a line where there are none. -/
theorem roleAt?_eq {contour : List (Vertex Float)} {i : Nat} {v : Vertex Float}
    (hv : contour[i]? = some v) :
    roleAt? contour i =
      if v.onCurve then some (if approach contour i = [] then .line else .quadratic) else none := by
  have hi : i < contour.length := (List.getElem?_eq_some_iff.1 hv).1
  obtain ⟨before, hbefore⟩ := exists_before hi
  have hlast : (contour.rotate i).getLast? = some before := by
    rw [← before?_eq_getLast? hi, hbefore]
  have happroach : approach contour i = [] ↔ before.onCurve = true := by
    obtain ⟨front, hfront⟩ := List.getLast?_eq_some_iff.1 hlast
    rw [approach, hfront, List.rtakeWhile_concat]
    simp
  simp only [roleAt?, hv, hbefore, happroach]

/-- The controls before a vertex on the curve are all that stand between it and another one. -/
theorem exists_rotate_eq {contour : List (Vertex Float)} {i : Nat} {v : Vertex Float}
    (hv : contour[i]? = some v) (hcurve : v.onCurve = true) :
    ∃ front nearest, contour.rotate i = front ++ nearest :: approach contour i ∧
      nearest.onCurve = true ∧ ∀ w ∈ approach contour i, w.onCurve = false := by
  have hsplit : (contour.rotate i).rdropWhile (!·.onCurve) ++ approach contour i =
      contour.rotate i := List.rdropWhile_append_rtakeWhile
  have hcontrols : ∀ w ∈ approach contour i, w.onCurve = false := fun w hw => by
    simpa using List.mem_rtakeWhile_imp hw
  have hfront : (contour.rotate i).rdropWhile (!·.onCurve) ≠ [] := by
    intro hnil
    rw [hnil, List.nil_append] at hsplit
    have hmem : v ∈ approach contour i := by
      rw [hsplit, List.mem_rotate]
      exact List.mem_of_getElem? hv
    rw [hcontrols v hmem] at hcurve
    cases hcurve
  have hnearest := List.rdropWhile_last_not (fun w : Vertex Float => !w.onCurve) _ hfront
  refine ⟨((contour.rotate i).rdropWhile (!·.onCurve)).dropLast, _, ?_, by simpa using hnearest,
    hcontrols⟩
  rw [List.append_cons, List.dropLast_append_getLast hfront, hsplit]

theorem getLast?_rotate_succ {contour : List (Vertex Float)} {i : Nat} {v : Vertex Float}
    (hv : contour[i]? = some v) : (contour.rotate (i + 1)).getLast? = some v := by
  have hi : i < contour.length := (List.getElem?_eq_some_iff.1 hv).1
  rw [List.getLast?_eq_getElem?, List.length_rotate, List.getElem?_rotate (Nat.sub_one_lt_of_lt hi),
    show contour.length - 1 + (i + 1) = i + contour.length by omega, Nat.add_mod_right,
    Nat.mod_eq_of_lt hi, hv]

theorem rtakeWhile_append_of_getLast? {α : Type} {p : α → Bool} {front : List α} {x : α}
    (hx : front.getLast? = some x) (hp : p x = false) (back : List α) :
    (front ++ back).rtakeWhile p = back.rtakeWhile p := by
  obtain ⟨front, rfl⟩ := List.getLast?_eq_some_iff.1 hx
  induction back using List.reverseRecOn with
  | nil =>
    rw [List.append_nil, List.rtakeWhile_concat, hp]
    rfl
  | append_singleton back y ih =>
    rw [← List.append_assoc, List.rtakeWhile_concat, List.rtakeWhile_concat, ih]

end Contour

open Contour

namespace PathStep

theorem points_eq_zipWith (afterCurve : Bool) (contour : List (Vertex Float)) :
    points afterCurve contour =
      List.zipWith (fun (before : Bool) v => point v.position
        (if v.onCurve then some (if before then .line else .quadratic) else none) false none)
        (afterCurve :: contour.map (·.onCurve)) contour := by
  induction contour generalizing afterCurve with
  | nil => rfl
  | cons v contour ih => rw [points, ih, List.map_cons, List.zipWith_cons_cons]

theorem ofContour_eq (contour : List (Vertex Float)) :
    ofContour contour =
      start :: contour.mapIdx (fun i v => point v.position (roleAt? contour i) false none) ++
        [stop] := by
  have hpoints : points ((contour.getLast?.map (·.onCurve)).getD false) contour =
      contour.mapIdx fun i v => point v.position (roleAt? contour i) false none := by
    refine List.ext_getElem? fun i => ?_
    rw [points_eq_zipWith, List.getElem?_zipWith, List.getElem?_mapIdx]
    by_cases hi : i < contour.length
    · obtain ⟨before, hbefore⟩ := exists_before hi
      have hv := List.getElem?_eq_getElem hi
      rw [getElem?_scan hi, hbefore, hv]
      simp only [Option.map_some, roleAt?, hv, hbefore]
    · rw [List.getElem?_eq_none (Nat.le_of_not_lt hi)]
      split
      · contradiction
      · rfl
  rw [ofContour, hpoints]

end PathStep

namespace Stroke

def ofWalk? (walk : List (Vertex Float)) (k : Nat) : Option Stroke :=
  match walk[k]? with
  | none => none
  | some v =>
    let controls := ((walk.take k).rtakeWhile (!·.onCurve)).map (·.position)
    if v.onCurve then
      if controls = [] then if k + 1 = walk.length then none else some (line v.position)
      else some (quadratic controls.toArray (some v.position))
    else none

/-- The strokes through the rest of a walk, where the controls that wait are those before it. -/
theorem segments_eq_filterMap {walk seen rest : List (Vertex Float)}
    {controls : Array (Point Float)} (hwalk : walk = seen ++ rest)
    (hcontrols : controls.toList = (seen.rtakeWhile (!·.onCurve)).map (·.position)) :
    segments controls rest = (List.range' seen.length rest.length).filterMap (ofWalk? walk) := by
  induction rest generalizing seen controls with
  | nil => rfl
  | cons v rest ih =>
    have hseen : walk = (seen ++ [v]) ++ rest := by rw [hwalk, List.append_assoc]; rfl
    have hnext (waiting : Array (Point Float)) :
        waiting.toList = ((seen ++ [v]).rtakeWhile (!·.onCurve)).map (·.position) →
          segments waiting rest =
            (List.range' (seen ++ [v]).length rest.length).filterMap (ofWalk? walk) := ih hseen
    rw [List.length_append, List.length_singleton, List.rtakeWhile_concat] at hnext
    have hv : walk[seen.length]? = some v := by
      rw [hwalk, List.getElem?_append_right (Nat.le_refl _), Nat.sub_self]
      rfl
    have htake : walk.take seen.length = seen := by rw [hwalk, List.take_left]
    have hlast : seen.length + 1 = walk.length ↔ rest = [] := by
      rw [hwalk, List.length_append, List.length_cons, ← List.length_eq_zero_iff]
      omega
    rw [List.length_cons, List.range'_succ, List.filterMap_cons, ofWalk?, hv, segments]
    simp only [htake, ← hcontrols, Array.toList_eq_nil_iff, Array.isEmpty_iff, List.isEmpty_iff,
      hlast, Array.toArray_toList]
    by_cases hcurve : v.onCurve = true
    · rw [if_neg (by simp [hcurve])] at hnext
      have hfresh := hnext #[] rfl
      rw [if_pos hcurve, if_pos hcurve, hfresh]
      split_ifs with hnone hrest
      · rw [hrest]
        rfl
      · rfl
      · rfl
    · rw [if_pos (by simp [hcurve])] at hnext
      rw [if_neg hcurve, if_neg hcurve]
      refine hnext (controls.push v.position) ?_
      rw [Array.toList_push, hcontrols, List.map_append, List.map_singleton]

theorem ofContour_eq {contour : List (Vertex Float)} {first : Nat} {v : Vertex Float}
    (hfirst : contour.findIdx? (·.onCurve) = some first) (hv : contour[first]? = some v) :
    ofContour contour =
      move v.position :: segments #[] (contour.rotate (first + 1)) ++ [close] := by
  obtain ⟨hlt, hindex⟩ := List.findIdx?_eq_some_iff_findIdx_eq.1 hfirst
  rw [findIdx_eq_length_takeWhile] at hindex
  have hsplit : contour.takeWhile (!·.onCurve) ++ contour.dropWhile (!·.onCurve) = contour :=
    List.takeWhile_append_dropWhile
  rw [ofContour, List.span_eq_takeWhile_dropWhile]
  cases honward : contour.dropWhile (!·.onCurve) with
  | nil =>
    rw [honward, List.append_nil] at hsplit
    rw [hsplit] at hindex
    omega
  | cons w rest =>
    rw [honward] at hsplit
    have hw : contour[first]? = some w := by
      rw [← hsplit, List.getElem?_append_right (Nat.le_of_eq hindex), hindex, Nat.sub_self]
      rfl
    obtain rfl : w = v := Option.some.inj (hw.symm.trans hv)
    have hrotate : contour.rotate (first + 1) =
        rest ++ contour.takeWhile (!·.onCurve) ++ [w] := by
      have := List.rotate_append_length_eq (contour.takeWhile (!·.onCurve) ++ [w]) rest
      rw [List.append_assoc, List.singleton_append, hsplit, List.length_append, hindex] at this
      rw [List.append_assoc]
      exact this
    rw [hrotate]

/-- The walk from the first vertex on the curve, index by index. -/
theorem ofWalk?_rotate {contour : List (Vertex Float)} {first k : Nat} {v : Vertex Float}
    (hv : contour[first]? = some v) (hcurve : v.onCurve = true) (hk : k < contour.length) :
    ofWalk? (contour.rotate (first + 1)) k =
      strokeTo? contour first ((k + (first + 1)) % contour.length) := by
  have hfirst : first < contour.length := (List.getElem?_eq_some_iff.1 hv).1
  have hpos := Nat.zero_lt_of_lt hk
  have hindex : (k + (first + 1)) % contour.length < contour.length := Nat.mod_lt _ hpos
  have hw := List.getElem?_eq_getElem hindex
  have hwalk : (contour.rotate (first + 1))[k]? =
      some contour[(k + (first + 1)) % contour.length] := by
    rw [List.getElem?_rotate hk, hw]
  have happroach : approach contour ((k + (first + 1)) % contour.length) =
      ((contour.rotate (first + 1)).take k).rtakeWhile (!·.onCurve) := by
    -- the walk ends where it began, on the curve, so no row of controls goes on beyond its start
    have hlast : ((contour.rotate (first + 1)).drop k).getLast? = some v := by
      rw [List.getLast?_drop, List.length_rotate, if_neg (Nat.not_le_of_lt hk),
        getLast?_rotate_succ hv]
    rw [approach, List.rotate_mod, Nat.add_comm, ← List.rotate_rotate,
      List.rotate_eq_drop_append_take (by rw [List.length_rotate]; omega),
      rtakeWhile_append_of_getLast? hlast (by simp [hcurve])]
  have hclosing : k + 1 = (contour.rotate (first + 1)).length ↔
      (k + (first + 1)) % contour.length = first := by
    rw [List.length_rotate]
    by_cases hwrap : k + (first + 1) < contour.length
    · rw [Nat.mod_eq_of_lt hwrap]
      omega
    · rw [Nat.mod_eq_sub_mod (Nat.le_of_not_lt hwrap), Nat.mod_eq_of_lt (by omega)]
      omega
  rw [ofWalk?, hwalk, strokeTo?, hw, roleAt?_eq hw]
  simp only [← happroach, hclosing, List.map_eq_nil_iff]
  split_ifs <;> rfl

/-- The strokes of a contour follow from the roles of its points. -/
theorem ofContour_eq_filterMap {contour : List (Vertex Float)} {first : Nat} {v : Vertex Float}
    (hfirst : contour.findIdx? (·.onCurve) = some first) (hv : contour[first]? = some v) :
    ofContour contour =
      move v.position ::
        ((List.range contour.length).rotate (first + 1)).filterMap (strokeTo? contour first) ++
        [close] := by
  have hcurve : v.onCurve = true := by
    obtain ⟨hlt, hcurve, -⟩ := List.findIdx?_eq_some_iff_getElem.1 hfirst
    rwa [(List.getElem_eq_iff hlt).2 hv] at hcurve
  have hrange : (List.range contour.length).rotate (first + 1) =
      (List.range contour.length).map fun k => (k + (first + 1)) % contour.length := by
    refine List.ext_getElem (by simp) fun k hk _ => ?_
    rw [List.getElem_rotate, List.getElem_range, List.getElem_map, List.getElem_range,
      List.length_range]
  rw [ofContour_eq hfirst hv, segments_eq_filterMap (List.nil_append _).symm rfl,
    List.length_rotate, hrange, List.filterMap_map, List.length_nil, ← List.range_eq_range']
  refine congrArg (_ :: · ++ _) (List.filterMap_congr fun k hk => ?_)
  exact ofWalk?_rotate hv hcurve (List.mem_range.1 hk)

end Stroke

/-- By points and by strokes, the contour is drawn with the same segments. -/
structure DrawnAlike (contour : List (Vertex Float)) : Prop where
  /-- Each vertex is one step, in the order of the contour. -/
  steps_eq : PathStep.ofContour contour =
    .start :: contour.mapIdx (fun i v => .point v.position (roleAt? contour i) false none) ++
      [.stop]
  role_iff {i : Nat} {v : Vertex Float} (hv : contour[i]? = some v) :
    ∃ before, contour[(i + contour.length - 1) % contour.length]? = some before ∧
      (roleAt? contour i = none ↔ v.onCurve = false) ∧
      (roleAt? contour i = some .quadratic ↔ v.onCurve = true ∧ before.onCurve = false) ∧
      (roleAt? contour i = some .line ↔ v.onCurve = true ∧ before.onCurve = true)
  /-- Once around the cycle from the first vertex on the curve, each point that ends a segment is
  the target of one stroke, but for a line back to where the walk began. -/
  strokes_eq {first : Nat} {v : Vertex Float}
    (hfirst : contour.findIdx? (·.onCurve) = some first) (hv : contour[first]? = some v) :
    Stroke.ofContour contour =
      .move v.position ::
        ((List.range contour.length).rotate (first + 1)).filterMap (strokeTo? contour first) ++
        [.close]
  /-- The controls of a spline are all that stand before its target on the cycle, back to a vertex
  on the curve. -/
  rotate_eq {i : Nat} {v : Vertex Float} (hv : contour[i]? = some v) (hcurve : v.onCurve = true) :
    ∃ front nearest, contour.rotate i = front ++ nearest :: approach contour i ∧
      nearest.onCurve = true ∧ ∀ w ∈ approach contour i, w.onCurve = false

theorem drawnAlike (contour : List (Vertex Float)) : DrawnAlike contour where
  steps_eq := PathStep.ofContour_eq contour
  role_iff {i v} hv := by
    obtain ⟨before, hbefore⟩ := exists_before (List.getElem?_eq_some_iff.1 hv).1
    refine ⟨before, hbefore, ?_⟩
    simp only [roleAt?, hv, hbefore]
    cases v.onCurve <;> cases before.onCurve <;> simp
  strokes_eq hfirst hv := Stroke.ofContour_eq_filterMap hfirst hv
  rotate_eq hv hcurve := exists_rotate_eq hv hcurve

/-- On pens that refuse nothing, an outline is drawn by points and by strokes contour by contour,
and each contour with the same segments both times. -/
theorem Outline.drawn_alike {σ τ : Type} {respond : Responder σ PathStep}
    {respond' : Responder τ Stroke} (hfree : ∀ s c, (respond s c).2 = .ok ())
    (hfree' : ∀ t c, (respond' t c).2 = .ok ()) (o : Outline) (s : σ) (t : τ) :
    (Glyph.simple o).pathSteps.calls respond s =
        (o.contours.flatMap fun c => PathStep.ofContour (c.map Vertex.toDouble)).map .mark ∧
      ((Glyph.simple o).pathSteps.run respond s).2 = .ok () ∧
      (Glyph.simple o).strokes.calls respond' t =
        (o.contours.flatMap fun c => Stroke.ofContour (c.map Vertex.toDouble)).map .mark ∧
      ((Glyph.simple o).strokes.run respond' t).2 = .ok () ∧
      ∀ c ∈ o.contours, DrawnAlike (c.map Vertex.toDouble) := by
  obtain ⟨hsteps, hreply⟩ := Drawing.calls_ofMarks hfree
    (o.contours.flatMap fun c => PathStep.ofContour (c.map Vertex.toDouble)) s
  obtain ⟨hstrokes, hreply'⟩ := Drawing.calls_ofMarks hfree'
    (o.contours.flatMap fun c => Stroke.ofContour (c.map Vertex.toDouble)) t
  exact ⟨hsteps, hreply, hstrokes, hreply', fun c _ => drawnAlike _⟩

open PathStep in
/-- The controls at the two ends of the first contour of `loops` belong to one spline, to its second
vertex. -/
theorem loops_drawn_alike :
    (∀ (calls : Array (Call PathStep)) c, (Drawing.recorder calls c).2 = .ok ()) ∧
      (∀ (calls : Array (Call Stroke)) c, (Drawing.recorder calls c).2 = .ok ()) ∧
      (Glyph.simple loops).pathSteps.calls Drawing.recorder #[] =
        [start, point ⟨9, 9⟩ none false none, point ⟨0, 0⟩ (some .quadratic) false none,
          point ⟨4, 0⟩ (some .line) false none, point ⟨4, 0⟩ none false none, stop,
          start, point ⟨7, 7⟩ (some .line) false none, stop,
          start, point ⟨2, 2⟩ none false none, point ⟨2, 2⟩ none false none, stop].map .mark ∧
      ∀ c ∈ loops.contours, DrawnAlike (c.map Vertex.toDouble) := by
  have hfree : ∀ (calls : Array (Call PathStep)) c, (Drawing.recorder calls c).2 = .ok () :=
    fun _ _ => rfl
  have hfree' : ∀ (calls : Array (Call Stroke)) c, (Drawing.recorder calls c).2 = .ok () :=
    fun _ _ => rfl
  obtain ⟨hsteps, -, -, -, halike⟩ := Outline.drawn_alike hfree hfree' loops #[] #[]
  exact ⟨hfree, hfree', hsteps.trans rfl, halike⟩

end GlyphDrawing
