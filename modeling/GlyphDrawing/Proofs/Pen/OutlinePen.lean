import GlyphDrawing.Proofs.Drawing.Refusal
import GlyphDrawing.Proofs.Sketch.Append
import GlyphDrawing.Proofs.Sketch.Contours
import GlyphDrawing.Session

/-!
# Pens that draw outlines

An outline pen is a glyph pen whose marks act on the open run alone: they leave the closed contours
as they are and do not see them. Hence a drawing that meets no refusal does the same on a pen with
closed contours as on one without (`draw_append`), and contours that are closed stay until a call
is refused (`traces_draw`).
-/

namespace GlyphDrawing

namespace Pen

variable {π Mark : Type} [Pen π Mark] {p q r : π} {marks more : List Mark}

def Accepts (p : π) : List Mark → π → Prop
  | [], q => q = p
  | m :: marks, q => ∃ p', Pen.mark p m = (p', .ok ()) ∧ Accepts p' marks q

theorem Accepts.append (h : Accepts p marks q) (h' : Accepts q more r) :
    Accepts p (marks ++ more) r := by
  induction marks generalizing p with
  | nil => exact h ▸ h'
  | cons m marks ih =>
    obtain ⟨p', hm, hp'⟩ := h
    exact ⟨p', hm, ih hp'⟩

/-- What every accepted mark keeps is kept by a row of them. -/
theorem Accepts.invariant {P : π → Prop} (h : Accepts p marks q)
    (hmark : ∀ p m q, P p → Pen.mark p m = (q, .ok ()) → P q) (hp : P p) : P q := by
  induction marks generalizing p with
  | nil =>
    obtain rfl : q = p := h
    exact hp
  | cons m marks ih =>
    obtain ⟨p', hm, hp'⟩ := h
    exact ih hp' (hmark p m p' hp hm)

theorem Accepts.pending_eq (h : Accepts p marks q) : pending q = pending p :=
  h.invariant (P := fun q => pending q = pending p)
    (fun _ _ _ hp hm => (pending_mark hm).trans hp) rfl

end Pen

class OutlinePen (π : Type) (Mark : outParam Type) [SMul Affine Mark] extends Pen π Mark where
  /-- The sketch reads as `contours` and `run`, and the rest of the pen fits the run. -/
  Traces : π → List (List (Vertex Float)) → List (Vertex Float) → Prop
  ofContour : List (Vertex Float) → List Mark
  script_glyph (g : Glyph) : script (.glyph g) = g.drawing ofContour
  mapSketch_mapSketch (f g : Sketch → Sketch) (p : π) :
    mapSketch f (mapSketch g p) = mapSketch (f ∘ g) p
  reads_of_traces {p : π} {contours : List (List (Vertex Float))} {run : List (Vertex Float)}
    (h : Traces p contours run) : (sketch p).Reads contours run
  traces_empty : Traces empty [] []
  traces_mapSketch {p : π} {f : Sketch → Sketch} {contours contours' : List (List (Vertex Float))}
    {run run' : List (Vertex Float)} (h : Traces p contours run)
    (hf : (f (sketch p)).Reads contours' run') (hrun : run' = run ∨ run' = []) :
    Traces (mapSketch f p) contours' run'
  traces_mark {p q : π} {m : Mark} {contours : List (List (Vertex Float))}
    {run : List (Vertex Float)} (h : Traces p contours run) (hm : mark p m = (q, .ok ())) :
    ∃ more run', Traces q (contours ++ more) run'
  mark_append {p q : π} {m : Mark} {base : Sketch} {earlier contours : List (List (Vertex Float))}
    {run : List (Vertex Float)} (hb : base.Reads earlier []) (h : Traces p contours run)
    (hm : mark p m = (q, .ok ())) :
    mark (mapSketch (base ++ ·) p) m = (mapSketch (base ++ ·) q, .ok ())
  obstacle?_mapSketch {p : π} {f : Sketch → Sketch}
    {contours contours' : List (List (Vertex Float))} {run : List (Vertex Float)}
    (h : Traces p contours run) (hf : (f (sketch p)).Reads contours' run) :
    obstacle? (mapSketch f p) = obstacle? p
  run_eq_nil {p : π} {contours : List (List (Vertex Float))} {run : List (Vertex Float)}
    (h : Traces p contours run) (ho : obstacle? p = none) : run = []
  obstacle?_empty : obstacle? empty = none
  /-- A pen that nothing obstructs is as new but for its sketch. -/
  mapSketch_of_obstacle {p : π} (f : Sketch → Sketch) (ho : obstacle? p = none) :
    mapSketch f p = mapSketch (fun _ => f (sketch p)) empty
  mapSketch_id (p : π) : mapSketch id p = p
  accepts_ofContour {p : π} {contours : List (List (Vertex Float))} (h : Traces p contours [])
    (ho : obstacle? p = none) (a : Affine) (contour : List (Vertex Float)) :
    ∃ q, Pen.Accepts p ((ofContour contour).map (a • ·)) q ∧ obstacle? q = none

namespace OutlinePen

open Pen

variable {π Mark : Type} [SMul Affine Mark] [OutlinePen π Mark] {p q : π}
  {contours earlier : List (List (Vertex Float))} {run : List (Vertex Float)} {d : Drawing Mark}

theorem traces_addReference (h : Traces p contours run) (r : Reference) :
    Traces (addReference p r) contours run :=
  traces_mapSketch h ((reads_of_traces h).addReference r) (.inl rfl)

theorem traces_clear (h : Traces p contours run) : Traces (clear p) [] [] :=
  traces_mapSketch h Sketch.reads_empty (.inr rfl)

theorem traces_respond {c : Call Mark} (h : Traces p contours run)
    (hc : (respond p c).2 = .ok ()) :
    ∃ more run', Traces (respond p c).1 (contours ++ more) run' := by
  cases c with
  | component r =>
    refine ⟨[], run, ?_⟩
    rw [List.append_nil]
    exact traces_addReference h r
  | mark m => exact traces_mark h (Prod.ext rfl hc)

theorem exists_traces_trans {more : List (List (Vertex Float))}
    (h : ∃ last run', Traces q (contours ++ more ++ last) run') :
    ∃ more run', Traces q (contours ++ more) run' := by
  obtain ⟨last, run', h⟩ := h
  exact ⟨more ++ last, run', by rwa [← List.append_assoc]⟩

theorem traces_accepts {marks : List Mark} (h : Traces p contours run) (hq : Accepts p marks q) :
    ∃ more run', Traces q (contours ++ more) run' := by
  refine hq.invariant (P := fun q : π => ∃ more run', Traces q (contours ++ more) run')
    (fun p m q hp hm => ?_) ⟨[], run, by rwa [List.append_nil]⟩
  obtain ⟨more, run', hp⟩ := hp
  exact exists_traces_trans (traces_mark hp hm)

/-- Closed contours stay through every drawing that meets no refusal. -/
theorem traces_draw (h : Traces p contours run) (hd : d.refusal? respond p = none) :
    ∃ more run', Traces (draw p d).1 (contours ++ more) run' := by
  refine Drawing.run_invariant_of_calm
    (P := fun q : π => ∃ more run', Traces q (contours ++ more) run')
    (fun q c hq hc => ?_) ⟨[], run, by rwa [List.append_nil]⟩ hd
  obtain ⟨more, run', hq⟩ := hq
  exact exists_traces_trans (traces_respond hq hc)

/-- Every drawing, also one that meets refusals, leaves contours and a run. -/
theorem exists_traces_draw (h : ∃ contours run, Traces p contours run) (d : Drawing Mark) :
    ∃ contours run, Traces (draw p d).1 contours run := by
  refine d.run_invariant (P := fun q : π => ∃ contours run, Traces q contours run)
    (fun q c ⟨contours, run, hq⟩ => ?_) h
  match hc : respond q c with
  | (q', .ok ()) =>
    obtain ⟨more, run', hq'⟩ := traces_respond hq (congrArg Prod.snd hc)
    rw [hc] at hq'
    exact ⟨_, _, hq'⟩
  | (q', .error e) =>
    cases c with
    | component r => cases congrArg Prod.snd hc
    | mark m =>
      rw [eq_empty_of_mark hc]
      exact ⟨[], [], traces_empty⟩

theorem addReference_append (base : Sketch) (p : π) (r : Reference) :
    addReference (mapSketch (base ++ ·) p) r = mapSketch (base ++ ·) (addReference p r) := by
  rw [addReference, addReference, mapSketch_mapSketch, mapSketch_mapSketch]
  congr 1
  funext s
  exact Sketch.append_addReference base s r

theorem respond_append {base : Sketch} {c : Call Mark} (hb : base.Reads earlier [])
    (h : Traces p contours run) (hc : (respond p c).2 = .ok ()) :
    respond (mapSketch (base ++ ·) p) c = (mapSketch (base ++ ·) (respond p c).1, .ok ()) := by
  cases c with
  | component r => exact Prod.ext (addReference_append base p r) rfl
  | mark m => exact mark_append hb h (Prod.ext rfl hc)

/-- What is drawn does not see the closed contours and pending references that stand before it. -/
theorem draw_append {base : Sketch} (hb : base.Reads earlier []) (h : Traces p contours run)
    (hd : d.refusal? respond p = none) :
    draw (mapSketch (base ++ ·) p) d = (mapSketch (base ++ ·) (draw p d).1, (draw p d).2) := by
  let R (p q : π) : Prop :=
    q = mapSketch (base ++ ·) p ∧ ∃ contours run, Traces p contours run
  have hcall : ∀ (p q : π) (c : Call Mark), R p q → (respond p c).2 = .ok () →
      R (respond p c).1 (respond q c).1 ∧ (respond q c).2 = .ok () := by
    rintro p _ c ⟨rfl, contours, run, hp⟩ hc
    rw [respond_append hb hp hc]
    obtain ⟨more, run', hp'⟩ := traces_respond hp hc
    exact ⟨⟨rfl, _, _, hp'⟩, rfl⟩
  obtain ⟨⟨hpen, -⟩, hreply⟩ := d.run_related hcall ⟨rfl, contours, run, h⟩ hd
  exact Prod.ext hpen hreply

/-- A pen that nothing obstructs is a new one with its sketch put before. -/
theorem eq_append_empty (ho : obstacle? p = none) : mapSketch (sketch p ++ ·) empty = p := by
  rw [mapSketch_of_obstacle _ obstacle?_empty, sketch_empty, Sketch.append_empty]
  exact (mapSketch_of_obstacle id ho).symm.trans (mapSketch_id p)

end OutlinePen

end GlyphDrawing
