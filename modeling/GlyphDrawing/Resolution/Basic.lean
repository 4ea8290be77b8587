import GlyphDrawing.Pen.Growth
import GlyphDrawing.Resolution.Notice
import GlyphDrawing.Resolution.Potential

/-!
# Resolving references

Before a glyph is finished, the pending references of its pen are resolved from the first to the
last. A glyph cannot have points and components at once: with points on the pen, or with a
transform that cannot be stored, each referenced glyph is drawn on the pen, and what it adds to the
pending references is resolved in turn. Otherwise the references become components. Each step
lowers the potential (`potential_step_lt`), so the walk ends.
-/

namespace GlyphDrawing

structure Job where
  repertoire : Repertoire
  /-- Entries of transforms are made to fit their stored form. -/
  fit : Bool
  /-- The options of every kept component. -/
  options : Options
  /-- Some transform that was pending at the start cannot be made to fit. -/
  overflowing : Bool

structure Resolution (π : Type) where
  pen : π
  parents : Ancestry
  /-- The index of the reference to be resolved next. -/
  next : Nat
  kept : Array Component
  notices : Array Notice

namespace Resolution

variable {π Mark : Type} [Pen π Mark]

def start (p : π) : Resolution π :=
  ⟨p, Array.replicate (Pen.pending p).size none, 0, #[], #[]⟩

def skip (a : Resolution π) (notice : Notice) : Resolution π :=
  { a with next := a.next + 1, notices := a.notices.push notice }

def keep (job : Job) (a : Resolution π) (r : Reference) : Resolution π :=
  { a with
    next := a.next + 1
    kept := a.kept.push (.ofReference job.fit job.options r)
    notices :=
      if r.placement.linear.clamps job.fit then
        a.notices.push (.clamping r.placement.linear.snap)
      else a.notices }

def decompose [SMul Affine Mark] (a : Resolution π) (source : Source) (r : Reference) :
    Resolution π × Reply :=
  let ⟨pen, parents, next, kept, notices⟩ := a
  let before := (Pen.pending pen).size
  let (pen, reply) := Pen.draw pen (.through r.placement (Pen.script π source))
  let parents := parents.adopt next before (Pen.pending pen).size
  (⟨pen, parents, next + 1, kept, notices.push (.decomposing r.name)⟩, reply)

def step [SMul Affine Mark] (job : Job) (a : Resolution π) (r : Reference) : Resolution π × Reply :=
  match job.repertoire[r.name]? with
  | none => (a.skip (.missing r.name), .ok ())
  | some source =>
    if !(Pen.sketch a.pen).vertices.isEmpty || job.overflowing then
      if a.parents.isCyclic (Pen.pending a.pen) a.next then
        (a.skip (.selfReference r.name), .ok ())
      else a.decompose source r
    else (a.keep job r, .ok ())

/-- At least as many components as any member of the repertoire can place. -/
def width (π : Type) {Mark : Type} [Pen π Mark] (repertoire : Repertoire) : Nat :=
  repertoire.toList.foldr (fun member n => (Pen.script π member.2).placements + n) 0

def potential (job : Job) (a : Resolution π) : Nat :=
  a.parents.potential (width π job.repertoire) job.repertoire.keys (Pen.pending a.pen) a.next

theorem placements_le_width {repertoire : Repertoire} {name : String} {source : Source}
    (h : repertoire[name]? = some source) :
    (Pen.script π source).placements ≤ width π repertoire := by
  have hmem := Std.TreeMap.mem_toList_iff_getElem?_eq_some.2 h
  unfold width
  generalize repertoire.toList = members at hmem
  induction members with
  | nil => simp at hmem
  | cons member members ih =>
    simp only [List.foldr_cons]
    rcases List.mem_cons.1 hmem with rfl | hmem
    · exact Nat.le_add_right _ _
    · exact Nat.le_trans (ih hmem) (Nat.le_add_left _ _)

theorem potential_step_lt [SMul Affine Mark] {job : Job} {a b : Resolution π} {r : Reference}
    (hr : (Pen.pending a.pen)[a.next]? = some r) (hb : a.step job r = (b, .ok ())) :
    b.potential job < a.potential job := by
  have hnext : a.next < (Pen.pending a.pen).size := (Array.getElem?_eq_some_iff.1 hr).1
  unfold step at hb
  split at hb
  · obtain ⟨rfl, -⟩ := Prod.mk.inj hb
    exact Ancestry.potential_succ_lt hnext
  · rename_i source hsource
    split at hb
    · split at hb
      · obtain ⟨rfl, -⟩ := Prod.mk.inj hb
        exact Ancestry.potential_succ_lt hnext
      · rename_i hcyclic
        have hname : r.name ∈ job.repertoire.keys := by
          rw [Std.TreeMap.mem_keys, Std.TreeMap.mem_iff_isSome_getElem?, hsource]
          rfl
        have hwidth : (Pen.script π source).placements ≤ width π job.repertoire :=
          placements_le_width hsource
        have hgrown := (Pen.grown_draw a.pen (.through r.placement (Pen.script π source))).mono
          hwidth
        obtain ⟨rfl, -⟩ := Prod.mk.inj hb
        rcases hgrown with ⟨added, hpending, hadded⟩ | hsize
        · have := Ancestry.potential_adopt_lt hr hname (by simpa using hcyclic) hadded
          rw [← hpending] at this
          exact this
        · exact Ancestry.potential_of_size_le_lt hnext hsize
    · obtain ⟨rfl, -⟩ := Prod.mk.inj hb
      exact Ancestry.potential_succ_lt hnext

end Resolution

end GlyphDrawing
