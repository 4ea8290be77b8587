import GlyphDrawing.Resolution.Basic

/-!
# Running a resolution

A resolution runs until no reference is pending or a drawing fails. A pen without obstacle is then
finished: it gives the kept components if there are any, and the drawn outline otherwise.
-/

namespace GlyphDrawing

variable {π Mark : Type} [Pen π Mark] [SMul Affine Mark]

/-- Resolves what is pending, up to the first drawing that fails. -/
def Resolution.run (job : Job) (a : Resolution π) : Resolution π × Reply :=
  match _hr : (Pen.pending a.pen)[a.next]? with
  | none => (a, .ok ())
  | some r =>
    match _hb : a.step job r with
    | (b, .ok ()) => run job b
    | (b, .error e) => (b, .error e)
termination_by a.potential job
decreasing_by exact potential_step_lt _hr _hb

structure Setting where
  repertoire : Repertoire
  /-- A glyph with a transform that cannot be stored is decomposed, and entries just above the
  largest storable number become that number. Without it all transforms are kept as they are. -/
  fit : Bool := true

structure Finished (π : Type) where
  pen : π
  notices : Array Notice
  result : Except DrawError Glyph

namespace Pen

def job (setting : Setting) (options : Options) (p : π) : Job where
  repertoire := setting.repertoire
  fit := setting.fit
  options := options
  overflowing := setting.fit && (pending p).any (·.placement.linear.overflows)

/-- Finishes the glyph. The sketch is gone afterwards, whatever the result. -/
def finish (setting : Setting) (options : Options) (p : π) : Finished π :=
  match obstacle? p with
  | some e => ⟨empty, #[], .error e⟩
  | none =>
    let (a, reply) := (Resolution.start p).run (job setting options p)
    let glyph :=
      if a.kept.isEmpty then .simple (sketch a.pen).outline else .composite a.kept
    ⟨clear a.pen, a.notices, reply.map fun _ => glyph⟩

end Pen

end GlyphDrawing
