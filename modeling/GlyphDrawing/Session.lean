import GlyphDrawing.Resolution.Run

/-!
# Sessions

A session is a row of requests to one pen: to draw something, or to finish the glyph. The pen goes
on after a failure, so every request has its answer.
-/

namespace GlyphDrawing

inductive Request (Mark : Type) where
  | draw (d : Drawing Mark)
  | finish (options : Options)

inductive Answer where
  | drawn (reply : Reply)
  | finished (notices : Array Notice) (result : Except DrawError Glyph)

namespace Pen

variable {π Mark : Type} [Pen π Mark] [SMul Affine Mark]

def answer (setting : Setting) (p : π) : Request Mark → π × Answer
  | .draw d =>
    let (p, reply) := draw p d
    (p, .drawn reply)
  | .finish options =>
    let ⟨p, notices, result⟩ := finish setting options p
    (p, .finished notices result)

def session (setting : Setting) (p : π) : List (Request Mark) → π × List Answer
  | [] => (p, [])
  | request :: requests =>
    let (p, first) := answer setting p request
    let (p, answers) := session setting p requests
    (p, first :: answers)

end Pen

def lastGlyph? (answers : List Answer) : Option Glyph :=
  answers.foldl
    (fun last answer =>
      match answer with
      | .finished _ (.ok g) => some g
      | _ => last)
    none

end GlyphDrawing
