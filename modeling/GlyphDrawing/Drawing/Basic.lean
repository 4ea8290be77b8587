import GlyphDrawing.Glyph.Component

/-!
# Drawings

A drawing is a finite program of calls to a pen. It may go on after a failed part, branch on
whether a part failed, and send a part through an affine map. `Mark` is the vocabulary of a
protocol: what can be asked of a pen besides placing another glyph.
-/

namespace GlyphDrawing

inductive Call (Mark : Type) where
  | mark (m : Mark)
  | component (r : Reference)
  deriving BEq, DecidableEq, Repr, Inhabited

inductive Drawing (Mark : Type) where
  | done
  | fail (error : DrawError)
  | call (c : Call Mark)
  /-- Draws `second` unless `first` fails. -/
  | andThen (first second : Drawing Mark)
  /-- Goes on with `onSuccess` or `onFailure`, by the outcome of `trial`. -/
  | attempt (trial onSuccess onFailure : Drawing Mark)
  /-- Draws `inner` with every call mapped by `a`. -/
  | through (a : Affine) (inner : Drawing Mark)
  deriving Inhabited

/-- A pen with states `σ`: the next state and the reply to a call. -/
abbrev Responder (σ Mark : Type) := σ → Call Mark → σ × Reply

instance : SMul Affine Reference := ⟨fun a r => ⟨r.name, a * r.placement⟩⟩

namespace Call

variable {Mark : Type}

def placed? : Call Mark → Option Reference
  | mark _ => none
  | component r => some r

def transform [SMul Affine Mark] (a : Affine) : Call Mark → Call Mark
  | mark m => mark (a • m)
  | component r => component (a • r)

instance [SMul Affine Mark] : SMul Affine (Call Mark) := ⟨transform⟩

end Call

namespace Drawing

variable {σ Mark : Type}

def inOrder (drawings : List (Drawing Mark)) : Drawing Mark :=
  drawings.foldr andThen done

def ignoringFailure (d : Drawing Mark) : Drawing Mark :=
  attempt d done done

def ofMarks (marks : List Mark) : Drawing Mark :=
  inOrder (marks.map fun m => call (.mark m))

def ofReferences (references : List Reference) : Drawing Mark :=
  inOrder (references.map fun r => call (.component r))

/-- At least as many components as the drawing can place. -/
def placements : Drawing Mark → Nat
  | done | fail _ | call (.mark _) => 0
  | call (.component _) => 1
  | andThen first second => first.placements + second.placements
  | attempt trial onSuccess onFailure =>
    trial.placements + max onSuccess.placements onFailure.placements
  | through _ inner => inner.placements

variable [SMul Affine Mark]

/-- Draws on a pen. A failed drawing leaves the pen as the failed call left it. -/
def run (respond : Responder σ Mark) : Drawing Mark → σ → σ × Reply
  | done, s => (s, .ok ())
  | fail error, s => (s, .error error)
  | call c, s => respond s c
  | andThen first second, s =>
    match run respond first s with
    | (s, .ok ()) => run respond second s
    | (s, .error error) => (s, .error error)
  | attempt trial onSuccess onFailure, s =>
    match run respond trial s with
    | (s, .ok ()) => run respond onSuccess s
    | (s, .error _) => run respond onFailure s
  | through a inner, s => run (fun s c => respond s (a • c)) inner s

def recorder : Responder (Array (Call Mark)) Mark :=
  fun calls c => (calls.push c, .ok ())

def record (d : Drawing Mark) : Array (Call Mark) × Reply :=
  d.run recorder #[]

end Drawing

end GlyphDrawing
