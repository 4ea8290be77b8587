import GlyphDrawing.Geometry
import GlyphDrawing.Number.Decimal

/-!
# Notices

What the resolution of references reports beside its result, in the order in which it happened.
-/

namespace GlyphDrawing

inductive Level where
  | debug
  | warning
  deriving BEq, DecidableEq, Repr, Inhabited

inductive Notice where
  /-- No member of the repertoire has this name. -/
  | missing (name : String)
  /-- The reference lies inside the glyph that it names. -/
  | selfReference (name : String)
  /-- The glyph is drawn in place of a component. -/
  | decomposing (name : String)
  /-- Some entry of a kept component's map `l` is just too large to be stored. -/
  | clamping (l : Linear Float)
  deriving BEq, DecidableEq, Repr, Inhabited

def Linear.dump (l : Linear Float) : String :=
  "ComponentTransform \x7b xx: " ++ dumpText l.xx ++ ", xy: " ++ dumpText l.xy ++ ", yx: " ++
    dumpText l.yx ++ ", yy: " ++ dumpText l.yy ++ " \x7d"

namespace Notice

def level : Notice → Level
  | missing _ | selfReference _ => .warning
  | decomposing _ | clamping _ => .debug

def message : Notice → String
  | missing name => "skipped non-existing component '" ++ name ++ "'"
  | selfReference name => "skipped component '" ++ name ++ "' that references itself"
  | decomposing name => "decomposing component '" ++ name ++ "'"
  | clamping l => "clamping transform values close to +2.0 in " ++ l.dump

end Notice

end GlyphDrawing
