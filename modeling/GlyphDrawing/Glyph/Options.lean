/-!
# Component options

The five choices that an author makes for a component, and the sixteen-bit word that stores them.
The other bits of that word depend on the stored form alone and are ignored.
-/

namespace GlyphDrawing

structure Options where
  /-- The offset is rounded to the nearest grid line. -/
  roundsOffset : Bool := true
  /-- The component's advance and side bearing stand for the whole glyph. -/
  givesMetrics : Bool := false
  /-- The offset is scaled by the component's transform. -/
  scalesOffset : Bool := false
  /-- The offset is left unscaled. -/
  keepsOffset : Bool := false
  /-- The components of the glyph overlap. -/
  overlaps : Bool := false
  deriving BEq, DecidableEq, Repr, Inhabited

namespace Options

def unset : Options :=
  ⟨false, false, false, false, false⟩

def roundsOffsetBit : UInt16 := 0x0004
def givesMetricsBit : UInt16 := 0x0200
def overlapsBit : UInt16 := 0x0400
def scalesOffsetBit : UInt16 := 0x0800
def keepsOffsetBit : UInt16 := 0x1000

def bits (o : Options) : UInt16 :=
  (if o.roundsOffset then roundsOffsetBit else 0) |||
  (if o.givesMetrics then givesMetricsBit else 0) |||
  (if o.overlaps then overlapsBit else 0) |||
  (if o.scalesOffset then scalesOffsetBit else 0) |||
  (if o.keepsOffset then keepsOffsetBit else 0)

def ofBits (word : UInt16) : Options where
  roundsOffset := word &&& roundsOffsetBit != 0
  givesMetrics := word &&& givesMetricsBit != 0
  scalesOffset := word &&& scalesOffsetBit != 0
  keepsOffset := word &&& keepsOffsetBit != 0
  overlaps := word &&& overlapsBit != 0

end Options

end GlyphDrawing
