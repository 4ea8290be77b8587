import GlyphDrawing.Pen.PathPen
import GlyphDrawing.Pen.StrokePen
import GlyphDrawing.Session
import GlyphDrawing.Proofs.Course
import GlyphDrawing.Proofs.Resolution.BreadthFirst
import GlyphDrawing.Proofs.Resolution.Termination
import GlyphDrawing.Proofs.Pen.DrawnContours
import GlyphDrawing.Proofs.Resolution.Agreement
import GlyphDrawing.Proofs.Pen.StrokeHistory
import GlyphDrawing.Proofs.Number.Whole
import GlyphDrawing.Proofs.Pen.Redraw
import GlyphDrawing.Proofs.Pen.RedrawFinished
import GlyphDrawing.Proofs.Pen.PathReuse
import GlyphDrawing.Proofs.Number.Grid
import GlyphDrawing.Proofs.Resolution.Encodable
import GlyphDrawing.Proofs.Pen.RedrawPaths
import GlyphDrawing.Proofs.Drawing.Rest
import GlyphDrawing.Proofs.Pen.Abort
import GlyphDrawing.Proofs.Pen.PathHistory
import GlyphDrawing.Proofs.Drawing.Calls
import GlyphDrawing.Proofs.Pen.AppendOnly
import GlyphDrawing.Proofs.Drawing.OnceAround
import GlyphDrawing.Proofs.Glyph.Stored
import GlyphDrawing.Proofs.Pen.RedrawComposite
import GlyphDrawing.Proofs.Resolution.Arrivals
import GlyphDrawing.Proofs.Drawing.Roles
import GlyphDrawing.Proofs.Glyph.Pieces
import GlyphDrawing.Proofs.Drawing.Stack
import GlyphDrawing.Proofs.Resolution.Parentage
