import GlyphDrawing.Pen.Basic
import GlyphDrawing.Proofs.Drawing.Refusal

/-!
# Properties of all members

A drawing that succeeds may still have gone on after a refused call, and a refused call empties the
pen. In a repertoire whose members end with the first refusal that they meet this does not happen:
a member that is drawn without error was accepted call by call.
-/

namespace GlyphDrawing

namespace Repertoire

variable {repertoire : Repertoire} {P Q : Source → Prop}

def All (P : Source → Prop) (repertoire : Repertoire) : Prop :=
  ∀ (name : String) (source : Source), repertoire[name]? = some source → P source

theorem all_empty (P : Source → Prop) : (∅ : Repertoire).All P := by
  intro name source h
  rw [Std.TreeMap.getElem?_emptyc] at h
  cases h

theorem All.insert (h : repertoire.All P) (name : String) {source : Source} (hs : P source) :
    Repertoire.All P (repertoire.insert name source) := by
  intro other source' h'
  rw [Std.TreeMap.getElem?_insert] at h'
  split at h'
  · exact Option.some.inj h' ▸ hs
  · exact h other source' h'

theorem All.mono (h : repertoire.All P) (hPQ : ∀ source, P source → Q source) :
    repertoire.All Q :=
  fun name source hsource => hPQ source (h name source hsource)

def OfGlyphs (repertoire : Repertoire) : Prop :=
  repertoire.All fun source => ∃ g, source = .glyph g

/-- Every member, wherever it is drawn on this pen, ends with the first refusal that it meets. -/
def Forwards (π : Type) {Mark : Type} [Pen π Mark] [SMul Affine Mark] (repertoire : Repertoire) :
    Prop :=
  repertoire.All fun source => ∀ (a : Affine) (p : π) (e : DrawError),
    (Drawing.through a (Pen.script π source)).refusal? Pen.respond p = some e →
      (Pen.draw p (.through a (Pen.script π source))).2 = .error e

theorem forwards_of_scripts {π Mark : Type} [Pen π Mark] [SMul Affine Mark]
    (h : repertoire.All fun source => (Pen.script π source).Forwards) : repertoire.Forwards π :=
  h.mono fun _ hscript a p e he => hscript.through a Pen.respond p e he

end Repertoire

end GlyphDrawing
