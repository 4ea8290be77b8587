import Mathlib.Data.List.Nodup
import GlyphDrawing.Proofs.Pen.DrawnGlyph

/-!
# The forest of references

The pending references of a pen are the roots of a forest. The components of the glyph that a node
names are its children, each placed where the node and the component place it. A node whose name
is missing, or stands on the way to the node, has no children and no contours. The names on a way
differ, so the forest has no more levels below its roots than the repertoire has names
(`level_eq_nil`), and a row of nodes that consists of the roots and then of the children of its own
nodes, in their order, is the forest in breadth-first order (`eq_breadthFirst`).
-/

namespace GlyphDrawing

structure Node where
  name : String
  placement : Affine
  /-- The names of the nodes above, from the nearest on. -/
  lineage : List String

namespace Node

def reference (n : Node) : Reference :=
  ⟨n.name, n.placement⟩

/-- What is drawn at the node, if its name is neither missing nor that of a node above. -/
def source? (repertoire : Repertoire) (n : Node) : Option Source :=
  if n.name ∈ n.lineage then none else repertoire[n.name]?

def children (repertoire : Repertoire) (n : Node) : List Node :=
  match n.source? repertoire with
  | some (.glyph (.composite components)) =>
    components.toList.map fun c => ⟨c.name, n.placement * c.placement, n.name :: n.lineage⟩
  | _ => []

def contours (π : Type) {Mark : Type} [SMul Affine Mark] [OutlinePen π Mark]
    (repertoire : Repertoire) (n : Node) : List (List (Vertex Float)) :=
  match n.source? repertoire with
  | some source => OutlinePen.drawnContours π source n.placement
  | none => []

variable {repertoire : Repertoire} {n m : Node}

theorem children_of_source {g : Glyph} (h : n.source? repertoire = some (.glyph g)) :
    (n.children repertoire).map reference = g.references.map (n.placement • ·) := by
  rw [children, h]
  cases g with
  | simple outline => rfl
  | composite components =>
    rw [Glyph.references, List.map_map, List.map_map]
    rfl

theorem children_of_none (h : n.source? repertoire = none) : n.children repertoire = [] := by
  rw [children, h]

theorem contours_of_source {π Mark : Type} [SMul Affine Mark] [OutlinePen π Mark] {source : Source}
    (h : n.source? repertoire = some source) :
    n.contours π repertoire = OutlinePen.drawnContours π source n.placement := by
  rw [contours, h]

theorem contours_of_none (π : Type) {Mark : Type} [SMul Affine Mark] [OutlinePen π Mark]
    (h : n.source? repertoire = none) : n.contours π repertoire = [] := by
  rw [contours, h]

theorem lineage_of_mem_children (h : m ∈ n.children repertoire) :
    m.lineage = n.name :: n.lineage := by
  unfold children at h
  split at h
  · obtain ⟨c, -, rfl⟩ := List.mem_map.1 h
    rfl
  · cases h

theorem source_of_mem_children (h : m ∈ n.children repertoire) :
    n.name ∉ n.lineage ∧ n.name ∈ repertoire.keys := by
  unfold children source? at h
  split at h
  · rename_i components hsource
    split at hsource
    · cases hsource
    · rename_i hname
      refine ⟨hname, ?_⟩
      rw [Std.TreeMap.mem_keys, Std.TreeMap.mem_iff_isSome_getElem?]
      exact Option.isSome_of_eq_some hsource
  · cases h

end Node

def roots (references : List Reference) : List Node :=
  references.map fun r => ⟨r.name, r.placement, []⟩

def level (repertoire : Repertoire) (roots : List Node) : Nat → List Node
  | 0 => roots
  | k + 1 => (level repertoire roots k).flatMap (Node.children repertoire)

def breadthFirst (repertoire : Repertoire) (roots : List Node) : List Node :=
  (List.range (repertoire.size + 1)).flatMap (level repertoire roots)

section Levels

variable {repertoire : Repertoire} {references : List Reference} {nodes : List Node} {k : Nat}

theorem lineage_of_mem_level {n : Node} (h : n ∈ level repertoire (roots references) k) :
    n.lineage.length = k ∧ n.lineage.Nodup ∧ n.lineage ⊆ repertoire.keys := by
  induction k generalizing n with
  | zero =>
    obtain ⟨r, -, rfl⟩ := List.mem_map.1 h
    simp
  | succ k ih =>
    obtain ⟨parent, hparent, hchild⟩ := List.mem_flatMap.1 h
    obtain ⟨hlength, hnodup, hsubset⟩ := ih hparent
    obtain ⟨hname, hkey⟩ := Node.source_of_mem_children hchild
    rw [Node.lineage_of_mem_children hchild]
    exact ⟨by simp [hlength], List.nodup_cons.2 ⟨hname, hnodup⟩, List.cons_subset.2 ⟨hkey, hsubset⟩⟩

/-- No node is further below the roots than there are names. -/
theorem level_eq_nil (references : List Reference) (hk : repertoire.size < k) :
    level repertoire (roots references) k = [] := by
  refine List.eq_nil_iff_forall_not_mem.2 fun n hn => ?_
  obtain ⟨hlength, hnodup, hsubset⟩ := lineage_of_mem_level hn
  have hle := hnodup.length_le_of_subset hsubset
  rw [Std.TreeMap.length_keys] at hle
  omega

/-- A finite row of nodes does not consist of the children of its own nodes. -/
theorem eq_nil_of_eq_flatMap_children (h : nodes = nodes.flatMap (Node.children repertoire)) :
    nodes = [] := by
  have hlineage : ∀ k, ∀ n ∈ nodes, k ≤ n.lineage.length := by
    intro k
    induction k with
    | zero => exact fun n _ => Nat.zero_le _
    | succ k ih =>
      intro n hn
      rw [h] at hn
      obtain ⟨parent, hparent, hchild⟩ := List.mem_flatMap.1 hn
      rw [Node.lineage_of_mem_children hchild, List.length_cons]
      exact Nat.succ_le_succ (ih parent hparent)
  refine List.eq_nil_iff_forall_not_mem.2 fun n hn => ?_
  have := hlineage (n.lineage.length + 1) n hn
  omega

/-- What follows the first levels in such a row is of the same form. -/
theorem exists_rest_of_levels
    (h : nodes = roots references ++ nodes.flatMap (Node.children repertoire)) (k : Nat) :
    ∃ rest, nodes = (List.range k).flatMap (level repertoire (roots references)) ++ rest ∧
      rest = level repertoire (roots references) k ++ rest.flatMap (Node.children repertoire) := by
  induction k with
  | zero => exact ⟨nodes, rfl, h⟩
  | succ k ih =>
    obtain ⟨rest, hnodes, hrest⟩ := ih
    refine ⟨rest.flatMap (Node.children repertoire), ?_, ?_⟩
    · rw [List.range_succ, List.flatMap_append, List.flatMap_singleton, List.append_assoc, ← hrest]
      exact hnodes
    · rw [level, ← List.flatMap_append, ← hrest]

theorem eq_breadthFirst
    (h : nodes = roots references ++ nodes.flatMap (Node.children repertoire)) :
    nodes = breadthFirst repertoire (roots references) := by
  obtain ⟨rest, hnodes, hrest⟩ := exists_rest_of_levels h (repertoire.size + 1)
  rw [level_eq_nil references (Nat.lt_succ_self _), List.nil_append] at hrest
  rw [eq_nil_of_eq_flatMap_children hrest, List.append_nil] at hnodes
  exact hnodes

end Levels

end GlyphDrawing
