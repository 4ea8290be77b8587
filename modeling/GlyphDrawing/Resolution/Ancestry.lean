import GlyphDrawing.Glyph.Component

/-!
# Ancestry

For each pending reference, the earlier one whose decomposition added it. The references that stood
first have no parent. Main statements: adoption shortens no chain of ancestors
(`mem_ancestors_adopt`), and the chain of an adopted reference begins with its parent
(`ancestors_adopt_child`).
-/

namespace GlyphDrawing

abbrev Ancestry := Array (Option Nat)

namespace Ancestry

def ancestors (parents : Ancestry) (i : Nat) : List Nat :=
  match parents[i]?.join with
  | some p => if p < i then p :: parents.ancestors p else []
  | none => []
termination_by i

/-- Gives `parent` to the references from `before` up to `after`, and forgets those from `after`
on. -/
def adopt (parents : Ancestry) (parent before after : Nat) : Ancestry :=
  let known := parents.shrink (min before after)
  known ++ Array.replicate (after - known.size) (some parent)

def isCyclic (parents : Ancestry) (pending : Array Reference) (i : Nat) : Bool :=
  pending[i]?.any fun r => (parents.ancestors i).any fun p => pending[p]?.any (·.name == r.name)

variable {parents : Ancestry} {parent before after : Nat}

theorem lt_of_mem_ancestors {i p : Nat} (h : p ∈ parents.ancestors i) : p < i := by
  induction i using Nat.strongRecOn with
  | ind i ih =>
    rw [ancestors] at h
    generalize parents[i]?.join = q at h
    cases q with
    | none => simp at h
    | some q =>
      by_cases hq : q < i
      · simp only [hq, ↓reduceIte, List.mem_cons] at h
        rcases h with rfl | h
        · exact hq
        · exact Nat.lt_trans (ih q hq h) hq
      · simp [hq] at h

theorem size_adopt : (parents.adopt parent before after).size = after := by
  simp only [adopt, Array.size_append, Array.size_shrink, Array.size_replicate]
  omega

theorem getElem?_adopt_of_lt {i : Nat} (hi : i < before) (ha : i < after) (hp : i < parents.size) :
    (parents.adopt parent before after)[i]? = parents[i]? := by
  have hk : i < min (min before after) parents.size := by omega
  simp only [adopt]
  rw [Array.getElem?_append_left (by rwa [Array.size_shrink]), Array.shrink_eq_take, Array.take,
    Array.getElem?_extract, Nat.sub_zero, Nat.zero_add, if_pos hk]

theorem getElem?_adopt_child {i : Nat} (hi : before ≤ i) (ha : i < after) :
    (parents.adopt parent before after)[i]? = some (some parent) := by
  have hk : (parents.shrink (min before after)).size ≤ i := by
    rw [Array.size_shrink]
    omega
  simp only [adopt]
  rw [Array.getElem?_append_right hk, Array.getElem?_replicate, if_pos (by omega)]

theorem mem_ancestors_adopt {i p : Nat} (h : before ≤ after) (hi : i < before)
    (hp : p ∈ parents.ancestors i) : p ∈ (parents.adopt parent before after).ancestors i := by
  induction i using Nat.strongRecOn with
  | ind i ih =>
    have hs : i < parents.size := by
      false_or_by_contra
      rw [ancestors, Array.getElem?_eq_none (by omega)] at hp
      simp at hp
    rw [ancestors] at hp ⊢
    rw [getElem?_adopt_of_lt hi (by omega) hs]
    generalize parents[i]?.join = q at hp ⊢
    cases q with
    | none => exact hp
    | some q =>
      by_cases hq : q < i
      · simp only [hq, ↓reduceIte, List.mem_cons] at hp ⊢
        exact hp.imp_right (ih q hq (by omega))
      · simp only [hq, ↓reduceIte] at hp ⊢
        exact hp

theorem ancestors_adopt_child {i : Nat} (hp : parent < before) (hi : before ≤ i) (ha : i < after) :
    (parents.adopt parent before after).ancestors i =
      parent :: (parents.adopt parent before after).ancestors parent := by
  rw [ancestors, getElem?_adopt_child hi ha]
  simp only [Option.join_some]
  rw [if_pos (by omega)]

end Ancestry

end GlyphDrawing
