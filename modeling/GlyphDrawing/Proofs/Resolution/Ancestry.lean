import Mathlib.Tactic.SplitIfs
import GlyphDrawing.Resolution.Ancestry

/-!
# Parents that stand before their children

While every reference stands after its parent, the way up from a reference is finite without any
further check, and `ancestors` lists all of it (`getElem?_ancestors`). Adoption by an earlier
reference keeps this order and every way that it finds (`ancestors_adopt_of_lt`).
-/

namespace GlyphDrawing.Ancestry

variable {parents parents' : Ancestry} {parent before after : Nat}

def Descending (parents : Ancestry) : Prop :=
  ∀ i p : Nat, parents[i]?.join = some p → p < i

/-- The index reached from `i` by `n` steps from child to parent; none if the way ends before. -/
def walk (parents : Ancestry) : Nat → Nat → Option Nat
  | 0, i => some i
  | n + 1, i => parents[i]?.join.bind (parents.walk n)

theorem descending_replicate (n : Nat) : Descending (Array.replicate n none) := by
  intro i p h
  rw [Array.getElem?_replicate] at h
  split at h <;> cases h

theorem getElem?_adopt_of_le {i : Nat} (hi : after ≤ i) :
    (parents.adopt parent before after)[i]? = none :=
  Array.getElem?_eq_none (by rw [size_adopt]; exact hi)

theorem getElem?_adopt {i : Nat} (hsize : parents.size = before) :
    (parents.adopt parent before after)[i]? =
      if i < after then if i < before then parents[i]? else some (some parent) else none := by
  by_cases ha : i < after
  · rw [if_pos ha]
    by_cases hb : i < before
    · rw [if_pos hb, getElem?_adopt_of_lt hb ha (by omega)]
    · rw [if_neg hb]
      exact getElem?_adopt_child (Nat.le_of_not_lt hb) ha
  · rw [if_neg ha]
    exact getElem?_adopt_of_le (Nat.le_of_not_lt ha)

theorem Descending.adopt (h : parents.Descending) (hsize : parents.size = before)
    (hp : parent < before) : (parents.adopt parent before after).Descending := by
  intro i p hi
  rw [getElem?_adopt hsize] at hi
  split_ifs at hi with ha hb
  · exact h i p hi
  · obtain rfl : parent = p := by simpa using hi
    omega
  · cases hi

theorem Descending.ancestors_eq (h : parents.Descending) (i : Nat) :
    parents.ancestors i =
      match parents[i]?.join with
      | some p => p :: parents.ancestors p
      | none => [] := by
  rw [ancestors]
  cases hp : parents[i]?.join with
  | none => rfl
  | some p => exact if_pos (h i p hp)

/-- The way up from `i` is the list of its ancestors. -/
theorem Descending.getElem?_ancestors (h : parents.Descending) (i n : Nat) :
    (parents.ancestors i)[n]? = parents.walk (n + 1) i := by
  induction n generalizing i with
  | zero =>
    rw [h.ancestors_eq]
    cases hp : parents[i]?.join <;> simp [walk, hp]
  | succ n ih =>
    rw [h.ancestors_eq, walk]
    cases parents[i]?.join with
    | none => rfl
    | some p => exact ih p

theorem length_ancestors_le (parents : Ancestry) (i : Nat) :
    (parents.ancestors i).length ≤ i := by
  induction i using Nat.strongRecOn with
  | ind i ih =>
    rw [ancestors]
    cases parents[i]?.join with
    | none => exact Nat.zero_le i
    | some p =>
      dsimp only
      by_cases hp : p < i
      · have := ih p hp
        rw [if_pos hp, List.length_cons]
        omega
      · rw [if_neg hp]
        exact Nat.zero_le i

theorem Descending.walk_eq_none (h : parents.Descending) (i : Nat) :
    parents.walk (i + 1) i = none := by
  rw [← h.getElem?_ancestors]
  exact List.getElem?_eq_none (length_ancestors_le parents i)

theorem ancestors_congr {i : Nat} (h : ∀ j ≤ i, parents[j]? = parents'[j]?) :
    parents.ancestors i = parents'.ancestors i := by
  induction i using Nat.strongRecOn with
  | ind i ih =>
    rw [ancestors, ancestors, h i (Nat.le_refl i)]
    cases parents'[i]?.join with
    | none => rfl
    | some p =>
      by_cases hp : p < i
      · simp only [if_pos hp]
        rw [ih p hp fun j hj => h j (by omega)]
      · simp only [if_neg hp]

theorem ancestors_adopt_of_lt {i : Nat} (hsize : parents.size = before) (ha : before ≤ after)
    (hi : i < before) : (parents.adopt parent before after).ancestors i = parents.ancestors i := by
  refine ancestors_congr fun j hj => ?_
  rw [getElem?_adopt hsize, if_pos (by omega), if_pos (by omega)]

theorem mem_ancestors_trans {i p q : Nat} (hp : p ∈ parents.ancestors i)
    (hq : q ∈ parents.ancestors p) : q ∈ parents.ancestors i := by
  induction i using Nat.strongRecOn with
  | ind i ih =>
    rw [ancestors] at hp ⊢
    cases hparent : parents[i]?.join with
    | none => simp [hparent] at hp
    | some p' =>
      by_cases hlt : p' < i
      · simp only [hparent, if_pos hlt, List.mem_cons] at hp ⊢
        rcases hp with rfl | hp
        · exact .inr hq
        · exact .inr (ih p' hlt hp)
      · simp [hparent, hlt] at hp

end GlyphDrawing.Ancestry
