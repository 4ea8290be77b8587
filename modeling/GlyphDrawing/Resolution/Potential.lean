import GlyphDrawing.Resolution.Ancestry

/-!
# Why resolution ends

Resolution walks a row of references that grows while it is walked. A reference is decomposed only
if none of its ancestors has its name, so a chain of decompositions is no longer than the number of
names, and each adds at most `width` references. When a pen is emptied in the middle, at most
`width` references stand before the walk reaches the end. Main statements: the potential drops when
a reference is passed over (`potential_succ_lt`), when it is decomposed (`potential_adopt_lt`), and
when the row is replaced by a short one (`potential_of_size_le_lt`).
-/

namespace GlyphDrawing.Ancestry

def unused (names : List String) (parents : Ancestry) (pending : Array Reference) (i : Nat) : Nat :=
  names.countP fun n => !(parents.ancestors i).any fun p => pending[p]?.any (·.name == n)

/-- The members of a tree of the given depth in which every branching is `width` wide. -/
def treeSize (width : Nat) : Nat → Nat
  | 0 => 1
  | depth + 1 => 1 + width * treeSize width depth

def total (f : Nat → Nat) (i : Nat) : Nat → Nat
  | 0 => 0
  | count + 1 => f i + total f (i + 1) count

/-- A bound on the references still to be passed from index `next` on. -/
def potential (width : Nat) (names : List String) (parents : Ancestry)
    (pending : Array Reference) (next : Nat) : Nat :=
  total (fun i => treeSize width (unused names parents pending i)) next (pending.size - next) +
    (width - next) * (width * treeSize width names.length)

section Arithmetic

variable {width : Nat} {f g : Nat → Nat}

theorem treeSize_pos (width depth : Nat) : 0 < treeSize width depth := by
  cases depth <;> unfold treeSize <;> omega

theorem treeSize_mono {depth deeper : Nat} (h : depth ≤ deeper) :
    treeSize width depth ≤ treeSize width deeper := by
  induction depth generalizing deeper with
  | zero => exact treeSize_pos width deeper
  | succ depth ih =>
    cases deeper with
    | zero => omega
    | succ deeper =>
      have := Nat.mul_le_mul_left width (ih (Nat.le_of_succ_le_succ h))
      simp only [treeSize]
      omega

theorem total_add (f : Nat → Nat) (i m n : Nat) :
    total f i (m + n) = total f i m + total f (i + m) n := by
  induction m generalizing i with
  | zero => simp [total]
  | succ m ih =>
    have := ih (i + 1)
    rw [show m + 1 + n = m + n + 1 by omega, show i + (m + 1) = i + 1 + m by omega]
    simp only [total]
    omega

theorem total_le_total {i n : Nat} (h : ∀ j, i ≤ j → j < i + n → f j ≤ g j) :
    total f i n ≤ total g i n := by
  induction n generalizing i with
  | zero => exact Nat.le_refl 0
  | succ n ih =>
    have h₀ := h i (by omega) (by omega)
    have := ih (i := i + 1) fun j _ _ => h j (by omega) (by omega)
    simp only [total]
    omega

theorem total_le_mul {i n bound : Nat} (h : ∀ j, i ≤ j → j < i + n → f j ≤ bound) :
    total f i n ≤ n * bound := by
  induction n generalizing i with
  | zero => simp [total]
  | succ n ih =>
    have h₀ := h i (by omega) (by omega)
    have := ih (i := i + 1) fun j _ _ => h j (by omega) (by omega)
    simp only [total, Nat.succ_mul]
    omega

end Arithmetic

theorem countP_lt_countP {α : Type} {p q : α → Bool} {l : List α} {x : α} (hx : x ∈ l)
    (hp : p x = false) (hq : q x = true) (h : ∀ y ∈ l, p y = true → q y = true) :
    l.countP p < l.countP q := by
  induction l with
  | nil => simp at hx
  | cons y l ih =>
    have hl : l.countP p ≤ l.countP q :=
      List.countP_mono_left fun z hz => h z (List.mem_cons_of_mem _ hz)
    simp only [List.countP_cons]
    rcases List.mem_cons.1 hx with rfl | hx
    · rw [hp, hq, if_pos rfl, if_neg Bool.false_ne_true]
      omega
    · have := ih hx fun z hz => h z (List.mem_cons_of_mem _ hz)
      by_cases hy : p y = true
      · rw [if_pos hy, if_pos (h y List.mem_cons_self hy)]
        omega
      · rw [if_neg hy]
        omega

variable {width next : Nat} {names : List String} {parents : Ancestry}
  {pending replaced : Array Reference} {r : Reference}

theorem unused_le (names : List String) (parents : Ancestry) (pending : Array Reference) (i : Nat) :
    unused names parents pending i ≤ names.length :=
  List.countP_le_length

theorem potential_succ_lt (h : next < pending.size) :
    potential width names parents pending (next + 1) <
      potential width names parents pending next := by
  have hsize : pending.size - next = pending.size - (next + 1) + 1 := by omega
  have hpos := treeSize_pos width (unused names parents pending next)
  have := Nat.mul_le_mul_right (width * treeSize width names.length)
    (show width - (next + 1) ≤ width - next by omega)
  unfold potential
  rw [hsize, total]
  omega

theorem potential_of_size_le_lt (h : next < pending.size) (hr : replaced.size ≤ width)
    {parents' : Ancestry} :
    potential width names parents' replaced (next + 1) <
      potential width names parents pending next := by
  have hsize : pending.size - next = pending.size - (next + 1) + 1 := by omega
  have hpos := treeSize_pos width (unused names parents pending next)
  have hle : total (fun i => treeSize width (unused names parents' replaced i)) (next + 1)
      (replaced.size - (next + 1)) ≤ (width - (next + 1)) * treeSize width names.length :=
    Nat.le_trans (total_le_mul fun j _ _ => treeSize_mono (unused_le _ _ _ j))
      (Nat.mul_le_mul_right _ (by omega))
  unfold potential
  rw [hsize, total]
  by_cases hw : next < width
  · have hcount : width - next = width - (next + 1) + 1 := by omega
    have := Nat.mul_le_mul_right (treeSize width names.length)
      (show width - (next + 1) ≤ width by omega)
    rw [hcount, Nat.succ_mul]
    omega
  · rw [show width - (next + 1) = 0 by omega] at hle ⊢
    omega

theorem unused_pos (hr : pending[next]? = some r) (hname : r.name ∈ names)
    (hcyclic : parents.isCyclic pending next = false) :
    0 < unused names parents pending next :=
  List.countP_pos_iff.2 ⟨r.name, hname, by simpa [isCyclic, hr] using hcyclic⟩

section Adopt

variable {added : Array Reference}

theorem unused_adopt_le {i : Nat} (hi : i < pending.size) :
    unused names (parents.adopt next pending.size (pending ++ added).size) (pending ++ added) i ≤
      unused names parents pending i := by
  refine List.countP_mono_left fun n _ hn => ?_
  simp only [Bool.not_eq_true', List.any_eq_false] at hn ⊢
  intro p hp
  have := hn p (mem_ancestors_adopt (by simp) hi hp)
  rwa [Array.getElem?_append_left (by have := lt_of_mem_ancestors hp; omega)] at this

theorem unused_adopt_child_lt {i : Nat} (hr : pending[next]? = some r) (hname : r.name ∈ names)
    (hcyclic : parents.isCyclic pending next = false) (hi : pending.size ≤ i)
    (ha : i < (pending ++ added).size) :
    unused names (parents.adopt next pending.size (pending ++ added).size) (pending ++ added) i <
      unused names parents pending next := by
  have hnext : next < pending.size := (Array.getElem?_eq_some_iff.1 hr).1
  have hr' : (pending ++ added)[next]? = some r := by
    rw [Array.getElem?_append_left hnext, hr]
  refine countP_lt_countP hname ?_ ?_ fun n _ hn => ?_
  · rw [ancestors_adopt_child hnext hi ha]
    simp [hr']
  · simpa [isCyclic, hr] using hcyclic
  · simp only [Bool.not_eq_true', List.any_eq_false] at hn ⊢
    intro p hp
    have hlt := lt_of_mem_ancestors hp
    have := hn p (by
      rw [ancestors_adopt_child hnext hi ha]
      exact List.mem_cons_of_mem _ (mem_ancestors_adopt (by simp) hnext hp))
    rwa [Array.getElem?_append_left (by omega)] at this

theorem potential_adopt_lt (hr : pending[next]? = some r) (hname : r.name ∈ names)
    (hcyclic : parents.isCyclic pending next = false) (hadded : added.size ≤ width) :
    potential width names (parents.adopt next pending.size (pending ++ added).size)
        (pending ++ added) (next + 1) <
      potential width names parents pending next := by
  have hnext : next < pending.size := (Array.getElem?_eq_some_iff.1 hr).1
  have hsize : pending.size - next = pending.size - (next + 1) + 1 := by omega
  have happend : (pending ++ added).size = pending.size + added.size := Array.size_append
  have hgrown : (pending ++ added).size - (next + 1) = pending.size - (next + 1) + added.size := by
    omega
  have hold : total (fun i => treeSize width (unused names
        (parents.adopt next pending.size (pending ++ added).size) (pending ++ added) i))
        (next + 1) (pending.size - (next + 1)) ≤
      total (fun i => treeSize width (unused names parents pending i))
        (next + 1) (pending.size - (next + 1)) :=
    total_le_total fun j _ _ => treeSize_mono (unused_adopt_le (by omega))
  have hnew : total (fun i => treeSize width (unused names
        (parents.adopt next pending.size (pending ++ added).size) (pending ++ added) i))
        (next + 1 + (pending.size - (next + 1))) added.size ≤
      added.size * treeSize width (unused names parents pending next - 1) :=
    total_le_mul fun j _ _ => treeSize_mono (Nat.le_sub_one_of_lt
      (unused_adopt_child_lt hr hname hcyclic (by omega) (by omega)))
  obtain ⟨depth, hdepth⟩ := Nat.exists_eq_succ_of_ne_zero
    (Nat.pos_iff_ne_zero.1 (unused_pos hr hname hcyclic))
  have hwide := Nat.mul_le_mul_right (treeSize width depth) hadded
  have hrest := Nat.mul_le_mul_right (width * treeSize width names.length)
    (show width - (next + 1) ≤ width - next by omega)
  unfold potential
  rw [hsize, hgrown, total, total_add]
  simp only [hdepth, Nat.succ_eq_add_one, Nat.add_sub_cancel, treeSize] at hnew ⊢
  omega

end Adopt

end GlyphDrawing.Ancestry
