import GlyphDrawing.Proofs.Number.Steps
import GlyphDrawing.Proofs.Resolution.Encodable

/-!
# Stored linear maps

A linear map that has no NaN and does not overflow is kept as the grid steps nearest to its entries
(`stored?_eq_ite`). The identity is recognised by these steps, the clamp takes one step off the
last of them, and what is kept is encoded and read back without loss. Unclamped, the last step is
the one that cannot be encoded (`stored_exactly`).
-/

namespace GlyphDrawing

def Fixed.decode (bits : Int16) : Float :=
  Fixed.ofSteps bits.toInt

namespace Linear

def nearestSteps (l : Linear Float) : Linear Int :=
  l.map Fixed.nearestSteps

def identitySteps : Linear Int :=
  ⟨16384, 0, 0, 16384⟩

/-- With `fit`, the last step is replaced by the one before. -/
def fitSteps (fit : Bool) (k : Linear Int) : Linear Int :=
  if fit then k.map (min · 32767) else k

def OnGrid (k : Linear Int) : Prop :=
  ∀ i ∈ k.toList, i.natAbs ≤ 2 ^ 15

/-- The entries of `m` are exactly the grid steps `k`, and they are encoded as these numbers and
read back without loss. -/
structure StoredAs (m : Linear Float) (k : Linear Int) : Prop where
  exact_values : m.map toRat? = k.map fun i : Int => some ((i : ℚ) / 16384)
  exists_bits : ∃ bits, m.encode = .ok bits ∧ bits.map Int16.toInt = k ∧
    bits.map Fixed.decode = m

section Map

variable {α β ε : Type} {l : Linear α}

theorem map_congr {g h : α → β} (heq : ∀ v ∈ l.toList, g v = h v) : l.map g = l.map h := by
  simp only [toList, List.forall_mem_cons] at heq
  obtain ⟨hxx, hxy, hyx, hyy, -⟩ := heq
  rw [map, map, hxx, hxy, hyx, hyy]

theorem mapM_map {γ : Type} (h : α → β) (f : β → Except ε γ) :
    (l.map h).mapM f = l.mapM (f ∘ h) := rfl

/-- The first entry that fails ends the traversal. -/
theorem mapM_eq_ite {f : α → Except ε β} {p : α → Prop} [DecidablePred p] {g : α → β} {e : ε}
    (h : ∀ v ∈ l.toList, f v = if p v then .error e else .ok (g v)) :
    l.mapM f = if ∃ v ∈ l.toList, p v then .error e else .ok (l.map g) := by
  simp only [toList, List.forall_mem_cons] at h
  obtain ⟨hxx, hxy, hyx, hyy, -⟩ := h
  simp only [mapM, toList, hxx, hxy, hyx, hyy]
  by_cases hxx : p l.xx
  · simp [hxx, bind, Except.bind]
  by_cases hxy : p l.xy
  · simp [hxx, hxy, bind, Except.bind]
  by_cases hyx : p l.yx
  · simp [hxx, hxy, hyx, bind, Except.bind]
  by_cases hyy : p l.yy <;>
    simp [hxx, hxy, hyx, hyy, bind, Except.bind, pure, Except.pure, map]

end Map

section Steps

variable {l : Linear Float} {k : Linear Int} {fit : Bool}

theorem onGrid_identitySteps : OnGrid identitySteps := by
  simp [OnGrid, identitySteps, toList]

theorem identity_eq_ofSteps : identity = identitySteps.map Fixed.ofSteps := rfl

/-- Without NaN, what does not overflow is between minus two and two. -/
theorem within_of_fits (hnan : ∀ v ∈ l.toList, v ≠ Float.nan) (hfits : l.overflows = false) :
    ∀ v ∈ l.toList, Within (-2) 2 v.toModel.unpack := by
  intro v hv
  obtain ⟨hhigh, hlow⟩ := overflows_eq_false_iff.1 hfits v hv
  exact within_two_iff.2 ⟨le_of_not_lt (hnan v hv) (ne_nan_of_le neg_two_le_two) hlow,
    le_of_not_lt (ne_nan_of_le two_le_two) (hnan v hv) hhigh⟩

theorem snap_eq_ofSteps (h : ∀ v ∈ l.toList, Within (-2) 2 v.toModel.unpack) :
    l.snap = l.nearestSteps.map Fixed.ofSteps :=
  map_congr fun v hv => Fixed.snap_eq_ofSteps (h v hv)

theorem onGrid_nearestSteps (h : ∀ v ∈ l.toList, Within (-2) 2 v.toModel.unpack) :
    l.nearestSteps.OnGrid := by
  rw [OnGrid, nearestSteps, toList_map, List.forall_mem_map]
  exact fun v hv => (Fixed.roundHalfUp_steps (h v hv)).2

theorem onGrid_fitSteps (hk : k.OnGrid) (fit : Bool) : (k.fitSteps fit).OnGrid := by
  cases fit with
  | false => exact hk
  | true =>
    change ∀ i ∈ (k.map (min · 32767)).toList, _
    rw [toList_map, List.forall_mem_map]
    intro i hi
    have := hk i hi
    omega

theorem isIdentity_ofSteps (hk : k.OnGrid) :
    (k.map Fixed.ofSteps).isIdentity = decide (k = identitySteps) := by
  have hone : (16384 : Int).natAbs ≤ 2 ^ 15 := by decide
  have hzero : (0 : Int).natAbs ≤ 2 ^ 15 := by decide
  simp only [OnGrid, toList, List.forall_mem_cons] at hk
  obtain ⟨hxx, hxy, hyx, hyy, -⟩ := hk
  change (Fixed.ofSteps k.xx == Fixed.ofSteps 16384 && (Fixed.ofSteps k.xy == Fixed.ofSteps 0 &&
    (Fixed.ofSteps k.yx == Fixed.ofSteps 0 && Fixed.ofSteps k.yy == Fixed.ofSteps 16384))) = _
  rw [Fixed.ofSteps_beq_ofSteps hxx hone, Fixed.ofSteps_beq_ofSteps hxy hzero,
    Fixed.ofSteps_beq_ofSteps hyx hzero, Fixed.ofSteps_beq_ofSteps hyy hone]
  obtain ⟨xx, xy, yx, yy⟩ := k
  simp only [identitySteps, mk.injEq, Bool.decide_and]

/-- A map that snaps to grid steps is kept as these, if they are not those of the identity. -/
theorem stored?_eq_ite (hsnap : l.snap = k.map Fixed.ofSteps) (hk : k.OnGrid) (fit : Bool) :
    l.stored? fit =
      if k = identitySteps then none else some ((k.fitSteps fit).map Fixed.ofSteps) := by
  rw [stored?, hsnap, isIdentity_ofSteps hk]
  by_cases hidentity : k = identitySteps
  · rw [if_pos (decide_eq_true hidentity), if_pos hidentity]
  · rw [if_neg (by rwa [decide_eq_true_iff]), if_neg hidentity]
    cases fit with
    | false => rfl
    | true =>
      have hclamp : (k.map Fixed.ofSteps).map Fixed.clamp =
          (k.map (min · 32767)).map Fixed.ofSteps :=
        map_congr fun i hi => Fixed.clamp_ofSteps (hk i hi)
      rw [if_pos rfl, hclamp]
      rfl

theorem encode_ofSteps (hk : k.OnGrid) : (k.map Fixed.ofSteps).encode =
    if 32768 ∈ k.toList then .error (.unencodable 2) else .ok (k.map Int16.ofIntClamp) := by
  rw [encode, mapM_map]
  refine (mapM_eq_ite (p := (· = 32768)) (g := Int16.ofIntClamp) (e := .unencodable 2)
    fun i hi => ?_).trans (by simp only [exists_eq_right])
  rw [Function.comp_apply, Fixed.encode?_ofSteps (hk i hi)]
  by_cases hlast : i = 32768
  · rw [if_pos hlast, if_pos hlast, hlast]
    rfl
  · rw [if_neg hlast, if_neg hlast]

/-- Grid steps that leave out the last one are stored exactly. -/
theorem storedAs_ofSteps (hk : k.OnGrid) (hlast : 32768 ∉ k.toList) :
    StoredAs (k.map Fixed.ofSteps) k := by
  have htoInt : (k.map Int16.ofIntClamp).map Int16.toInt = k := by
    have hentry : ∀ i ∈ k.toList, (Int16.toInt ∘ Int16.ofIntClamp) i = i := by
      intro i hi
      have := hk i hi
      have hne : i ≠ 32768 := fun h => hlast (h ▸ hi)
      refine Int16.toInt_ofIntClamp ?_ ?_
      · change -32768 ≤ i
        omega
      · change i ≤ 32767
        omega
    exact map_congr (h := id) hentry
  refine ⟨map_congr fun i hi => Fixed.toRat?_ofSteps (hk i hi), k.map Int16.ofIntClamp,
    (encode_ofSteps hk).trans (if_neg hlast), htoInt, ?_⟩
  change ((k.map Int16.ofIntClamp).map Int16.toInt).map Fixed.ofSteps = _
  rw [htoInt]

end Steps

section Again

variable {l m : Linear Float} {k : Linear Int}

def Settled (m : Linear Float) : Prop :=
  ∃ k : Linear Int, k.OnGrid ∧ 32768 ∉ k.toList ∧ m = k.map Fixed.ofSteps

theorem last_not_mem_fitSteps (k : Linear Int) : 32768 ∉ (k.fitSteps true).toList := by
  change 32768 ∉ (k.map (min · 32767)).toList
  rw [toList_map, List.mem_map]
  rintro ⟨i, -, hi⟩
  omega

theorem fitSteps_eq_identitySteps_iff : k.fitSteps true = identitySteps ↔ k = identitySteps := by
  obtain ⟨xx, xy, yx, yy⟩ := k
  simp only [fitSteps, if_pos, map, identitySteps, mk.injEq]
  omega

theorem settled_identity : Settled identity :=
  ⟨identitySteps, onGrid_identitySteps, by decide, identity_eq_ofSteps⟩

theorem Settled.overflows (h : m.Settled) : m.overflows = false := by
  obtain ⟨k, hk, -, rfl⟩ := h
  rw [overflows_eq_false_iff, toList_map, List.forall_mem_map]
  intro i hi
  have := hk i hi
  change ¬ 2 < Fixed.ofSteps i ∧ ¬ Fixed.ofSteps i < Fixed.minimum
  rw [Fixed.two_eq_ofSteps, Fixed.minimum_eq_ofSteps,
    Fixed.ofSteps_lt_ofSteps_iff (by decide) (hk i hi),
    Fixed.ofSteps_lt_ofSteps_iff (hk i hi) (by decide)]
  omega

theorem snap_ofSteps (hk : k.OnGrid) : (k.map Fixed.ofSteps).snap = k.map Fixed.ofSteps :=
  map_congr fun i hi => Fixed.snap_ofSteps (hk i hi)

theorem Settled.clamps (h : m.Settled) (fit : Bool) : m.clamps fit = false := by
  obtain ⟨k, hk, hlast, rfl⟩ := h
  have hnear : (k.map Fixed.ofSteps).toList.any Fixed.nearTwo = false := by
    rw [toList_map, List.any_map, List.any_eq_false]
    intro i hi
    have hne : i ≠ 32768 := fun h => hlast (h ▸ hi)
    rw [Function.comp_apply, Fixed.nearTwo_ofSteps (hk i hi), decide_eq_true_iff]
    exact hne
  rw [Linear.clamps, snap_ofSteps hk, hnear, Bool.and_false]

theorem Settled.stored?_eq (h : m.Settled) :
    m.stored? true = if m.isIdentity then none else some m := by
  obtain ⟨k, hk, hlast, rfl⟩ := h
  have hfit : k.fitSteps true = k := by
    refine (map_congr (h := id) fun i hi => ?_ : k.map (min · 32767) = k.map id)
    have := hk i hi
    have hne : i ≠ 32768 := fun h => hlast (h ▸ hi)
    exact min_eq_left (by omega)
  rw [stored?_eq_ite (snap_ofSteps hk) hk, isIdentity_ofSteps hk, hfit]
  simp only [decide_eq_true_eq]

/-- What is stored of a map between minus two and two is settled, and it is not the identity. -/
theorem settled_of_stored? (h : ∀ v ∈ l.toList, Within (-2) 2 v.toModel.unpack)
    (hm : l.stored? true = some m) : m.Settled ∧ m.isIdentity = false := by
  have hk := onGrid_fitSteps (onGrid_nearestSteps h) true
  rw [stored?_eq_ite (snap_eq_ofSteps h) (onGrid_nearestSteps h)] at hm
  split_ifs at hm with hidentity
  obtain rfl := Option.some.inj hm
  rw [isIdentity_ofSteps hk, decide_eq_false_iff_not, fitSteps_eq_identitySteps_iff]
  exact ⟨⟨_, hk, last_not_mem_fitSteps _, rfl⟩, hidentity⟩

/-- What is stored once is stored as it is. -/
theorem stored?_stored? (h : ∀ v ∈ l.toList, Within (-2) 2 v.toModel.unpack) :
    ((l.stored? true).getD identity).Settled ∧
      ((l.stored? true).getD identity).stored? true = l.stored? true := by
  cases hm : l.stored? true with
  | none => exact ⟨settled_identity, settled_identity.stored?_eq.trans (if_pos rfl)⟩
  | some m =>
    obtain ⟨hsettled, hidentity⟩ := settled_of_stored? h hm
    refine ⟨hsettled, hsettled.stored?_eq.trans (if_neg ?_)⟩
    exact Bool.not_eq_true _ ▸ hidentity

end Again

/-- A map without NaN that does not overflow is kept, if it is not snapped to the identity, as the
grid steps nearest to its entries. With `fit` the last step, that of two, is stored as the one
before; without, it is kept, and is the only one that cannot be encoded. -/
theorem stored_exactly {l : Linear Float} (hnan : ∀ v ∈ l.toList, v ≠ Float.nan)
    (hfits : l.overflows = false) :
    (∀ v ∈ l.toList, roundHalfUp (v * 16384) = Float.ofInt (Fixed.nearestSteps v)) ∧
    (∀ i ∈ l.nearestSteps.toList, -32768 ≤ i ∧ i ≤ 32768) ∧
    (∀ fit, l.stored? fit = none ↔ l.nearestSteps = ⟨16384, 0, 0, 16384⟩) ∧
    (∀ m, l.stored? true = some m → m.StoredAs (l.nearestSteps.map (min · 32767))) ∧
    ∀ m, l.stored? false = some m →
      m.map toRat? = l.nearestSteps.map (fun i : Int => some ((i : ℚ) / 16384)) ∧
      if 32768 ∈ l.nearestSteps.toList then m.encode = .error (.unencodable 2)
      else m.StoredAs l.nearestSteps := by
  have hwithin := within_of_fits hnan hfits
  have hsteps := onGrid_nearestSteps hwithin
  have hstored := stored?_eq_ite (snap_eq_ofSteps hwithin) hsteps
  have hsome {fit : Bool} {m : Linear Float} (hm : l.stored? fit = some m) :
      m = (l.nearestSteps.fitSteps fit).map Fixed.ofSteps := by
    rw [hstored] at hm
    split_ifs at hm with hidentity
    exact (Option.some.inj hm).symm
  refine ⟨fun v hv => (Fixed.roundHalfUp_steps (hwithin v hv)).1, fun i hi => ?_, fun fit => ?_,
    fun m hm => ?_, fun m hm => ?_⟩
  · have := hsteps i hi
    omega
  · rw [hstored]
    simp only [ite_eq_left_iff, reduceCtorEq, imp_false, not_not]
    rfl
  · rw [hsome hm]
    exact storedAs_ofSteps (onGrid_fitSteps hsteps true) (last_not_mem_fitSteps _)
  · obtain rfl := hsome hm
    refine ⟨map_congr fun i hi => Fixed.toRat?_ofSteps (hsteps i hi), ?_⟩
    split_ifs with hlast
    · exact (encode_ofSteps hsteps).trans (if_pos hlast)
    · exact storedAs_ofSteps hsteps hlast

def almostTwo : Linear Float :=
  ⟨1.99999, -2, 0.1, -0.0⟩

/-- The first entry is clamped by one step, or is the one that cannot be encoded. -/
theorem almostTwo_stored_exactly :
    ((∀ v ∈ almostTwo.toList, v ≠ Float.nan) ∧ almostTwo.overflows = false ∧
      almostTwo.nearestSteps = ⟨32768, -32768, 1638, 0⟩) ∧
    (∃ m, almostTwo.stored? true = some m ∧ m.StoredAs ⟨32767, -32768, 1638, 0⟩) ∧
    ∃ m, almostTwo.stored? false = some m ∧ m.encode = .error (.unencodable 2) := by
  have hcomputed : (∀ v ∈ almostTwo.toList, v ≠ Float.nan) ∧ almostTwo.overflows = false ∧
      almostTwo.nearestSteps = ⟨32768, -32768, 1638, 0⟩ := by
    decide +kernel
  obtain ⟨hnan, hfits, hsteps⟩ := hcomputed
  obtain ⟨-, -, hnone, hclamped, hunclamped⟩ := stored_exactly hnan hfits
  rw [hsteps] at hnone hclamped hunclamped
  have hsome (fit : Bool) : ∃ m, almostTwo.stored? fit = some m := by
    refine Option.ne_none_iff_exists'.1 fun h => ?_
    exact absurd ((hnone fit).1 h) (by decide)
  obtain ⟨m, hm⟩ := hsome true
  obtain ⟨m', hm'⟩ := hsome false
  exact ⟨⟨hnan, hfits, hsteps⟩, ⟨m, hm, hclamped m hm⟩, m', hm',
    by simpa [toList] using (hunclamped m' hm').2⟩

end Linear

end GlyphDrawing
