import Mathlib.Data.List.Chain
import SparseTensor.Storage.Index

/-!
# What the checks of an index guarantee

`Level.extent` refuses a level that does not fit below its parent. This file says what the levels
it accepts look like: a dense level has a size, and a sparse level has positions that start at
zero, never decrease and end at the number of its coordinates (`SparseFits`).

Both kinds then split their positions among the positions above: those below `p` are the ones from
`firstBelow p` up to `firstBelow (p + 1)`. The first run starts at zero, each run starts where the
one before it ends, and the last ends at the extent.
-/

namespace SparseTensor.Level

theorem position?_eq_some {v : Int} {n : Nat} :
    position? v = some n ↔ v = n ∧ n < positionLimit := by
  unfold position?
  constructor
  · intro h
    split at h
    · next hv => cases h; omega
    · cases h
  · rintro ⟨rfl, hn⟩
    rw [if_pos ⟨Int.natCast_nonneg n, by omega⟩, Int.toNat_natCast]

/-! ## Positions that never decrease -/

theorem firstDecrease?_eq_none {previous : Int} {place : Nat} {vs : List Int} :
    firstDecrease? previous place vs = none ↔ (previous :: vs).Pairwise (· ≤ ·) := by
  rw [← List.isChain_iff_pairwise]
  induction vs generalizing previous place with
  | nil => simp [firstDecrease?]
  | cons v vs ih =>
    rw [List.isChain_cons_cons, firstDecrease?]
    split
    · next hlt => simp only [reduceCtorEq, false_iff, not_and]; omega
    · next hle => rw [ih, and_iff_right (by omega)]

theorem firstBreak?_cons_eq_none {v : Int} {vs : List Int} :
    firstBreak? (v :: vs) = none ↔ v = 0 ∧ (v :: vs).Pairwise (· ≤ ·) := by
  rw [firstBreak?]
  split
  · next h => rw [firstDecrease?_eq_none, and_iff_right h]
  · next h => simp [h]

/-! ## The levels that fit -/

/-- A sparse level that fits below `parents` positions and provides `n`. -/
structure SparseFits (parents : Nat) (positions coordinates : IndexArray) (n : Nat) : Prop where
  room : parents + 1 < positionLimit
  length_positions : positions.values.length = parents + 1
  start : positions.values[0]? = some 0
  sorted : positions.values.Pairwise (· ≤ ·)
  last : positions.values[parents]? = some (n : Int)
  limit : n < positionLimit
  length_coordinates : coordinates.values.length = n
  nonneg : ∀ c ∈ coordinates.values, 0 ≤ c

theorem denseExtent_eq_ok {mode parents n : Nat} {sizes : IndexArray} :
    denseExtent mode parents sizes = .ok n ↔
      ∃ m, (dense sizes).size? = some m ∧ parents * m = n ∧ n < positionLimit := by
  unfold denseExtent
  split
  · next h => simp [h]
  · next m h =>
    simp only [h, Option.some.injEq, exists_eq_left']
    split
    · next hlt => simp only [Except.ok.injEq]; constructor <;> omega
    · next hge => simp only [reduceCtorEq, false_iff]; omega

theorem sparseFits_of_sparseExtent {mode parents n : Nat} {positions coordinates : IndexArray}
    (h : sparseExtent mode parents positions coordinates = .ok n) :
    SparseFits parents positions coordinates n := by
  unfold sparseExtent at h
  split at h
  · cases h
  next hroom =>
  split at h
  · cases h
  next hlen =>
  rw [Decidable.not_not] at hroom hlen
  change positions.values.length = parents + 1 at hlen
  obtain ⟨v, vs, hvs⟩ := List.exists_cons_of_length_eq_add_one hlen
  split at h
  · cases h
  next hbreak =>
  rw [hvs, firstBreak?_cons_eq_none] at hbreak
  split at h
  · cases h
  next m hm =>
  split at h
  · cases h
  next hcoords =>
  split at h
  · cases h
  next hneg =>
  cases h
  rw [position?_eq_some, IndexArray.last?, List.getLast?_eq_getElem?, hlen,
    Nat.add_sub_cancel] at hm
  have hlast : ∃ v, positions.values[parents]? = some v :=
    ⟨_, List.getElem?_eq_getElem (by omega)⟩
  obtain ⟨w, hw⟩ := hlast
  rw [hw, Option.getD_some] at hm
  exact {
    room := hroom
    length_positions := hlen
    start := by rw [hvs, hbreak.1]; rfl
    sorted := by rw [hvs]; exact hbreak.2
    last := by rw [hw, hm.1]
    limit := hm.2
    length_coordinates := Decidable.not_not.1 hcoords
    nonneg := by simpa using hneg }

theorem sparseExtent_eq_ok {mode parents n : Nat} {positions coordinates : IndexArray} :
    sparseExtent mode parents positions coordinates = .ok n ↔
      SparseFits parents positions coordinates n := by
  refine ⟨sparseFits_of_sparseExtent, fun h => ?_⟩
  obtain ⟨v, vs, hvs⟩ := List.exists_cons_of_length_eq_add_one h.length_positions
  have hstart : v = 0 := by simpa [hvs] using h.start
  have hbreak : firstBreak? positions.values = none := by
    rw [hvs, firstBreak?_cons_eq_none, ← hvs]
    exact ⟨hstart, h.sorted⟩
  have hlast : positions.last? = some (n : Int) := by
    rw [IndexArray.last?, List.getLast?_eq_getElem?, h.length_positions]
    exact h.last
  have hneg : coordinates.values.find? (· < 0) = none := by simpa using h.nonneg
  have hposition : position? (positions.last?.getD 0) = some n :=
    position?_eq_some.2 ⟨by rw [hlast]; rfl, h.limit⟩
  have hlen : positions.length = parents + 1 := h.length_positions
  have hcoords : coordinates.length = n := h.length_coordinates
  rw [sparseExtent, if_neg (not_not.2 h.room), if_neg (not_not.2 hlen), hbreak]
  simp only [hposition, hneg, if_neg (not_not.2 hcoords)]

theorem extent_dense_eq_ok {mode parents n : Nat} {kind : LevelKind} {sizes : IndexArray} :
    (dense sizes).extent mode parents kind = .ok n ↔
      kind = .dense ∧ ∃ m, (dense sizes).size? = some m ∧ parents * m = n ∧ n < positionLimit := by
  cases kind with
  | dense => simp [extent, denseExtent_eq_ok]
  | sparse => simp [extent]

theorem extent_sparse_eq_ok {mode parents n : Nat} {kind : LevelKind}
    {positions coordinates : IndexArray} :
    (sparse positions coordinates).extent mode parents kind = .ok n ↔
      kind = .sparse ∧ SparseFits parents positions coordinates n := by
  cases kind with
  | dense => simp [extent]
  | sparse => simp [extent, sparseExtent_eq_ok]

/-! ## The positions below a position -/

/-- The first position below position `p` of the level above. -/
def firstBelow : Level → Nat → Nat
  | dense sizes, p => p * (dense sizes).size?.getD 0
  | sparse positions _, p => (positions.values.getD p 0).toNat

variable {mode parents n : Nat} {kind : LevelKind} {l : Level}

theorem extent_lt_limit (h : l.extent mode parents kind = .ok n) : n < positionLimit := by
  cases l with
  | dense sizes => exact (extent_dense_eq_ok.1 h).2.choose_spec.2.2
  | sparse positions coordinates => exact (extent_sparse_eq_ok.1 h).2.limit

theorem firstBelow_zero (h : l.extent mode parents kind = .ok n) : l.firstBelow 0 = 0 := by
  cases l with
  | dense sizes => exact Nat.zero_mul _
  | sparse positions coordinates =>
    have hstart := (extent_sparse_eq_ok.1 h).2.start
    rw [firstBelow, List.getD_eq_getElem?_getD, hstart]
    rfl

theorem firstBelow_parents (h : l.extent mode parents kind = .ok n) :
    l.firstBelow parents = n := by
  cases l with
  | dense sizes =>
    obtain ⟨-, m, hm, hn, -⟩ := extent_dense_eq_ok.1 h
    rw [firstBelow, hm, Option.getD_some, hn]
  | sparse positions coordinates =>
    have hlast := (extent_sparse_eq_ok.1 h).2.last
    rw [firstBelow, List.getD_eq_getElem?_getD, hlast]
    rfl

/-- The runs below successive positions follow one another. -/
theorem firstBelow_mono (h : l.extent mode parents kind = .ok n) {p q : Nat} (hpq : p ≤ q)
    (hq : q ≤ parents) : l.firstBelow p ≤ l.firstBelow q := by
  cases l with
  | dense sizes => exact Nat.mul_le_mul_right _ hpq
  | sparse positions coordinates =>
    have hfits := (extent_sparse_eq_ok.1 h).2
    have hlen := hfits.length_positions
    have hle := hfits.sorted.rel_get_of_le (a := ⟨p, by omega⟩) (b := ⟨q, by omega⟩) hpq
    simp only [List.get_eq_getElem] at hle
    simp only [firstBelow, List.getD_eq_getElem?_getD]
    rw [List.getElem?_eq_getElem (by omega), List.getElem?_eq_getElem (by omega)]
    exact Int.toNat_le_toNat hle

/-- What is below a position is within the level. -/
theorem firstBelow_le (h : l.extent mode parents kind = .ok n) {p : Nat} (hp : p ≤ parents) :
    l.firstBelow p ≤ n := by
  rw [← firstBelow_parents h]
  exact firstBelow_mono h hp le_rfl

end SparseTensor.Level
