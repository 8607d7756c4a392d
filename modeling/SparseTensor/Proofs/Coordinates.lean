import SparseTensor.Proofs.ModeOrdering
import SparseTensor.Shape

/-!
# Coordinates inside a shape

A builder checks a coordinate against its shape dimension by dimension. Where every dimension is
fixed, the coordinates that pass are those inside the shape (`Shape.Inside`). Read off in level
order they are below the sizes of the levels, and nothing else is (`Format.inside_iff_levels`).
-/

namespace SparseTensor

namespace Shape

variable {s : Shape} {coords : List Nat}

/-- One component per mode, each below the size of its mode. -/
def Inside (s : Shape) (coords : List Nat) : Prop :=
  List.Forall₂ (fun c (d : Dimension) => c < d.size) coords s.dims

theorem checkAlong_eq_ok {mode : Nat} {ds : List Dimension} (hlen : coords.length = ds.length) :
    checkAlong mode ds coords = .ok () ↔ List.Forall₂ (fun c d => d.admits c = true) coords ds := by
  induction ds generalizing mode coords with
  | nil =>
    rw [List.length_eq_zero_iff.1 hlen]
    simp [checkAlong]
  | cons d ds ih =>
    obtain ⟨c, cs, rfl⟩ := List.exists_cons_of_length_eq_add_one hlen
    rw [checkAlong, List.forall₂_cons]
    split
    · next h => rw [ih (Nat.succ.inj hlen), and_iff_right h]
    · next h => simp [h]

theorem checkCoordinate_eq_ok :
    s.checkCoordinate coords = .ok () ↔
      List.Forall₂ (fun c d => d.admits c = true) coords s.dims := by
  rw [checkCoordinate]
  split
  · next h => exact checkAlong_eq_ok h
  · next h => exact iff_of_false (by simp) fun hall => h hall.length_eq

theorem firstUnknown?_eq_none : s.firstUnknown? = none ↔ ∀ d ∈ s.dims, d.isFixed = true := by
  simp [firstUnknown?]

/-- Where all sizes are known, the check accepts what is inside. -/
theorem inside_of_checkCoordinate (hfixed : s.firstUnknown? = none)
    (h : s.checkCoordinate coords = .ok ()) : s.Inside coords := by
  rw [firstUnknown?_eq_none] at hfixed
  rw [checkCoordinate_eq_ok] at h
  refine List.forall₂_iff_get.2 ⟨h.length_eq, fun i hi hd => ?_⟩
  have hadmits := h.get hi hd
  rw [Dimension.admits, hfixed _ (List.get_mem s.dims ⟨i, hd⟩)] at hadmits
  exact of_decide_eq_true hadmits

theorem inside_iff :
    s.Inside coords ↔ coords.length = s.order ∧ ∀ d < s.order, coords.getD d 0 < s.size d := by
  rw [Inside, List.forall₂_iff_get, order]
  refine and_congr_right fun hlen => ?_
  have hget : ∀ d (hd : d < s.dims.length),
      coords.getD d 0 = coords[d] ∧ s.size d = s.dims[d].size := fun d hd => by
    simp [size, List.getD_eq_getElem?_getD, hd, hlen]
  constructor
  · intro h d hd
    rw [(hget d hd).1, (hget d hd).2]
    exact h d (hlen ▸ hd) hd
  · intro h d _ hd
    have hlt := h d hd
    rwa [(hget d hd).1, (hget d hd).2] at hlt

end Shape

namespace Format

variable (f : Format) {s : Shape} {coords : List Nat}

/-- A coordinate is inside the shape if in level order it is below the sizes of the levels. -/
theorem inside_iff_levels (horder : f.order = s.order) (hlen : coords.length = f.order) :
    s.Inside coords ↔
      List.Forall₂ (· < ·) (f.toLevelOrder coords) (f.ordering.map s.size) := by
  rw [toLevelOrder, List.forall₂_map_left_iff, List.forall₂_map_right_iff, List.forall₂_same,
    Shape.inside_iff, and_iff_right (hlen.trans horder), ← horder]
  simp only [mem_ordering]

/-- Of two coordinates of the order of the format, one level order means one coordinate. -/
theorem toLevelOrder_inj {c d : List Nat} (hc : c.length = f.order) (hd : d.length = f.order) :
    f.toLevelOrder c = f.toLevelOrder d ↔ c = d := by
  constructor
  · intro h
    rw [← f.toDimensionOrder_toLevelOrder hc, h, f.toDimensionOrder_toLevelOrder hd]
  · exact congrArg f.toLevelOrder

end Format

end SparseTensor
