import Mathlib.Data.List.Perm.Subperm
import SparseTensor.Storage.Format

/-!
# The two orders of a coordinate

A format keeps coordinates in level order and its users speak of them in dimension order. The mode
ordering lists every dimension exactly once, so `Format.toLevelOrder`, which gathers, and
`Format.toDimensionOrder`, which scatters, undo each other on coordinates of the format's order.

Scattering is a fold of writes. A write at one dimension is not seen at another, and no dimension
is written twice, so each write is the last one at its place (`getElem?_scatter`).
-/

namespace SparseTensor

/-! ## Scattering -/

theorem length_scatter (ps : List (Nat × Nat)) (out : List Nat) :
    (ps.foldl (fun out (p : Nat × Nat) => out.set p.1 p.2) out).length = out.length := by
  induction ps generalizing out with
  | nil => rfl
  | cons p ps ih => rw [List.foldl_cons, ih, List.length_set]

theorem getElem?_scatter_of_not_mem {ps : List (Nat × Nat)} {d : Nat}
    (hd : d ∉ ps.map Prod.fst) (out : List Nat) :
    (ps.foldl (fun out (p : Nat × Nat) => out.set p.1 p.2) out)[d]? = out[d]? := by
  induction ps generalizing out with
  | nil => rfl
  | cons p ps ih =>
    rw [List.map_cons, List.mem_cons, not_or] at hd
    rw [List.foldl_cons, ih hd.2, List.getElem?_set_ne (Ne.symm hd.1)]

theorem getElem?_scatter {ps : List (Nat × Nat)} (hnodup : (ps.map Prod.fst).Nodup)
    {p : Nat × Nat} (hp : p ∈ ps) {out : List Nat} (hlt : p.1 < out.length) :
    (ps.foldl (fun out (p : Nat × Nat) => out.set p.1 p.2) out)[p.1]? = some p.2 := by
  induction ps generalizing out with
  | nil => cases hp
  | cons q ps ih =>
    rw [List.map_cons, List.nodup_cons] at hnodup
    rw [List.foldl_cons]
    rcases List.mem_cons.1 hp with rfl | hp
    · rw [getElem?_scatter_of_not_mem hnodup.1, List.getElem?_set_self hlt]
    · exact ih hnodup.2 hp (by rwa [List.length_set])

/-! ## The mode ordering is a permutation -/

/-- Enough numbers, none too great and none twice: there is room for no other list. -/
theorem isOrdering_iff_perm {order : Nat} {ordering : List Nat} :
    isOrdering order ordering = true ↔ ordering.Perm (List.range order) := by
  simp only [isOrdering, Bool.and_eq_true, beq_iff_eq, List.all_eq_true, decide_eq_true_eq]
  constructor
  · rintro ⟨⟨hlen, hlt⟩, hnodup⟩
    have hsub : ordering ⊆ List.range order := fun d hd => List.mem_range.2 (hlt d hd)
    have hle : (List.range order).length ≤ ordering.length := by simp [hlen]
    exact (hnodup.subperm hsub).perm_of_length_le hle
  · intro h
    have hlen : ordering.length = order := by rw [h.length_eq, List.length_range]
    exact ⟨⟨hlen, fun d hd => List.mem_range.1 (h.mem_iff.1 hd)⟩, h.nodup_iff.2 List.nodup_range⟩

namespace Format

variable (f : Format)

theorem ordering_perm_range : f.ordering.Perm (List.range f.order) :=
  isOrdering_iff_perm.1 f.isOrdering

theorem length_ordering : f.ordering.length = f.order := by
  rw [f.ordering_perm_range.length_eq, List.length_range]

theorem nodup_ordering : f.ordering.Nodup :=
  f.ordering_perm_range.nodup_iff.2 List.nodup_range

theorem mem_ordering {d : Nat} : d ∈ f.ordering ↔ d < f.order := by
  rw [f.ordering_perm_range.mem_iff, List.mem_range]

theorem lt_order_of_mem {d : Nat} (hd : d ∈ f.ordering) : d < f.order := f.mem_ordering.1 hd

/-- Every dimension is at some level. -/
theorem exists_level {d : Nat} (hd : d < f.order) : ∃ k : Nat, f.ordering[k]? = some d :=
  List.mem_iff_getElem?.1 (f.mem_ordering.2 hd)

/-! ## Gathering and scattering -/

@[simp] theorem length_toLevelOrder (coords : List Nat) :
    (f.toLevelOrder coords).length = f.order := by
  rw [toLevelOrder, List.length_map, length_ordering]

@[simp] theorem length_toDimensionOrder (coords : List Nat) :
    (f.toDimensionOrder coords).length = f.order := by
  rw [toDimensionOrder, length_scatter, List.length_replicate]

theorem getElem?_toLevelOrder {coords : List Nat} (hlen : coords.length = f.order) {k d : Nat}
    (hd : f.ordering[k]? = some d) : (f.toLevelOrder coords)[k]? = coords[d]? := by
  have hlt : d < coords.length := by
    rw [hlen]
    exact f.lt_order_of_mem (List.mem_of_getElem? hd)
  rw [toLevelOrder, List.getElem?_map, hd, Option.map_some, List.getD_eq_getElem?_getD,
    List.getElem?_eq_getElem hlt, Option.getD_some]

/-- The component of each level stands at the dimension of that level. -/
theorem getElem?_toDimensionOrder {coords : List Nat} (hlen : coords.length = f.order) {k d : Nat}
    (hd : f.ordering[k]? = some d) : (f.toDimensionOrder coords)[d]? = coords[k]? := by
  have hk : k < coords.length := by
    rw [hlen, ← length_ordering]
    exact (List.getElem?_eq_some_iff.1 hd).1
  have hle : f.ordering.length ≤ coords.length := by simp [hlen, length_ordering]
  have hfst : (f.ordering.zip coords).map Prod.fst = f.ordering := List.map_fst_zip hle
  have hmem : (d, coords[k]) ∈ f.ordering.zip coords := by
    refine List.mem_of_getElem? (i := k) ?_
    rw [List.getElem?_zip_eq_some]
    exact ⟨hd, List.getElem?_eq_getElem hk⟩
  have hlt : d < (List.replicate f.order 0).length := by
    rw [List.length_replicate]
    exact f.lt_order_of_mem (List.mem_of_getElem? hd)
  rw [List.getElem?_eq_getElem hk, toDimensionOrder]
  exact getElem?_scatter (by rw [hfst]; exact f.nodup_ordering) hmem hlt

theorem toLevelOrder_toDimensionOrder {coords : List Nat} (hlen : coords.length = f.order) :
    f.toLevelOrder (f.toDimensionOrder coords) = coords := by
  refine List.ext_getElem? fun k => ?_
  cases hd : f.ordering[k]? with
  | some d => rw [f.getElem?_toLevelOrder (by simp) hd, f.getElem?_toDimensionOrder hlen hd]
  | none =>
    have hk : f.order ≤ k := by rw [← length_ordering]; exact List.getElem?_eq_none_iff.1 hd
    rw [List.getElem?_eq_none (by simpa using hk), List.getElem?_eq_none (by omega)]

theorem toDimensionOrder_toLevelOrder {coords : List Nat} (hlen : coords.length = f.order) :
    f.toDimensionOrder (f.toLevelOrder coords) = coords := by
  refine List.ext_getElem? fun d => ?_
  by_cases hd : d < f.order
  · obtain ⟨k, hk⟩ := f.exists_level hd
    rw [f.getElem?_toDimensionOrder (by simp) hk, f.getElem?_toLevelOrder hlen hk]
  · rw [List.getElem?_eq_none (by simpa using hd), List.getElem?_eq_none (by omega)]

end Format

end SparseTensor
