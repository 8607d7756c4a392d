import Mathlib.Data.List.Count
import Mathlib.Data.List.Induction
import SparseTensor.Proofs.Firsts

/-!
# Repeated insertions

An insertion is later than another one if it is at a coordinate that occurs already (`later`). It
may be far from the insertion that it repeats. Once entries are sorted the two are together, and
`Builder.repeats` finds it by looking at neighbours.

**Theorem (`Builder.repeats_perm`).** Both find the same coordinates, each as often. For both find a
coordinate once less than it occurs (`count_coords_later`, `Builder.count_coords_repeats`).
-/

namespace SparseTensor

/-- The entries that are not the first at their coordinate. -/
def later (es : List Entry) : List Entry :=
  (es.zipIdx.filter fun x => x.1.coords ∈ (es.take x.2).map Entry.coords).map Prod.fst

/-! ## Later insertions -/

/-- One more entry is later than another one if its coordinate occurs already. -/
theorem later_concat (es : List Entry) (e : Entry) :
    later (es ++ [e]) = later es ++ if e.coords ∈ es.map Entry.coords then [e] else [] := by
  have hbefore : es.zipIdx.filter (fun x => x.1.coords ∈ ((es ++ [e]).take x.2).map Entry.coords) =
      es.zipIdx.filter fun x => x.1.coords ∈ (es.take x.2).map Entry.coords := by
    refine List.filter_congr fun x hx => ?_
    have hi : x.2 < es.length := (List.mem_zipIdx' hx).1
    rw [List.take_append_of_le_length (Nat.le_of_lt hi)]
  rw [later, List.zipIdx_append, List.filter_append, hbefore, List.map_append, later]
  by_cases h : e.coords ∈ es.map Entry.coords
  · simp [h]
  · simp [h]

theorem count_coords_later (es : List Entry) (c : List Nat) :
    ((later es).map Entry.coords).count c = (es.map Entry.coords).count c - 1 := by
  induction es using List.reverseRecOn with
  | nil => rfl
  | append_singleton es e ih =>
    rw [later_concat, List.map_append, List.count_append, ih, List.map_append, List.count_append,
      List.map_singleton]
    by_cases hmem : e.coords ∈ es.map Entry.coords
    · rw [if_pos hmem, List.map_singleton]
      by_cases hc : e.coords = c
      · have hpos : 0 < (es.map Entry.coords).count c := List.count_pos_iff.2 (hc ▸ hmem)
        omega
      · simp [hc]
    · rw [if_neg hmem]
      by_cases hc : e.coords = c
      · subst hc
        simp [List.count_eq_zero_of_not_mem hmem]
      · simp [hc]

/-- A coordinate is repeated if it occurs twice. -/
theorem mem_coords_later {es : List Entry} {c : List Nat} :
    c ∈ (later es).map Entry.coords ↔ 2 ≤ (es.map Entry.coords).count c := by
  rw [← List.count_pos_iff, count_coords_later]
  omega

theorem mem_of_mem_later {es : List Entry} {e : Entry} (h : e ∈ later es) : e ∈ es := by
  obtain ⟨x, hx, rfl⟩ := List.mem_map.1 h
  exact List.fst_mem_of_mem_zipIdx (List.mem_filter.1 hx).1

/-- What keeps coordinates apart keeps repetitions. -/
theorem later_map {f : Entry → Entry} {es : List Entry}
    (hf : ∀ a ∈ es, ∀ b ∈ es, (f a).coords = (f b).coords ↔ a.coords = b.coords) :
    later (es.map f) = (later es).map f := by
  induction es using List.reverseRecOn with
  | nil => rfl
  | append_singleton es e ih =>
    have hmem : (f e).coords ∈ (es.map f).map Entry.coords ↔ e.coords ∈ es.map Entry.coords := by
      simp only [List.map_map, List.mem_map, Function.comp_apply]
      refine exists_congr fun a => and_congr_right fun ha => ?_
      exact hf a (List.mem_append_left _ ha) e (List.mem_append_right _ List.mem_cons_self)
    have ih := ih fun a ha b hb => hf a (List.mem_append_left _ ha) b (List.mem_append_left _ hb)
    rw [List.map_append, List.map_singleton, later_concat, later_concat, ih, List.map_append]
    by_cases h : e.coords ∈ es.map Entry.coords
    · rw [if_pos h, if_pos (hmem.2 h), List.map_singleton]
    · rw [if_neg h, if_neg (mt hmem.1 h), List.map_nil]

namespace Builder

/-! ## Repetitions in sorted entries -/

theorem repeats_sublist (es : List Entry) : (repeats es).Sublist es.tail := by
  induction es with
  | nil => exact .slnil
  | cons e es ih =>
    cases es with
    | nil => exact .slnil
    | cons f es =>
      rw [repeats]
      split
      · exact ih.cons_cons f
      · exact ih.cons f

theorem count_coords_repeats {es : List Entry}
    (hsorted : es.Pairwise fun a b => coordsLe a.coords b.coords = true) (c : List Nat) :
    ((repeats es).map Entry.coords).count c = (es.map Entry.coords).count c - 1 := by
  induction es with
  | nil => rfl
  | cons e es ih =>
    cases es with
    | nil => by_cases hc : e.coords = c <;> simp [repeats, hc]
    | cons f es =>
      obtain ⟨hle, hsorted⟩ := List.pairwise_cons.1 hsorted
      rw [repeats, List.map_cons, List.count_cons]
      by_cases hfe : f.coords = e.coords
      · rw [if_pos hfe, List.map_cons, List.count_cons, ih hsorted, List.map_cons, List.count_cons]
        by_cases hc : e.coords = c <;> simp [hfe, hc]
      · rw [if_neg hfe, ih hsorted]
        by_cases hc : e.coords = c
        · -- What is behind `f` is not before it, and so is not at the coordinate of `e` again.
          have habsent : c ∉ (f :: es).map Entry.coords := by
            intro hmem
            obtain ⟨x, hx, rfl⟩ := List.mem_map.1 hmem
            have hfx : coordsLe f.coords x.coords = true := by
              rcases List.mem_cons.1 hx with rfl | hx
              · exact coordsLe_refl _
              · exact (List.pairwise_cons.1 hsorted).1 x hx
            exact hfe (coordsLe_antisymm (hc ▸ hfx) (hle f List.mem_cons_self))
          rw [List.count_eq_zero_of_not_mem habsent]
          simp [hc]
        · simp [hc]

/-- Sorting brings repetitions together and makes no others. -/
theorem repeats_perm (es : List Entry) :
    ((repeats (es.mergeSort Entry.le)).map Entry.coords).Perm ((later es).map Entry.coords) := by
  rw [List.perm_iff_count]
  intro c
  have hperm := (List.mergeSort_perm es Entry.le).map Entry.coords
  rw [count_coords_repeats (pairwise_mergeSort_le es), count_coords_later, hperm.count_eq]

end Builder

end SparseTensor
