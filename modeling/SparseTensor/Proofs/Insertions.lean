import SparseTensor.Proofs.Faithful
import SparseTensor.Proofs.Layout
import SparseTensor.Proofs.Repetitions

/-!
# What insertions come to

Packing sorts the insertions in level order and keeps the first of each coordinate. The others are
the insertions that were later than another one (`Holds.repeated_perm`), so there are repetitions if
and only if a coordinate was inserted twice (`Holds.repeated_ne_nil`). What is left is at the
coordinates that were inserted (`Holds.mem_coords_firsts`).

What is left is proper below the top, so what is said about packed stacks holds of it: packing it
gives what is laid over a single position with the empty path (`Holds.packStack_eq_ok`), and whether
there is such a layout can be read off the insertions (`Holds.exists_laid_iff`).
-/

namespace SparseTensor.Builder

open Segment Level

variable {type : TensorType} {format : Format} {es : List Entry} {b : Builder}
  {levels : List Level} {leaves : List Segment}

/-! ## Repetitions -/

/-- The coordinates that packing finds repeated are those of the later insertions, each as often. -/
theorem Holds.repeated_perm (h : b.Holds type format es) :
    b.repeated.Perm ((later es).map Entry.coords) := by
  have hlater : later (es.map format.atLevels) = (later es).map format.atLevels :=
    later_map fun e he f hf => format.toLevelOrder_inj (h.length_coords he) (h.length_coords hf)
  have hperm := (repeats_perm (es.map format.atLevels)).map format.toDimensionOrder
  rw [← h.sorted_eq, hlater, List.map_map, List.map_map, List.map_map] at hperm
  rw [repeated, h.format_eq]
  refine hperm.trans (.of_eq (List.map_congr_left fun e he => ?_))
  exact format.toDimensionOrder_toLevelOrder (h.length_coords (mem_of_mem_later he))

theorem Holds.mem_repeated (h : b.Holds type format es) {c : List Nat} :
    c ∈ b.repeated ↔ 2 ≤ (es.map Entry.coords).count c := by
  rw [h.repeated_perm.mem_iff, mem_coords_later]

/-- There are repetitions if a coordinate was inserted twice. -/
theorem Holds.repeated_ne_nil (h : b.Holds type format es) :
    b.repeated ≠ [] ↔ ∃ c, 2 ≤ (es.map Entry.coords).count c := by
  simp only [← h.mem_repeated]
  exact ⟨List.exists_mem_of_ne_nil _, fun ⟨c, hc⟩ => List.ne_nil_of_mem hc⟩

/-! ## The layout of what is left -/

section

variable (h : b.Holds type format es)

include h

theorem Holds.stack_eq : b.stack = format.levels.zip (format.ordering.map type.shape.size) := by
  rw [stack, h.format_eq, h.type_eq]

theorem Holds.levels_eq : b.stack.map Prod.fst = format.levels := by
  rw [h.stack_eq]
  exact List.map_fst_zip (by rw [List.length_map, format.length_ordering, Format.order])

/-- Nothing is inserted anywhere else than what is left. -/
theorem Holds.mem_coords_firsts (c : List Nat) :
    c ∈ (firsts b.sorted).map Entry.coords ↔ c ∈ (es.map format.atLevels).map Entry.coords := by
  simp only [List.mem_map, h.mem_firsts]
  constructor
  · rintro ⟨x, ⟨e, he, rfl⟩, rfl⟩
    exact ⟨_, ⟨e, List.mem_of_find?_eq_some he, rfl⟩, rfl⟩
  · rintro ⟨x, ⟨e, he, rfl⟩, rfl⟩
    obtain ⟨first, hfirst⟩ := exists_firstAt? he
    have hcoords := coords_of_firstAt? hfirst
    refine ⟨format.atLevels first, ⟨first, by rwa [hcoords], rfl⟩, ?_⟩
    rw [Format.atLevels, Format.atLevels, hcoords]

/-- The paths of insertions are those of what is left of them. -/
theorem Holds.exists_prefix_iff {path : List Nat} :
    (∃ x ∈ firsts b.sorted, path <+: x.coords) ↔
      ∃ e ∈ es, path <+: format.toLevelOrder e.coords := by
  have hmap : ∀ u : Segment, (∃ x ∈ u, path <+: x.coords) ↔
      ∃ c ∈ u.map Entry.coords, path <+: c := by
    intro u
    simp only [List.mem_map, exists_exists_and_eq_and]
  rw [hmap]
  simp only [h.mem_coords_firsts, List.mem_map, exists_exists_and_eq_and]
  rfl

variable (hknown : b.type.shape.firstUnknown? = none)

include hknown

theorem Holds.packStack_eq_ok :
    Level.packStack 0 b.stack [firsts b.sorted] = .ok (levels, leaves) ↔
      ∃ paths, Level.Laid (firsts b.sorted) [[]] b.stack levels paths ∧
        leaves = paths.map (along (firsts b.sorted)) := by
  have htop : packStack 0 b.stack ([[]].map (along (firsts b.sorted))) = .ok (levels, leaves) ↔ _ :=
    Level.packStack_eq_ok (h.proper hknown) (pathsOf_top _) rfl
  rwa [List.map_singleton, along_nil] at htop

theorem Holds.exists_laid_iff :
    (∃ levels paths, Level.Laid (firsts b.sorted) [[]] b.stack levels paths) ↔
      ∀ k x, b.stack[k]? = some x → Level.Writable (es.map format.atLevels) k x := by
  rw [Level.exists_laid_iff (h.proper hknown) (pathsOf_top _) rfl]
  simp only [Nat.zero_add, Level.writable_congr h.mem_coords_firsts]

end

end SparseTensor.Builder
