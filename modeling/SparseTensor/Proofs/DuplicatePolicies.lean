import SparseTensor.Proofs.Reordering
import SparseTensor.Proofs.WellFormedStacks

/-!
# The two policies for duplicates

A builder that keeps first insertions drops the others and logs a warning for each, and one that
refuses repetitions fails instead. Both go by the same repetitions.

**Theorem (`pack_policies`).** If first insertions are kept, there is one warning for every
insertion that is not the first at its coordinate, and it names that coordinate. The warnings go by
level order. If repetitions are refused, packing fails for the coordinate of the first warning, and
where there is no warning the two policies make no difference.

No later stage of packing can fail for a coordinate (`pack_ne_duplicate`), so a refused coordinate
is always a repetition.
-/

namespace SparseTensor

/-- The coordinate that a warning names. -/
def PackEvent.ignored? : PackEvent → Option (List Nat)
  | duplicateIgnored coords => some coords
  | packed .. => none

namespace Builder

variable {type : TensorType} {format : Format} {es : List Entry} {b : Builder} {zero : Value}

/-- The coordinates that packing warns about, in the order of the log. -/
def warned (b : Builder) : List (List Nat) := b.packLogged.2.filterMap PackEvent.ignored?

/-! ## Warnings -/

theorem Holds.repeated_sorted (h : b.Holds type format es) :
    b.repeated.Pairwise fun c d =>
      coordsLe (format.toLevelOrder c) (format.toLevelOrder d) = true := by
  have hback : ∀ x ∈ repeats b.sorted,
      format.toLevelOrder (b.format.toDimensionOrder x.coords) = x.coords := by
    intro x hx
    have hmem := List.mem_of_mem_tail ((repeats_sublist _).subset hx)
    rw [h.sorted_eq, List.mem_mergeSort] at hmem
    obtain ⟨e, -, rfl⟩ := List.mem_map.1 hmem
    rw [h.format_eq]
    exact format.toLevelOrder_toDimensionOrder (by simp [Format.atLevels])
  rw [repeated, List.pairwise_map]
  have hsorted := (pairwise_mergeSort_le _).sublist
    ((repeats_sublist b.sorted).trans (List.tail_sublist _))
  refine hsorted.imp_of_mem fun {x y} hx hy hxy => ?_
  rwa [hback x hx, hback y hy]

theorem warned_of_keepFirst (hknown : b.type.shape.firstUnknown? = none)
    (hzero : Value.zero b.type.component = .ok zero) (hkeep : b.duplicates = .keepFirst) :
    b.warned = b.repeated := by
  have hwarnings : ∀ cs : List (List Nat),
      (cs.map PackEvent.duplicateIgnored).filterMap PackEvent.ignored? = cs := by
    intro cs
    simp [List.filterMap_map, Function.comp_def, PackEvent.ignored?]
  rw [warned, packLogged, hknown, hzero, hkeep]
  dsimp only
  cases b.assemble (firsts b.sorted) zero with
  | error e => exact hwarnings _
  | ok r =>
    dsimp only
    rw [List.filterMap_append, hwarnings]
    simp [PackEvent.ignored?]

/-! ## Refusals -/

/-- What is left once repetitions are out of the way fails for other reasons. -/
theorem assemble_ne_duplicate {u : Segment} {c : List Nat} :
    b.assemble u zero ≠ .error (.duplicateCoordinate c) := by
  intro h
  simp only [assemble, bind_eq_error] at h
  rcases h with h | ⟨⟨levels, leaves⟩, -, h | ⟨index, -, h⟩⟩
  · obtain ⟨_, _, _, _, _, he, _⟩ := Level.packStack_eq_error h
    cases he
  · rcases Index.of_ofLevels_error h with ⟨-, he⟩ | ⟨-, k, hk⟩
    · cases he
    · rcases hk.fault with he | ⟨_, _, _, _, _, he⟩
      · cases he
      · cases he
  · cases h

theorem ofValues_ne_duplicate {index : Index} {values : List Value} {c : List Nat}
    {type : DataType} {format : Format} :
    Storage.ofValues type format index values ≠ .error (.duplicateCoordinate c) := by
  intro h
  rw [Storage.ofValues] at h
  split at h
  · cases h
  · split at h
    · split at h <;> cases h
    · cases h

theorem pack_ne_duplicate (hknown : b.type.shape.firstUnknown? = none)
    (hzero : Value.zero b.type.component = .ok zero)
    (haccepted : b.duplicates = .refuse → b.repeated = []) {c : List Nat} :
    b.pack ≠ .error (.duplicateCoordinate c) := by
  rw [pack_of_accepted hknown hzero haccepted, ne_eq, bind_eq_error]
  rintro (h | ⟨r, -, h⟩)
  · exact assemble_ne_duplicate h
  · exact ofValues_ne_duplicate h

theorem pack_eq_duplicate (hknown : b.type.shape.firstUnknown? = none)
    (hzero : Value.zero b.type.component = .ok zero) (hrefuse : b.duplicates = .refuse)
    {c : List Nat} : b.pack = .error (.duplicateCoordinate c) ↔ b.repeated.head? = some c := by
  cases hrepeated : b.repeated with
  | nil =>
    simp only [List.head?_nil, reduceCtorEq, iff_false]
    exact pack_ne_duplicate hknown hzero fun _ => hrepeated
  | cons d ds =>
    rw [pack_of_repeated hknown hzero hrefuse hrepeated]
    simp

/-- **The two policies for duplicates.** Let all sizes be known and the type have a zero, and let
`es` be the insertions in their order.

- Where first insertions are kept, there is one warning for every insertion that is not the first
  at its coordinate. It names the coordinate in dimension order, and the warnings are sorted by
  level order.
- Where repetitions are refused, packing fails for a coordinate iff there are warnings under the
  other policy and it is the one that the first of them names.
- If there are no warnings, both policies end alike: with one storage, or for one fault. -/
theorem pack_policies (hb : Built type format es b) (hfixed : type.shape.isFixed = true)
    (htyped : type.component ≠ .undefined) :
    let keeping := { b with duplicates := .keepFirst }
    let refusing := { b with duplicates := .refuse }
    keeping.warned.Perm ((later es).map Entry.coords) ∧
      keeping.warned.Pairwise (fun c d =>
        coordsLe (format.toLevelOrder c) (format.toLevelOrder d) = true) ∧
      ((∃ c, refusing.pack = .error (.duplicateCoordinate c)) ↔ keeping.warned ≠ []) ∧
      (∀ c, refusing.pack = .error (.duplicateCoordinate c) ↔ keeping.warned.head? = some c) ∧
      (keeping.warned = [] → refusing.pack = keeping.pack) := by
  intro keeping refusing
  have hb := hb.holds
  have hkeeping : keeping.Holds type format es := ⟨hb.1, hb.2, hb.3, hb.4, hb.5, hb.6⟩
  have hknown : b.type.shape.firstUnknown? = none := by
    rw [hb.type_eq]
    exact Shape.isFixed_iff.1 hfixed
  obtain ⟨zero, hzero⟩ := Value.exists_zero (t := b.type.component) (by rwa [hb.type_eq])
  have hwarned : keeping.warned = b.repeated := warned_of_keepFirst hknown hzero rfl
  have hrefused : ∀ c, refusing.pack = .error (.duplicateCoordinate c) ↔
      b.repeated.head? = some c := fun c => pack_eq_duplicate (b := refusing) hknown hzero rfl
  rw [hwarned]
  refine ⟨hkeeping.repeated_perm, hkeeping.repeated_sorted, ?_, hrefused, fun hnone => ?_⟩
  · simp only [hrefused, ← Option.isSome_iff_exists, List.isSome_head?]
  · exact pack_congr (b := refusing) rfl rfl rfl (fun _ => hnone) (fun _ => hnone)

/-- In compressed columns of two rows and three columns, with two insertions at `[1, 0]` and three
at `[0, 1]`. The column comes first, so the warning about `[1, 0]` does. -/
theorem pack_policies_csc :
    let type : TensorType := ⟨.bool, ⟨[.fixed 2 (by decide), .fixed 3 (by decide)]⟩⟩
    let es : List Entry := [⟨[0, 1], .bool true⟩, ⟨[1, 0], .bool true⟩, ⟨[0, 1], .bool false⟩,
      ⟨[1, 0], .bool false⟩, ⟨[0, 1], .bool true⟩]
    let b : Builder := ⟨type, .csc, .keepFirst, es⟩
    type.shape.isFixed = true ∧ type.component ≠ .undefined ∧ Built type .csc es b ∧
      b.warned = [[1, 0], [0, 1], [0, 1]] ∧
      pack { b with duplicates := .refuse } = .error (.duplicateCoordinate [1, 0]) := by
  intro type es b
  have hb : Built type .csc es b :=
    (((((Built.new rfl).insert ⟨[0, 1], .bool true⟩ rfl).insert ⟨[1, 0], .bool true⟩ rfl).insert
      ⟨[0, 1], .bool false⟩ rfl).insert ⟨[1, 0], .bool false⟩ rfl).insert ⟨[0, 1], .bool true⟩ rfl
  obtain ⟨hperm, hsorted, -, hrefused, -⟩ := pack_policies hb rfl (by decide)
  have hperm : b.warned.Perm [[1, 0], [0, 1], [0, 1]] := hperm.trans (by decide)
  have hwarned : b.warned = [[1, 0], [0, 1], [0, 1]] := by
    refine hperm.eq_of_pairwise (fun c d hc hd hcd hdc => ?_) hsorted (by decide)
    have hlength : ∀ c ∈ [[1, 0], [0, 1], [0, 1]], c.length = Format.csc.order := by decide
    have hlevels := coordsLe_antisymm hcd hdc
    exact (Format.csc.toLevelOrder_inj (hlength c (hperm.mem_iff.1 hc)) (hlength d hd)).1 hlevels
  exact ⟨rfl, by decide, hb, hwarned, (hrefused _).2 (congrArg List.head? hwarned)⟩

end Builder

end SparseTensor
