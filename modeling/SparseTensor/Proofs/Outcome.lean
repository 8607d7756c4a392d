import SparseTensor.Proofs.Insertions

/-!
# The outcome of packing

Packing may be refused for a size that is not known, for a type without a zero, for a coordinate
that was inserted twice and for an integer that does not fit its lane, in this order.

**Theorem (`pack_outcome`).** Each of the four happens exactly when the insertions, the type and the
format give a reason for it, and otherwise a storage is packed. Nothing is read out of bounds on the
way, and the checks of levels, indices and storages accept all that packing builds.

The reasons are said without packing. Which levels can be written (`Level.Writable`) and how many
positions they have (`Level.positionCounts`) depends only on the coordinates, so the insertions
stand for what is left of them. `Ending` lists the five ways to end, each with its reason, and the
reasons exclude one another.
-/

namespace SparseTensor

/-- A size that is not known is reported at the first mode that has one. -/
theorem Shape.firstUnknown?_eq_some {s : Shape} {mode : Nat} :
    s.firstUnknown? = some mode ↔
      s.dims[mode]? = some .unknown ∧ ∀ m < mode, s.dims[m]? ≠ some .unknown := by
  have hunknown : ∀ d : Dimension, (!d.isFixed) = true ↔ d = .unknown := by
    intro d
    cases d <;> simp [Dimension.isFixed]
  rw [firstUnknown?, List.findIdx?_eq_some_iff_getElem]
  simp only [hunknown]
  constructor
  · rintro ⟨hmode, hd, hbefore⟩
    refine ⟨List.getElem?_eq_some_iff.2 ⟨hmode, hd⟩, fun m hm hdm => ?_⟩
    obtain ⟨hm', hdm⟩ := List.getElem?_eq_some_iff.1 hdm
    exact hbefore m hm hdm
  · intro h
    obtain ⟨hmode, hd⟩ := List.getElem?_eq_some_iff.1 h.1
    refine ⟨hmode, hd, fun m hm hdm => ?_⟩
    exact h.2 m hm (List.getElem?_eq_some_iff.2 ⟨_, hdm⟩)

theorem Shape.isFixed_iff {s : Shape} : s.isFixed = true ↔ s.firstUnknown? = none := by
  rw [firstUnknown?_eq_none, isFixed, List.all_eq_true]

theorem Value.exists_zero {t : DataType} (h : t ≠ .undefined) : ∃ v, Value.zero t = .ok v := by
  cases t with
  | undefined => exact absurd rfl h
  | _ => exact ⟨_, rfl⟩

namespace Builder

open Segment Level

variable {type : TensorType} {format : Format} {es : List Entry} {b : Builder} {s : Storage}
  {zero : Value} {levels : List Level} {leaves : List Segment}

/-! ## The stages -/

theorem pack_of_unknown {mode : Nat} (h : b.type.shape.firstUnknown? = some mode) :
    b.pack = .error (.variableDimension mode) := by
  rw [pack, packLogged, h]

theorem pack_of_undefined (hknown : b.type.shape.firstUnknown? = none)
    (h : b.type.component = .undefined) :
    b.pack = .error (.domainMismatch .undefined .undefined) := by
  rw [pack, packLogged, hknown, h]
  rfl

variable (hknown : b.type.shape.firstUnknown? = none)
  (hzero : Value.zero b.type.component = .ok zero)

include hknown hzero

theorem pack_of_repeated {c : List Nat} {cs : List (List Nat)} (hrefuse : b.duplicates = .refuse)
    (h : b.repeated = c :: cs) : b.pack = .error (.duplicateCoordinate c) := by
  rw [pack, packLogged, hknown, hzero, hrefuse, h]

theorem pack_of_packStack_error {e : Fault} (haccepted : b.duplicates = .refuse → b.repeated = [])
    (h : Level.packStack 0 b.stack [firsts b.sorted] = .error e) : b.pack = .error e := by
  have hassemble : b.assemble (firsts b.sorted) zero = .error e := by
    rw [assemble, h]
    rfl
  rw [pack, packLogged, hknown, hzero]
  dsimp only
  split
  · next hrefuse hrepeated =>
    rw [haccepted hrefuse] at hrepeated
    cases hrepeated
  · rw [hassemble]

omit hknown hzero

/-! ## What is built is accepted -/

section

variable (h : b.Holds type format es)

include h

/-- The value at a leaf has the type of the components. -/
theorem Holds.type_of_leafValue (hzero : Value.zero type.component = .ok zero) (path : List Nat) :
    (leafValue zero (along (firsts b.sorted) path)).type = type.component := by
  rw [leafValue]
  cases hseg : along (firsts b.sorted) path with
  | nil => exact Value.type_of_zero hzero
  | cons x seg =>
    have hx : x ∈ along (firsts b.sorted) path := by
      rw [hseg]
      exact List.mem_cons_self
    obtain ⟨e, he, rfl⟩ := h.mem_firsts.1 (mem_along.1 hx).1
    exact h.typed e (List.mem_of_find?_eq_some he)

variable (hknown : b.type.shape.firstUnknown? = none)

include hknown

/-- What is laid is accepted as an index, and as a storage with its values. -/
theorem Holds.accepted_of_laid (hzero : Value.zero type.component = .ok zero)
    (hroom : ∀ n ∈ positionCounts (es.map format.atLevels) 0 1 b.stack, n + 1 < positionLimit)
    {paths : List (List Nat)} (hlaid : Laid (firsts b.sorted) [[]] b.stack levels paths) :
    ∃ index s, Index.ofLevels format levels = .ok index ∧
      Storage.ofValues type.component format index
        ((paths.map (along (firsts b.sorted))).map (leafValue zero)) = .ok s := by
  have hkinds : (b.stack.map fun x => x.1.kind) = format.kinds := by
    rw [Format.kinds, ← h.levels_eq, List.map_map]
    rfl
  have hlength : levels.length = format.order := by
    rw [← (ofArrays_of_laid hlaid).length_eq, Format.order, ← h.levels_eq, List.length_map]
  have hstacked := stackExtent_of_laid (h.proper hknown) (pathsOf_top _) rfl hlaid (by decide)
    (by rw [positionCounts_congr h.mem_coords_firsts]; exact hroom)
  rw [hkinds] at hstacked
  have hvalues : ((paths.map (along (firsts b.sorted))).map (leafValue zero)).length =
      paths.length := by
    rw [List.length_map, List.length_map]
  have htyped : ∀ v ∈ (paths.map (along (firsts b.sorted))).map (leafValue zero),
      v.type = type.component := by
    simp only [List.forall_mem_map]
    intro path _
    exact h.type_of_leafValue hzero path
  refine ⟨⟨format, levels, paths.length, hlength, hstacked⟩,
    ⟨type.component, ⟨format, levels, paths.length, hlength, hstacked⟩, _, hvalues, htyped⟩,
    Index.ofLevels_eq_ok.2 ⟨rfl, rfl⟩, Storage.ofValues_eq_ok.2 ⟨rfl, rfl, rfl, rfl⟩⟩

theorem Holds.exists_pack_ok (hzero : Value.zero type.component = .ok zero)
    (haccepted : b.duplicates = .refuse → b.repeated = [])
    (hroom : ∀ n ∈ positionCounts (es.map format.atLevels) 0 1 b.stack, n + 1 < positionLimit)
    {paths : List (List Nat)} (hlaid : Laid (firsts b.sorted) [[]] b.stack levels paths) :
    ∃ s, b.pack = .ok s := by
  obtain ⟨index, s, hindex, hs⟩ := h.accepted_of_laid hknown hzero hroom hlaid
  obtain ⟨hformat, rfl⟩ := Index.ofLevels_eq_ok.1 hindex
  obtain ⟨-, htype, rfl, hvalues⟩ := Storage.ofValues_eq_ok.1 hs
  refine ⟨s, pack_eq_ok.2 ⟨zero, paths.map (along (firsts b.sorted)), ?_⟩⟩
  exact {
    known := hknown
    zero_eq := by rwa [h.type_eq]
    accepted := haccepted
    stack_eq := (h.packStack_eq_ok hknown).2 ⟨paths, hlaid, rfl⟩
    format_eq := by rw [hformat, h.format_eq]
    type_eq := by rw [htype, h.type_eq]
    values_eq := hvalues }

end

/-! ## How packing ends -/

/-- Every read that packing makes of the ordering, the shape and the coordinates is in bounds. -/
structure ReadsInBounds (b : Builder) : Prop where
  /-- Each level has a dimension. -/
  ordering : b.format.ordering.length = b.format.order
  dims : ∀ d ∈ b.format.ordering, d < b.type.shape.order
  /-- An insertion has a component for each dimension, so it can be read in level order. -/
  coords : ∀ e ∈ b.entries, ∀ d ∈ b.format.ordering, d < e.coords.length
  /-- In level order there is a component for each level. -/
  sorted : ∀ e ∈ b.sorted, ∀ k < b.format.order, k < e.coords.length

theorem Holds.readsInBounds (h : b.Holds type format es) : b.ReadsInBounds where
  ordering := b.format.length_ordering
  dims := by
    intro d hd
    rw [h.type_eq, ← h.order, ← h.format_eq]
    exact b.format.lt_order_of_mem hd
  coords := by
    intro e he d hd
    rw [h.entries_eq] at he
    rw [h.length_coords he, ← h.format_eq]
    exact b.format.lt_order_of_mem hd
  sorted := by
    intro e he k hk
    rw [h.sorted_eq, List.mem_mergeSort] at he
    obtain ⟨e, -, rfl⟩ := List.mem_map.1 he
    rwa [Format.atLevels, format.length_toLevelOrder, ← h.format_eq]

/-- A coordinate was inserted twice, and that is refused. -/
def Refuses (b : Builder) (es : List Entry) : Prop :=
  b.duplicates = .refuse ∧ ∃ c, 2 ≤ (es.map Entry.coords).count c

/-- There is a level that cannot be written. -/
def Overflows (b : Builder) (es : List Entry) : Prop :=
  ∃ k x, b.stack[k]? = some x ∧ ¬ Writable (es.map b.format.atLevels) k x

/-- The ways in which packing ends, each with its reason. -/
inductive Ending (b : Builder) (es : List Entry) : Prop
  | unknown (mode : Nat) :
      b.type.shape.firstUnknown? = some mode → b.pack = .error (.variableDimension mode) →
        Ending b es
  | undefined :
      b.type.shape.firstUnknown? = none → b.type.component = .undefined →
      b.pack = .error (.domainMismatch .undefined .undefined) → Ending b es
  | repeated (c : List Nat) :
      b.type.shape.firstUnknown? = none → b.type.component ≠ .undefined → b.Refuses es →
      2 ≤ (es.map Entry.coords).count c → b.pack = .error (.duplicateCoordinate c) → Ending b es
  | outOfRange (v : Int) (t : DataType) :
      b.type.shape.firstUnknown? = none → b.type.component ≠ .undefined → ¬ b.Refuses es →
      b.Overflows es → (∃ f ∈ b.format.levels, ∃ lane ∈ f.lanes, t = lane.type ∧
        lane.holds v = false) → b.pack = .error (.valueOutOfRange v t) → Ending b es
  | packed (s : Storage) :
      b.type.shape.firstUnknown? = none → b.type.component ≠ .undefined → ¬ b.Refuses es →
      ¬ b.Overflows es → b.pack = .ok s → Ending b es

/-- Insertions that are not refused are packed, or a level cannot be written. -/
theorem Holds.ending_of_accepted (h : b.Holds type format es)
    (hknown : b.type.shape.firstUnknown? = none) (htyped : b.type.component ≠ .undefined)
    (hroom : ∀ n ∈ positionCounts (es.map format.atLevels) 0 1 b.stack, n + 1 < positionLimit)
    (haccepted : ¬ b.Refuses es) : Ending b es := by
  obtain rfl := h.type_eq
  obtain rfl := h.format_eq
  obtain ⟨zero, hzero⟩ := Value.exists_zero htyped
  have hrepeated : b.duplicates = .refuse → b.repeated = [] := by
    intro hrefuse
    by_contra hne
    exact haccepted ⟨hrefuse, h.repeated_ne_nil.1 hne⟩
  have hlaid := h.exists_laid_iff hknown
  by_cases hoverflow : b.Overflows es
  · cases hstack : packStack 0 b.stack [firsts b.sorted] with
    | ok r =>
      obtain ⟨paths, hpaths, -⟩ := (h.packStack_eq_ok hknown).1 hstack
      obtain ⟨k, x, hx, hunwritable⟩ := hoverflow
      exact absurd (hlaid.1 ⟨_, paths, hpaths⟩ k x hx) hunwritable
    | error e =>
      obtain ⟨x, hx, v, lane, hlane, rfl, hv⟩ := packStack_eq_error hstack
      have hlevel : x.1 ∈ b.format.levels := by
        rw [← h.levels_eq]
        exact List.mem_map_of_mem hx
      exact .outOfRange v lane.type hknown htyped haccepted hoverflow
        ⟨x.1, hlevel, lane, hlane, rfl, hv⟩ (pack_of_packStack_error hknown hzero hrepeated hstack)
  · have hwritable : ∀ k x, b.stack[k]? = some x → Writable (es.map b.format.atLevels) k x := by
      intro k x hx
      by_contra hunwritable
      exact hoverflow ⟨k, x, hx, hunwritable⟩
    obtain ⟨levels, paths, hpaths⟩ := hlaid.2 hwritable
    obtain ⟨s, hs⟩ := h.exists_pack_ok hknown hzero hrepeated hroom hpaths
    exact .packed s hknown htyped haccepted hoverflow hs

theorem Holds.ending (h : b.Holds type format es)
    (hroom : b.type.shape.firstUnknown? = none →
      ∀ n ∈ positionCounts (es.map format.atLevels) 0 1 b.stack, n + 1 < positionLimit) :
    Ending b es := by
  cases hknown : b.type.shape.firstUnknown? with
  | some mode => exact .unknown mode hknown (pack_of_unknown hknown)
  | none =>
    by_cases htyped : b.type.component = .undefined
    · exact .undefined hknown htyped (pack_of_undefined hknown htyped)
    · by_cases hrefuses : b.Refuses es
      · obtain ⟨c, cs, hcs⟩ := List.exists_cons_of_ne_nil (h.repeated_ne_nil.2 hrefuses.2)
        obtain ⟨zero, hzero⟩ := Value.exists_zero htyped
        have hcount : 2 ≤ (es.map Entry.coords).count c := by
          apply h.mem_repeated.1
          rw [hcs]
          exact List.mem_cons_self
        exact .repeated c hknown htyped hrefuses hcount
          (pack_of_repeated hknown hzero hrefuses.1 hcs)
      · exact h.ending_of_accepted hknown htyped (hroom hknown) hrefuses

/-- **The outcome of packing.** Let there be fewer positions at every level than can be numbered.
Packing is refused for the first mode of unknown size, if there is one; else for the type, if it has
no zero; else for a coordinate that was inserted twice, if that is refused and there is one; else
for an integer that does not fit its lane, if a level cannot be written; else a storage is packed.
No read on the way is out of bounds, and what is built passes the checks of levels, indices and
storages. -/
theorem pack_outcome (hb : Built type format es b)
    (hroom : type.shape.isFixed = true →
      ∀ n ∈ positionCounts (es.map format.atLevels) 0 1 b.stack, n + 1 < positionLimit) :
    b.ReadsInBounds ∧
      (∀ mode, b.pack = .error (.variableDimension mode) ↔
        type.shape.dims[mode]? = some .unknown ∧
          ∀ m < mode, type.shape.dims[m]? ≠ some .unknown) ∧
      (type.shape.isFixed = true →
        (b.pack = .error (.domainMismatch .undefined .undefined) ↔ type.component = .undefined) ∧
        (type.component ≠ .undefined →
          ((∃ c, b.pack = .error (.duplicateCoordinate c)) ↔ b.Refuses es) ∧
          (∀ c, b.pack = .error (.duplicateCoordinate c) → 2 ≤ (es.map Entry.coords).count c) ∧
          (¬ b.Refuses es →
            ((∃ v t, b.pack = .error (.valueOutOfRange v t)) ↔ b.Overflows es) ∧
            (∀ v t, b.pack = .error (.valueOutOfRange v t) →
              ∃ f ∈ format.levels, ∃ lane ∈ f.lanes, t = lane.type ∧ lane.holds v = false) ∧
            ((∃ s, b.pack = .ok s) ↔ ¬ b.Overflows es)) ∧
          ∀ zero levels leaves, Value.zero type.component = .ok zero →
            packStack 0 b.stack [firsts b.sorted] = .ok (levels, leaves) →
              List.Forall₂ (fun x l => ofArrays x.1.kind l.arrays = .ok l) b.stack levels ∧
              ∃ index s, Index.ofLevels format levels = .ok index ∧
                Storage.ofValues type.component format index (leaves.map (leafValue zero)) =
                  .ok s)) := by
  have hb := hb.holds
  obtain rfl := hb.type_eq
  obtain rfl := hb.format_eq
  rw [Shape.isFixed_iff] at hroom ⊢
  have hend := hb.ending hroom
  refine ⟨hb.readsInBounds, ?_, fun hknown => ⟨?_, fun htyped => ⟨?_, ?_, fun haccepted =>
    ⟨?_, ?_, ?_⟩, ?_⟩⟩⟩
  -- The reason of each ending excludes the others.
  · intro mode
    rw [← Shape.firstUnknown?_eq_some]
    cases hend <;> simp [*]
  · cases hend <;> simp_all
  · cases hend <;> simp_all
  · cases hend <;> simp_all
  · cases hend <;> simp_all
  · cases hend <;> simp_all
  · cases hend <;> simp_all
  · intro zero levels leaves hzero hstack
    obtain ⟨paths, hlaid, rfl⟩ := (hb.packStack_eq_ok hknown).1 hstack
    exact ⟨ofArrays_of_laid hlaid, hb.accepted_of_laid hknown hzero (hroom hknown) hlaid⟩

/-- A compressed vector of one thousand components whose coordinates are kept in eight bits has no
room for an insertion at `[300]`. -/
theorem pack_outcome_narrow :
    let type : TensorType := ⟨.bool, ⟨[.fixed 1000 (by decide)]⟩⟩
    let format : Format := ⟨[.sparse .int32 ⟨.uint .w8, rfl⟩], [0], by decide⟩
    ∃ b, Built type format [⟨[300], .bool true⟩] b ∧
      ∃ v t, b.pack = .error (.valueOutOfRange v t) := by
  intro type format
  have hb : Built type format [⟨[300], .bool true⟩]
      ⟨type, format, .keepFirst, [⟨[300], .bool true⟩]⟩ :=
    (Built.new rfl).insert ⟨[300], .bool true⟩ rfl
  have hroom : type.shape.isFixed = true →
      ∀ n ∈ positionCounts ([⟨[300], .bool true⟩].map format.atLevels) 0 1
        (stack ⟨type, format, .keepFirst, [⟨[300], .bool true⟩]⟩), n + 1 < positionLimit := by
    decide
  obtain ⟨-, -, hfixed⟩ := pack_outcome hb hroom
  obtain ⟨-, htyped⟩ := hfixed rfl
  obtain ⟨-, -, haccepted, -⟩ := htyped (by decide)
  obtain ⟨hoverflow, -⟩ := haccepted fun hrefuses => nomatch hrefuses.1
  refine ⟨_, hb, hoverflow.2 ⟨0, _, rfl, fun hwritable => ?_⟩⟩
  have hroom := hwritable.2 _ (List.mem_singleton_self _)
  revert hroom
  decide

end Builder

end SparseTensor
