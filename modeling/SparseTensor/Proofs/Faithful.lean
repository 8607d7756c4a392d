import Mathlib.Data.List.Find
import SparseTensor.Proofs.Building

/-!
# Packing loses, moves and invents nothing

**Theorem (`pack_faithful`).** If a builder packs, the storage has every inserted coordinate with
the value that was inserted there first. It has no coordinate twice and none outside the shape, and
everywhere else it has zeros. What is not zero does not depend on the format.

The storage lists what `Segment.fill` makes of the first insertions (`levelEntries_of_packs`),
because the walk undoes packing. Moving coordinates to level order and back changes nothing: inside
a shape it has an inverse, and it brings the coordinates below the sizes of the levels.
-/

namespace SparseTensor

/-- The entry with its coordinate in level order. -/
def Format.atLevels (f : Format) (e : Entry) : Entry := { e with coords := f.toLevelOrder e.coords }

/-- Entries of the order of the format that agree in level order agree. -/
theorem Format.eq_of_atLevels {f : Format} {e e' : Entry} (he : e.coords.length = f.order)
    (he' : e'.coords.length = f.order) (h : f.atLevels e = f.atLevels e') : e = e' := by
  obtain ⟨hcoords, hvalue⟩ := Entry.mk.inj h
  exact congrArg₂ Entry.mk ((f.toLevelOrder_inj he he').1 hcoords) hvalue

namespace Storage

theorem length_of_mem_levelEntries {s : Storage} {x : Entry} (hx : x ∈ s.levelEntries) :
    x.coords.length = s.format.order := by
  obtain ⟨-, hall⟩ := s.walkFrom_top
  obtain ⟨i, hi, rfl⟩ := List.mem_iff_getElem.1 hx
  have hclimb := (hall.get (by rwa [hall.length_eq]) hi).1
  exact hclimb.length_coords.trans s.index.length_levels

theorem mem_entries {s : Storage} {e : Entry} :
    e ∈ s.entries ↔ e.coords.length = s.format.order ∧ s.format.atLevels e ∈ s.levelEntries := by
  rw [entries, List.mem_map]
  constructor
  · rintro ⟨x, hx, rfl⟩
    refine ⟨s.format.length_toDimensionOrder _, ?_⟩
    rw [Format.atLevels, s.format.toLevelOrder_toDimensionOrder (length_of_mem_levelEntries hx)]
    exact hx
  · rintro ⟨hlen, hx⟩
    refine ⟨_, hx, ?_⟩
    rw [Format.atLevels, s.format.toDimensionOrder_toLevelOrder hlen]

theorem map_atLevels_entries (s : Storage) : s.entries.map s.format.atLevels = s.levelEntries := by
  have hback : ∀ x ∈ s.levelEntries, s.format.atLevels
      { x with coords := s.format.toDimensionOrder x.coords } = x := by
    intro x hx
    rw [Format.atLevels, s.format.toLevelOrder_toDimensionOrder (length_of_mem_levelEntries hx)]
  rw [entries, List.map_map]
  exact (List.map_congr_left hback).trans (List.map_id _)

theorem nodup_entries {s : Storage} (h : (s.levelEntries.map Entry.coords).Nodup) :
    (s.entries.map Entry.coords).Nodup := by
  have hmap : s.entries.map Entry.coords =
      (s.levelEntries.map Entry.coords).map s.format.toDimensionOrder := by
    rw [entries, List.map_map, List.map_map]
    rfl
  rw [hmap]
  refine List.Nodup.map_on (fun c hc d hd hcd => ?_) h
  obtain ⟨x, hx, rfl⟩ := List.mem_map.1 hc
  obtain ⟨y, hy, rfl⟩ := List.mem_map.1 hd
  rw [← s.format.toLevelOrder_toDimensionOrder (length_of_mem_levelEntries hx), hcd,
    s.format.toLevelOrder_toDimensionOrder (length_of_mem_levelEntries hy)]

theorem mem_nonzeros {s : Storage} {e : Entry} :
    e ∈ s.nonzeros ↔ e ∈ s.entries ∧ e.value.isZero = false := by
  rw [nonzeros, List.mem_mergeSort, List.mem_filter, Bool.not_eq_true']

theorem nonzeros_increasing {s : Storage} (h : (s.entries.map Entry.coords).Nodup) :
    Increasing s.nonzeros := by
  have hne : s.nonzeros.Pairwise fun a b => a.coords ≠ b.coords := by
    rw [← List.pairwise_map]
    refine ((List.mergeSort_perm _ _).map Entry.coords).nodup_iff.2 ?_
    exact h.sublist (List.filter_sublist.map Entry.coords)
  exact (pairwise_mergeSort_le _).and hne

theorem equals_iff {s s' : Storage} :
    s.equals s' = true ↔
      s.type = s'.type ∧ s.format.order = s'.format.order ∧ s.nonzeros = s'.nonzeros := by
  simp [equals, and_assoc]

end Storage

namespace Builder

variable {type : TensorType} {format : Format} {es : List Entry} {b : Builder} {s : Storage}
  {zero : Value} {leaves : List Segment}

/-! ## What is packed -/

theorem Holds.length_coords (h : b.Holds type format es) {e : Entry} (he : e ∈ es) :
    e.coords.length = format.order := by
  rw [h.order, (Shape.checkCoordinate_eq_ok.1 (h.checked e he)).length_eq, Shape.order]

theorem Holds.sorted_eq (h : b.Holds type format es) :
    b.sorted = (es.map format.atLevels).mergeSort Entry.le := by
  rw [sorted, h.entries_eq, h.format_eq]
  rfl

theorem Holds.firstAt?_sorted (h : b.Holds type format es) {c : List Nat}
    (hc : c.length = format.order) :
    firstAt? b.sorted (format.toLevelOrder c) = (firstAt? es c).map format.atLevels := by
  rw [h.sorted_eq, firstAt?_mergeSort, firstAt?, List.find?_map, firstAt?]
  refine congrArg (Option.map format.atLevels) (List.find?_congr fun e he => ?_)
  rw [Function.comp_apply, Format.atLevels]
  exact decide_eq_decide.2 (format.toLevelOrder_inj (h.length_coords he) hc)

/-- What is packed are the first insertions. -/
theorem Holds.mem_firsts (h : b.Holds type format es) {x : Entry} :
    x ∈ firsts b.sorted ↔ ∃ e, firstAt? es e.coords = some e ∧ x = format.atLevels e := by
  have hsorted : b.sorted.Pairwise fun x y => coordsLe x.coords y.coords = true :=
    pairwise_mergeSort_le _
  rw [Builder.mem_firsts hsorted]
  constructor
  · intro hx
    have hmem : x ∈ es.map format.atLevels := by
      have hx := List.mem_of_find?_eq_some hx
      rwa [h.sorted_eq, List.mem_mergeSort] at hx
    obtain ⟨y, hy, rfl⟩ := List.mem_map.1 hmem
    have hfirst := h.firstAt?_sorted (h.length_coords hy)
    rw [Format.atLevels] at hx
    rw [hx, eq_comm, Option.map_eq_some_iff] at hfirst
    obtain ⟨e, he, hxe⟩ := hfirst
    exact ⟨e, by rwa [coords_of_firstAt? he], hxe.symm⟩
  · rintro ⟨e, he, rfl⟩
    have hlen := h.length_coords (List.mem_of_find?_eq_some he)
    rw [Format.atLevels, h.firstAt?_sorted hlen, he, Option.map_some, Format.atLevels]

theorem Holds.sizes_eq (h : b.Holds type format es) :
    b.stack.map Prod.snd = format.ordering.map type.shape.size := by
  rw [stack, h.format_eq, h.type_eq]
  exact List.map_snd_zip (by rw [List.length_map, format.length_ordering, Format.order])

/-- Where all sizes are known, the first insertions are proper below the top. -/
theorem Holds.proper (h : b.Holds type format es) (hknown : b.type.shape.firstUnknown? = none) :
    Segment.Proper 0 (b.stack.map Prod.snd) (firsts b.sorted) where
  increasing := firsts_increasing (pairwise_mergeSort_le _)
  bounded x hx := by
    obtain ⟨e, he, rfl⟩ := h.mem_firsts.1 hx
    have he := List.mem_of_find?_eq_some he
    rw [h.type_eq] at hknown
    have hinside := Shape.inside_of_checkCoordinate hknown (h.checked e he)
    rw [h.sizes_eq]
    exact (format.inside_iff_levels h.order (h.length_coords he)).1 hinside

/-- The walk of a packed storage lists what the first insertions stand for. -/
theorem levelEntries_of_packs (h : b.Packs s zero leaves) :
    s.levelEntries = Segment.fill zero 0 b.stack (firsts b.sorted) := by
  have hwalk := Storage.walkFrom_packStack zero h.stack_eq (p := 0) rfl
  rw [← h.values_eq, s.walkFrom_top.1] at hwalk
  exact Except.ok.inj hwalk

/-! ## What is stored -/

variable (hb : b.Holds type format es) (hs : b.Packs s zero leaves)

include hb hs

theorem format_of_packs : s.format = format := hs.format_eq.trans hb.format_eq

theorem proper_of_packs : Segment.Proper 0 (b.stack.map Prod.snd) (firsts b.sorted) :=
  hb.proper hs.known

theorem nodup_of_packs : (s.entries.map Entry.coords).Nodup := by
  apply Storage.nodup_entries
  rw [levelEntries_of_packs hs]
  exact (proper_of_packs hb hs).fill_increasing.nodup

theorem inside_of_packs {e : Entry} (he : e ∈ s.entries) : type.shape.Inside e.coords := by
  obtain ⟨hlen, hx⟩ := Storage.mem_entries.1 he
  rw [levelEntries_of_packs hs] at hx
  have hbounded := (proper_of_packs hb hs).fill_bounded hx
  rw [hb.sizes_eq, format_of_packs hb hs] at hbounded
  rw [format_of_packs hb hs] at hlen
  exact (format.inside_iff_levels hb.order hlen).2 hbounded

/-- The first insertions are stored. -/
theorem mem_entries_of_packs {e : Entry} (he : firstAt? es e.coords = some e) : e ∈ s.entries := by
  have hmem : format.atLevels e ∈ firsts b.sorted := hb.mem_firsts.2 ⟨e, he, rfl⟩
  rw [Storage.mem_entries, levelEntries_of_packs hs, format_of_packs hb hs]
  exact ⟨hb.length_coords (List.mem_of_find?_eq_some he), (proper_of_packs hb hs).mem_fill hmem⟩

/-- Whatever else is stored is zero. -/
theorem eq_zero_of_packs {e : Entry} (he : e ∈ s.entries) :
    e.value = zero ∨ firstAt? es e.coords = some e := by
  obtain ⟨hlen, hx⟩ := Storage.mem_entries.1 he
  rw [format_of_packs hb hs] at hlen
  rw [levelEntries_of_packs hs, format_of_packs hb hs] at hx
  refine ((proper_of_packs hb hs).eq_zero_of_mem_fill hx).imp id ?_
  rintro ⟨y, hy, hxy⟩
  obtain ⟨e', he', rfl⟩ := hb.mem_firsts.1 hy
  have hlen' := hb.length_coords (List.mem_of_find?_eq_some he')
  have hee : e = e' := Format.eq_of_atLevels hlen hlen' hxy
  rw [hee, he']

/-- What is not zero are the first insertions that are not zero. -/
theorem mem_nonzeros_of_packs {e : Entry} :
    e ∈ s.nonzeros ↔ firstAt? es e.coords = some e ∧ e.value.isZero = false := by
  rw [Storage.mem_nonzeros]
  refine and_congr_left fun hvalue => ⟨fun he => ?_, mem_entries_of_packs hb hs⟩
  refine (eq_zero_of_packs hb hs he).resolve_left fun hzero => ?_
  rw [hzero, Value.isZero_of_zero hs.zero_eq] at hvalue
  cases hvalue

omit hb hs

/-- **Packing is faithful.** If a builder packs, the storage lists no coordinate twice and only
coordinates inside the shape. Every coordinate at which something was inserted is listed with what
was inserted there first, and every other coordinate with the zero of the component type. What is
not zero are the first insertions that are not zero, in increasing order, and a builder with the
same insertions but another format or policy packs an equal storage. -/
theorem pack_faithful (hb : Built type format es b) (hs : b.pack = .ok s) :
    (s.entries.map Entry.coords).Nodup ∧
      (∀ e ∈ s.entries, type.shape.Inside e.coords) ∧
      (∀ e ∈ es, ∃ x ∈ s.entries, firstAt? es e.coords = some x) ∧
      (∀ e ∈ s.entries, (∀ x ∈ es, x.coords ≠ e.coords) →
        Value.zero type.component = .ok e.value) ∧
      Increasing s.nonzeros ∧
      (∀ e, e ∈ s.nonzeros ↔ firstAt? es e.coords = some e ∧ e.value.isZero = false) ∧
      ∀ format' b' s', Built type format' es b' → b'.pack = .ok s' → s.equals s' = true := by
  have hb := hb.holds
  obtain ⟨zero, leaves, hs⟩ := pack_eq_ok.1 hs
  have hnodup := nodup_of_packs hb hs
  refine ⟨hnodup, fun e he => inside_of_packs hb hs he, ?_, ?_, Storage.nonzeros_increasing hnodup,
    fun e => mem_nonzeros_of_packs hb hs, ?_⟩
  · intro e he
    obtain ⟨x, hx⟩ : ∃ x, firstAt? es e.coords = some x := by
      rw [← Option.isSome_iff_exists, firstAt?, List.find?_isSome]
      exact ⟨e, he, by simp⟩
    refine ⟨x, mem_entries_of_packs hb hs ?_, hx⟩
    rwa [coords_of_firstAt? hx]
  · intro e he hother
    have hzero := (eq_zero_of_packs hb hs he).resolve_right fun hfirst =>
      hother e (List.mem_of_find?_eq_some hfirst) rfl
    rw [hzero, ← hb.type_eq]
    exact hs.zero_eq
  · intro format' b' s' hb' hs'
    have hb' := hb'.holds
    obtain ⟨zero', leaves', hs'⟩ := pack_eq_ok.1 hs'
    rw [Storage.equals_iff]
    refine ⟨?_, ?_, ?_⟩
    · rw [hs.type_eq, hs'.type_eq, hb.type_eq, hb'.type_eq]
    · rw [format_of_packs hb hs, hb.order, format_of_packs hb' hs', hb'.order]
    · refine eq_of_increasing (Storage.nonzeros_increasing hnodup)
        (Storage.nonzeros_increasing (nodup_of_packs hb' hs')) fun e => ?_
      rw [mem_nonzeros_of_packs hb hs, mem_nonzeros_of_packs hb' hs']

/-- Compressed columns of two rows and three columns, filled column by column, twice at `[1, 0]`. -/
theorem pack_faithful_csc :
    let type : TensorType := ⟨.bool, ⟨[.fixed 2 (by decide), .fixed 3 (by decide)]⟩⟩
    let es : List Entry := [⟨[1, 0], .bool true⟩, ⟨[1, 0], .bool false⟩, ⟨[0, 2], .bool false⟩]
    ∃ b s, Built type .csc es b ∧ b.pack = .ok s ∧ ∀ e ∈ es, ∃ x ∈ s.entries,
      firstAt? es e.coords = some x := by
  intro type es
  have hb : Built type .csc es ⟨type, .csc, .keepFirst, es⟩ :=
    (((Built.new rfl).insert ⟨[1, 0], .bool true⟩ rfl).insert ⟨[1, 0], .bool false⟩ rfl).insert
      ⟨[0, 2], .bool false⟩ rfl
  have hsorted : sorted ⟨type, .csc, .keepFirst, es⟩ =
      [⟨[0, 1], .bool true⟩, ⟨[0, 1], .bool false⟩, ⟨[2, 0], .bool false⟩] :=
    List.mergeSort_of_pairwise (by decide)
  obtain ⟨s, hs⟩ : ∃ s, pack ⟨type, .csc, .keepFirst, es⟩ = .ok s := by
    apply exists_eq_ok
    rw [pack, packLogged, repeated, hsorted]
    decide +kernel
  exact ⟨_, s, hb, hs, (pack_faithful hb hs).2.2.1⟩

end Builder

end SparseTensor
