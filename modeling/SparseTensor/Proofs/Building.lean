import SparseTensor.Proofs.Coordinates
import SparseTensor.Proofs.Firsts
import SparseTensor.Proofs.Packing

/-!
# What a builder holds and what it packs

A builder is made for a type and a format and takes insertions (`Builder.Built`). Whatever the order
of the calls, it holds the insertions that passed the checks, in their order (`Built.holds`), and
what it packs is determined by its fields (`pack_eq_ok`).
-/

namespace SparseTensor

theorem Storage.ofValues_eq_ok {type : DataType} {format : Format} {index : Index}
    {values : List Value} {s : Storage} :
    ofValues type format index values = .ok s ↔
      index.format = format ∧ s.type = type ∧ s.index = index ∧ s.values = values := by
  rw [ofValues]
  constructor
  · intro h
    split at h
    · cases h
    next hformat =>
    split at h
    · split at h
      · cases h
        exact ⟨Decidable.not_not.1 hformat, rfl, rfl, rfl⟩
      · cases h
    · cases h
  · rintro ⟨hformat, rfl, rfl, rfl⟩
    rw [if_neg (not_not.2 hformat), dif_pos s.length_values]
    split
    · rfl
    · next t ht => rw [strayType?_eq_none.2 s.typed] at ht; cases ht

namespace Builder

variable {type : TensorType} {format : Format} {es : List Entry} {b b' : Builder} {s : Storage}

/-! ## Insertions -/

theorem new_eq_ok : Builder.new type format = .ok b ↔
    format.order = type.shape.order ∧ b = ⟨type, format, .keepFirst, []⟩ := by
  rw [Builder.new, bind_eq_ok, Format.checkShape]
  split
  · next h => simp [h, pure, Except.pure, eq_comm]
  · next h => simp [h]

theorem insert_eq_ok {coords : List Nat} {value : Value} :
    b.insert coords value = .ok b' ↔
      b.type.shape.checkCoordinate coords = .ok () ∧ value.type = b.type.component ∧
        b' = { b with entries := b.entries ++ [⟨coords, value⟩] } := by
  rw [insert, bind_eq_ok]
  constructor
  · rintro ⟨⟨⟩, hcheck, h⟩
    split at h
    · next htype => cases h; exact ⟨hcheck, htype, rfl⟩
    · cases h
  · rintro ⟨hcheck, htype, rfl⟩
    exact ⟨(), hcheck, if_pos htype⟩

/-- The builder was made for the type and the format and has taken the insertions `es`, in this
order. Its policy may have been set at any time. -/
inductive Built (type : TensorType) (format : Format) : List Entry → Builder → Prop
  | new {b : Builder} : Builder.new type format = .ok b → Built type format [] b
  | policy {es : List Entry} {b : Builder} (duplicates : Duplicates) :
      Built type format es b → Built type format es { b with duplicates }
  | insert {es : List Entry} {b b' : Builder} (e : Entry) :
      Built type format es b → b.insert e.coords e.value = .ok b' →
        Built type format (es ++ [e]) b'

/-- The insertions `es` that a builder holds, each checked against its type. -/
structure Holds (type : TensorType) (format : Format) (es : List Entry) (b : Builder) : Prop where
  type_eq : b.type = type
  format_eq : b.format = format
  entries_eq : b.entries = es
  order : format.order = type.shape.order
  checked : ∀ e ∈ es, type.shape.checkCoordinate e.coords = .ok ()
  typed : ∀ e ∈ es, e.value.type = type.component

theorem Built.holds (h : Built type format es b) : b.Holds type format es := by
  induction h with
  | new h =>
    obtain ⟨horder, rfl⟩ := new_eq_ok.1 h
    exact ⟨rfl, rfl, rfl, horder, by simp, by simp⟩
  | policy duplicates _ ih =>
    exact ⟨ih.type_eq, ih.format_eq, ih.entries_eq, ih.order, ih.checked, ih.typed⟩
  | insert e _ h ih =>
    obtain ⟨hcheck, htype, rfl⟩ := insert_eq_ok.1 h
    rw [ih.type_eq] at hcheck htype
    refine ⟨ih.type_eq, ih.format_eq, by rw [ih.entries_eq], ih.order, ?_, ?_⟩
    · rw [List.forall_mem_append, List.forall_mem_singleton]
      exact ⟨ih.checked, hcheck⟩
    · rw [List.forall_mem_append, List.forall_mem_singleton]
      exact ⟨ih.typed, htype⟩

/-! ## Packing -/

/-- The storage that a builder packs, with the zero it fills in and the segments at the leaves. -/
structure Packs (b : Builder) (s : Storage) (zero : Value) (leaves : List Segment) : Prop where
  known : b.type.shape.firstUnknown? = none
  zero_eq : Value.zero b.type.component = .ok zero
  accepted : b.duplicates = .refuse → b.repeated = []
  stack_eq : Level.packStack 0 b.stack [firsts b.sorted] = .ok (s.index.levels, leaves)
  format_eq : s.index.format = b.format
  type_eq : s.type = b.type.component
  values_eq : s.values = leaves.map (Segment.leafValue zero)

theorem assemble_eq_ok {unique : List Entry} {zero : Value} {index : Index} {values : List Value} :
    b.assemble unique zero = .ok (index, values) ↔
      ∃ leaves, Level.packStack 0 b.stack [unique] = .ok (index.levels, leaves) ∧
        index.format = b.format ∧ values = leaves.map (Segment.leafValue zero) := by
  simp only [assemble, bind_eq_ok]
  constructor
  · rintro ⟨⟨levels, leaves⟩, hstack, i, hindex, h⟩
    cases h
    obtain ⟨hformat, rfl⟩ := Index.ofLevels_eq_ok.1 hindex
    exact ⟨leaves, hstack, hformat, rfl⟩
  · rintro ⟨leaves, hstack, hformat, rfl⟩
    exact ⟨_, hstack, index, Index.ofLevels_eq_ok.2 ⟨hformat, rfl⟩, rfl⟩

theorem pack_eq_ok : b.pack = .ok s ↔ ∃ zero leaves, b.Packs s zero leaves := by
  rw [pack, packLogged]
  constructor
  · intro h
    split at h
    · cases h
    · cases h
    next zero hknown hzero =>
    split at h
    · cases h
    next hpolicy =>
    dsimp only at h
    split at h
    · cases h
    next index values hassemble =>
    obtain ⟨hformat, htype, rfl, rfl⟩ := Storage.ofValues_eq_ok.1 h
    obtain ⟨leaves, hstack, hformat, hvalues⟩ := assemble_eq_ok.1 hassemble
    refine ⟨zero, leaves, hknown, hzero, fun hrefuse => ?_, hstack, hformat, htype, hvalues⟩
    cases hrepeated : b.repeated with
    | nil => rfl
    | cons c cs => exact absurd hrepeated (hpolicy c cs hrefuse)
  · rintro ⟨zero, leaves, h⟩
    have hassemble : b.assemble (firsts b.sorted) zero = .ok (s.index, s.values) :=
      assemble_eq_ok.2 ⟨leaves, h.stack_eq, h.format_eq, h.values_eq⟩
    rw [h.known, h.zero_eq]
    split
    · next hcases => cases hcases
    · next hcases => cases hcases
    next hcases =>
    cases hcases
    split
    · next hrefuse hrepeated =>
      rw [h.accepted hrefuse] at hrepeated
      cases hrepeated
    · dsimp only
      rw [hassemble]
      exact Storage.ofValues_eq_ok.2 ⟨h.format_eq, h.type_eq, rfl, rfl⟩

end Builder

end SparseTensor
