import Mathlib.Data.List.Sort
import SparseTensor.Proofs.Insertions

/-!
# Packing what was unpacked

The entries of a packed storage are more than what was inserted: below a dense level there are zeros
as well. They make no difference when they are packed in turn.

**Theorem (`pack_entries`).** The entries of a packed storage, inserted in any order into a new
builder of the same type, are accepted one by one. If the format is the same, they are packed into
the same storage. If it is another, and they can be packed, the two storages are equal as tensors.

Filling adds no branch to a sparse level: what it lists begins, down to such a level, as an entry
does (`Proper.exists_of_mem_fill`). So the levels that are laid for the entries are laid for what
they are filled up to (`Laid.congr`), and at the leaves the values are the same
(`leafValue_along_fill`).
-/

namespace SparseTensor

namespace Segment

variable {level size k : Nat} {sizes path : List Nat} {f : LevelFormat} {u v seg : Segment}
  {zero : Value} {stack : List (LevelFormat × Nat)} {x : Entry}

/-! ## Filling keeps the branches -/

/-- Down to a sparse level, what is listed begins as an entry does. -/
theorem Proper.exists_of_mem_fill (h : Proper level (stack.map Prod.snd) seg)
    (hx : x ∈ fill zero level stack seg) {ps cs : Lane}
    (hk : stack[k]? = some (.sparse ps cs, size)) :
    ∃ e ∈ seg, (e.coords.drop level).take (k + 1) = x.coords.take (k + 1) := by
  induction stack generalizing level seg x k with
  | nil => cases hk
  | cons g stack ih =>
    rw [fill, List.mem_flatMap] at hx
    obtain ⟨r, hr, hx⟩ := hx
    obtain ⟨y, hy, rfl⟩ := List.mem_map.1 hx
    have hpart := eq_part_of_mem_children h.ascends hr
    -- It is enough to find the entry in the child and compare what is below.
    suffices hchild : ∃ e ∈ r.2, (e.coords.drop (level + 1)).take k = y.coords.take k by
      obtain ⟨e, he, htake⟩ := hchild
      rw [hpart, mem_part] at he
      refine ⟨e, he.1, ?_⟩
      rw [drop_eq_at_cons (h.bounded e he.1), he.2, Entry.under, List.take_succ_cons,
        List.take_succ_cons, htake]
    cases k with
    | zero =>
      cases hk
      obtain ⟨e, he⟩ := List.exists_mem_of_ne_nil r.2 ((runs_spec h.ascends).nonempty r hr)
      exact ⟨e, he, rfl⟩
    | succ k =>
      rw [hpart] at hy ⊢
      exact ih (h.part r.1) hy hk

theorem branches_fill (hu : Proper 0 (stack.map Prod.snd) u)
    (hv : Proper 0 (stack.map Prod.snd) (fill zero 0 stack u))
    (hk : stack[path.length]? = some (f, size)) :
    branches f size (fill zero 0 stack u) path = branches f size u path := by
  have hsize : (stack.map Prod.snd)[path.length]? = some size := by
    rw [List.getElem?_map, hk]
    rfl
  cases f with
  | dense lane => rw [branches_dense, branches_dense]
  | sparse ps cs =>
    have hmem : ∀ c, c ∈ branches (.sparse ps cs) size (fill zero 0 stack u) path ↔
        c ∈ branches (.sparse ps cs) size u path := by
      intro c
      rw [hv.mem_branches_sparse hsize, hu.mem_branches_sparse hsize]
      have hlength : (path ++ [c]).length = path.length + 1 := by
        rw [List.length_append, List.length_singleton]
      constructor
      · rintro ⟨x, hx, hprefix⟩
        obtain ⟨e, he, htake⟩ := hu.exists_of_mem_fill hx hk
        refine ⟨e, he, ?_⟩
        rw [prefix_of_take hlength] at hprefix ⊢
        exact htake.trans hprefix
      · rintro ⟨e, he, hprefix⟩
        exact ⟨_, hu.mem_fill he, hprefix⟩
    exact (hv.branches_increasing hsize).eq_of_mem_iff (hu.branches_increasing hsize) hmem

/-! ## Filling keeps the leaves -/

theorem Proper.leafValue_along (h : Proper 0 sizes u) {e : Entry} (he : e ∈ u) :
    leafValue zero (u.along e.coords) = e.value := by
  have hmem : e ∈ u.along e.coords := mem_along.2 ⟨he, List.prefix_refl _⟩
  cases hseg : u.along e.coords with
  | nil =>
    rw [hseg] at hmem
    cases hmem
  | cons x seg =>
    have hx : x ∈ u.along e.coords := by
      rw [hseg]
      exact List.mem_cons_self
    obtain ⟨hx, hbegins⟩ := mem_along.1 hx
    have hcoords : e.coords = x.coords := by
      apply hbegins.eq_of_length
      rw [h.length_coords he, h.length_coords hx]
    have hincreasing : Increasing u := h.increasing
    rw [List.inj_on_of_nodup_map hincreasing.nodup he hx hcoords]
    rfl

theorem Proper.leafValue_along_of_not_mem (h : Proper 0 sizes u)
    (hpath : path.length = sizes.length) (hnot : ∀ e ∈ u, e.coords ≠ path) :
    leafValue zero (u.along path) = zero := by
  have hnil : u.along path = [] := by
    rw [List.eq_nil_iff_forall_not_mem]
    intro e he
    obtain ⟨he, hbegins⟩ := mem_along.1 he
    apply hnot e he
    exact (hbegins.eq_of_length (by rw [hpath, h.length_coords he])).symm
  rw [hnil]
  rfl

theorem leafValue_along_fill (hu : Proper 0 (stack.map Prod.snd) u)
    (hv : Proper 0 (stack.map Prod.snd) (fill zero 0 stack u))
    (hpath : path.length = stack.length) :
    leafValue zero (along (fill zero 0 stack u) path) = leafValue zero (u.along path) := by
  rw [← List.length_map (f := Prod.snd)] at hpath
  by_cases he : ∃ e ∈ u, e.coords = path
  · obtain ⟨e, he, rfl⟩ := he
    rw [hu.leafValue_along he]
    exact hv.leafValue_along (hu.mem_fill he)
  · have hnot : ∀ e ∈ u, e.coords ≠ path := fun e hmem heq => he ⟨e, hmem, heq⟩
    rw [hu.leafValue_along_of_not_mem hpath hnot]
    by_cases hx : ∃ x ∈ fill zero 0 stack u, x.coords = path
    · obtain ⟨x, hx, rfl⟩ := hx
      rw [hv.leafValue_along hx]
      refine (hu.eq_zero_of_mem_fill hx).resolve_right ?_
      rintro ⟨e, hmem, rfl⟩
      exact hnot e hmem rfl
    · exact hv.leafValue_along_of_not_mem hpath fun x hmem heq => hx ⟨x, hmem, heq⟩

end Segment

namespace Level

open Segment

variable {level : Nat} {u v : Segment} {levels : List Level} {stack : List (LevelFormat × Nat)}
  {paths leaves : List (List Nat)}

theorem Laid.length_leaves (hlength : ∀ path ∈ paths, path.length = level)
    (h : Laid u paths stack levels leaves) :
    ∀ path ∈ leaves, path.length = level + stack.length := by
  induction h generalizing level with
  | nil paths => exact hlength
  | @cons f size l stack levels paths leaves _ _ ih =>
    rw [List.length_cons, Nat.add_comm stack.length, ← Nat.add_assoc]
    exact ih (length_of_mem_extend hlength)

theorem Laid.congr (hlength : ∀ path ∈ paths, path.length = level)
    (hbranches : ∀ k f size path, stack[k]? = some (f, size) → path.length = level + k →
      branches f size v path = branches f size u path)
    (h : Laid u paths stack levels leaves) : Laid v paths stack levels leaves := by
  induction h generalizing level with
  | nil paths => exact .nil paths
  | @cons f size l stack levels paths leaves hl _ ih =>
    have hhead : ∀ path ∈ paths, branches f size v path = branches f size u path :=
      fun path hpath => hbranches 0 f size path rfl (hlength path hpath)
    have hextend : extend f size v paths = extend f size u paths := by
      apply List.flatMap_congr
      intro path hpath
      rw [hhead path hpath]
    refine .cons ?_ ?_
    · rwa [List.map_congr_left hhead]
    · rw [hextend]
      refine ih (length_of_mem_extend hlength) fun k g n path hk hpath => ?_
      exact hbranches (k + 1) g n path hk (by omega)

end Level

namespace Shape

theorem checkCoordinate_of_inside {s : Shape} {coords : List Nat} (h : s.Inside coords) :
    s.checkCoordinate coords = .ok () := by
  rw [checkCoordinate_eq_ok]
  refine h.imp fun c d hlt => ?_
  rw [Dimension.admits, decide_eq_true hlt, Bool.or_true]

end Shape

namespace Builder

open Segment Level

variable {type : TensorType} {format format' : Format} {es es' : List Entry} {b b' : Builder}
  {s t : Storage} {zero : Value} {leaves : List Segment}

theorem exists_built (horder : format.order = type.shape.order) (duplicates : Duplicates)
    (hchecked : ∀ e ∈ es, type.shape.checkCoordinate e.coords = .ok ())
    (htyped : ∀ e ∈ es, e.value.type = type.component) :
    ∃ b₀ b, Builder.new type format = .ok b₀ ∧
      es.foldlM (fun b e => b.insert e.coords e.value) { b₀ with duplicates } = .ok b ∧
      Built type format es b := by
  have hnew : Builder.new type format = .ok ⟨type, format, .keepFirst, []⟩ :=
    new_eq_ok.2 ⟨horder, rfl⟩
  obtain ⟨b, hfold, hb⟩ := exists_foldlM_ok (f := fun (b : Builder) e => b.insert e.coords e.value)
    (P := Built type format) [] es (.policy duplicates (.new hnew)) (by
      intro before e after b hes hb
      have he : e ∈ es := by
        rw [List.nil_append] at hes
        rw [← hes]
        simp
      have hinsert : b.insert e.coords e.value =
          .ok { b with entries := b.entries ++ [⟨e.coords, e.value⟩] } := by
        rw [insert_eq_ok, hb.holds.type_eq]
        exact ⟨hchecked e he, htyped e he, rfl⟩
      exact ⟨_, hinsert, hb.insert e hinsert⟩)
  exact ⟨_, b, hnew, hfold, hb⟩

section

variable (hb : b.Holds type format es) (hs : b.Packs s zero leaves)

include hb hs

theorem type_of_mem_entries {e : Entry} (he : e ∈ s.entries) : e.value.type = type.component := by
  rcases eq_zero_of_packs hb hs he with hzero | hfirst
  · rw [hzero, ← hb.type_eq]
    exact Value.type_of_zero hs.zero_eq
  · exact hb.typed e (List.mem_of_find?_eq_some hfirst)

variable (hperm : es'.Perm s.entries)

include hperm

theorem nodup_of_perm_entries : (es'.map Entry.coords).Nodup :=
  (hperm.map Entry.coords).nodup_iff.2 (nodup_of_packs hb hs)

theorem repeated_of_perm_entries (hb' : b'.Holds type format' es') : b'.repeated = [] := by
  by_contra hne
  obtain ⟨c, hc⟩ := hb'.repeated_ne_nil.1 hne
  have hcount := List.nodup_iff_count_le_one.1 (nodup_of_perm_entries hb hs hperm) c
  omega

/-- In the same format, what is left of the entries is what the walk listed. -/
theorem firsts_of_perm_entries (hb' : b'.Holds type format es') :
    firsts b'.sorted = fill zero 0 b.stack (firsts b.sorted) := by
  have hnodup := nodup_of_perm_entries hb hs hperm
  refine eq_of_increasing (firsts_increasing (pairwise_mergeSort_le _))
    (hb.proper hs.known).fill_increasing fun x => ?_
  rw [hb'.mem_firsts, ← levelEntries_of_packs hs, ← s.map_atLevels_entries, List.mem_map,
    format_of_packs hb hs]
  constructor
  · rintro ⟨e, he, rfl⟩
    exact ⟨e, hperm.mem_iff.1 ((firstAt?_of_nodup hnodup).1 he), rfl⟩
  · rintro ⟨e, he, rfl⟩
    exact ⟨e, (firstAt?_of_nodup hnodup).2 (hperm.mem_iff.2 he), rfl⟩

theorem pack_of_perm_entries (hb' : b'.Holds type format es') : b'.pack = .ok s := by
  have hfirsts := firsts_of_perm_entries hb hs hperm hb'
  have hstack : b'.stack = b.stack := by rw [hb'.stack_eq, hb.stack_eq]
  have hknown : b'.type.shape.firstUnknown? = none := by
    rw [hb'.type_eq, ← hb.type_eq]
    exact hs.known
  have hu := hb.proper hs.known
  have hv := hb'.proper hknown
  rw [hfirsts, hstack] at hv
  obtain ⟨paths, hlaid, hleaves⟩ := (hb.packStack_eq_ok hs.known).1 hs.stack_eq
  have htop : ∀ path ∈ [([] : List Nat)], path.length = 0 := by simp
  have hlaid' : Laid (firsts b'.sorted) [[]] b'.stack s.index.levels paths := by
    rw [hfirsts, hstack]
    refine hlaid.congr htop fun k f size path hk hpath => ?_
    rw [Nat.zero_add] at hpath
    exact branches_fill hu hv (by rwa [hpath])
  have hvalues : s.values = (paths.map (along (firsts b'.sorted))).map (leafValue zero) := by
    rw [hs.values_eq, hleaves, hfirsts, List.map_map, List.map_map]
    apply List.map_congr_left
    intro path hpath
    have hlength := hlaid.length_leaves htop path hpath
    rw [Nat.zero_add] at hlength
    exact (leafValue_along_fill hu hv hlength).symm
  refine pack_eq_ok.2 ⟨zero, paths.map (along (firsts b'.sorted)), ?_⟩
  exact {
    known := hknown
    zero_eq := by rw [hb'.type_eq, ← hb.type_eq]; exact hs.zero_eq
    accepted := fun _ => repeated_of_perm_entries hb hs hperm hb'
    stack_eq := (hb'.packStack_eq_ok hknown).2 ⟨paths, hlaid', rfl⟩
    format_eq := by rw [hs.format_eq, hb.format_eq, hb'.format_eq]
    type_eq := by rw [hs.type_eq, hb.type_eq, hb'.type_eq]
    values_eq := hvalues }

/-- In any format, what the entries of a storage are packed into has what is not zero in it. -/
theorem nonzeros_of_perm_entries {zero' : Value} {leaves' : List Segment}
    (hb' : b'.Holds type format' es') (ht : b'.Packs t zero' leaves') :
    t.nonzeros = s.nonzeros := by
  refine eq_of_increasing (Storage.nonzeros_increasing (nodup_of_packs hb' ht))
    (Storage.nonzeros_increasing (nodup_of_packs hb hs)) fun e => ?_
  rw [mem_nonzeros_of_packs hb' ht, firstAt?_of_nodup (nodup_of_perm_entries hb hs hperm),
    hperm.mem_iff, Storage.mem_nonzeros]

end

/-- **Packing undoes unpacking.** The entries of a packed storage are accepted in any order, zeros
included, by a new builder for the type, whatever its policy. In the same format it packs the same
storage. In another format of the order, the storage that it packs, if any, is equal as a tensor. -/
theorem pack_entries (hb : Built type format es b) (hs : b.pack = .ok s)
    (hperm : es'.Perm s.entries) (duplicates : Duplicates) :
    (∃ b₀ b', Builder.new type format = .ok b₀ ∧
      es'.foldlM (fun b e => b.insert e.coords e.value) { b₀ with duplicates } = .ok b' ∧
      b'.pack = .ok s) ∧
    ∀ format' : Format, format'.order = format.order →
      ∃ b₀ b', Builder.new type format' = .ok b₀ ∧
        es'.foldlM (fun b e => b.insert e.coords e.value) { b₀ with duplicates } = .ok b' ∧
        ∀ t, b'.pack = .ok t → t.equals s = true ∧ s.equals t = true := by
  have hb := hb.holds
  obtain ⟨zero, leaves, hs⟩ := pack_eq_ok.1 hs
  have hchecked : ∀ e ∈ es', type.shape.checkCoordinate e.coords = .ok () := fun e he =>
    Shape.checkCoordinate_of_inside (inside_of_packs hb hs (hperm.mem_iff.1 he))
  have htyped : ∀ e ∈ es', e.value.type = type.component := fun e he =>
    type_of_mem_entries hb hs (hperm.mem_iff.1 he)
  constructor
  · obtain ⟨b₀, b', hnew, hfold, hb'⟩ := exists_built hb.order duplicates hchecked htyped
    exact ⟨b₀, b', hnew, hfold, pack_of_perm_entries hb hs hperm hb'.holds⟩
  · intro format' horder
    obtain ⟨b₀, b', hnew, hfold, hb'⟩ :=
      exists_built (horder.trans hb.order) duplicates hchecked htyped
    have hb' := hb'.holds
    refine ⟨b₀, b', hnew, hfold, fun t ht => ?_⟩
    obtain ⟨zero', leaves', ht⟩ := pack_eq_ok.1 ht
    have htype : t.type = s.type := by rw [ht.type_eq, hs.type_eq, hb'.type_eq, hb.type_eq]
    have horder : t.format.order = s.format.order := by
      rw [format_of_packs hb' ht, format_of_packs hb hs, horder]
    have hnonzeros := nonzeros_of_perm_entries hb hs hperm hb' ht
    exact ⟨Storage.equals_iff.2 ⟨htype, horder, hnonzeros⟩,
      Storage.equals_iff.2 ⟨htype.symm, horder.symm, hnonzeros.symm⟩⟩

/-- A matrix whose rows are sparse and whose columns are dense, with one insertion. Two zeros are
stored beside it, and are inserted with it in turn. -/
theorem pack_entries_reversed :
    let type : TensorType := ⟨.bool, ⟨[.fixed 2 (by decide), .fixed 3 (by decide)]⟩⟩
    let format : Format := .ofKinds [.sparse, .dense]
    ∃ b s b₀ b', Built type format [⟨[1, 2], .bool true⟩] b ∧ b.pack = .ok s ∧
      Builder.new type format = .ok b₀ ∧
      s.entries.reverse.foldlM (fun b e => b.insert e.coords e.value)
        { b₀ with duplicates := .refuse } = .ok b' ∧ b'.pack = .ok s := by
  intro type format
  have hb : Built type format [⟨[1, 2], .bool true⟩]
      ⟨type, format, .keepFirst, [⟨[1, 2], .bool true⟩]⟩ :=
    (Built.new rfl).insert ⟨[1, 2], .bool true⟩ rfl
  have hsorted : sorted ⟨type, format, .keepFirst, [⟨[1, 2], .bool true⟩]⟩ =
      [⟨[1, 2], .bool true⟩] :=
    List.mergeSort_of_pairwise (by decide)
  obtain ⟨s, hs⟩ : ∃ s, pack ⟨type, format, .keepFirst, [⟨[1, 2], .bool true⟩]⟩ = .ok s := by
    apply exists_eq_ok
    rw [pack, packLogged, repeated, hsorted]
    decide +kernel
  obtain ⟨b₀, b', hnew, hfold, hpack⟩ := (pack_entries hb hs (List.reverse_perm _) .refuse).1
  exact ⟨_, s, b₀, b', hb, hs, hnew, hfold, hpack⟩

end Builder

end SparseTensor
