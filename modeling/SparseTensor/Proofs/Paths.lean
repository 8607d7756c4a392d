import SparseTensor.Proofs.Recording

/-!
# Positions by their paths

The coordinates on the way down to a position are its path. While entries are packed, the segment at
a position has the entries that begin with its path (`Segment.along`), so a level can be described
by paths alone: those of its positions are the paths above, each continued by its branches
(`Segment.extend`).

**Invariant** (`Segment.PathsOf`). The paths of a level are as long as there are levels above, none
occurs twice, and every entry begins with one of them.

Below a dense level every coordinate is a branch. Below a sparse level those are, with which a path
is continued by an entry (`mem_branches_sparse`). The paths of a sparse level are therefore exactly
the beginnings of entries (`mem_extend_sparse`), whatever levels are above it.
-/

namespace SparseTensor.Segment

variable {level size c : Nat} {sizes path : List Nat} {f : LevelFormat} {u : Segment}

/-- The entries that begin with the path. -/
def along (u : Segment) (path : List Nat) : Segment := u.filter fun e => decide (path <+: e.coords)

/-- The coordinates at which a level goes on below a path. -/
def branches (f : LevelFormat) (size : Nat) (u : Segment) (path : List Nat) : List Nat :=
  (children path.length f size (u.along path)).map Prod.fst

/-- The paths of the positions of a level, from those of the positions above it. -/
def extend (f : LevelFormat) (size : Nat) (u : Segment) (paths : List (List Nat)) :
    List (List Nat) :=
  paths.flatMap fun path => (branches f size u path).map fun c => path ++ [c]

/-! ## Entries along a path -/

theorem mem_along {e : Entry} : e ∈ u.along path ↔ e ∈ u ∧ path <+: e.coords := by
  rw [along, List.mem_filter, decide_eq_true_eq]

@[simp] theorem along_nil (u : Segment) : u.along [] = u := by
  rw [along, List.filter_eq_self]
  intro e _
  simp

theorem snoc_prefix_iff {l : List Nat} (h : path.length < l.length) :
    path ++ [c] <+: l ↔ path <+: l ∧ l.getD path.length 0 = c := by
  constructor
  · rintro ⟨t, rfl⟩
    refine ⟨⟨c :: t, by simp⟩, ?_⟩
    simp [List.getD_eq_getElem?_getD]
  · rintro ⟨⟨t, rfl⟩, hc⟩
    cases t with
    | nil => simp at h
    | cons d t =>
      have hdc : d = c := by simpa [List.getD_eq_getElem?_getD] using hc
      exact ⟨t, by simp [hdc]⟩

theorem part_along (h : ∀ e ∈ u, path.length < e.coords.length) (c : Nat) :
    part path.length (u.along path) c = u.along (path ++ [c]) := by
  rw [part, along, along, List.filter_filter]
  apply List.filter_congr
  intro e he
  rw [Bool.eq_iff_iff]
  simp [snoc_prefix_iff (h e he), Entry.at, and_comm]

theorem Proper.length_coords (h : Proper 0 sizes u) {e : Entry} (he : e ∈ u) :
    e.coords.length = sizes.length := (h.bounded e he).length_eq

/-- What is along a path is proper below it. -/
theorem Proper.along (h : Proper 0 sizes u) (hpath : path.length ≤ sizes.length) :
    Proper path.length (sizes.drop path.length) (u.along path) := by
  induction path using List.reverseRecOn with
  | nil => rwa [along_nil]
  | append_singleton path c ih =>
    rw [List.length_append, List.length_singleton] at hpath ⊢
    have hlt : path.length < sizes.length := by omega
    have hproper := ih (by omega)
    rw [List.drop_eq_getElem_cons hlt] at hproper
    rw [← part_along fun e he => by rw [h.length_coords he]; exact hlt]
    exact hproper.part c

theorem prefix_of_take {l : List Nat} {k : Nat} (h : path.length = k) :
    path <+: l ↔ l.take k = path := by
  rw [List.prefix_iff_eq_take, h, eq_comm]

/-! ## Branches -/

theorem branches_dense (lane : Lane) (size : Nat) (u : Segment) (path : List Nat) :
    branches (.dense lane) size u path = List.range size := by
  rw [branches, children, List.map_fst_zip]
  simp

section

variable (h : Proper 0 sizes u) (hpath : sizes[path.length]? = some size)

include h hpath

theorem Proper.along_cons :
    Proper path.length (size :: sizes.drop (path.length + 1)) (u.along path) := by
  obtain ⟨hlt, rfl⟩ := List.getElem?_eq_some_iff.1 hpath
  rw [← List.drop_eq_getElem_cons hlt]
  exact h.along hlt.le

theorem Proper.length_lt {e : Entry} (he : e ∈ u) : path.length < e.coords.length := by
  rw [h.length_coords he]
  exact (List.getElem?_eq_some_iff.1 hpath).1

/-- Each child below a path has the entries that continue the path by its coordinate. -/
theorem Proper.children_along :
    children path.length f size (u.along path) =
      (branches f size u path).map fun c => (c, u.along (path ++ [c])) := by
  have hproper := h.along_cons hpath
  have hchild : ∀ r ∈ children path.length f size (u.along path),
      (r.1, u.along (path ++ [r.1])) = r := by
    intro r hr
    have hpart := eq_part_of_mem_children hproper.ascends hr
    rw [part_along fun e he => h.length_lt hpath he] at hpart
    exact Prod.ext rfl hpart.symm
  rw [branches, List.map_map]
  exact ((List.map_congr_left hchild).trans (List.map_id _)).symm

theorem Proper.branches_increasing : (branches f size u path).Pairwise (· < ·) :=
  children_increasing (h.along_cons hpath).ascends

theorem Proper.branches_lt (hc : c ∈ branches f size u path) : c < size := by
  have hproper := h.along_cons hpath
  obtain ⟨r, hr, rfl⟩ := List.mem_map.1 hc
  exact lt_size_of_mem_children hproper.ascends (fun e he => (hproper.uncons he).1) hr

/-- Every entry along a path goes on at one of its branches. -/
theorem Proper.mem_branches_of_prefix {e : Entry} (he : e ∈ u) (hc : path ++ [c] <+: e.coords) :
    c ∈ branches f size u path := by
  have hproper := h.along_cons hpath
  rw [snoc_prefix_iff (h.length_lt hpath he)] at hc
  have hmem := part_mem_children (f := f) hproper.ascends (fun e he => (hproper.uncons he).1)
    (mem_along.2 ⟨he, hc.1⟩)
  rw [← hc.2]
  exact List.mem_map_of_mem (f := Prod.fst) hmem

/-- Below a sparse level, a path is continued as entries continue it. -/
theorem Proper.mem_branches_sparse {ps cs : Lane} :
    c ∈ branches (.sparse ps cs) size u path ↔ ∃ e ∈ u, path ++ [c] <+: e.coords := by
  constructor
  · intro hc
    obtain ⟨r, hr, rfl⟩ := List.mem_map.1 hc
    have hruns := runs_spec (h.along_cons hpath).ascends
    obtain ⟨e, he⟩ := List.exists_mem_of_ne_nil r.2 (hruns.nonempty r hr)
    rw [hruns.parts r hr, part_along fun e he => h.length_lt hpath he, mem_along] at he
    exact ⟨e, he⟩
  · rintro ⟨e, he, hc⟩
    exact h.mem_branches_of_prefix hpath he hc

end

/-! ## The paths of a level -/

/-- The paths of the positions of a level that has number `level`. -/
structure PathsOf (u : Segment) (level : Nat) (paths : List (List Nat)) : Prop where
  length : ∀ path ∈ paths, path.length = level
  nodup : paths.Nodup
  cover : ∀ e ∈ u, e.coords.take level ∈ paths

variable {paths : List (List Nat)}

theorem pathsOf_top (u : Segment) : PathsOf u 0 [[]] where
  length := by simp
  nodup := List.nodup_singleton _
  cover := by simp

theorem mem_extend {q : List Nat} :
    q ∈ extend f size u paths ↔ ∃ path ∈ paths, ∃ c ∈ branches f size u path, path ++ [c] = q := by
  simp [extend, List.mem_flatMap, List.mem_map]

theorem length_of_mem_extend (h : ∀ path ∈ paths, path.length = level) :
    ∀ q ∈ extend f size u paths, q.length = level + 1 := by
  intro q hq
  obtain ⟨path, hpath, c, -, rfl⟩ := mem_extend.1 hq
  rw [List.length_append, h path hpath, List.length_singleton]

theorem length_extend :
    (extend f size u paths).length = (paths.map (branches f size u)).flatten.length := by
  rw [extend, List.length_flatMap, List.length_flatten, List.map_map]
  simp only [List.length_map]
  rfl

theorem PathsOf.extend (hpaths : PathsOf u level paths) (h : Proper 0 sizes u)
    (hsize : sizes[level]? = some size) : PathsOf u (level + 1) (extend f size u paths) where
  length := length_of_mem_extend hpaths.length
  nodup := by
    rw [Segment.extend, List.nodup_flatMap]
    constructor
    · intro path hpath
      have hbranches : (branches f size u path).Pairwise (· < ·) :=
        h.branches_increasing (by rw [hpaths.length path hpath]; exact hsize)
      refine List.Nodup.map (fun c d hcd => ?_) (hbranches.imp Nat.ne_of_lt)
      simpa using hcd
    · refine hpaths.nodup.imp fun {path path'} hne q hq hq' => ?_
      obtain ⟨c, -, rfl⟩ := List.mem_map.1 hq
      obtain ⟨c', -, hcc⟩ := List.mem_map.1 hq'
      exact hne (List.append_inj_left' hcc rfl).symm
  cover := by
    intro e he
    have hlt : level < e.coords.length := by
      rw [h.length_coords he]
      exact (List.getElem?_eq_some_iff.1 hsize).1
    have hpath := hpaths.cover e he
    rw [List.take_add_one, List.getElem?_eq_getElem hlt, Option.toList_some]
    refine mem_extend.2 ⟨_, hpath, e.coords[level], ?_, rfl⟩
    refine h.mem_branches_of_prefix (by rwa [hpaths.length _ hpath]) he ?_
    rw [prefix_of_take (k := level + 1) (by simp; omega), List.take_add_one,
      List.getElem?_eq_getElem hlt, Option.toList_some]

/-- The paths of a sparse level are the beginnings of entries, whatever is above it. -/
theorem PathsOf.mem_extend_sparse (hpaths : PathsOf u level paths) (h : Proper 0 sizes u)
    (hsize : sizes[level]? = some size) {ps cs : Lane} {q : List Nat} :
    q ∈ Segment.extend (.sparse ps cs) size u paths ↔ ∃ e ∈ u, e.coords.take (level + 1) = q := by
  constructor
  · intro hq
    obtain ⟨path, hpath, c, hc, rfl⟩ := mem_extend.1 hq
    have hlen := hpaths.length path hpath
    rw [h.mem_branches_sparse (by rwa [hlen])] at hc
    obtain ⟨e, he, hprefix⟩ := hc
    refine ⟨e, he, (prefix_of_take ?_).1 hprefix⟩
    rw [List.length_append, hlen, List.length_singleton]
  · rintro ⟨e, he, rfl⟩
    exact (hpaths.extend h hsize).cover e he

end SparseTensor.Segment
