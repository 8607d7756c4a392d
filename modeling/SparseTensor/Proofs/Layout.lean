import Mathlib.Data.Finset.Card
import SparseTensor.Proofs.Paths

/-!
# The layout of a packed stack

`Level.Laid` says what a stack of levels over the positions with some paths records, level by level,
and which paths its last positions have.

**Theorem (`packStack_eq_ok`).** Packing a stack gives what is laid, and at each of the last
positions the entries along its path.

**Theorem (`exists_laid_iff`).** It succeeds if and only if every level can be written (`Writable`).
That is said about the entries alone: below a sparse level there are as many positions as entries
have different beginnings (`beginnings`), and the coordinates that it stores are those of the
entries.

**Theorem (`stackExtent_of_laid`).** What is laid passes the checks of an index, as long as there
are few enough positions (`positionCounts`).

Both conditions depend only on which coordinates the entries have (`writable_congr`,
`positionCounts_congr`).
-/

namespace SparseTensor.Level

open Segment

variable {level size k : Nat} {sizes : List Nat} {f : LevelFormat} {u u' : Segment} {l : Level}
  {levels : List Level} {stack : List (LevelFormat × Nat)} {paths leaves : List (List Nat)}

/-! ## What is laid -/

/-- Over positions with the given paths, the levels record the entries, and the positions of the
last of them have the paths `leaves`. -/
inductive Laid (u : Segment) : (paths : List (List Nat)) → List (LevelFormat × Nat) → List Level →
    (leaves : List (List Nat)) → Prop
  | nil (paths : List (List Nat)) : Laid u paths [] [] paths
  | cons {f : LevelFormat} {size : Nat} {l : Level} {stack : List (LevelFormat × Nat)}
      {levels : List Level} {paths leaves : List (List Nat)} :
      Records f size (paths.map (branches f size u)) l →
      Laid u (extend f size u paths) stack levels leaves →
        Laid u paths ((f, size) :: stack) (l :: levels) leaves

theorem forksOf_along (hpaths : PathsOf u level paths) :
    forksOf level f size (paths.map u.along) = paths.map (branches f size u) := by
  rw [forksOf, List.map_map]
  apply List.map_congr_left
  intro path hpath
  rw [branches, hpaths.length path hpath]
  rfl

theorem below_along (h : Proper 0 sizes u) (hpaths : PathsOf u level paths)
    (hsize : sizes[level]? = some size) :
    ((paths.map u.along).flatMap (children level f size)).map Prod.snd =
      (extend f size u paths).map u.along := by
  rw [List.flatMap_map, List.map_flatMap, extend, List.map_flatMap]
  apply List.flatMap_congr
  intro path hpath
  have hlen := hpaths.length path hpath
  rw [← hlen] at hsize ⊢
  rw [h.children_along hsize, List.map_map, List.map_map]
  rfl

theorem pack_along_eq_ok (h : Proper 0 sizes u) (hpaths : PathsOf u level paths)
    (hsize : sizes[level]? = some size) {below : List Segment} :
    pack level size f (paths.map u.along) = .ok (l, below) ↔
      Records f size (paths.map (branches f size u)) l ∧
        below = (extend f size u paths).map u.along := by
  rw [pack_eq_ok, forksOf_along hpaths, below_along h hpaths hsize]

/-- The sizes from a level on, where the stack from there has one more level. -/
theorem sizes_uncons (h : sizes.drop level = ((f, size) :: stack).map Prod.snd) :
    sizes[level]? = some size ∧ sizes.drop (level + 1) = stack.map Prod.snd := by
  rw [List.map_cons] at h
  constructor
  · have hget := congrArg (fun xs => xs[0]?) h
    simpa using hget
  · have htail := congrArg List.tail h
    simpa using htail

/-- **Packing a stack** gives what is laid over the paths, and the entries along the last of
them. -/
theorem packStack_eq_ok (h : Proper 0 sizes u) (hpaths : PathsOf u level paths)
    (hsizes : sizes.drop level = stack.map Prod.snd) {segs : List Segment} :
    packStack level stack (paths.map u.along) = .ok (levels, segs) ↔
      ∃ leaves, Laid u paths stack levels leaves ∧ segs = leaves.map u.along := by
  induction stack generalizing level paths levels with
  | nil =>
    constructor
    · intro hpack
      cases hpack
      exact ⟨paths, .nil paths, rfl⟩
    · rintro ⟨leaves, hlaid, rfl⟩
      cases hlaid
      rfl
  | cons x stack ih =>
    obtain ⟨f, size⟩ := x
    obtain ⟨hsize, hsizes⟩ := sizes_uncons hsizes
    have ih : ∀ levels, packStack (level + 1) stack ((extend f size u paths).map u.along) =
        .ok (levels, segs) ↔ ∃ leaves, Laid u (extend f size u paths) stack levels leaves ∧
          segs = leaves.map u.along := fun _ => ih (hpaths.extend h hsize) hsizes
    simp only [packStack, bind_eq_ok, Prod.exists]
    constructor
    · rintro ⟨l, below, hpack, levels', segs', hrest, hl⟩
      cases hl
      obtain ⟨hl, rfl⟩ := (pack_along_eq_ok h hpaths hsize).1 hpack
      obtain ⟨leaves, hlaid, hsegs⟩ := (ih levels').1 hrest
      exact ⟨leaves, .cons hl hlaid, hsegs⟩
    · rintro ⟨leaves, hlaid, hsegs⟩
      cases hlaid with
      | @cons _ _ l _ levels' _ _ hl hlaid =>
        exact ⟨l, _, (pack_along_eq_ok h hpaths hsize).2 ⟨hl, rfl⟩, levels', segs,
          (ih levels').2 ⟨leaves, hlaid, hsegs⟩, rfl⟩

/-- Packing a stack fails for an integer for which one of its lanes has no room. -/
theorem packStack_eq_error {segs : List Segment} {e : Fault}
    (h : packStack level stack segs = .error e) :
    ∃ x ∈ stack, ∃ v, ∃ lane ∈ x.1.lanes,
      e = .valueOutOfRange v lane.type ∧ lane.holds v = false := by
  induction stack generalizing level segs with
  | nil => cases h
  | cons x stack ih =>
    simp only [packStack, bind_eq_error] at h
    rcases h with h | ⟨r, -, h | ⟨r', -, h⟩⟩
    · exact ⟨x, List.mem_cons_self, pack_eq_error h⟩
    · obtain ⟨y, hy, hrest⟩ := ih h
      exact ⟨y, List.mem_cons_of_mem x hy, hrest⟩
    · cases h

/-! ## What can be written -/

/-- How many different beginnings of `n` components the entries have. -/
def beginnings (u : Segment) (n : Nat) : Nat := (u.map fun e => e.coords.take n).toFinset.card

/-- Level number `k` can be written: the size of a dense level fits its lane; the number of
positions of a sparse level fits the lane of positions, and the coordinates of the entries fit the
lane of coordinates. -/
def Writable (u : Segment) (k : Nat) : LevelFormat × Nat → Prop
  | (.dense lane, size) => lane.holds size = true
  | (.sparse ps cs, _) =>
    ps.holds (beginnings u (k + 1)) = true ∧ ∀ e ∈ u, cs.holds (e.at k) = true

theorem length_extend_sparse (h : Proper 0 sizes u) (hpaths : PathsOf u level paths)
    (hsize : sizes[level]? = some size) {ps cs : Lane} :
    (extend (.sparse ps cs) size u paths).length = beginnings u (level + 1) := by
  have hnodup := (hpaths.extend (f := .sparse ps cs) h hsize).nodup
  rw [beginnings, ← List.toFinset_card_of_nodup hnodup]
  congr 1
  ext q
  rw [List.mem_toFinset, List.mem_toFinset, hpaths.mem_extend_sparse h hsize, List.mem_map]

theorem mem_flatten_branches_sparse (h : Proper 0 sizes u) (hpaths : PathsOf u level paths)
    (hsize : sizes[level]? = some size) {ps cs : Lane} {c : Nat} :
    c ∈ (paths.map (branches (.sparse ps cs) size u)).flatten ↔ ∃ e ∈ u, e.at level = c := by
  rw [List.mem_flatten]
  constructor
  · rintro ⟨cs', hcs', hc⟩
    obtain ⟨path, hpath, rfl⟩ := List.mem_map.1 hcs'
    have hlen := hpaths.length path hpath
    rw [← hlen] at hsize
    obtain ⟨e, he, hprefix⟩ := (h.mem_branches_sparse hsize).1 hc
    refine ⟨e, he, ?_⟩
    rw [snoc_prefix_iff (h.length_lt hsize he), hlen] at hprefix
    exact hprefix.2
  · rintro ⟨e, he, rfl⟩
    have hpath := hpaths.cover e he
    have hlen := hpaths.length _ hpath
    rw [← hlen] at hsize
    refine ⟨_, List.mem_map_of_mem hpath, h.mem_branches_of_prefix hsize he ?_⟩
    rw [snoc_prefix_iff (h.length_lt hsize he), hlen]
    exact ⟨List.take_prefix _ _, rfl⟩

theorem hasRoom_iff_writable (h : Proper 0 sizes u) (hpaths : PathsOf u level paths)
    (hsize : sizes[level]? = some size) :
    HasRoom size (paths.map (branches f size u)) f ↔ Writable u level (f, size) := by
  cases f with
  | dense lane => exact Iff.rfl
  | sparse ps cs =>
    rw [HasRoom, Writable, ← length_extend, length_extend_sparse h hpaths hsize]
    apply and_congr_right
    intro _
    simp only [mem_flatten_branches_sparse h hpaths hsize]
    constructor
    · intro hroom e he
      exact hroom _ ⟨e, he, rfl⟩
    · rintro hroom c ⟨e, he, rfl⟩
      exact hroom e he

/-- A stack can be laid if each of its levels can be written. -/
theorem exists_laid_iff (h : Proper 0 sizes u) (hpaths : PathsOf u level paths)
    (hsizes : sizes.drop level = stack.map Prod.snd) :
    (∃ levels leaves, Laid u paths stack levels leaves) ↔
      ∀ k x, stack[k]? = some x → Writable u (level + k) x := by
  induction stack generalizing level paths with
  | nil => exact iff_of_true ⟨[], paths, .nil paths⟩ (by simp)
  | cons x stack ih =>
    obtain ⟨f, size⟩ := x
    obtain ⟨hsize, hsizes⟩ := sizes_uncons hsizes
    have ih := ih (hpaths.extend (f := f) h hsize) hsizes
    constructor
    · rintro ⟨_, leaves, hlaid⟩
      cases hlaid with
      | cons hl hlaid =>
        have hrest := ih.1 ⟨_, leaves, hlaid⟩
        rintro (_ | k) x hx
        · cases hx
          exact (hasRoom_iff_writable h hpaths hsize).1 hl.hasRoom
        · have hwritable := hrest k x hx
          rwa [Nat.add_right_comm] at hwritable
    · intro hall
      have hhead := (hasRoom_iff_writable h hpaths hsize).2 (hall 0 _ rfl)
      obtain ⟨l, hl⟩ := exists_records_of_hasRoom hhead
      obtain ⟨levels, leaves, hlaid⟩ := ih.2 fun k x hx => by
        rw [Nat.add_right_comm]
        exact hall (k + 1) x hx
      exact ⟨l :: levels, leaves, .cons hl hlaid⟩

/-! ## What passes the checks -/

/-- How many positions a level that has number `level` has below `parents` positions. -/
def positionCount (u : Segment) (level parents : Nat) : LevelFormat × Nat → Nat
  | (.dense _, size) => parents * size
  | (.sparse _ _, _) => beginnings u (level + 1)

/-- How many positions each level of a stack has, the first below `parents` positions. -/
def positionCounts (u : Segment) :
    (level parents : Nat) → List (LevelFormat × Nat) → List Nat
  | _, _, [] => []
  | level, parents, x :: stack =>
    positionCount u level parents x ::
      positionCounts u (level + 1) (positionCount u level parents x) stack

theorem length_extend_dense (lane : Lane) (size : Nat) (u : Segment) (paths : List (List Nat)) :
    (extend (.dense lane) size u paths).length = paths.length * size := by
  have hsize : ∀ path ∈ paths, ((branches (.dense lane) size u path).map
      fun c => path ++ [c]).length = size := by
    intro path _
    rw [branches_dense, List.length_map, List.length_range]
  rw [extend, List.length_flatMap, List.map_congr_left hsize, List.map_const',
    List.sum_replicate_nat]

theorem length_extend_eq (h : Proper 0 sizes u) (hpaths : PathsOf u level paths)
    (hsize : sizes[level]? = some size) :
    (extend f size u paths).length = positionCount u level paths.length (f, size) := by
  cases f with
  | dense lane => exact length_extend_dense lane size u paths
  | sparse ps cs => exact length_extend_sparse h hpaths hsize

variable {mode parents : Nat} {forks : List (List Nat)}

theorem extent_of_records_dense {lane : Lane}
    (h : Records (.dense lane) size forks l) (hlimit : parents * size < positionLimit) :
    l.extent mode parents .dense = .ok (parents * size) := by
  have hroom := h.hasRoom
  cases h with
  | dense hlane hvalues =>
    rw [extent_dense_eq_ok]
    refine ⟨rfl, size, ?_, rfl, hlimit⟩
    rw [size?, hvalues]
    exact position?_eq_some.2 ⟨rfl, Lane.lt_positionLimit hroom⟩

theorem extent_of_records_sparse {ps cs : Lane} (h : Records (.sparse ps cs) size forks l)
    (hparents : forks.length + 1 < positionLimit) :
    l.extent mode forks.length .sparse = .ok forks.flatten.length := by
  have hroom := h.hasRoom
  cases h with
  | sparse hps hcs hpositions hcoordinates =>
    rw [extent_sparse_eq_ok]
    refine ⟨rfl, ?_⟩
    exact {
      room := hparents
      length_positions := by rw [hpositions, List.length_map, List.length_range]
      start := by
        rw [hpositions, List.getElem?_map, List.getElem?_range (Nat.succ_pos _)]
        rfl
      sorted := by
        rw [hpositions, List.pairwise_map]
        exact List.pairwise_lt_range.imp fun hpq => Int.ofNat_le.2 (forkStart_mono hpq.le)
      last := by
        rw [hpositions, List.getElem?_map, List.getElem?_range (Nat.lt_succ_self _),
          Option.map_some, forkStart_length]
      limit := Lane.lt_positionLimit hroom.1
      length_coordinates := by rw [hcoordinates, List.length_map]
      nonneg := by
        rw [hcoordinates, List.forall_mem_map]
        intro c _
        exact Int.natCast_nonneg c }

theorem extent_of_records (mode : Nat)
    (hl : Records f size (paths.map (branches f size u)) l)
    (hparents : paths.length + 1 < positionLimit)
    (hcount : positionCount u level paths.length (f, size) < positionLimit) :
    l.extent mode paths.length f.kind = .ok (extend f size u paths).length := by
  cases f with
  | dense lane =>
    rw [length_extend_dense]
    exact extent_of_records_dense hl hcount
  | sparse ps cs =>
    have hlen : (paths.map (branches (.sparse ps cs) size u)).length = paths.length :=
      List.length_map _
    rw [← hlen] at hparents ⊢
    rw [length_extend]
    exact extent_of_records_sparse hl hparents

/-- What is laid passes the checks of an index. -/
theorem stackExtent_of_laid (h : Proper 0 sizes u) (hpaths : PathsOf u level paths)
    (hsizes : sizes.drop level = stack.map Prod.snd) (hlaid : Laid u paths stack levels leaves)
    (hparents : paths.length + 1 < positionLimit)
    (hcounts : ∀ n ∈ positionCounts u level paths.length stack, n + 1 < positionLimit) :
    stackExtent level paths.length (stack.map fun x => x.1.kind) levels = .ok leaves.length := by
  induction hlaid generalizing level with
  | nil paths => rfl
  | @cons f size l stack levels paths leaves hl _ ih =>
    obtain ⟨hsize, hsizes⟩ := sizes_uncons hsizes
    rw [positionCounts, List.forall_mem_cons] at hcounts
    obtain ⟨hcount, hcounts⟩ := hcounts
    have hextent := extent_of_records level hl hparents (Nat.lt_of_succ_lt hcount)
    rw [← length_extend_eq h hpaths hsize] at hcount hcounts
    have hrest := ih (hpaths.extend h hsize) hsizes hcount hcounts
    rw [List.map_cons, stackExtent, bind_eq_ok]
    exact ⟨_, hextent, hrest⟩

/-- What is laid has the arrays for which the format asks. -/
theorem ofArrays_of_laid (hlaid : Laid u paths stack levels leaves) :
    List.Forall₂ (fun x l => ofArrays x.1.kind l.arrays = .ok l) stack levels := by
  induction hlaid with
  | nil => exact .nil
  | cons hl _ ih =>
    refine .cons ?_ ih
    cases hl with
    | dense => rfl
    | sparse => rfl

/-! ## Entries with the same coordinates -/

theorem beginnings_congr (h : ∀ c, c ∈ u.map Entry.coords ↔ c ∈ u'.map Entry.coords) (n : Nat) :
    beginnings u n = beginnings u' n := by
  rw [beginnings, beginnings]
  congr 1
  ext path
  have hmap : ∀ v : Segment, path ∈ v.map (fun e => e.coords.take n) ↔
      ∃ c ∈ v.map Entry.coords, c.take n = path := by
    intro v
    simp only [List.mem_map, exists_exists_and_eq_and]
  rw [List.mem_toFinset, List.mem_toFinset, hmap, hmap]
  simp only [h]

theorem writable_congr (h : ∀ c, c ∈ u.map Entry.coords ↔ c ∈ u'.map Entry.coords) {k : Nat}
    {x : LevelFormat × Nat} : Writable u k x ↔ Writable u' k x := by
  obtain ⟨f, size⟩ := x
  cases f with
  | dense lane => exact Iff.rfl
  | sparse ps cs =>
    have hat : ∀ v : Segment, (∀ e ∈ v, cs.holds (e.at k) = true) ↔
        ∀ c ∈ v.map Entry.coords, cs.holds (c.getD k 0 : Nat) = true := by
      intro v
      rw [List.forall_mem_map]
      rfl
    rw [Writable, Writable, beginnings_congr h, hat, hat]
    simp only [h]

theorem positionCounts_congr (h : ∀ c, c ∈ u.map Entry.coords ↔ c ∈ u'.map Entry.coords)
    (level parents : Nat) (stack : List (LevelFormat × Nat)) :
    positionCounts u level parents stack = positionCounts u' level parents stack := by
  induction stack generalizing level parents with
  | nil => rfl
  | cons x stack ih =>
    have hcount : positionCount u level parents x = positionCount u' level parents x := by
      obtain ⟨f, size⟩ := x
      cases f with
      | dense lane => rfl
      | sparse ps cs => exact beginnings_congr h _
    rw [positionCounts, positionCounts, hcount, ih]

end SparseTensor.Level
