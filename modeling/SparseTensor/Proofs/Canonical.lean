import SparseTensor.Proofs.Insertions

/-!
# Packed layouts are canonical

What a packed storage has at each level is determined by its type, its format and the coordinates
that were inserted.

**Theorem (`pack_canonical`).** A dense level stores the size of its dimension. Below each position,
a sparse level stores in increasing order the coordinates that continue the path of the position
towards an insertion, and no others. The arrays have the lanes of the format, and the entries
increase in level order.

Positions are matched with paths by going up (`Level.Climb`): the position that the laid levels give
to a path leads up by that path (`laid_level`), and there is one way up (`Climb.unique`).
-/

namespace SparseTensor

variable {α β : Type}

theorem exists_block {xs : List α} {f : α → List β} {q : Nat} {y : β}
    (hq : (xs.flatMap f)[q]? = some y) :
    ∃ p x i, xs[p]? = some x ∧ (f x)[i]? = some y ∧ q = blockStart f xs p + i := by
  induction xs generalizing q with
  | nil => cases hq
  | cons x xs ih =>
    rw [List.flatMap_cons] at hq
    by_cases hlt : q < (f x).length
    · rw [List.getElem?_append_left hlt] at hq
      exact ⟨0, x, q, rfl, hq, (Nat.zero_add q).symm⟩
    · have hle : (f x).length ≤ q := Nat.le_of_not_lt hlt
      rw [List.getElem?_append_right hle] at hq
      obtain ⟨p, z, i, hz, hi, hqp⟩ := ih hq
      refine ⟨p + 1, z, i, hz, hi, ?_⟩
      rw [blockStart, List.take_succ_cons, List.flatMap_cons, List.length_append, Nat.add_assoc,
        ← blockStart, ← hqp]
      omega

namespace Level

open Segment

variable {level size k p i c : Nat} {sizes path : List Nat} {f : LevelFormat} {u : Segment}
  {l : Level} {above levels : List Level} {stack : List (LevelFormat × Nat)}
  {forks paths leaves : List (List Nat)}

/-! ## Ways up -/

theorem Climb.snoc {top : Nat} (h : Climb levels k top path) (hl : l.Above p k c) :
    Climb (levels ++ [l]) p top (path ++ [c]) := by
  induction h with
  | leaf k => exact .level (.leaf p) hl
  | level _ hup ih => exact .level (ih hl) hup

theorem Climb.unique
    (hlevels : ∀ l ∈ levels, ∃ mode parents n kind, l.extent mode parents kind = .ok n)
    {q q' : Nat} {path' : List Nat} (h : Climb levels p q path) (h' : Climb levels p q' path') :
    q' = q ∧ path' = path := by
  induction h generalizing q' path' with
  | leaf p =>
    cases h'
    exact ⟨rfl, rfl⟩
  | level _ hup ih =>
    cases h' with
    | level h' hup' =>
      rw [List.forall_mem_cons] at hlevels
      obtain ⟨⟨mode, parents, n, kind, hextent⟩, hlevels⟩ := hlevels
      obtain ⟨rfl, rfl⟩ := ih hlevels h'
      obtain ⟨rfl, rfl⟩ := hup.unique hextent hup'
      exact ⟨rfl, rfl⟩

/-! ## What a level stores below a position -/

/-- The coordinates that a sparse level stores below a position. -/
def slice (positions coordinates : IndexArray) (p : Nat) : List Int :=
  (coordinates.values.take (positions.values.getD (p + 1) 0).toNat).drop
    (positions.values.getD p 0).toNat

theorem forkStart_succ {fork : List Nat} (hp : forks[p]? = some fork) :
    forkStart forks (p + 1) = forkStart forks p + fork.length := by
  rw [forkStart, forkStart, List.take_add_one, hp, Option.toList_some, List.flatten_append,
    List.length_append, List.flatten_singleton]

theorem slice_flatten {fork : List Nat} (hp : forks[p]? = some fork) :
    (forks.flatten.take (forkStart forks (p + 1))).drop (forkStart forks p) = fork := by
  have hsplit : forks.flatten =
      (forks.take p).flatten ++ (fork ++ (forks.drop (p + 1)).flatten) := by
    have hblocks := flatMap_eq_blocks (f := id) hp
    simpa only [List.flatMap_id, id_eq] using hblocks
  rw [forkStart_succ hp, hsplit, forkStart, List.take_length_add_append, List.drop_left,
    List.take_left]

theorem lanes_of_records (hl : Records f size forks l) :
    (l.arrays.map fun a => a.lane.type) = f.lanes.map Lane.type := by
  cases hl with
  | dense hlane => rw [LevelFormat.lanes, ← hlane]; rfl
  | sparse hps hcs => rw [LevelFormat.lanes, ← hps, ← hcs]; rfl

theorem slice_of_records {ps cs : Lane} {positions coordinates : IndexArray} {fork : List Nat}
    (hl : Records (.sparse ps cs) size forks (.sparse positions coordinates))
    (hp : forks[p]? = some fork) :
    slice positions coordinates p = fork.map fun c : Nat => (c : Int) := by
  have hlt : p < forks.length := (List.getElem?_eq_some_iff.1 hp).1
  cases hl with
  | sparse _ _ hpositions hcoordinates =>
    have hstart : ∀ q ≤ forks.length, (positions.values.getD q 0).toNat = forkStart forks q := by
      intro q hq
      rw [hpositions, List.getD_eq_getElem?_getD, List.getElem?_map,
        List.getElem?_range (Nat.lt_succ_of_le hq)]
      rfl
    rw [slice, hstart p hlt.le, hstart (p + 1) hlt, hcoordinates, ← List.map_take, ← List.map_drop,
      slice_flatten hp]

theorem above_of_records (hl : Records f size (paths.map (branches f size u)) l)
    (hp : paths[p]? = some path) (hi : (branches f size u path)[i]? = some c) :
    l.Above (blockStart (branches f size u) paths p + i) p c := by
  have hlt : p < paths.length := (List.getElem?_eq_some_iff.1 hp).1
  have hroom := hl.hasRoom
  cases hl with
  | @dense lane _ _ sizes hlane hvalues =>
    rw [branches_dense] at hi
    obtain ⟨hc, rfl⟩ := List.getElem?_eq_some_iff.1 hi
    rw [List.length_range] at hc
    have hsize : (Level.dense sizes).size? = some size := by
      rw [size?, hvalues]
      exact position?_eq_some.2 ⟨rfl, Lane.lt_positionLimit hroom⟩
    have hstart : blockStart (branches (.dense lane) size u) paths p = p * size := by
      refine blockStart_const (fun path => ?_) hlt.le
      rw [branches_dense, List.length_range]
    rw [List.getElem_range, hstart]
    exact .dense_child hsize hc
  | @sparse ps cs _ _ positions coordinates hps hcs hpositions hcoordinates =>
    have hstart : ∀ q ≤ paths.length, positions.values[q]? =
        some (blockStart (branches (.sparse ps cs) size u) paths q : Int) := by
      intro q hq
      rw [hpositions, List.getElem?_map, List.length_map,
        List.getElem?_range (Nat.lt_succ_of_le hq), Option.map_some, forkStart_map]
    have hlast := hstart (p + 1) hlt
    rw [blockStart_succ hp] at hlast
    have hi' : i < (branches (.sparse ps cs) size u path).length :=
      (List.getElem?_eq_some_iff.1 hi).1
    have hc : coordinates.values[blockStart (branches (.sparse ps cs) size u) paths p + i]? =
        some (c : Int) := by
      rw [hcoordinates, ← List.flatMap_def, List.getElem?_map, getElem?_flatMap_blockStart hp hi,
        Option.map_some]
    exact .sparse (hstart p hlt.le) hlast (by omega) (by omega) hc

theorem climb_extend (hclimb : ∀ p path, paths[p]? = some path → Climb above p 0 path)
    (hl : Records f size (paths.map (branches f size u)) l) {q : Nat}
    (hq : (extend f size u paths)[q]? = some path) : Climb (above ++ [l]) q 0 path := by
  obtain ⟨p, path, i, hp, hi, rfl⟩ := exists_block hq
  rw [List.getElem?_map, Option.map_eq_some_iff] at hi
  obtain ⟨c, hi, rfl⟩ := hi
  have habove := above_of_records hl hp hi
  have hstart : blockStart (fun path => (branches f size u path).map fun c => path ++ [c]) paths p =
      blockStart (branches f size u) paths p := by
    rw [blockStart, blockStart, List.length_flatMap, List.length_flatMap]
    simp only [List.length_map]
  rw [hstart]
  exact (hclimb p path hp).snoc habove

/-- Each laid level records the branches below its positions, and these lead up by their paths. -/
theorem laid_level (h : Proper 0 sizes u) (hpaths : PathsOf u level paths)
    (hsizes : sizes.drop level = stack.map Prod.snd) (hlaid : Laid u paths stack levels leaves)
    (hclimb : ∀ p path, paths[p]? = some path → Climb above p 0 path) (hl : levels[k]? = some l) :
    ∃ f size paths', stack[k]? = some (f, size) ∧ PathsOf u (level + k) paths' ∧
      Records f size (paths'.map (branches f size u)) l ∧
      ∀ p path, paths'[p]? = some path → Climb (above ++ levels.take k) p 0 path := by
  induction hlaid generalizing level above k with
  | nil paths => cases hl
  | @cons f size l' stack levels paths leaves hl' _ ih =>
    obtain ⟨hsize, hsizes⟩ := sizes_uncons hsizes
    cases k with
    | zero =>
      cases hl
      refine ⟨f, size, paths, rfl, hpaths, hl', ?_⟩
      simpa using hclimb
    | succ k =>
      obtain ⟨g, n, paths', hstack, hpaths', hrecords, hclimb'⟩ :=
        ih (hpaths.extend h hsize) hsizes (fun q path => climb_extend hclimb hl') hl
      rw [Nat.add_right_comm] at hpaths'
      refine ⟨g, n, paths', hstack, hpaths', hrecords, ?_⟩
      simpa using hclimb'

end Level

namespace Builder

open Segment Level

variable {type : TensorType} {format : Format} {es : List Entry} {b : Builder} {s : Storage}
  {zero : Value} {leaves : List Segment}

section

variable (hb : b.Holds type format es) (hs : b.Packs s zero leaves)

include hb hs

theorem level_of_packs {k : Nat} {l : Level} (hl : s.index.levels[k]? = some l) :
    ∃ f d paths, format.levels[k]? = some f ∧ format.ordering[k]? = some d ∧
      PathsOf (firsts b.sorted) k paths ∧
      Records f (type.shape.size d)
        (paths.map (branches f (type.shape.size d) (firsts b.sorted))) l ∧
      ∀ p path, paths[p]? = some path → Climb (s.index.levels.take k) p 0 path := by
  obtain ⟨leafPaths, hlaid, -⟩ := (hb.packStack_eq_ok hs.known).1 hs.stack_eq
  have htop : ∀ p path, [[]][p]? = some path → Climb [] p 0 path := by
    intro p path hp
    cases p with
    | zero => cases hp; exact .leaf 0
    | succ p => cases hp
  obtain ⟨f, size, paths, hstack, hpaths, hrecords, hclimb⟩ :=
    laid_level (hb.proper hs.known) (pathsOf_top _) rfl hlaid htop hl
  rw [hb.stack_eq, List.getElem?_zip_eq_some, List.getElem?_map, Option.map_eq_some_iff] at hstack
  obtain ⟨hf, d, hd, rfl⟩ := hstack
  rw [Nat.zero_add] at hpaths
  rw [List.nil_append] at hclimb
  exact ⟨f, d, paths, hf, hd, hpaths, hrecords, hclimb⟩

/-- Below each position, a packed sparse level goes on as insertions do. -/
theorem slice_of_packs {k p : Nat} {positions coordinates : IndexArray}
    (hl : s.index.levels[k]? = some (.sparse positions coordinates))
    (hp : p + 1 < positions.values.length) :
    ∃ (d : Nat) (path fork : List Nat), format.ordering[k]? = some d ∧
      Climb (s.index.levels.take k) p 0 path ∧
      slice positions coordinates p = fork.map (fun c : Nat => (c : Int)) ∧
      fork.Pairwise (· < ·) ∧ (∀ c ∈ fork, c < type.shape.size d) ∧
      ∀ c, c ∈ fork ↔ ∃ e ∈ es, path ++ [c] <+: format.toLevelOrder e.coords := by
  obtain ⟨f, d, paths, hf, hd, hpaths, hrecords, hclimb⟩ := level_of_packs hb hs hl
  have hlength : positions.values.length = paths.length + 1 := by
    cases hrecords with
    | sparse _ _ hpositions => rw [hpositions, List.length_map, List.length_range, List.length_map]
  obtain ⟨path, hpath⟩ : ∃ path, paths[p]? = some path :=
    ⟨_, List.getElem?_eq_getElem (by omega)⟩
  have hproper := hb.proper hs.known
  have hsize : (b.stack.map Prod.snd)[path.length]? = some (type.shape.size d) := by
    rw [hpaths.length path (List.mem_of_getElem? hpath), hb.sizes_eq, List.getElem?_map, hd]
    rfl
  cases f with
  | dense lane => cases hrecords
  | sparse ps cs =>
    refine ⟨d, path, branches (.sparse ps cs) (type.shape.size d) (firsts b.sorted) path, hd,
      hclimb p path hpath, slice_of_records hrecords ?_, hproper.branches_increasing hsize,
      fun c hc => hproper.branches_lt hsize hc, fun c => ?_⟩
    · rw [List.getElem?_map, hpath, Option.map_some]
    · rw [hproper.mem_branches_sparse hsize, hb.exists_prefix_iff]

end

/-- **Packed layouts are canonical.** Every array of a packed storage has the lane that the format
declares. A dense level stores the size of its dimension. A position above a sparse level is reached
by one path, and below it the level stores, increasing and below the size of its dimension, exactly
the coordinates with which insertions continue the path. The entries increase in level order. -/
theorem pack_canonical (hb : Built type format es b) (hs : b.pack = .ok s) :
    s.format = format ∧ s.index.levels.length = format.order ∧
      (∀ (k : Nat) (l : Level), s.index.levels[k]? = some l →
        format.laneTypes k = .ok (l.arrays.map fun a => a.lane.type)) ∧
      (∀ (k : Nat) (sizes : IndexArray), s.index.levels[k]? = some (.dense sizes) →
        ∃ d, format.ordering[k]? = some d ∧ sizes.values = [(type.shape.size d : Int)]) ∧
      (∀ (k p : Nat) (positions coordinates : IndexArray),
        s.index.levels[k]? = some (.sparse positions coordinates) →
        p + 1 < positions.values.length →
          ∃ (d : Nat) (path fork : List Nat), format.ordering[k]? = some d ∧
            (∀ path', Climb (s.index.levels.take k) p 0 path' ↔ path' = path) ∧
            slice positions coordinates p = fork.map (fun c : Nat => (c : Int)) ∧
            fork.Pairwise (· < ·) ∧ (∀ c ∈ fork, c < type.shape.size d) ∧
            ∀ c, c ∈ fork ↔ ∃ e ∈ es, path ++ [c] <+: format.toLevelOrder e.coords) ∧
      Increasing (s.entries.map format.atLevels) := by
  have hb := hb.holds
  obtain ⟨zero, leaves, hs⟩ := pack_eq_ok.1 hs
  have hformat := format_of_packs hb hs
  refine ⟨hformat, ?_, ?_, ?_, ?_, ?_⟩
  · rw [s.index.length_levels, ← hformat]
    rfl
  · intro k l hl
    obtain ⟨f, d, paths, hf, -, -, hrecords, -⟩ := level_of_packs hb hs hl
    have hfetch : fetch format.levels k = .ok f := fetch_eq_ok.2 hf
    rw [Format.laneTypes, hfetch, lanes_of_records hrecords]
    rfl
  · intro k sizes hl
    obtain ⟨f, d, paths, -, hd, -, hrecords, -⟩ := level_of_packs hb hs hl
    cases hrecords with
    | dense _ hvalues => exact ⟨d, hd, hvalues⟩
  · intro k p positions coordinates hl hp
    obtain ⟨d, path, fork, hd, hclimb, hfork⟩ := slice_of_packs hb hs hl hp
    refine ⟨d, path, fork, hd, fun path' => ⟨fun hclimb' => ?_, ?_⟩, hfork⟩
    · have hextents : ∀ l ∈ s.index.levels.take k,
          ∃ mode parents n kind, l.extent mode parents kind = .ok n := fun l hl =>
        Storage.exists_extent_of_mem s.stacked (List.mem_of_mem_take hl)
      exact (hclimb.unique hextents hclimb').2
    · rintro rfl
      exact hclimb
  · rw [← hformat, s.map_atLevels_entries, levelEntries_of_packs hs]
    exact (hb.proper hs.known).fill_increasing

/-- Compressed columns of two rows and three columns, with a column that stays empty. -/
theorem pack_canonical_csc :
    let type : TensorType := ⟨.bool, ⟨[.fixed 2 (by decide), .fixed 3 (by decide)]⟩⟩
    let es : List Entry := [⟨[0, 0], .bool true⟩, ⟨[1, 0], .bool false⟩, ⟨[0, 2], .bool true⟩]
    ∃ b s, Built type .csc es b ∧ b.pack = .ok s ∧
      Increasing (s.entries.map Format.csc.atLevels) := by
  intro type es
  have hb : Built type .csc es ⟨type, .csc, .keepFirst, es⟩ :=
    (((Built.new rfl).insert ⟨[0, 0], .bool true⟩ rfl).insert ⟨[1, 0], .bool false⟩ rfl).insert
      ⟨[0, 2], .bool true⟩ rfl
  have hsorted : sorted ⟨type, .csc, .keepFirst, es⟩ =
      [⟨[0, 0], .bool true⟩, ⟨[0, 1], .bool false⟩, ⟨[2, 0], .bool true⟩] :=
    List.mergeSort_of_pairwise (by decide)
  obtain ⟨s, hs⟩ : ∃ s, pack ⟨type, .csc, .keepFirst, es⟩ = .ok s := by
    apply exists_eq_ok
    rw [pack, packLogged, repeated, hsorted]
    decide +kernel
  exact ⟨_, s, hb, hs, (pack_canonical hb hs).2.2.2.2.2⟩

end Builder

end SparseTensor
