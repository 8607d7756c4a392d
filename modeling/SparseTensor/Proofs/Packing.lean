import SparseTensor.Proofs.Filling

/-!
# The walk undoes packing

Packing turns the segments above a level into the arrays of the level and the segments below it.
Those below the segment at position `p` start where the children of the segments before `p` end;
a sparse level writes these starts down (`SparseBuild.Holds`), and at a dense level they are the
multiples of the size.

**Theorem (`walkFrom_packStack`).** Over a stack of packed levels, the walk from position `p` finds
what `Segment.fill` says is stored below the segment at `p`.

The proof is an induction on the stack. It does not ask that segments be sorted.
-/

namespace SparseTensor

variable {α β : Type}

/-! ## Blocks laid end to end -/

/-- Where the block of the member at `p` starts. -/
def blockStart (f : α → List β) (xs : List α) (p : Nat) : Nat := ((xs.take p).flatMap f).length

theorem flatMap_eq_blocks {xs : List α} {f : α → List β} {p : Nat} {x : α} (hx : xs[p]? = some x) :
    xs.flatMap f = (xs.take p).flatMap f ++ (f x ++ (xs.drop (p + 1)).flatMap f) := by
  obtain ⟨hp, rfl⟩ := List.getElem?_eq_some_iff.1 hx
  rw [← List.flatMap_cons, ← List.drop_eq_getElem_cons hp, ← List.flatMap_append,
    List.take_append_drop]

theorem getElem?_flatMap_blockStart {xs : List α} {f : α → List β} {p i : Nat} {x : α} {y : β}
    (hx : xs[p]? = some x) (hy : (f x)[i]? = some y) :
    (xs.flatMap f)[blockStart f xs p + i]? = some y := by
  have hi : i < (f x).length := (List.getElem?_eq_some_iff.1 hy).1
  rw [flatMap_eq_blocks hx, blockStart, List.getElem?_append_right (Nat.le_add_right _ _),
    Nat.add_sub_cancel_left, List.getElem?_append_left hi, hy]

theorem blockStart_succ {xs : List α} {f : α → List β} {p : Nat} {x : α} (hx : xs[p]? = some x) :
    blockStart f xs (p + 1) = blockStart f xs p + (f x).length := by
  rw [blockStart, blockStart, List.take_add_one, hx, Option.toList_some, List.flatMap_append,
    List.length_append, List.flatMap_singleton]

theorem blockStart_append {f : α → List β} {xs ys : List α} {p : Nat} (hp : p ≤ xs.length) :
    blockStart f (xs ++ ys) p = blockStart f xs p := by
  rw [blockStart, List.take_append_of_le_length hp, blockStart]

/-- Blocks of one length start at its multiples. -/
theorem blockStart_const {f : α → List β} {n : Nat} (hf : ∀ x, (f x).length = n) {xs : List α}
    {p : Nat} (hp : p ≤ xs.length) : blockStart f xs p = p * n := by
  rw [blockStart, List.length_flatMap, List.map_congr_left fun x _ => hf x, List.map_const',
    List.sum_replicate_nat, List.length_take, Nat.min_eq_left hp]

/-! ## Writing arrays -/

namespace IndexArray

/-- Integers that are pushed one after another stand in the array in their order. -/
theorem values_of_foldlM_push {f : α → Int} {xs : List α} {a b : IndexArray}
    (h : xs.foldlM (fun a x => a.push (f x)) a = .ok b) : b.values = a.values ++ xs.map f := by
  induction xs generalizing a with
  | nil => cases h; simp
  | cons x xs ih =>
    rw [List.foldlM_cons, bind_eq_ok] at h
    obtain ⟨c, hpush, hrest⟩ := h
    rw [ih hrest, (push_eq_ok.1 hpush).2.2, List.append_assoc, List.map_cons, List.singleton_append]

end IndexArray

theorem Width.count_le_positionLimit {w : Width} (h : w.bits ≤ 64) : w.count ≤ positionLimit := by
  cases w <;> simp_all [Width.bits, Width.count, positionLimit]

/-- No lane has room for a number beyond the positions. -/
theorem Lane.lt_positionLimit {lane : Lane} {n : Nat} (h : lane.holds n = true) :
    n < positionLimit := by
  obtain ⟨type, hlane⟩ := lane
  cases type with
  | uint w =>
    have hw := Width.count_le_positionLimit (of_decide_eq_true hlane)
    simp only [holds, DataType.holds, Bool.and_eq_true, decide_eq_true_eq] at h
    omega
  | int w =>
    have hw := Width.count_le_positionLimit (of_decide_eq_true hlane)
    simp only [holds, DataType.holds, Bool.and_eq_true, decide_eq_true_eq] at h
    omega
  | _ => cases hlane

/-! ## One level -/

/-- Since its arrays had the given values, the build has got the children of `segs`, and where they
start among these. -/
structure SparseBuild.Extends (positions coordinates : List Int) (level : Nat) (segs : List Segment)
    (b : SparseBuild) : Prop where
  positions : b.positions.values = positions ++
    (List.range (segs.length + 1)).map fun p => (blockStart (Segment.runs level) segs p : Int)
  coordinates : b.coordinates.values =
    coordinates ++ (segs.flatMap (Segment.runs level)).map fun r => (r.1 : Int)
  below : b.below = (segs.flatMap (Segment.runs level)).map Prod.snd

theorem SparseBuild.Extends.add {ps cs : List Int} {level : Nat} {segs : List Segment}
    {seg : Segment} {b b' : SparseBuild} (h : b.Extends ps cs level segs)
    (hadd : b.add level seg = .ok b') : b'.Extends ps cs level (segs ++ [seg]) := by
  simp only [SparseBuild.add, bind_eq_ok] at hadd
  obtain ⟨coordinates, hcoordinates, positions, hpositions, hb'⟩ := hadd
  cases hb'
  have hflat : (segs ++ [seg]).flatMap (Segment.runs level) =
      segs.flatMap (Segment.runs level) ++ seg.runs level := by
    rw [List.flatMap_append, List.flatMap_singleton]
  refine ⟨?_, ?_, ?_⟩
  · -- The starts that are written stay, and the new one is the number of children so far.
    have hstarts : ∀ p ∈ List.range (segs.length + 1),
        (blockStart (Segment.runs level) (segs ++ [seg]) p : Int) =
          blockStart (Segment.runs level) segs p := fun p hp => by
      rw [blockStart_append (Nat.lt_succ_iff.1 (List.mem_range.1 hp))]
    have hlast : (b.below ++ (seg.runs level).map (·.2)).length =
        blockStart (Segment.runs level) (segs ++ [seg]) (segs.length + 1) := by
      rw [blockStart, List.take_of_length_le (by simp), hflat, h.below, ← List.map_append,
        List.length_map]
    rw [(IndexArray.push_eq_ok.1 hpositions).2.2, h.positions, hlast, List.length_append,
      List.length_singleton, List.range_succ (n := segs.length + 1), List.map_append,
      List.map_congr_left hstarts, List.append_assoc]
    rfl
  · rw [IndexArray.values_of_foldlM_push hcoordinates, h.coordinates, hflat, List.map_append,
      List.append_assoc]
  · rw [h.below, hflat, List.map_append]

/-- The build after the parents `segs`: each has its run of children, and the positions say where
the runs start. -/
structure SparseBuild.Holds (level : Nat) (segs : List Segment) (b : SparseBuild) : Prop where
  positions : b.positions.values =
    (List.range (segs.length + 1)).map fun p => (blockStart (Segment.runs level) segs p : Int)
  coordinates : b.coordinates.values = (segs.flatMap (Segment.runs level)).map fun r => (r.1 : Int)
  below : b.below = (segs.flatMap (Segment.runs level)).map Prod.snd

theorem SparseBuild.holds_iff {level : Nat} {segs : List Segment} {b : SparseBuild} :
    b.Holds level segs ↔ b.Extends [] [] level segs :=
  ⟨fun h => ⟨h.positions, h.coordinates, h.below⟩, fun h => ⟨h.positions, h.coordinates, h.below⟩⟩

theorem SparseBuild.Holds.add {level : Nat} {segs : List Segment} {seg : Segment}
    {b b' : SparseBuild} (h : b.Holds level segs) (hadd : b.add level seg = .ok b') :
    b'.Holds level (segs ++ [seg]) :=
  holds_iff.2 ((holds_iff.1 h).add hadd)

namespace SparseBuild

/-- A sparse level that is written after what the arrays hold. -/
def run (level : Nat) (positions coordinates : IndexArray) (segs : List Segment) :
    Except Fault SparseBuild := do
  let start ← positions.push 0
  segs.foldlM (add level) ⟨start, coordinates, []⟩

/-- Packing a sparse level writes it to empty arrays. -/
theorem packSparse_eq_run (level : Nat) (positions coordinates : Lane) (segs : List Segment) :
    Level.packSparse level positions coordinates segs =
      (run level (.empty positions) (.empty coordinates) segs).map fun b =>
        (.sparse b.positions b.coordinates, b.below) := by
  rw [Level.packSparse, run]
  cases (IndexArray.empty positions).push 0 with
  | error e => rfl
  | ok start =>
    show (segs.foldlM (add level) ⟨start, .empty coordinates, []⟩ >>= _) =
      (segs.foldlM (add level) ⟨start, .empty coordinates, []⟩).map _
    cases segs.foldlM (add level) ⟨start, .empty coordinates, []⟩ <;> rfl

theorem extends_of_run {level : Nat} {positions coordinates : IndexArray} {segs : List Segment}
    {b : SparseBuild} (h : run level positions coordinates segs = .ok b) :
    b.Extends positions.values coordinates.values level segs := by
  rw [run, bind_eq_ok] at h
  obtain ⟨start, hstart, h⟩ := h
  refine foldlM_induction (P := Extends positions.values coordinates.values level)
    (fun _ _ _ _ hb hadd => hb.add hadd) [] h ⟨?_, ?_, rfl⟩
  · rw [(IndexArray.push_eq_ok.1 hstart).2.2]
    rfl
  · exact (List.append_nil _).symm

end SparseBuild

namespace Level

open Segment

variable {level size : Nat} {f : LevelFormat} {l : Level} {segs below : List Segment}

theorem packDense_eq_ok {lane : Lane} (h : packDense level size lane segs = .ok (l, below)) :
    ∃ sizes, l = .dense sizes ∧ (Level.dense sizes).size? = some size ∧
      below = segs.flatMap (fan level 0 size) := by
  simp only [packDense, bind_eq_ok] at h
  obtain ⟨sizes, hsizes, hl⟩ := h
  cases hl
  obtain ⟨hholds, -, hvalues⟩ := IndexArray.push_eq_ok.1 hsizes
  refine ⟨sizes, rfl, ?_, rfl⟩
  rw [size?, hvalues]
  exact position?_eq_some.2 ⟨rfl, Lane.lt_positionLimit hholds⟩

theorem packSparse_eq_ok {positions coordinates : Lane}
    (h : packSparse level positions coordinates segs = .ok (l, below)) :
    ∃ b : SparseBuild, l = .sparse b.positions b.coordinates ∧ below = b.below ∧
      b.Holds level segs := by
  rw [SparseBuild.packSparse_eq_run] at h
  cases hb : SparseBuild.run level (.empty positions) (.empty coordinates) segs with
  | error e =>
    rw [hb] at h
    cases h
  | ok b =>
    rw [hb] at h
    cases h
    exact ⟨b, rfl, rfl, SparseBuild.holds_iff.2 (SparseBuild.extends_of_run hb)⟩

/-- Either kind of level puts the children of every segment below it, in order. -/
theorem below_of_pack (h : pack level size f segs = .ok (l, below)) :
    below = (segs.flatMap (children level f size)).map Prod.snd := by
  cases f with
  | dense lane =>
    obtain ⟨sizes, -, -, hbelow⟩ := packDense_eq_ok h
    rw [hbelow, List.map_flatMap]
    refine List.flatMap_congr fun seg _ => ?_
    rw [children, List.map_snd_zip (by simp)]
  | sparse positions coordinates =>
    obtain ⟨b, -, hbelow, hb⟩ := packSparse_eq_ok h
    rw [hbelow, hb.below]
    rfl

end Level

/-! ## The walk -/

namespace Storage

open Segment

variable {level size : Nat} {f : LevelFormat} {l : Level} {levels : List Level}
  {segs below : List Segment} {values : List Value}

theorem length_children_dense {lane : Lane} (seg : Segment) :
    (children level (.dense lane) size seg).length = size := by
  rw [children, List.length_zip, List.length_range, length_fan, Nat.min_self]

/-- One level of the walk: what is below the children of the segment at `p`, one after another. -/
theorem walkFrom_pack {g : Segment → List Entry} (h : Level.pack level size f segs = .ok (l, below))
    (hbelow : ∀ k seg, below[k]? = some seg → walkFrom values levels k = .ok (g seg)) {p : Nat}
    {seg : Segment} (hp : segs[p]? = some seg) :
    walkFrom values (l :: levels) p =
      .ok ((children level f size seg).flatMap fun r => (g r.2).map (Entry.under r.1)) := by
  have hlt : p < segs.length := (List.getElem?_eq_some_iff.1 hp).1
  have hchild : ∀ i r, (children level f size seg)[i]? = some r →
      walkFrom values levels (blockStart (children level f size) segs p + i) = .ok (g r.2) := by
    intro i r hr
    apply hbelow
    rw [Level.below_of_pack h, List.getElem?_map, getElem?_flatMap_blockStart hp hr]
    rfl
  rw [List.flatMap_def]
  cases f with
  | dense lane =>
    obtain ⟨sizes, rfl, hsize, -⟩ := Level.packDense_eq_ok h
    rw [blockStart_const length_children_dense hlt.le] at hchild
    -- The child at place `c` is the one with coordinate `c`.
    have hsteps := mapM_range'_ok 0 (children level (.dense lane) size seg)
      (f := fun c => do return (← walkFrom values levels (p * size + c)).map (Entry.under c))
      (g := fun r => (g r.2).map (Entry.under r.1)) fun i r hr => by
        have hi : i = r.1 := by
          rw [children, List.getElem?_zip_eq_some] at hr
          obtain ⟨hlt, hget⟩ := List.getElem?_eq_some_iff.1 hr.1
          rwa [List.getElem_range] at hget
        rw [Nat.zero_add, hchild i r hr, hi]
        rfl
    rw [length_children_dense, ← List.range_eq_range'] at hsteps
    rw [walkFrom, hsize, Option.getD_some]
    exact congrArg (· >>= fun below => .ok below.flatten) hsteps
  | sparse positions coordinates =>
    obtain ⟨b, rfl, -, hb⟩ := Level.packSparse_eq_ok h
    have hstart : ∀ q ≤ segs.length,
        b.positions.get q = .ok (blockStart (runs level) segs q : Int) := fun q hq => by
      refine fetch_eq_ok.2 ?_
      rw [hb.positions, List.getElem?_map, List.getElem?_range (Nat.lt_succ_iff.2 hq)]
      rfl
    have hsteps := mapM_range'_ok (blockStart (runs level) segs p) (runs level seg)
      (f := fun k => do
        let c ← b.coordinates.get k
        return (← walkFrom values levels k).map (Entry.under c.toNat))
      (g := fun r => (g r.2).map (Entry.under r.1)) fun i r hr => by
        have hc : b.coordinates.get (blockStart (runs level) segs p + i) = .ok (r.1 : Int) := by
          refine fetch_eq_ok.2 ?_
          rw [hb.coordinates, List.getElem?_map, getElem?_flatMap_blockStart hp hr, Option.map_some]
        have hi : walkFrom values levels (blockStart (runs level) segs p + i) = .ok (g r.2) :=
          hchild i r hr
        rw [hc, hi]
        rfl
    have hcount : blockStart (runs level) segs (p + 1) - blockStart (runs level) segs p =
        (runs level seg).length := by
      rw [blockStart_succ hp, Nat.add_sub_cancel_left]
    rw [← hcount] at hsteps
    rw [walkFrom, hstart p hlt.le, hstart (p + 1) hlt]
    exact congrArg (· >>= fun below => .ok below.flatten) hsteps

/-- **The walk undoes packing.** From position `p` above packed levels it finds what the segment at
`p` stands for. -/
theorem walkFrom_packStack (zero : Value) {stack : List (LevelFormat × Nat)} {leaves : List Segment}
    (h : Level.packStack level stack segs = .ok (levels, leaves)) {p : Nat} {seg : Segment}
    (hp : segs[p]? = some seg) :
    walkFrom (leaves.map (leafValue zero)) levels p = .ok (fill zero level stack seg) := by
  induction stack generalizing level segs levels p seg with
  | nil =>
    cases h
    have hvalue : fetch (leaves.map (leafValue zero)) p = .ok (leafValue zero seg) := by
      rw [fetch_eq_ok, List.getElem?_map, hp, Option.map_some]
    rw [walkFrom, hvalue]
    rfl
  | cons f stack ih =>
    obtain ⟨f, size⟩ := f
    simp only [Level.packStack, bind_eq_ok] at h
    obtain ⟨⟨l, below⟩, hpack, ⟨levels, leaves⟩, hrest, hl⟩ := h
    cases hl
    exact walkFrom_pack hpack (fun k seg hk => ih hrest hk) hp

end Storage

end SparseTensor
