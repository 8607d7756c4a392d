import SparseTensor.Storage.Entries

/-!
# Segments

While entries are packed, every position of a level has a segment: the entries stored below it, in
order. One level splits each segment by the coordinate at that level.

- `Segment.fan`: below a dense level every coordinate gets a segment, which may be empty.
- `Segment.runs`: below a sparse level every coordinate that occurs gets one.
-/

namespace SparseTensor

/-- Entries with coordinates in level order, sorted. -/
abbrev Segment := List Entry

/-- The coordinate of an entry at a level. -/
def Entry.at (e : Entry) (level : Nat) : Nat := e.coords.getD level 0

namespace Segment

/-- The segments of `count` coordinates from `first`. -/
def fan (level : Nat) : (first count : Nat) → Segment → List Segment
  | _, 0, _ => []
  | first, count + 1, seg =>
    seg.takeWhile (fun e => e.at level == first) ::
      fan level (first + 1) count (seg.dropWhile fun e => e.at level == first)

/-- Each coordinate that occurs, with its entries. -/
def runs (level : Nat) : Segment → List (Nat × Segment)
  | [] => []
  | e :: seg =>
    match runs level seg with
    | [] => [(e.at level, [e])]
    | (c, run) :: rest =>
      if e.at level = c then (c, e :: run) :: rest else (e.at level, [e]) :: (c, run) :: rest

/-- Nothing is lost or moved by splitting into runs. -/
theorem flatten_runs (level : Nat) (seg : Segment) :
    ((runs level seg).map (·.2)).flatten = seg := by
  induction seg with
  | nil => rfl
  | cons e seg ih =>
    simp only [runs]
    split
    · next h => simp_all
    · next c run rest h =>
      split <;> simp_all

end Segment

/-- The arrays of a sparse level, and the segments below it, as far as they are built. -/
structure SparseBuild where
  positions : IndexArray
  coordinates : IndexArray
  below : List Segment

namespace SparseBuild

/-- The build with the children of one more parent position. -/
def add (level : Nat) (b : SparseBuild) (seg : Segment) : Except Fault SparseBuild := do
  let runs := seg.runs level
  let coordinates ← runs.foldlM (fun a r => a.push (r.1 : Int)) b.coordinates
  let below := b.below ++ runs.map (·.2)
  let positions ← b.positions.push (below.length : Int)
  return ⟨positions, coordinates, below⟩

end SparseBuild

namespace Level

/-- The dense level number `level` of the given size, and the segments below it. -/
def packDense (level size : Nat) (lane : Lane) (segs : List Segment) :
    Except Fault (Level × List Segment) := do
  let sizes ← (IndexArray.empty lane).push (size : Int)
  return (dense sizes, segs.flatMap (Segment.fan level 0 size))

/-- The sparse level number `level`, and the segments below it. -/
def packSparse (level : Nat) (positions coordinates : Lane) (segs : List Segment) :
    Except Fault (Level × List Segment) := do
  let start ← (IndexArray.empty positions).push 0
  let b ← segs.foldlM (SparseBuild.add level) ⟨start, .empty coordinates, []⟩
  return (sparse b.positions b.coordinates, b.below)

/-- A level of the given format and the segments below it. -/
def pack (level size : Nat) (f : LevelFormat) (segs : List Segment) :
    Except Fault (Level × List Segment) :=
  match f with
  | .dense lane => packDense level size lane segs
  | .sparse positions coordinates => packSparse level positions coordinates segs

/-- A stack of levels, each given by its format and its size, and the segments below it. The first
has number `level`. -/
def packStack : (level : Nat) → List (LevelFormat × Nat) → List Segment →
    Except Fault (List Level × List Segment)
  | _, [], segs => .ok ([], segs)
  | level, (f, size) :: rest, segs => do
    let (l, below) ← pack level size f segs
    let (ls, leaves) ← packStack (level + 1) rest below
    return (l :: ls, leaves)

end Level

end SparseTensor
