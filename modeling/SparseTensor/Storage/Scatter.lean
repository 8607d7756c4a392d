import SparseTensor.Storage.Entries

/-!
# Coordinates in place

`Format.toLevelOrder` and `Format.toDimensionOrder` say where each component of a coordinate goes.
Here components are moved one at a time, by reads and writes at places that have to exist.

`Format.gather` reads a coordinate in level order. `Format.scatter` writes one in level order into a
buffer, each component at the dimension of its level. `Storage.collect` goes through the levels of a
storage with one buffer for all entries: each level writes its component and leaves it there, and an
entry is what the buffer holds below the last level.
-/

namespace SparseTensor

namespace Format

/-- A coordinate in level order, read from one in dimension order. -/
def gather (f : Format) (coords : List Nat) : Except Fault (List Nat) :=
  f.ordering.mapM (fetch coords)

/-- The buffer after the components of a coordinate in level order are written into it. -/
def scatterInto (f : Format) (buffer coords : List Nat) : Except Fault (List Nat) :=
  f.ordering.zipIdx.foldlM (fun out (d, level) => do put out d (← fetch coords level)) buffer

/-- A coordinate in dimension order, written from one in level order into a buffer of zeros. -/
def scatter (f : Format) (coords : List Nat) : Except Fault (List Nat) :=
  f.scatterInto (List.replicate f.order 0) coords

end Format

namespace Storage

/-- Writes component `c` at dimension `d` of the buffer. -/
def writeAt (d c : Nat) : StateT (List Nat) (Except Fault) Unit := do
  set (← put (← get) d c)

/-- The entries below position `p`. `levels` are the levels below it, and the first of them is
number `level`. -/
def collectFrom (ordering : List Nat) (values : List Value) :
    (levels : List Level) → (level p : Nat) → StateT (List Nat) (Except Fault) (List Entry)
  | [], _, p => return [⟨← get, ← fetch values p⟩]
  | .dense sizes :: levels, level, p => do
    let d ← fetch ordering level
    let n := (Level.dense sizes).size?.getD 0
    let below ← (List.range n).mapM fun c => do
      writeAt d c
      collectFrom ordering values levels (level + 1) (p * n + c)
    return below.flatten
  | .sparse positions coordinates :: levels, level, p => do
    let d ← fetch ordering level
    let first ← positions.get p
    let last ← positions.get (p + 1)
    let below ← (List.range' first.toNat (last.toNat - first.toNat)).mapM fun k => do
      writeAt d (← coordinates.get k).toNat
      collectFrom ordering values levels (level + 1) k
    return below.flatten

/-- The entries, with coordinates in dimension order. -/
def collect (s : Storage) : Except Fault (List Entry) :=
  Prod.fst <$> (collectFrom s.format.ordering s.values s.index.levels 0 0).run
    (List.replicate s.format.order 0)

end Storage

end SparseTensor
