import SparseTensor.Storage.Basic
import SparseTensor.Storage.Lexicographic

/-!
# Entries of a storage

`Storage.walk` goes through the levels from the top and lists what is stored where; it checks every
read of an array. `Storage.equals` compares two storages as tensors, whatever their formats.
-/

namespace SparseTensor

/-- A value and its coordinate. -/
structure Entry where
  coords : List Nat
  value : Value
  deriving DecidableEq

/-- The order of entries by their coordinates. -/
def Entry.le (a b : Entry) : Bool := coordsLe a.coords b.coords

namespace Storage

/-- The entries below position `p`. `levels` are the levels below it, and the coordinates are in
level order. -/
def walkFrom (values : List Value) : (levels : List Level) → (p : Nat) →
    Except Fault (List Entry)
  | [], p => return [⟨[], ← fetch values p⟩]
  | .dense sizes :: levels, p => do
    let n := (Level.dense sizes).size?.getD 0
    let below ← (List.range n).mapM fun c => do
      return (← walkFrom values levels (p * n + c)).map fun e => { e with coords := c :: e.coords }
    return below.flatten
  | .sparse positions coordinates :: levels, p => do
    let first ← positions.get p
    let last ← positions.get (p + 1)
    let below ← (List.range' first.toNat (last.toNat - first.toNat)).mapM fun k => do
      let c ← coordinates.get k
      return (← walkFrom values levels k).map fun e => { e with coords := c.toNat :: e.coords }
    return below.flatten

/-- The entries in the order of positions, with coordinates in level order. A storage without
positions has none, and its levels are not walked. -/
def walk (s : Storage) : Except Fault (List Entry) :=
  if s.index.size = 0 then .ok [] else walkFrom s.values s.index.levels 0

/-- What the walk finds. An index has been checked, so the walk of a storage does not fail. -/
def levelEntries (s : Storage) : List Entry :=
  match s.walk with
  | .ok es => es
  | .error _ => []

/-- What is stored where, in the order of positions. The values that dense levels fill in are
listed as well. -/
def entries (s : Storage) : List Entry :=
  s.levelEntries.map fun e => { e with coords := s.format.toDimensionOrder e.coords }

/-- The entries that are not zero, in the order of coordinates. -/
def nonzeros (s : Storage) : List Entry :=
  (s.entries.filter fun e => !e.value.isZero).mergeSort Entry.le

/-- Whether two storages hold the same tensor. -/
def equals (a b : Storage) : Bool :=
  decide (a.type = b.type) && decide (a.format.order = b.format.order)
    && decide (a.nonzeros = b.nonzeros)

end Storage

end SparseTensor
