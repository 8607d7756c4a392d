import SparseTensor.Storage.Segment

/-!
# Building storages

A builder collects values at coordinates, in any order, and packs them into a storage of its
format. Packing sorts the insertions in level order, drops or refuses all but the first at each
coordinate, and splits what is left level by level. Positions below which nothing was inserted hold
the zero of the component type.

`Builder.packLogged` also tells what happened on the way.
-/

namespace SparseTensor

/-- What becomes of a second insertion at a coordinate. -/
inductive Duplicates where
  /-- It is dropped, and the log says so. -/
  | keepFirst
  /-- Packing fails. -/
  | refuse
  deriving DecidableEq

/-- What packing logs. -/
inductive PackEvent where
  | duplicateIgnored (coords : List Nat)
  | packed (entries positions : Nat) (format : Format)
  deriving DecidableEq

def PackEvent.line : PackEvent → String
  | duplicateIgnored coords =>
    s!"WARN Ignoring duplicate value at coordinate {Text.numberList coords}"
  | packed entries positions format =>
    s!"DEBUG Packed {entries} entries into {positions} positions with format {format.text}"

structure Builder where
  type : TensorType
  format : Format
  duplicates : Duplicates
  /-- The insertions, with coordinates in dimension order. -/
  entries : List Entry

namespace Builder

/-- The builder without insertions. -/
def new (type : TensorType) (format : Format) : Except Fault Builder := do
  format.checkShape type.shape
  return ⟨type, format, .keepFirst, []⟩

/-- The builder with one more insertion. -/
def insert (b : Builder) (coords : List Nat) (value : Value) : Except Fault Builder := do
  b.type.shape.checkCoordinate coords
  if value.type = b.type.component then
    return { b with entries := b.entries ++ [⟨coords, value⟩] }
  else .error (.domainMismatch b.type.component value.type)

/-- The insertions in level order, sorted. Insertions at one coordinate keep their order. -/
def sorted (b : Builder) : List Entry :=
  (b.entries.map fun e => { e with coords := b.format.toLevelOrder e.coords }).mergeSort Entry.le

/-- The first entry at each coordinate of sorted entries. -/
def firsts : List Entry → List Entry
  | [] => []
  | e :: es => e :: (firsts es).dropWhile fun f => f.coords = e.coords

/-- The entries of sorted entries that are not the first at their coordinate. -/
def repeats : List Entry → List Entry
  | e :: f :: es => if f.coords = e.coords then f :: repeats (f :: es) else repeats (f :: es)
  | _ => []

/-- The coordinates that were inserted again, in dimension order, once per repetition. -/
def repeated (b : Builder) : List (List Nat) :=
  (repeats b.sorted).map fun e => b.format.toDimensionOrder e.coords

/-- The format and the size of each level. -/
def stack (b : Builder) : List (LevelFormat × Nat) :=
  b.format.levels.zip (b.format.ordering.map b.type.shape.size)

/-- The index over the given entries, and the values at its positions. -/
def assemble (b : Builder) (unique : List Entry) (zero : Value) :
    Except Fault (Index × List Value) := do
  let (levels, leaves) ← Level.packStack 0 b.stack [unique]
  let values := leaves.map fun seg => (seg.head?.map Entry.value).getD zero
  return (← Index.ofLevels b.format levels, values)

/-- The storage of the insertions, and the log. -/
def packLogged (b : Builder) : Except Fault Storage × List PackEvent :=
  match b.type.shape.firstUnknown?, Value.zero b.type.component with
  | some mode, _ => (.error (.variableDimension mode), [])
  | none, .error _ => (.error (.domainMismatch b.type.component b.type.component), [])
  | none, .ok zero =>
    match b.duplicates, b.repeated with
    | .refuse, coords :: _ => (.error (.duplicateCoordinate coords), [])
    | _, repeated =>
      let unique := firsts b.sorted
      let warnings := repeated.map .duplicateIgnored
      match b.assemble unique zero with
      | .error e => (.error e, warnings)
      | .ok (index, values) =>
        (Storage.ofValues b.type.component b.format index values,
          warnings ++ [.packed unique.length values.length b.format])

/-- The storage of the insertions. -/
def pack (b : Builder) : Except Fault Storage := b.packLogged.1

end Builder

end SparseTensor
