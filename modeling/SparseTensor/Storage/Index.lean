import SparseTensor.Storage.Format

/-!
# Levels and indices

A level holds the index arrays of one level of a storage. Counted from the top, a level turns each
position of its parent into a run of positions of its own:

- a dense level of size `n` gives every parent position `n` children, one per coordinate;
- a sparse level gives parent position `p` the children `positions[p]` up to `positions[p + 1]`,
  and `coordinates` names the coordinate of each.

An index stacks one level per level of a format. `Level.extent` counts the positions that a level
provides and refuses a level that does not fit below its parent; `Index.extent` does so for the
whole stack, and no index exists without passing it.
-/

namespace SparseTensor

/-- One more than the greatest position. -/
def positionLimit : Nat := Nat.pow 2 64

/-- The position that an integer stands for. -/
def position? (v : Int) : Option Nat :=
  if 0 ≤ v ∧ v < positionLimit then some v.toNat else none

/-- The index arrays of one level. -/
inductive Level where
  | dense (sizes : IndexArray)
  | sparse (positions coordinates : IndexArray)
  deriving DecidableEq

namespace Level

def kind : Level → LevelKind
  | dense _ => .dense
  | sparse _ _ => .sparse

def arrays : Level → List IndexArray
  | dense sizes => [sizes]
  | sparse positions coordinates => [positions, coordinates]

/-- The level of the given kind and arrays. -/
def ofArrays : LevelKind → List IndexArray → Except Fault Level
  | .dense, [sizes] => .ok (dense sizes)
  | .sparse, [positions, coordinates] => .ok (sparse positions coordinates)
  | kind, arrays => .error (.indexArrayCount kind kind.arrayCount arrays.length)

/-- The dense level of the given size, in an array of the given type. -/
def ofSize (type : DataType) (size : Nat) : Except Fault Level := do
  let lane ← Lane.ofType type
  return dense (← IndexArray.ofList lane [(size : Int)])

/-- The array at `i`. -/
def array (l : Level) (i : Nat) : Except Fault IndexArray := fetch l.arrays i

/-- The size of a dense level, which is the only integer of its array. -/
def size? : Level → Option Nat
  | dense sizes =>
    match sizes.values with
    | [n] => position? n
    | _ => none
  | sparse _ _ => none

def positions? : Level → Option IndexArray
  | dense _ => none
  | sparse positions _ => some positions

def coordinates? : Level → Option IndexArray
  | dense _ => none
  | sparse _ coordinates => some coordinates

/-- The place of the first integer that is less than the one before it. `previous` stands before
`vs`, and `at` is the place of the first of them. -/
def firstDecrease? (previous : Int) (place : Nat) : List Int → Option Nat
  | [] => none
  | v :: vs => if v < previous then some place else firstDecrease? v (place + 1) vs

/-- The first place at which positions break their rule: to start at zero and never to decrease. -/
def firstBreak? : List Int → Option Nat
  | [] => none
  | v :: vs => if v = 0 then firstDecrease? v 1 vs else some 0

/-- Positions of a dense level below `parents` positions. -/
def denseExtent (mode parents : Nat) (sizes : IndexArray) : Except Fault Nat :=
  match (dense sizes).size? with
  | none => .error (.denseSizeArray mode sizes.length)
  | some n =>
    if parents * n < positionLimit then .ok (parents * n) else .error (.indexSizeOverflow mode)

/-- Positions of a sparse level below `parents` positions. -/
def sparseExtent (mode parents : Nat) (positions coordinates : IndexArray) : Except Fault Nat :=
  if ¬ parents + 1 < positionLimit then .error (.indexSizeOverflow mode)
  else if positions.length ≠ parents + 1 then
    .error (.positionArrayLength mode (parents + 1) positions.length)
  else match firstBreak? positions.values with
  | some place => .error (.invalidPositionArray mode place)
  | none =>
    match position? (positions.last?.getD 0) with
    | none => .error (.indexSizeOverflow mode)
    | some n =>
      if coordinates.length ≠ n then .error (.coordinateArrayLength mode n coordinates.length)
      else match coordinates.values.find? (· < 0) with
      | some c => .error (.negativeCoordinate mode c)
      | none => .ok n

/-- Positions of the level below `parents` positions, where the format asks for a level of the
given kind. -/
def extent (mode parents : Nat) (kind : LevelKind) (l : Level) : Except Fault Nat :=
  match kind, l with
  | .dense, dense sizes => denseExtent mode parents sizes
  | .sparse, sparse positions coordinates => sparseExtent mode parents positions coordinates
  | kind, l => .error (.indexArrayCount kind kind.arrayCount l.arrays.length)

/-- Positions of the last of a stack of levels below `parents` positions. The first level of the
stack has number `mode`. -/
def stackExtent : (mode parents : Nat) → List LevelKind → List Level → Except Fault Nat
  | mode, parents, kind :: kinds, l :: ls => do
    stackExtent (mode + 1) (← l.extent mode parents kind) kinds ls
  | _, parents, _, _ => .ok parents

end Level

/-- One level per level of a format, each fitting below the one before it. -/
structure Index where
  format : Format
  levels : List Level
  /-- The positions of the last level. -/
  size : Nat
  length_levels : levels.length = format.order
  stacked : Level.stackExtent 0 1 format.kinds levels = .ok size
  deriving DecidableEq

namespace Index

def ofLevels (format : Format) (levels : List Level) : Except Fault Index :=
  if hl : levels.length = format.order then
    match h : Level.stackExtent 0 1 format.kinds levels with
    | .ok size => .ok ⟨format, levels, size, hl, h⟩
    | .error e => .error e
  else .error (.orderMismatch format.order levels.length)

def order (i : Index) : Nat := i.levels.length

theorem ofLevels_eq_ok {format : Format} {levels : List Level} {i : Index} :
    ofLevels format levels = .ok i ↔ i.format = format ∧ i.levels = levels := by
  unfold ofLevels
  constructor
  · intro h
    split at h
    · split at h
      · cases h; exact ⟨rfl, rfl⟩
      · cases h
    · cases h
  · rintro ⟨rfl, rfl⟩
    rw [dif_pos i.length_levels]
    split
    · next n hn =>
      have : i.size = n := Except.ok.inj (i.stacked.symm.trans hn)
      subst this
      rfl
    · next e he => exact absurd (i.stacked.symm.trans he) (by simp)

end Index

end SparseTensor
