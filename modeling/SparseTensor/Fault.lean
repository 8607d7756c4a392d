import SparseTensor.DataType
import SparseTensor.Notation.Operator
import SparseTensor.Storage.LevelKind
import SparseTensor.Text.Bracketed

/-!
# What can go wrong

`Fault` has one constructor per cause, with the data that the cause is about, and `Fault.message`
words it. Levels and dimensions are both counted from zero and both are called modes in messages.
-/

namespace SparseTensor

inductive Fault where
  /-- No member of the family has that many bits. -/
  | unsupportedBitWidth (family : Family) (bits : Nat)
  | orderMismatch (expected found : Nat)
  /-- The list does not name every dimension exactly once. -/
  | invalidModeOrdering (ordering : List Nat)
  | invalidIndexArrayType (type : DataType)
  | indexArrayCount (kind : LevelKind) (expected found : Nat)
  | denseSizeArray (mode length : Nat)
  | positionArrayLength (mode expected found : Nat)
  | coordinateArrayLength (mode expected found : Nat)
  | invalidPositionArray (mode position : Nat)
  | negativeCoordinate (mode : Nat) (coordinate : Int)
  | indexSizeOverflow (mode : Nat)
  | formatMismatch
  | valueCountMismatch (expected found : Nat)
  | valueOutOfRange (value : Int) (type : DataType)
  | domainMismatch (expected found : DataType)
  | coordinateOutOfBounds (mode coordinate size : Nat)
  | variableDimension (mode : Nat)
  | duplicateCoordinate (coords : List Nat)
  | unboundIndexVar (name : String)
  | unusedReductionVar (name : String)
  | nonAssociativeReduction (op : BinaryOp)
  | invalidAssignmentTarget
  | unusedTemporary (name : String)
  | undefinedNode
  /-- A fixed dimension of size zero. -/
  | emptyDimension
  /-- The zero of the undefined type. -/
  | noZero
  /-- An element past the end of a list. -/
  | outOfBounds (length index : Nat)
  deriving DecidableEq

namespace Fault

def message : Fault → String
  | unsupportedBitWidth family bits => s!"Unsupported bit width for {family.text} type: {bits}"
  | orderMismatch expected found => s!"Order mismatch: expected {expected} modes, found {found}"
  | invalidModeOrdering ordering =>
    s!"Mode ordering {Text.numberList ordering} is not a permutation"
  | invalidIndexArrayType type => s!"Index arrays cannot hold {type.text} values"
  | indexArrayCount kind expected found =>
    s!"A {kind.text} mode has {expected} index arrays, found {found}"
  | denseSizeArray mode length =>
    s!"Dense mode {mode} must store its size in a 1-element array, found {length} elements"
  | positionArrayLength mode expected found =>
    s!"Position array of mode {mode} must have {expected} entries, found {found}"
  | coordinateArrayLength mode expected found =>
    s!"Coordinate array of mode {mode} must have {expected} entries, found {found}"
  | invalidPositionArray mode position =>
    s!"Position array of mode {mode} must start at 0 and never decrease, " ++
      s!"violated at entry {position}"
  | negativeCoordinate mode coordinate => s!"Negative coordinate {coordinate} in mode {mode}"
  | indexSizeOverflow mode => s!"Index size overflows at mode {mode}"
  | formatMismatch => "Index does not realize the storage format"
  | valueCountMismatch expected found =>
    s!"Storage holds {expected} entries but {found} values were given"
  | valueOutOfRange value type => s!"Value {value} is out of range for {type.text}"
  | domainMismatch expected found =>
    s!"Type mismatch: expected {expected.text}, found {found.text}"
  | coordinateOutOfBounds mode coordinate size =>
    s!"Coordinate {coordinate} is out of bounds for mode {mode} of size {size}"
  | variableDimension mode => s!"Mode {mode} has a variable dimension"
  | duplicateCoordinate coords => s!"Duplicate coordinate {Text.numberList coords}"
  | unboundIndexVar name => s!"Index variable {name} is not bound by a forall"
  | unusedReductionVar name =>
    s!"Reduction variable {name} does not occur in the reduced expression"
  | nonAssociativeReduction op => s!"Cannot reduce with non-associative operator {op.symbol}"
  | invalidAssignmentTarget => "Assignment target must be a tensor access"
  | unusedTemporary name => s!"Temporary {name} produced by a where statement is never read"
  | undefinedNode => "Undefined index notation node"
  | emptyDimension => "Fixed dimensions must have a positive size"
  | noZero => "Undefined data type has no zero value"
  | outOfBounds length index =>
    s!"index out of bounds: the len is {length} but the index is {index}"

end Fault

/-- The element of `xs` at `i`, or the fault that there is none. -/
def fetch {α : Type} (xs : List α) (i : Nat) : Except Fault α :=
  match xs[i]? with
  | some a => .ok a
  | none => .error (.outOfBounds xs.length i)

/-- The list `xs` with `a` at `i`, or the fault that it has no such place. -/
def put {α : Type} (xs : List α) (i : Nat) (a : α) : Except Fault (List α) :=
  if i < xs.length then .ok (xs.set i a) else .error (.outOfBounds xs.length i)

theorem fetch_eq_ok {α : Type} {xs : List α} {i : Nat} {a : α} :
    fetch xs i = .ok a ↔ xs[i]? = some a := by
  unfold fetch
  split <;> simp_all

theorem fetch_of_lt {α : Type} {xs : List α} {i : Nat} (h : i < xs.length) :
    fetch xs i = .ok xs[i] :=
  fetch_eq_ok.2 (List.getElem?_eq_getElem h)

theorem put_of_lt {α : Type} {xs : List α} {i : Nat} (h : i < xs.length) (a : α) :
    put xs i a = .ok (xs.set i a) :=
  if_pos h

end SparseTensor
