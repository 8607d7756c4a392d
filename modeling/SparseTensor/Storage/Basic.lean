import SparseTensor.Storage.Index
import SparseTensor.Value

/-!
# Storages

A storage puts one value at every position of an index. All values have the storage's type.
-/

namespace SparseTensor

structure Storage where
  type : DataType
  index : Index
  values : List Value
  length_values : values.length = index.size
  typed : ∀ v ∈ values, v.type = type
  deriving DecidableEq

namespace Storage

def format (s : Storage) : Format := s.index.format

/-- The first type of a value that is not `type`. -/
def strayType? (type : DataType) (values : List Value) : Option DataType :=
  (values.map Value.type).find? fun t => t ≠ type

theorem strayType?_eq_none {type : DataType} {values : List Value} :
    strayType? type values = none ↔ ∀ v ∈ values, v.type = type := by
  simp [strayType?]

/-- The storage of the given values at the positions of an index. -/
def ofValues (type : DataType) (format : Format) (index : Index) (values : List Value) :
    Except Fault Storage :=
  if index.format ≠ format then .error .formatMismatch
  else if hl : values.length = index.size then
    match ht : strayType? type values with
    | none => .ok ⟨type, index, values, hl, strayType?_eq_none.1 ht⟩
    | some t => .error (.domainMismatch type t)
  else .error (.valueCountMismatch index.size values.length)

end Storage

end SparseTensor
