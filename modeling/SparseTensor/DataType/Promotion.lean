import SparseTensor.DataType

/-!
# Promotion

Two components of different types are combined in a type that is general enough for both.
Complex beats floating point, floating point beats integers, integers beat truth values, and an
undefined type gives way to any other.

Only double precision is lossless enough for integers of more than 32 bits, so such an integer
takes a floating point or complex partner to double precision. A signed integer that meets an
unsigned one is widened to twice the unsigned width, as far as widths go.
-/

namespace SparseTensor.DataType

/-- Whether the type meets floating point numbers in double precision only. -/
def needsDouble : DataType → Bool
  | float .double | complex .double => true
  | uint w | int w => decide (32 < w.bits)
  | _ => false

/-- The precision in which components of the two types meet. -/
def commonPrecision (a b : DataType) : Precision :=
  if a.needsDouble || b.needsDouble then .double else .single

/-- The least general type that serves for both. -/
def promote : DataType → DataType → DataType
  | undefined, b => b
  | a, undefined => a
  | complex p, b => complex (commonPrecision (complex p) b)
  | a, complex q => complex (commonPrecision a (complex q))
  | float p, b => float (commonPrecision (float p) b)
  | a, float q => float (commonPrecision a (float q))
  | bool, b => b
  | a, bool => a
  | int v, int w => int (v.sup w)
  | uint v, uint w => uint (v.sup w)
  | int v, uint w => int (w.double.sup v)
  | uint v, int w => int (v.double.sup w)

/-- The type of a sum whose terms have the given types. -/
def promoteAll (types : List DataType) : DataType := types.foldl promote undefined

end SparseTensor.DataType
