import SparseTensor.Fault

/-!
# Component values

A component is kept as its type and its bits: integers in two's complement, floating point numbers
in the binary interchange format, so that the payload of a NaN and the sign of a zero survive.
Equality is equality of types and bits.
-/

namespace SparseTensor

inductive Value where
  | bool (b : Bool)
  | uint (width : Width) (bits : BitVec width.bits)
  | int (width : Width) (bits : BitVec width.bits)
  | float (part : Precision) (bits : BitVec part.bits)
  | complex (part : Precision) (re im : BitVec part.bits)
  deriving DecidableEq

namespace Value

def type : Value → DataType
  | bool _ => .bool
  | uint w _ => .uint w
  | int w _ => .int w
  | float p _ => .float p
  | complex p _ _ => .complex p

/-- The zero of a type. Without a type there is none. -/
def zero : DataType → Except Fault Value
  | .bool => .ok (bool false)
  | .uint w => .ok (uint w 0)
  | .int w => .ok (int w 0)
  | .float p => .ok (float p 0)
  | .complex p => .ok (complex p 0 0)
  | .undefined => .error .noZero

/-- Numerically zero: any bit but the sign is clear. -/
def isZeroFloat {p : Precision} (x : BitVec p.bits) : Bool := x <<< 1 == 0

/-- The numeric test, for which a negative zero is a zero. -/
def isZero : Value → Bool
  | bool b => !b
  | uint _ n => n == 0
  | int _ n => n == 0
  | float _ x => isZeroFloat x
  | complex _ re im => isZeroFloat re && isZeroFloat im

/-- The integer that the component stands for, as far as signed integers reach. A truth value
counts as zero or one. -/
def toInt? : Value → Option Int
  | bool b => some b.toNat
  | uint _ n => if 2 * n.toNat < Width.w128.count then some n.toNat else none
  | int _ n => some n.toInt
  | float _ _ => none
  | complex _ _ _ => none

theorem type_of_zero {t : DataType} {v : Value} (h : zero t = .ok v) : v.type = t := by
  cases t <;> cases h <;> rfl

theorem isZero_of_zero {t : DataType} {v : Value} (h : zero t = .ok v) : v.isZero = true := by
  cases t <;> cases h <;> simp [isZero, isZeroFloat]

end Value

end SparseTensor
