/-!
# Component types

A tensor's components are truth values, integers of five widths with or without a sign, floating
point numbers of two precisions, or complex numbers built from two of those. A type that is not
known yet is `undefined`.

`DataType.all` lists the types in their order, which `DataType.rank` reads off.
-/

namespace SparseTensor

/-- The width of an integer. -/
inductive Width where
  | w8 | w16 | w32 | w64 | w128
  deriving DecidableEq

namespace Width

def bits : Width → Nat
  | w8 => 8
  | w16 => 16
  | w32 => 32
  | w64 => 64
  | w128 => 128

def ofBits? : Nat → Option Width
  | 8 => some w8
  | 16 => some w16
  | 32 => some w32
  | 64 => some w64
  | 128 => some w128
  | _ => none

/-- How many integers the width tells apart. -/
def count (w : Width) : Nat := Nat.pow 2 w.bits

/-- The next width, if there is one. -/
def double : Width → Width
  | w8 => w16
  | w16 => w32
  | w32 => w64
  | w64 => w128
  | w128 => w128

/-- The wider of two widths. -/
def sup (a b : Width) : Width := if a.bits ≤ b.bits then b else a

@[simp] theorem ofBits?_bits (w : Width) : ofBits? w.bits = some w := by cases w <;> rfl

theorem bits_of_ofBits? {n : Nat} {w : Width} (h : ofBits? n = some w) : w.bits = n := by
  unfold ofBits? at h
  split at h <;> cases h <;> rfl

end Width

/-- The precision of a floating point number. -/
inductive Precision where
  | single | double
  deriving DecidableEq

namespace Precision

def bits : Precision → Nat
  | single => 32
  | double => 64

def ofBits? : Nat → Option Precision
  | 32 => some single
  | 64 => some double
  | _ => none

theorem bits_of_ofBits? {n : Nat} {p : Precision} (h : ofBits? n = some p) : p.bits = n := by
  unfold ofBits? at h
  split at h <;> cases h <;> rfl

end Precision

/-- A family of numbers whose members differ in width. -/
inductive Family where
  | uint | int | float | complex
  deriving DecidableEq

def Family.text : Family → String
  | uint => "uint"
  | int => "int"
  | float => "float"
  | complex => "complex"

/-- The type of a tensor's components. -/
inductive DataType where
  | bool
  | uint (width : Width)
  | int (width : Width)
  | float (part : Precision)
  /-- Two floating point parts of the given precision. -/
  | complex (part : Precision)
  /-- No type is known. -/
  | undefined
  deriving DecidableEq

namespace DataType

instance : Inhabited DataType := ⟨undefined⟩

def isBool : DataType → Bool
  | bool => true
  | _ => false

def isUInt : DataType → Bool
  | uint _ => true
  | _ => false

def isInt : DataType → Bool
  | int _ => true
  | _ => false

def isFloat : DataType → Bool
  | float _ => true
  | _ => false

def isComplex : DataType → Bool
  | complex _ => true
  | _ => false

def isUndefined : DataType → Bool
  | undefined => true
  | _ => false

/-- Bits that one component takes in memory. A truth value takes a whole byte. -/
def bits : DataType → Nat
  | bool => 8
  | uint w => w.bits
  | int w => w.bits
  | float p => p.bits
  | complex p => 2 * p.bits
  | undefined => 0

def bytes (t : DataType) : Nat := t.bits / 8

/-- Whether a component of the type may stand for the integer `v`. -/
def holds : DataType → Int → Bool
  | uint w, v => decide (0 ≤ v) && decide (v < w.count)
  | int w, v => decide (-w.count ≤ 2 * v) && decide (2 * v < w.count)
  | _, _ => false

/-- The types from the least to the greatest. -/
def all : List DataType :=
  [bool, uint .w8, uint .w16, uint .w32, uint .w64, uint .w128,
    int .w8, int .w16, int .w32, int .w64, int .w128,
    float .single, float .double, complex .single, complex .double, undefined]

/-- The place of the type in `all`. -/
def rank (t : DataType) : Nat := all.idxOf t

theorem mem_all (t : DataType) : t ∈ all := by
  cases t with
  | bool | undefined => decide
  | uint w | int w => cases w <;> decide
  | float p | complex p => cases p <;> decide

/-- The name of the type as it heads a value. -/
def kindName : DataType → String
  | bool => "Bool"
  | uint .w8 => "UInt8"
  | uint .w16 => "UInt16"
  | uint .w32 => "UInt32"
  | uint .w64 => "UInt64"
  | uint .w128 => "UInt128"
  | int .w8 => "Int8"
  | int .w16 => "Int16"
  | int .w32 => "Int32"
  | int .w64 => "Int64"
  | int .w128 => "Int128"
  | float .single => "Float32"
  | float .double => "Float64"
  | complex .single => "Complex64"
  | complex .double => "Complex128"
  | undefined => "Undefined"

/-- The type whose name is `name`. -/
def ofKindName? (name : String) : Option DataType := all.find? (·.kindName == name)

/-- The name of the type in texts about tensors. -/
def text : DataType → String
  | bool => "bool"
  | uint .w8 => "uint8"
  | uint .w16 => "uint16"
  | uint .w32 => "uint32"
  | uint .w64 => "uint64"
  | uint .w128 => "uint128"
  | int .w8 => "int8"
  | int .w16 => "int16"
  | int .w32 => "int32"
  | int .w64 => "int64"
  | int .w128 => "int128"
  | float .single => "float"
  | float .double => "double"
  | complex .single => "complex64"
  | complex .double => "complex128"
  | undefined => "undefined"

end DataType

end SparseTensor
