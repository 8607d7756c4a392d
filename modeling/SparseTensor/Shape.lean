import SparseTensor.Fault

/-!
# Shapes and tensor types

A tensor has one dimension per mode. A dimension is fixed to a positive size or not known yet; an
empty shape is a scalar's. A tensor type adds the type of the components.
-/

namespace SparseTensor

/-- The extent of one mode. -/
inductive Dimension where
  /-- Not known yet. -/
  | unknown
  | fixed (size : Nat) (pos : 0 < size)
  deriving DecidableEq

namespace Dimension

/-- The dimension of that size. No fixed dimension is empty. -/
def ofSize (size : Nat) : Except Fault Dimension :=
  if h : 0 < size then .ok (fixed size h) else .error .emptyDimension

/-- The size of a fixed dimension, and zero for one that is not known. -/
def size : Dimension → Nat
  | unknown => 0
  | fixed n _ => n

def isFixed : Dimension → Bool
  | unknown => false
  | fixed _ _ => true

def text : Dimension → String
  | unknown => "?"
  | fixed n _ => s!"{n}"

/-- Whether `c` is a coordinate along the dimension. Any number may be one while the size is not
known. -/
def admits (d : Dimension) (c : Nat) : Bool := !d.isFixed || decide (c < d.size)

end Dimension

/-- The dimensions of a tensor, one per mode. -/
structure Shape where
  dims : List Dimension
  deriving DecidableEq

namespace Shape

def scalar : Shape := ⟨[]⟩

def order (s : Shape) : Nat := s.dims.length

def isScalar (s : Shape) : Bool := s.dims.isEmpty

def isFixed (s : Shape) : Bool := s.dims.all Dimension.isFixed

def dimension (s : Shape) (mode : Nat) : Except Fault Dimension := fetch s.dims mode

/-- The size of a mode, zero if it is not known or there is no such mode. -/
def size (s : Shape) (mode : Nat) : Nat := (s.dims.getD mode .unknown).size

/-- The first mode whose size is not known. -/
def firstUnknown? (s : Shape) : Option Nat := s.dims.findIdx? (!·.isFixed)

/-- Checks a coordinate along the given dimensions, of which the first is mode number `mode`. -/
def checkAlong : (mode : Nat) → List Dimension → List Nat → Except Fault Unit
  | mode, d :: ds, c :: cs =>
    if d.admits c then checkAlong (mode + 1) ds cs
    else .error (.coordinateOutOfBounds mode c d.size)
  | _, _, _ => .ok ()

/-- Checks that a coordinate has one component per mode, each below the size of its mode as far as
that is known. -/
def checkCoordinate (s : Shape) (coords : List Nat) : Except Fault Unit :=
  if coords.length = s.order then checkAlong 0 s.dims coords
  else .error (.orderMismatch s.order coords.length)

def text (s : Shape) : String := Text.bracketed "," (s.dims.map Dimension.text)

end Shape

/-- The type of a tensor. -/
structure TensorType where
  component : DataType
  shape : Shape
  deriving DecidableEq

namespace TensorType

def scalar (t : DataType) : TensorType := ⟨t, .scalar⟩

/-- A scalar in double precision, the type of a tensor about which nothing is said. -/
def standard : TensorType := scalar (.float .double)

def order (t : TensorType) : Nat := t.shape.order

/-- A scalar is written as its component type. -/
def text (t : TensorType) : String :=
  if t.shape.isScalar then t.component.text else t.component.text ++ t.shape.text

end TensorType

end SparseTensor
