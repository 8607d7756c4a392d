import SparseTensor.Shape
import SparseTensor.Storage.Format
import SparseTensor.Value

/-!
# Expressions

Index notation speaks of index variables and of tensors read at them. An expression is a tree of
nodes, and every node has an identity, so that a transformation can tell whether it was given back
the node it put in. Two questions are kept apart:

- `Expr.same`: is it the very same node?
- `Expr.alike`: is it the same tree, whatever the identities?

A variable or a tensor has an identity too, and is the same only as itself, whatever its name.
-/

namespace SparseTensor

/-- What tells nodes apart. -/
abbrev NodeId := Nat

/-- A name to iterate over. -/
structure IndexVar where
  id : Nat
  name : String
  deriving DecidableEq

/-- A named operand. -/
structure TensorVar where
  id : Nat
  name : String
  type : TensorType
  format : Format
  deriving DecidableEq

namespace TensorVar

def ofType (id : Nat) (name : String) (type : TensorType) (format : Format) :
    Except Fault TensorVar := do
  format.checkShape type.shape
  return ⟨id, name, type, format⟩

def scalar (id : Nat) (name : String) (component : DataType) : TensorVar :=
  ⟨id, name, .scalar component, .dense 0⟩

def order (t : TensorVar) : Nat := t.type.order

end TensorVar

/-- A tensor at index variables, one per mode. -/
structure Access where
  node : NodeId
  tensor : TensorVar
  indices : List IndexVar
  deriving DecidableEq

namespace Access

def ofIndices (node : NodeId) (tensor : TensorVar) (indices : List IndexVar) :
    Except Fault Access :=
  if indices.length = tensor.order then .ok ⟨node, tensor, indices⟩
  else .error (.orderMismatch tensor.order indices.length)

def alike (a b : Access) : Bool := decide (a.tensor = b.tensor) && decide (a.indices = b.indices)

end Access

inductive Expr where
  /-- No expression yet. -/
  | undefined
  | access (a : Access)
  | literal (node : NodeId) (value : Value)
  | unary (node : NodeId) (op : UnaryOp) (a : Expr)
  | binary (node : NodeId) (op : BinaryOp) (a b : Expr)
  /-- The values of `a` combined over all values of `var`. -/
  | reduction (node : NodeId) (reducer : Reducer) (var : IndexVar) (a : Expr)
  deriving DecidableEq

namespace Expr

def isDefined : Expr → Bool
  | undefined => false
  | _ => true

/-- The identity of the root, if there is a node at all. -/
def node? : Expr → Option NodeId
  | undefined => none
  | access a => some a.node
  | literal n _ => some n
  | unary n _ _ => some n
  | binary n _ _ _ => some n
  | reduction n _ _ _ => some n

/-- Whether both are the same node, or both undefined. -/
def same (a b : Expr) : Bool := decide (a.node? = b.node?)

/-- Whether both are the same tree up to the identities of nodes. -/
def alike : Expr → Expr → Bool
  | undefined, undefined => true
  | access a, access b => a.alike b
  | literal _ v, literal _ w => decide (v = w)
  | unary _ f a, unary _ g b => decide (f = g) && a.alike b
  | binary _ f a b, binary _ g c d => decide (f = g) && a.alike c && b.alike d
  | reduction _ r i a, reduction _ s j b => decide (r = s) && decide (i = j) && a.alike b
  | _, _ => false

/-- The children from left to right. -/
def children : Expr → List Expr
  | unary _ _ a | reduction _ _ _ a => [a]
  | binary _ _ a b => [a, b]
  | _ => []

theorem alike_refl (e : Expr) : e.alike e = true := by
  induction e with
  | undefined | literal => simp [alike]
  | access a => simp [alike, Access.alike]
  | unary _ _ _ ih | reduction _ _ _ _ ih => simp [alike, ih]
  | binary _ _ _ _ iha ihb => simp [alike, iha, ihb]

theorem same_refl (e : Expr) : e.same e = true := by simp [same]

end Expr

/-- The reducer that an operator stands for. -/
def Reducer.ofOp (op : BinaryOp) : Except Fault Reducer :=
  match op.reducer? with
  | some r => .ok r
  | none => .error (.nonAssociativeReduction op)

end SparseTensor
