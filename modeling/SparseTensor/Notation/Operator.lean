/-!
# Operators of index notation

Two unary operators, four binary ones, and the reducers, which combine the terms of a reduction.
A binary operator reduces exactly when it is associative.
-/

namespace SparseTensor

inductive UnaryOp where
  | neg | sqrt
  deriving DecidableEq

inductive BinaryOp where
  | add | sub | mul | div
  deriving DecidableEq

/-- How the terms of a reduction are combined. -/
inductive Reducer where
  | sum | product
  deriving DecidableEq

namespace BinaryOp

def symbol : BinaryOp → String
  | add => "+"
  | sub => "-"
  | mul => "*"
  | div => "/"

/-- The reducer that combines terms with the operator, if the operator is associative. -/
def reducer? : BinaryOp → Option Reducer
  | add => some .sum
  | mul => some .product
  | sub | div => none

/-- Whether the operator adds terms, with a sign or without. -/
def isAdditive : BinaryOp → Bool
  | add | sub => true
  | mul | div => false

def isAssociative (op : BinaryOp) : Bool := op.reducer?.isSome

end BinaryOp

namespace Reducer

/-- The operator that combines two terms. -/
def op : Reducer → BinaryOp
  | sum => .add
  | product => .mul

/-- The name under which a reduction is written. -/
def text : Reducer → String
  | sum => "sum"
  | product => "product"

@[simp] theorem reducer?_op (r : Reducer) : r.op.reducer? = some r := by cases r <;> rfl

end Reducer

end SparseTensor
