import Mathlib.Algebra.BigOperators.Ring.List
import Mathlib.Logic.Function.Basic
import SparseTensor.Notation.Occurrences

/-!
# What an expression means

An interpretation gives every index variable a finite range and says what accesses, literals and
operators mean. Under an assignment of values to the index variables an expression then has a value
(`Interpretation.eval`): a reduction combines the values of its operand over the range of its
variable. The identities of nodes do not matter.

A ring interpretation (`RingInterpretation`) has its values in a commutative ring and reads `+`,
`-`, `*` and the two reductions as the operations of the ring. What division, square roots, literals
and accesses mean is left open.

`Interpretation.sumOver` is a sum over several ranges at once. It is linear.
-/

namespace SparseTensor

variable {V α : Type}

/-- The meaning of the parts of expressions, with index variables over values in `V` and expressions
over values in `α`. -/
structure Interpretation (V α : Type) where
  range : IndexVar → List V
  undefined : α
  access : TensorVar → List V → α
  literal : Value → α
  unary : UnaryOp → α → α
  binary : BinaryOp → α → α → α
  reduce : Reducer → List α → α

/-- The value of an expression where the index variables have the values `ρ`. -/
def Interpretation.eval (I : Interpretation V α) : Expr → (ρ : IndexVar → V) → α
  | .undefined, _ => I.undefined
  | .access a, ρ => I.access a.tensor (a.indices.map ρ)
  | .literal _ v, _ => I.literal v
  | .unary _ op a, ρ => I.unary op (I.eval a ρ)
  | .binary _ op a b, ρ => I.binary op (I.eval a ρ) (I.eval b ρ)
  | .reduction _ reducer i a, ρ =>
    I.reduce reducer ((I.range i).map fun v => I.eval a (Function.update ρ i v))

/-- What is left open about an interpretation in a ring. -/
structure RingInterpretation (V α : Type) where
  range : IndexVar → List V
  undefined : α
  access : TensorVar → List V → α
  literal : Value → α
  sqrt : α → α
  div : α → α → α

namespace RingInterpretation

variable [CommRing α]

def toInterpretation (I : RingInterpretation V α) : Interpretation V α where
  range := I.range
  undefined := I.undefined
  access := I.access
  literal := I.literal
  unary
    | .neg, x => -x
    | .sqrt, x => I.sqrt x
  binary
    | .add, x, y => x + y
    | .sub, x, y => x - y
    | .mul, x, y => x * y
    | .div, x, y => I.div x y
  reduce
    | .sum, xs => xs.sum
    | .product, xs => xs.prod

/-- The value of an expression in the ring. -/
def eval (I : RingInterpretation V α) (e : Expr) (ρ : IndexVar → V) : α :=
  I.toInterpretation.eval e ρ

/-- The sum of `f` over all values of the variables, the first outermost. The other variables keep
the values that they have in `ρ`. -/
def sumOver (I : RingInterpretation V α) :
    (is : List IndexVar) → (f : (IndexVar → V) → α) → (ρ : IndexVar → V) → α
  | [], f, ρ => f ρ
  | i :: is, f, ρ => ((I.range i).map fun v => I.sumOver is f (Function.update ρ i v)).sum

variable (I : RingInterpretation V α) (is js : List IndexVar) (f g : (IndexVar → V) → α)
  (ρ : IndexVar → V)

@[simp] theorem sumOver_nil : I.sumOver [] f ρ = f ρ := rfl

@[simp] theorem sumOver_cons (i : IndexVar) : I.sumOver (i :: is) f ρ =
    ((I.range i).map fun v => I.sumOver is f (Function.update ρ i v)).sum := rfl

theorem sumOver_append : I.sumOver (is ++ js) f ρ = I.sumOver is (I.sumOver js f) ρ := by
  induction is generalizing ρ with
  | nil => rfl
  | cons i is ih => simp [ih]

theorem sumOver_zero : I.sumOver is (fun _ => 0) ρ = 0 := by
  induction is generalizing ρ with
  | nil => rfl
  | cons i is ih => simp [ih]

theorem sumOver_add :
    I.sumOver is (fun ρ => f ρ + g ρ) ρ = I.sumOver is f ρ + I.sumOver is g ρ := by
  induction is generalizing ρ with
  | nil => rfl
  | cons i is ih => simp [ih, List.sum_map_add]

theorem sumOver_mul_left (c : α) : I.sumOver is (fun ρ => c * f ρ) ρ = c * I.sumOver is f ρ := by
  induction is generalizing ρ with
  | nil => rfl
  | cons i is ih => simp [ih, List.sum_map_mul_left]

/-- A finite sum may be taken outside. -/
theorem sumOver_sum {β : Type} (ts : List β) (h : β → (IndexVar → V) → α) :
    I.sumOver is (fun ρ => (ts.map fun t => h t ρ).sum) ρ =
      (ts.map fun t => I.sumOver is (h t) ρ).sum := by
  induction ts with
  | nil => exact I.sumOver_zero is ρ
  | cons t ts ih => simp only [List.map_cons, List.sum_cons, sumOver_add, ih]

end RingInterpretation

end SparseTensor
