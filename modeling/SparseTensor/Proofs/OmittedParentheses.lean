import Mathlib.Algebra.Field.Rat
import Mathlib.Tactic.NormNum
import SparseTensor.Proofs.Interpretation
import SparseTensor.Proofs.Printing

/-!
# What omitted parentheses change

The text of `a + (b - c)` is read as `(a + b) - c`. These are two trees with one value, as long as
arithmetic is exact.

**Theorem (`Expr.eval_reads`).** In a scope where all is well named, there is one tree that the text
of an expression can be read as. In every field, if division is multiplication by the inverse, it
has the value of the printed tree.

That tree is the printed one with right operands of `+` and `*` regrouped to the left. So it is
enough that every operator on the level of a `+` or a `*` may be regrouped with it
(`binary_regroup`). Along a chain of such operators this is an induction on the right operand
(`Expr.eval_joined`), and an induction on the whole tree does the rest.
-/

namespace SparseTensor

variable {V α : Type}

/-- Division is multiplication by what `inv` makes of the divisor. -/
def RingInterpretation.DividesBy [CommRing α] (I : RingInterpretation V α) (inv : α → α) : Prop :=
  ∀ x y, I.div x y = x * inv y

section

variable [CommRing α] {I : RingInterpretation V α} {inv : α → α} {op op' : BinaryOp}

/-- After `+` or `*`, the operator of that level may be done last. Nothing has to be known of `inv`,
so it does not matter what division by zero is. -/
theorem binary_regroup (hI : I.DividesBy inv) (hop : op.enclosesRight = false)
    (hlevel : op'.binding = op.binding) (x y z : α) :
    I.toInterpretation.binary op' (I.toInterpretation.binary op x y) z =
      I.toInterpretation.binary op x (I.toInterpretation.binary op' y z) := by
  cases op with
  | add =>
    cases op' with
    | add => exact add_assoc x y z
    | sub => exact add_sub_assoc x y z
    | mul | div => cases hlevel
  | mul =>
    cases op' with
    | mul => exact mul_assoc x y z
    | div =>
      show I.div (x * y) z = x * I.div y z
      rw [hI, hI, mul_assoc]
    | add | sub => cases hlevel
  | sub | div => cases hop

namespace Expr

theorem eval_binary (k : NodeId) (op : BinaryOp) (a b : Expr) (ρ : IndexVar → V) :
    I.eval (binary k op a b) ρ = I.toInterpretation.binary op (I.eval a ρ) (I.eval b ρ) := rfl

theorem eval_joined (hI : I.DividesBy inv) (hop : op.enclosesRight = false) (a b : Expr)
    (ρ : IndexVar → V) :
    I.eval (joined op a b) ρ = I.toInterpretation.binary op (I.eval a ρ) (I.eval b ρ) := by
  induction b with
  | binary k op' b c ihb _ =>
    by_cases hlevel : op'.binding = op.binding
    · rw [joined_binary hlevel, eval_binary, ihb, binary_regroup hI hop hlevel, eval_binary]
    · rw [joined_of_ne (b := binary k op' b c) hlevel, eval_binary]
  | undefined | access | literal | unary | reduction => rfl

theorem eval_grouped (hI : I.DividesBy inv) (e : Expr) (ρ : IndexVar → V) :
    I.eval e.grouped ρ = I.eval e ρ := by
  induction e generalizing ρ with
  | undefined | access | literal => rfl
  | unary k op a ih => exact congrArg (I.toInterpretation.unary op) (ih ρ)
  | reduction k reducer i a ih =>
    refine congrArg (I.toInterpretation.reduce reducer) (List.map_congr_left fun v _ => ?_)
    exact ih (Function.update ρ i v)
  | binary k op a b iha ihb =>
    by_cases hencloses : op.enclosesRight = true
    · rw [grouped, if_pos hencloses, eval_binary, iha, ihb, eval_binary]
    · rw [grouped, if_neg hencloses, eval_joined hI (Bool.not_eq_true _ ▸ hencloses), iha, ihb,
        eval_binary]

end Expr

end

namespace Expr

variable {S : Scope} {e : Expr}

/-- **Omitted parentheses are harmless in exact arithmetic.** In a scope where all is well named,
the text of an expression can be read as one tree. This has the value of the printed tree in every
field where division is multiplication by the inverse, whatever accesses and square roots mean,
over whichever values the reductions range, and for all values of the free variables. -/
theorem eval_reads (hS : S.WellNamed) (he : e.WrittenIn S) :
    ∃ x, (∀ y, S.Reads e.text y ↔ y = x) ∧
      ∀ {V α : Type} [Field α] (I : RingInterpretation V α), I.DividesBy (fun y => y⁻¹) →
        ∀ ρ : IndexVar → V, I.eval x ρ = I.eval e ρ := by
  have hreads := reads_grouped hS he
  refine ⟨e.grouped, fun y => ⟨fun hy => hy.unique hS hreads, ?_⟩, fun I hI ρ => ?_⟩
  · rintro rfl
    exact hreads
  · exact eval_grouped hI e ρ

/-- What the text of `a * (b / c)` is read as has the value of `a * (b / c)`. -/
theorem eval_reads_mul_div :
    let a : TensorVar := .scalar 0 "a" (.float .double)
    let b : TensorVar := .scalar 1 "b" (.float .double)
    let c : TensorVar := .scalar 2 "c" (.float .double)
    let S : Scope := ⟨[a, b, c], []⟩
    let e : Expr := .binary 4 .mul (.access ⟨0, a, []⟩)
      (.binary 3 .div (.access ⟨1, b, []⟩) (.access ⟨2, c, []⟩))
    let I : RingInterpretation Nat ℚ :=
      ⟨fun _ => [0, 1], 0, fun t _ => t.id + 1, fun _ => 0, id, fun x y => x * y⁻¹⟩
    S.WellNamed ∧ e.WrittenIn S ∧ I.DividesBy (fun y => y⁻¹) ∧
      ∃ x, S.Reads e.text x ∧ ∀ ρ, I.eval x ρ = 1 * (2 * 3⁻¹) := by
  intro a b c S e I
  have hS : S.WellNamed := ⟨by decide +kernel, by decide +kernel, by decide +kernel⟩
  have he : e.WrittenIn S := by simp [e, S, WrittenIn]
  have hI : I.DividesBy (fun y => y⁻¹) := fun _ _ => rfl
  obtain ⟨x, hx, heval⟩ := eval_reads hS he
  refine ⟨hS, he, hI, x, (hx x).2 rfl, fun ρ => ?_⟩
  rw [heval I hI]
  show (((0 : Nat) : ℚ) + 1) * ((((1 : Nat) : ℚ) + 1) * (((2 : Nat) : ℚ) + 1)⁻¹) = 1 * (2 * 3⁻¹)
  norm_num

end Expr

end SparseTensor
