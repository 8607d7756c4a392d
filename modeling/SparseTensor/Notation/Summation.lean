import SparseTensor.Notation.Occurrences

/-!
# Implicit summation

In a plain assignment such as `a(i) = B(i,j) * c(j)`, an index variable that the target lacks is
summed over. `Stmt.explicitSums` writes the sums out. A sum goes down through negations, and into
the one operand of a sum or a difference that uses its variable. It stops above any other node: a
product, a root, an access, a sum placed before it, and a sum or a difference both of whose operands
use the variable, where it also covers the terms that do not. Variables that are used first are
placed last, so that of nested sums theirs are outermost.

New nodes take their identities from a supply.
-/

namespace SparseTensor

/-- A computation that makes nodes. The state is the next identity that is not in use. -/
abbrev Fresh := StateM NodeId

/-- An identity that is not in use. -/
def fresh : Fresh NodeId := modifyGet fun n => (n, n + 1)

namespace Expr

/-- The sum of an expression over a variable. -/
def sum (i : IndexVar) (e : Expr) : Fresh Expr := return reduction (← fresh) .sum i e

/-- The expression with a sum over `i`, if it uses `i`. -/
def deepSum (i : IndexVar) : Expr → Fresh Expr
  | unary n .neg a =>
    if a.uses i then return unary (← fresh) .neg (← a.deepSum i) else return unary n .neg a
  | binary n op a b =>
    match op.isAdditive, a.uses i, b.uses i with
    | _, false, false => return binary n op a b
    | true, true, false => return binary (← fresh) op (← a.deepSum i) b
    | true, false, true => return binary (← fresh) op a (← b.deepSum i)
    | _, _, _ => (binary n op a b).sum i
  | e => if e.uses i then e.sum i else return e

/-- The expression with a sum over each of the variables, the first of them outermost. -/
def deepSums (is : List IndexVar) (e : Expr) : Fresh Expr := is.foldrM (fun i e => e.deepSum i) e

end Expr

namespace Stmt

/-- The variables that are summed over implicitly in an assignment of `value` to `target`. -/
def summedVars (target : Access) (value : Expr) : List IndexVar :=
  value.freeVars.filter fun i => i ∉ target.indices

/-- The statement with the sums of a plain assignment written out. Where no sum is implicit, and
for any other statement, it is the statement itself. -/
def explicitSums : Stmt → Fresh Stmt
  | assign n target value none =>
    match summedVars target value with
    | [] => return assign n target value none
    | is => return assign (← fresh) target (← value.deepSums is) none
  | s => return s

end Stmt

end SparseTensor
