import SparseTensor.Notation.Sharing
import SparseTensor.Transform.Event
import SparseTensor.Transform.Traversal

/-!
# Substitution

A substitution replaces every subtree that is like one of its keys. What it puts in is not looked
into again, so a replacement may contain its own key. A subtree without a match stays the node that
it was.

The target of an assignment is written, not read: only another access may replace it, and it is
not looked into.
-/

namespace SparseTensor

/-- Keys and what replaces them. An earlier pair hides the later ones with a key like its own. -/
structure Substitution where
  exprs : List (Expr × Expr)
  stmts : List (Stmt × Stmt)

namespace Substitution

def empty : Substitution := ⟨[], []⟩

def isEmpty (m : Substitution) : Bool := m.exprs.isEmpty && m.stmts.isEmpty

/-- The substitution that replaces `key` by `new`, whatever it replaced it by so far. -/
def insertExpr (m : Substitution) (key new : Expr) : Substitution :=
  { m with exprs := (key, new) :: m.exprs }

def insertStmt (m : Substitution) (key new : Stmt) : Substitution :=
  { m with stmts := (key, new) :: m.stmts }

def expr? (m : Substitution) (e : Expr) : Option Expr :=
  (m.exprs.find? fun p => p.1.isAlike e).map (·.2)

def stmt? (m : Substitution) (s : Stmt) : Option Stmt :=
  (m.stmts.find? fun p => p.1.isAlike s).map (·.2)

def log (event : TransformEvent) : TransformM (List TransformEvent) Unit := modify (· ++ [event])

/-- What is written to instead of `target`. -/
def target (m : Substitution) (target : Expr) : TransformM (List TransformEvent) Expr := do
  match target, m.expr? target with
  | .access old, some (.access new) =>
    log (.targetReplaced old)
    return .access new
  | _, _ => return target

def traversal (m : Substitution) : Traversal (List TransformEvent) where
  replaceExpr? e := do
    match m.expr? e with
    | some new =>
      log (.exprReplaced e)
      return some new
    | none => return none
  replaceStmt? s := do
    match m.stmt? s with
    | some new =>
      log (.stmtReplaced s)
      return some new
    | none => return none
  assign self op target value := do
    Walk.assign self op { target with visit := m.target target.old } value

/-- The expression with every match replaced. -/
def inExpr (m : Substitution) (e : Expr) : TransformM (List TransformEvent) Expr :=
  if m.isEmpty then return e else m.traversal.expr e

/-- The statement with every match replaced. -/
def inStmt (m : Substitution) (s : Stmt) : TransformM (List TransformEvent) Stmt :=
  if m.isEmpty then return s else m.traversal.stmt s

end Substitution

end SparseTensor
