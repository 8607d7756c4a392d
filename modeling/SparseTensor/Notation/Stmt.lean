import SparseTensor.Notation.Expr

/-!
# Statements

A statement assigns expressions to accesses of tensors and arranges assignments: for all values of
an index variable, in stages where one statement produces what another consumes, or in groups.
Statements have identities and are compared as expressions are.
-/

namespace SparseTensor

/-- How the members of a group run. -/
inductive Grouping where
  /-- In any order, or fused. -/
  | multi
  /-- One after another. -/
  | sequence
  deriving DecidableEq

inductive Stmt where
  /-- No statement yet. -/
  | undefined
  /-- The target is set to the value, or combined with it by `op`. -/
  | assign (node : NodeId) (target : Access) (value : Expr) (op : Option BinaryOp)
  /-- The body once for every value of `var`. -/
  | forAll (node : NodeId) (var : IndexVar) (body : Stmt)
  /-- The producer, and then the consumer, which reads what was produced. -/
  | staged (node : NodeId) (consumer producer : Stmt)
  | group (node : NodeId) (grouping : Grouping) (members : List Stmt)

/-- A node of either sort. -/
inductive Part where
  | expr (e : Expr)
  | stmt (s : Stmt)

namespace Stmt

/-- The assignment to `target`, which has to be an access. -/
def ofTarget (node : NodeId) (target value : Expr) (op : Option BinaryOp) : Except Fault Stmt :=
  match target with
  | .access a => .ok (assign node a value op)
  | _ => .error .invalidAssignmentTarget

def isDefined : Stmt → Bool
  | undefined => false
  | _ => true

/-- The identity of the root, if there is a node at all. -/
def node? : Stmt → Option NodeId
  | undefined => none
  | assign n _ _ _ => some n
  | forAll n _ _ => some n
  | staged n _ _ => some n
  | group n _ _ => some n

/-- Whether both are the same node, or both undefined. -/
def same (a b : Stmt) : Bool := decide (a.node? = b.node?)

mutual

/-- Whether both are the same tree up to the identities of nodes. -/
def alike : Stmt → Stmt → Bool
  | undefined, undefined => true
  | assign _ t v f, assign _ u w g => t.alike u && v.alike w && decide (f = g)
  | forAll _ i s, forAll _ j t => decide (i = j) && s.alike t
  | staged _ c p, staged _ d q => c.alike d && p.alike q
  | group _ g ss, group _ h ts => decide (g = h) && allAlike ss ts
  | _, _ => false

/-- Whether two lists are alike member by member. -/
def allAlike : List Stmt → List Stmt → Bool
  | [], [] => true
  | s :: ss, t :: ts => s.alike t && allAlike ss ts
  | _, _ => false

end

/-- The children in order: of an assignment its target and its value. -/
def children : Stmt → List Part
  | undefined => []
  | assign _ target value _ => [.expr (.access target), .expr value]
  | forAll _ _ body => [.stmt body]
  | staged _ consumer producer => [.stmt consumer, .stmt producer]
  | group _ _ members => members.map .stmt

mutual

theorem alike_refl : (s : Stmt) → s.alike s = true
  | undefined => by simp [alike]
  | assign .. => by simp [alike, Access.alike, Expr.alike_refl]
  | forAll _ _ s => by simp [alike, alike_refl s]
  | staged _ c p => by simp [alike, alike_refl c, alike_refl p]
  | group _ _ ss => by simp [alike, allAlike_refl ss]

theorem allAlike_refl : (ss : List Stmt) → allAlike ss ss = true
  | [] => by simp [allAlike]
  | s :: ss => by simp [allAlike, alike_refl s, allAlike_refl ss]

end

theorem same_refl (s : Stmt) : s.same s = true := by simp [same]

end Stmt

/-- The children of a node of either sort. -/
def Part.children : Part → List Part
  | expr e => e.children.map .expr
  | stmt s => s.children

end SparseTensor
