import SparseTensor.Proofs.Places

/-!
# Leaves

The leaves of a tree are its accesses and its literals, and what an assignment writes to is a leaf
of its own kind. `leaves` lists them from left to right, a target before its value and a consumer
before its producer, one for every place where they stand, however much the tree shares.

`fill` puts other expressions in the place of the leaves and leaves everything else as it is: the
nodes above them, their operators and variables, and the order of their children. The expressions
are taken from a list, from left to right.

Both are said of every kind of node by `Place.leaves_eq_flatMap` and `Place.children_fill`.
-/

namespace SparseTensor

/-- A place where a tree ends. -/
inductive Leaf where
  | read (a : Access)
  | written (a : Access)
  | literal (node : NodeId) (value : Value)
  deriving DecidableEq

/-- The leaf as an expression. -/
def Leaf.expr : Leaf → Expr
  | read a | written a => .access a
  | literal k v => .literal k v

namespace Expr

/-- The leaves from left to right. -/
def leaves : Expr → List Leaf
  | undefined => []
  | access a => [.read a]
  | literal k v => [.literal k v]
  | unary _ _ a | reduction _ _ _ a => a.leaves
  | binary _ _ a b => a.leaves ++ b.leaves

/-- The expression with `es` in the place of its leaves. -/
def fill : Expr → (es : List Expr) → Expr
  | undefined, _ => undefined
  | access a, es => es.headD (access a)
  | literal k v, es => es.headD (literal k v)
  | unary k op a, es => unary k op (a.fill es)
  | binary k op a b, es => binary k op (a.fill es) (b.fill (es.drop a.leaves.length))
  | reduction k reducer i a, es => reduction k reducer i (a.fill es)

end Expr

/-- What is written to instead, which is an access. -/
def Access.fill (a : Access) : (es : List Expr) → Access
  | .access b :: _ => b
  | _ => a

namespace Stmt

mutual

/-- The leaves from left to right. -/
def leaves : Stmt → List Leaf
  | undefined => []
  | assign _ target value _ => .written target :: value.leaves
  | forAll _ _ body => body.leaves
  | staged _ consumer producer => consumer.leaves ++ producer.leaves
  | group _ _ members => allLeaves members

def allLeaves : List Stmt → List Leaf
  | [] => []
  | s :: ss => s.leaves ++ allLeaves ss

end

mutual

/-- The statement with `es` in the place of its leaves. -/
def fill : Stmt → (es : List Expr) → Stmt
  | undefined, _ => undefined
  | assign k target value op, es => assign k (target.fill es) (value.fill es.tail) op
  | forAll k i body, es => forAll k i (body.fill es)
  | staged k consumer producer, es =>
    staged k (consumer.fill es) (producer.fill (es.drop consumer.leaves.length))
  | group k grouping members, es => group k grouping (fillAll members es)

def fillAll : List Stmt → (es : List Expr) → List Stmt
  | [], _ => []
  | s :: ss, es => s.fill es :: fillAll ss (es.drop s.leaves.length)

end

end Stmt

namespace Place

/-- The leaf that the place is, if it is one. -/
def leaf? : Place → Option Leaf
  | read (.access a) => some (.read a)
  | read (.literal k v) => some (.literal k v)
  | target a => some (.written a)
  | _ => none

def leaves : Place → List Leaf
  | read e => e.leaves
  | target a => [.written a]
  | stmt s => s.leaves

def fill : Place → (es : List Expr) → Place
  | read e, es => read (e.fill es)
  | target a, es => target (a.fill es)
  | stmt s, es => stmt (s.fill es)

/-- The places of a list, each with its part of `es`. -/
def fillAll : List Place → (es : List Expr) → List Place
  | [], _ => []
  | c :: cs, es => c.fill es :: fillAll cs (es.drop c.leaves.length)

variable {p : Place} {es : List Expr}

theorem leaves_of_leaf {leaf : Leaf} (h : p.leaf? = some leaf) : p.leaves = [leaf] := by
  cases p with
  | read e =>
    cases e with
    | access | literal =>
      cases h
      rfl
    | _ => cases h
  | target a =>
    cases h
    rfl
  | stmt s => cases h

theorem allLeaves_eq_flatMap (ss : List Stmt) :
    Stmt.allLeaves ss = (ss.map stmt).flatMap leaves := by
  induction ss with
  | nil => rfl
  | cons s ss ih => rw [Stmt.allLeaves, List.map_cons, List.flatMap_cons, leaves, ih]

/-- A node that is no leaf has the leaves of its children. -/
theorem leaves_eq_flatMap (h : p.leaf? = none) : p.leaves = p.children.flatMap leaves := by
  cases p with
  | read e => cases e <;> simp_all [leaf?, leaves, Expr.leaves, children, Expr.children]
  | target a => cases h
  | stmt s =>
    cases s with
    | group => exact allLeaves_eq_flatMap _
    | _ => simp [leaves, Stmt.leaves, children]

theorem fillAll_stmt (ss : List Stmt) (es : List Expr) :
    fillAll (ss.map stmt) es = (Stmt.fillAll ss es).map stmt := by
  induction ss generalizing es with
  | nil => rfl
  | cons s ss ih => rw [List.map_cons, fillAll, Stmt.fillAll, List.map_cons, ih, leaves, fill]

/-- A node that is no leaf keeps its label. -/
theorem label_fill (h : p.leaf? = none) : (p.fill es).label = p.label := by
  cases p with
  | read e => cases e <;> first | rfl | cases h
  | target a => cases h
  | stmt s => cases s <;> rfl

/-- A node that is no leaf keeps its children in their order. -/
theorem children_fill (h : p.leaf? = none) : (p.fill es).children = fillAll p.children es := by
  cases p with
  | read e => cases e <;> first | rfl | cases h
  | target a => cases h
  | stmt s =>
    cases s with
    | group => exact (fillAll_stmt _ es).symm
    | assign => simp [fill, Stmt.fill, children, fillAll, leaves]
    | _ => rfl

end Place

end SparseTensor
