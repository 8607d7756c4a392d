import SparseTensor.Notation.Stmt
import SparseTensor.Notation.Summation

/-!
# Traversals

A traversal has a handler for every kind of node. A handler sees the node and its children; it may
have a child visited, and it answers what takes the node's place. Before a handler is entered, a
hook may replace the node outright.

The handlers that are not given walk on: they have all children visited in order, and build the
node anew only if a child changed. A node below which nothing changed is given back as it was.

A traversal runs over a state of its own and a supply of identities. It fails at an
undefined node, and when the target of an assignment turns into something other than an access.
The state survives a failure.
-/

namespace SparseTensor

/-- A transformation over a state `σ`. -/
abbrev TransformM (σ : Type) := ExceptT Fault (StateT σ Fresh)

/-- A child of a node, and what visiting it does. -/
structure Child (σ α : Type) where
  old : α
  visit : TransformM σ α

variable {σ : Type}

/-! ## Walking on -/

namespace Walk

def unary (self : Expr) (op : UnaryOp) (a : Child σ Expr) : TransformM σ Expr := do
  let new ← a.visit
  if new.same a.old then return self else return .unary (← fresh) op new

def binary (self : Expr) (op : BinaryOp) (a b : Child σ Expr) : TransformM σ Expr := do
  let newA ← a.visit
  let newB ← b.visit
  if newA.same a.old && newB.same b.old then return self else return .binary (← fresh) op newA newB

def reduction (self : Expr) (reducer : Reducer) (i : IndexVar) (a : Child σ Expr) :
    TransformM σ Expr := do
  let new ← a.visit
  if new.same a.old then return self else return .reduction (← fresh) reducer i new

def assign (self : Stmt) (op : Option BinaryOp) (target value : Child σ Expr) :
    TransformM σ Stmt := do
  let newTarget ← target.visit
  let newValue ← value.visit
  if newTarget.same target.old && newValue.same value.old then return self
  else Stmt.ofTarget (← fresh) newTarget newValue op

def forAll (self : Stmt) (i : IndexVar) (body : Child σ Stmt) : TransformM σ Stmt := do
  let new ← body.visit
  if new.same body.old then return self else return .forAll (← fresh) i new

def staged (self : Stmt) (consumer producer : Child σ Stmt) : TransformM σ Stmt := do
  let newC ← consumer.visit
  let newP ← producer.visit
  if newC.same consumer.old && newP.same producer.old then return self
  else return .staged (← fresh) newC newP

/-- Has the members of a group visited in order. -/
def members : List (Child σ Stmt) → TransformM σ (List Stmt)
  | [] => return []
  | m :: ms => return (← m.visit) :: (← members ms)

/-- Whether every member was given back as it was. -/
def allSame : List (Child σ Stmt) → List Stmt → Bool
  | m :: ms, s :: ss => s.same m.old && allSame ms ss
  | _, _ => true

def group (self : Stmt) (grouping : Grouping) (ms : List (Child σ Stmt)) : TransformM σ Stmt := do
  let new ← members ms
  if allSame ms new then return self else return .group (← fresh) grouping new

end Walk

/-! ## The traversal -/

/-- A handler per kind of node, and a hook per sort. The first argument of a handler with children
is the node itself. -/
structure Traversal (σ : Type) where
  replaceExpr? : Expr → TransformM σ (Option Expr) := fun _ => return none
  replaceStmt? : Stmt → TransformM σ (Option Stmt) := fun _ => return none
  access : Access → TransformM σ Expr := fun a => return .access a
  literal : NodeId → Value → TransformM σ Expr := fun n v => return .literal n v
  unary : Expr → UnaryOp → Child σ Expr → TransformM σ Expr := Walk.unary
  binary : Expr → BinaryOp → Child σ Expr → Child σ Expr → TransformM σ Expr := Walk.binary
  reduction : Expr → Reducer → IndexVar → Child σ Expr → TransformM σ Expr := Walk.reduction
  assign : Stmt → Option BinaryOp → Child σ Expr → Child σ Expr → TransformM σ Stmt := Walk.assign
  forAll : Stmt → IndexVar → Child σ Stmt → TransformM σ Stmt := Walk.forAll
  staged : Stmt → Child σ Stmt → Child σ Stmt → TransformM σ Stmt := Walk.staged
  group : Stmt → Grouping → List (Child σ Stmt) → TransformM σ Stmt := Walk.group

namespace Traversal

/-- What the hook puts in the place of `e`, or what its handler answers. -/
def enterExpr (r : Traversal σ) (e : Expr) (handler : TransformM σ Expr) : TransformM σ Expr := do
  match ← r.replaceExpr? e with
  | some new => return new
  | none => handler

/-- What the hook puts in the place of `s`, or what its handler answers. -/
def enterStmt (r : Traversal σ) (s : Stmt) (handler : TransformM σ Stmt) : TransformM σ Stmt := do
  match ← r.replaceStmt? s with
  | some new => return new
  | none => handler

/-- Visits an expression, and answers what takes its place. -/
def expr (r : Traversal σ) : Expr → TransformM σ Expr
  | .undefined => throw .undefinedNode
  | .access a => r.enterExpr (.access a) (r.access a)
  | .literal n v => r.enterExpr (.literal n v) (r.literal n v)
  | .unary n op a =>
    let self := Expr.unary n op a
    r.enterExpr self (r.unary self op ⟨a, r.expr a⟩)
  | .binary n op a b =>
    let self := Expr.binary n op a b
    r.enterExpr self (r.binary self op ⟨a, r.expr a⟩ ⟨b, r.expr b⟩)
  | .reduction n reducer i a =>
    let self := Expr.reduction n reducer i a
    r.enterExpr self (r.reduction self reducer i ⟨a, r.expr a⟩)

mutual

/-- Visits a statement, and answers what takes its place. -/
def stmt (r : Traversal σ) : Stmt → TransformM σ Stmt
  | .undefined => throw .undefinedNode
  | .assign n target value op =>
    let self := Stmt.assign n target value op
    r.enterStmt self
      (r.assign self op ⟨.access target, r.expr (.access target)⟩ ⟨value, r.expr value⟩)
  | .forAll n i body =>
    let self := Stmt.forAll n i body
    r.enterStmt self (r.forAll self i ⟨body, r.stmt body⟩)
  | .staged n consumer producer =>
    let self := Stmt.staged n consumer producer
    r.enterStmt self (r.staged self ⟨consumer, r.stmt consumer⟩ ⟨producer, r.stmt producer⟩)
  | .group n grouping members =>
    let self := Stmt.group n grouping members
    r.enterStmt self (r.group self grouping (r.childrenOf members))

/-- The members of a group as children. -/
def childrenOf (r : Traversal σ) : List Stmt → List (Child σ Stmt)
  | [] => []
  | s :: ss => ⟨s, r.stmt s⟩ :: r.childrenOf ss

end

end Traversal

end SparseTensor
