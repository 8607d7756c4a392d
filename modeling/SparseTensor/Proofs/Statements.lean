import SparseTensor.Notation.Concrete
import SparseTensor.Proofs.Checks

/-!
# What a statement is made of

The assignments of a statement in order, each with the variables that are bound around it
(`Stmt.assignments`), the identities of its nodes (`Stmt.nodes`), and whether a statement is missing
somewhere in it (`Stmt.isWhole`). A concrete statement is whole.
-/

namespace SparseTensor

/-- An assignment and the variables that statements around it bind, the innermost first. -/
structure Assignment where
  bound : List IndexVar
  target : Access
  value : Expr
  op : Option BinaryOp

namespace Expr

/-- The identities of the nodes. -/
def nodes : Expr → List NodeId
  | undefined => []
  | access a => [a.node]
  | literal n _ => [n]
  | unary n _ a | reduction n _ _ a => n :: a.nodes
  | binary n _ a b => n :: (a.nodes ++ b.nodes)

end Expr

namespace Stmt

mutual

/-- The assignments from left to right, below statements that bind `bound`. -/
def assignments (bound : List IndexVar) : Stmt → List Assignment
  | undefined => []
  | assign _ target value op => [⟨bound, target, value, op⟩]
  | forAll _ i body => body.assignments (i :: bound)
  | staged _ consumer producer => consumer.assignments bound ++ producer.assignments bound
  | group _ _ members => allAssignments bound members

def allAssignments (bound : List IndexVar) : List Stmt → List Assignment
  | [] => []
  | s :: ss => s.assignments bound ++ allAssignments bound ss

end

mutual

/-- The identities of the nodes, those of expressions included. -/
def nodes : Stmt → List NodeId
  | undefined => []
  | assign n target value _ => n :: target.node :: value.nodes
  | forAll n _ body => n :: body.nodes
  | staged n consumer producer => n :: (consumer.nodes ++ producer.nodes)
  | group n _ members => n :: allNodes members

def allNodes : List Stmt → List NodeId
  | [] => []
  | s :: ss => s.nodes ++ allNodes ss

end

mutual

/-- Whether no statement is missing. -/
def isWhole : Stmt → Bool
  | undefined => false
  | assign .. => true
  | forAll _ _ body => body.isWhole
  | staged _ consumer producer => consumer.isWhole && producer.isWhole
  | group _ _ members => areWhole members

def areWhole : List Stmt → Bool
  | [] => true
  | s :: ss => s.isWhole && areWhole ss

end

theorem mem_nodes_of_node? {s : Stmt} {n : NodeId} (h : s.node? = some n) : n ∈ s.nodes := by
  cases s with
  | undefined => cases h
  | assign | forAll | staged | group =>
    cases h
    exact List.mem_cons_self

/-- A statement whose root is newer than all nodes of another is not that one. -/
theorem same_eq_false {s r : Stmt} {n k : NodeId} (hs : ∀ j ∈ s.nodes, j < n)
    (hr : r.node? = some k) (hk : n ≤ k) : r.same s = false := by
  rw [same, decide_eq_false_iff_not, hr]
  intro h
  exact Nat.not_lt.2 hk (hs k (mem_nodes_of_node? h.symm))

mutual

theorem isWhole_of_check {bound : List IndexVar} : (s : Stmt) → s.check bound = .ok () →
    s.isWhole = true
  | undefined, h => by cases h
  | assign .., _ => rfl
  | forAll _ _ body, h => isWhole_of_check body h
  | staged _ consumer producer, h => by
    rw [check, bind_eq_ok] at h
    obtain ⟨_, hconsumer, h⟩ := h
    rw [bind_eq_ok] at h
    obtain ⟨_, hproducer, _⟩ := h
    rw [isWhole, isWhole_of_check consumer hconsumer, isWhole_of_check producer hproducer]
    rfl
  | group _ _ members, h => areWhole_of_checkAll members h

theorem areWhole_of_checkAll {bound : List IndexVar} : (ss : List Stmt) →
    checkAll bound ss = .ok () → areWhole ss = true
  | [], _ => rfl
  | s :: ss, h => by
    rw [checkAll, bind_eq_ok] at h
    obtain ⟨_, hs, hss⟩ := h
    rw [areWhole, isWhole_of_check s hs, areWhole_of_checkAll ss hss]
    rfl

end

end Stmt

end SparseTensor
