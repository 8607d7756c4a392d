import SparseTensor.Proofs.Places
import SparseTensor.Proofs.Statements
import SparseTensor.Proofs.SumPlacement

/-!
# Fresh nodes

A transformation can take a new node for an old one unless the supply of identities starts above
all identities in use. This holds again of what comes out, with the supply that is left
(`Stmt.nodes_explicitSums`), so that transformations can be run one after another.

`Place.Precedes` says it of places, and `nodes` lists the identities (`precedes_read`,
`precedes_stmt`).
-/

namespace SparseTensor

open Place

variable {n k : NodeId}

namespace Place

theorem precedes_read {e : Expr} : (read e).Precedes n ↔ ∀ j ∈ e.nodes, j < n := by
  induction e with
  | undefined | access | literal =>
    rw [precedes_iff]
    simp [node?, Expr.node?, children, Expr.children, Expr.nodes]
  | unary _ _ a ih | reduction _ _ _ a ih =>
    rw [precedes_iff]
    simp [node?, Expr.node?, children, Expr.children, Expr.nodes, ih]
  | binary _ _ a b iha ihb =>
    rw [precedes_iff]
    simp [node?, Expr.node?, children, Expr.children, Expr.nodes, iha, ihb, or_imp, forall_and]

mutual

theorem precedes_stmt : (s : Stmt) → ((stmt s).Precedes n ↔ ∀ j ∈ s.nodes, j < n)
  | .undefined => by
    rw [precedes_iff]
    simp [node?, Stmt.node?, children, Stmt.nodes]
  | .assign k x value op => by
    have hx : (target x).Precedes n ↔ x.node < n := by
      rw [precedes_iff]
      simp [node?, children]
    rw [precedes_iff]
    simp [node?, Stmt.node?, children, Stmt.nodes, hx, precedes_read]
  | .forAll k i body => by
    rw [precedes_iff]
    simp [node?, Stmt.node?, children, Stmt.nodes, precedes_stmt body]
  | .staged k consumer producer => by
    rw [precedes_iff]
    simp [node?, Stmt.node?, children, Stmt.nodes, precedes_stmt consumer, precedes_stmt producer,
      or_imp, forall_and]
  | .group k grouping members => by
    rw [precedes_iff]
    simp [node?, Stmt.node?, children, Stmt.nodes, precede_stmts members]

theorem precede_stmts : (ss : List Stmt) →
    ((∀ s ∈ ss, (stmt s).Precedes n) ↔ ∀ j ∈ Stmt.allNodes ss, j < n)
  | [] => by simp [Stmt.allNodes]
  | s :: ss => by
    rw [List.forall_mem_cons, precedes_stmt s, precede_stmts ss, Stmt.allNodes,
      List.forall_mem_append]

end

end Place

/-! ## New nodes of sums -/

namespace Expr

variable {e : Expr}

/-- The identities of an expression with one more sum are below the next one. -/
theorem nodes_deepSum (i : IndexVar) (h : ∀ j ∈ e.nodes, j < n) :
    ∀ j ∈ ((e.deepSum i).run n).1.nodes, j < ((e.deepSum i).run n).2 := by
  have hmono : ∀ {ns : List NodeId} {n n' : NodeId}, n ≤ n' → (∀ j ∈ ns, j < n) →
      ∀ j ∈ ns, j < n' := fun hle h j hj => Nat.lt_of_lt_of_le (h j hj) hle
  have hsum : ∀ {e : Expr} {n : NodeId}, (∀ j ∈ e.nodes, j < n) →
      ∀ j ∈ ((e.sum i).run n).1.nodes, j < ((e.sum i).run n).2 := fun {e n} h =>
    List.forall_mem_cons.2 ⟨Nat.lt_succ_self n, hmono (Nat.le_succ n) h⟩
  induction e generalizing n with
  | undefined | access | literal | reduction =>
    simp only [deepSum]
    split
    · exact hsum h
    · exact h
  | unary m op a ih =>
    cases op with
    | neg =>
      rw [deepSum]
      split
      · have ha := hmono (Nat.le_succ n) (List.forall_mem_cons.1 h).2
        exact List.forall_mem_cons.2 ⟨le_supply_deepSum i a (n + 1), ih ha⟩
      · exact h
    | sqrt =>
      simp only [deepSum]
      split
      · exact hsum h
      · exact h
  | binary m op a b iha ihb =>
    obtain ⟨ha, hb⟩ := List.forall_mem_append.1 (List.forall_mem_cons.1 h).2
    rw [deepSum]
    split
    · exact h
    · have hle := le_supply_deepSum i a (n + 1)
      exact List.forall_mem_cons.2 ⟨hle, List.forall_mem_append.2
        ⟨iha (hmono (Nat.le_succ n) ha), hmono (Nat.le_of_succ_le hle) hb⟩⟩
    · have hle := le_supply_deepSum i b (n + 1)
      exact List.forall_mem_cons.2 ⟨hle, List.forall_mem_append.2
        ⟨hmono (Nat.le_of_succ_le hle) ha, ihb (hmono (Nat.le_succ n) hb)⟩⟩
    · exact hsum h

theorem nodes_deepSums (is : List IndexVar) (h : ∀ j ∈ e.nodes, j < n) :
    ∀ j ∈ ((e.deepSums is).run n).1.nodes, j < ((e.deepSums is).run n).2 := by
  induction is with
  | nil => exact h
  | cons i is ih =>
    rw [deepSums, List.foldrM_cons]
    exact nodes_deepSum i ih

end Expr

/-- The identities of a statement with its sums written out are below the next one. -/
theorem Stmt.nodes_explicitSums {s : Stmt} (h : ∀ j ∈ s.nodes, j < n) :
    ∀ j ∈ (s.explicitSums.run n).1.nodes, j < (s.explicitSums.run n).2 := by
  cases s with
  | assign m x value op =>
    cases op with
    | none =>
      obtain ⟨-, hbelow⟩ := List.forall_mem_cons.1 h
      obtain ⟨hx, hvalue⟩ := List.forall_mem_cons.1 hbelow
      rw [explicitSums]
      cases summedVars x value with
      | nil => exact h
      | cons i is =>
        have hle := Expr.le_supply_deepSums (i :: is) value (n + 1)
        have hsums := Expr.nodes_deepSums (i :: is) fun j hj => Nat.lt_succ_of_lt (hvalue j hj)
        refine List.forall_mem_cons.2 ⟨hle, List.forall_mem_cons.2 ⟨?_, hsums⟩⟩
        exact Nat.lt_of_lt_of_le hx (Nat.le_of_succ_le hle)
    | some => exact h
  | undefined | forAll | staged | group => exact h

end SparseTensor
