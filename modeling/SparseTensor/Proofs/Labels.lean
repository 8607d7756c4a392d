import SparseTensor.Proofs.Edits
import SparseTensor.Proofs.PassSafety

/-!
# What holds of all labels

Whether a tree is well formed is mostly a matter of its nodes one by one, and of their labels only
(`Place.AllLabels`). A transformation makes few labels of its own. An edit makes those that it gives
and brings in those of its replacements (`Edited.allLabels`). Sums make reductions with `sum`
(`Expr.Placed.allLabels`, `Stmt.Summed.allLabels`). All other labels were there before, so what
holds of all labels has to be shown for the new ones only.
-/

namespace SparseTensor

open Place

variable {P : Label → Prop}

def Label.isDefined : Label → Bool
  | .noExpr | .noStmt => false
  | _ => true

namespace Place

variable {p : Place}

/-- `P` holds of the labels of all nodes. -/
def AllLabels (P : Label → Prop) (p : Place) : Prop := ∀ x, p.Has x → P x.label

theorem allLabels_iff : p.AllLabels P ↔ P p.label ∧ ∀ c ∈ p.children, c.AllLabels P := forall_has

theorem allLabels_leaf (h : p.children = []) : p.AllLabels P ↔ P p.label := by
  rw [allLabels_iff, h]
  simp

section

variable {n : NodeId} {op : UnaryOp} {bop : BinaryOp} {op? : Option BinaryOp} {reducer : Reducer}
  {i : IndexVar} {grouping : Grouping} {a b : Expr} {x : Access} {c s : Stmt} {ss : List Stmt}

theorem allLabels_unary :
    (read (.unary n op a)).AllLabels P ↔ P (.unary op) ∧ (read a).AllLabels P := by
  rw [allLabels_iff]
  simp [label, children, Expr.children]

theorem allLabels_binary : (read (.binary n bop a b)).AllLabels P ↔
    P (.binary bop) ∧ (read a).AllLabels P ∧ (read b).AllLabels P := by
  rw [allLabels_iff]
  simp [label, children, Expr.children]

theorem allLabels_reduction : (read (.reduction n reducer i a)).AllLabels P ↔
    P (.reduction reducer i) ∧ (read a).AllLabels P := by
  rw [allLabels_iff]
  simp [label, children, Expr.children]

theorem allLabels_assign : (stmt (.assign n x a op?)).AllLabels P ↔
    P (.assign op?) ∧ (target x).AllLabels P ∧ (read a).AllLabels P := by
  rw [allLabels_iff]
  simp [label, children]

theorem allLabels_forAll :
    (stmt (.forAll n i s)).AllLabels P ↔ P (.forAll i) ∧ (stmt s).AllLabels P := by
  rw [allLabels_iff]
  simp [label, children]

theorem allLabels_staged : (stmt (.staged n c s)).AllLabels P ↔
    P .staged ∧ (stmt c).AllLabels P ∧ (stmt s).AllLabels P := by
  rw [allLabels_iff]
  simp [label, children]

theorem allLabels_group : (stmt (.group n grouping ss)).AllLabels P ↔
    P (.group grouping) ∧ ∀ s ∈ ss, (stmt s).AllLabels P := by
  rw [allLabels_iff]
  simp [label, children]

end

theorem isDefined_label (p : Place) : p.label.isDefined = p.isDefined := by
  cases p with
  | read e => cases e <;> rfl
  | target a => rfl
  | stmt s => cases s <;> rfl

/-- Nothing is undefined iff no label says so. -/
theorem isWhole_iff_allLabels : p.IsWhole ↔ p.AllLabels fun label => label.isDefined = true := by
  simp only [IsWhole, AllLabels, isDefined_label]

end Place

namespace Stmt

mutual

theorem isWhole_of_labels : (s : Stmt) →
    (stmt s).AllLabels (fun label => label.isDefined = true) → s.isWhole = true
  | undefined, h => by cases (allLabels_leaf rfl).1 h
  | assign .., _ => rfl
  | forAll _ _ body, h => isWhole_of_labels body (allLabels_forAll.1 h).2
  | staged _ consumer producer, h => by
    obtain ⟨-, hc, hp⟩ := allLabels_staged.1 h
    rw [isWhole, isWhole_of_labels consumer hc, isWhole_of_labels producer hp, Bool.and_self]
  | group _ _ members, h => areWhole_of_labels members (allLabels_group.1 h).2

theorem areWhole_of_labels : (ss : List Stmt) →
    (∀ s ∈ ss, (stmt s).AllLabels fun label => label.isDefined = true) → areWhole ss = true
  | [], _ => rfl
  | s :: ss, h => by
    rw [List.forall_mem_cons] at h
    rw [areWhole, isWhole_of_labels s h.1, areWhole_of_labels ss h.2, Bool.and_self]

end

end Stmt

/-! ## Edits -/

/-- What holds of all labels before an edit, and of all that the edit brings in, holds of all labels
after it. -/
theorem Edited.allLabels {edit : Place → Edit} {p q : Place} (h : Edited edit p q)
    (hp : p.AllLabels P) (hnew : ∀ x new, p.Has x → edit x = .replace new → new.AllLabels P)
    (hlabel : ∀ x label, p.Has x → edit x = .relabel label → P label) : q.AllLabels P := by
  induction p using Place.induction generalizing q with
  | step p ih =>
    obtain ⟨hself, hbelow⟩ := allLabels_iff.1 hp
    have hchildren : ∀ {ds}, List.Forall₂ (Edited edit) p.children ds →
        ∀ d ∈ ds, d.AllLabels P := by
      intro ds hall
      refine forall_mem_of_forall₂ hall fun c hc d hcd => ih c hc hcd (hbelow c hc) ?_ ?_
      · exact fun x new hx => hnew x new (hx.of_child hc)
      · exact fun x label hx => hlabel x label (hx.of_child hc)
    cases h with
    | replaced hedit => exact hnew p q (.self p) hedit
    | relabelled hedit _ hall =>
      exact allLabels_iff.2 ⟨hlabel p _ (.self p) hedit, hchildren hall⟩
    | kept => exact hp
    | made _ hq _ _ hall => exact allLabels_iff.2 ⟨hq ▸ hself, hchildren hall⟩

/-! ## Sums -/

section

variable {is : List IndexVar} {e r : Expr}

theorem Expr.Wrapped.allLabels (h : Wrapped is e r) (hP : ∀ i, P (.reduction .sum i))
    (he : (read e).AllLabels P) : (read r).AllLabels P := by
  induction h with
  | nil => exact he
  | cons n i _ ih => exact allLabels_reduction.2 ⟨hP i, ih he⟩

theorem Expr.Placed.allLabels (h : Placed is e r) (hP : ∀ i, P (.reduction .sum i))
    (he : (read e).AllLabels P) : (read r).AllLabels P := by
  induction h with
  | term _ hwrap => exact hwrap.allLabels hP he
  | neg _ _ _ ih =>
    rw [allLabels_unary] at he ⊢
    exact ⟨he.1, ih he.2⟩
  | additive _ _ _ _ _ _ _ _ _ hwrap iha ihb =>
    refine hwrap.allLabels hP ?_
    rw [allLabels_binary] at he ⊢
    exact ⟨he.1, iha he.2.1, ihb he.2.2⟩

end

namespace Stmt

variable {s r : Stmt}

theorem Summed.allLabels (h : s.Summed r) (hP : ∀ i, P (.reduction .sum i))
    (hs : (stmt s).AllLabels P) : (stmt r).AllLabels P := by
  induction h using Summed.induction with
  | plain _ _ hplaced =>
    rw [allLabels_assign] at hs ⊢
    exact ⟨hs.1, hs.2.1, hplaced.allLabels hP hs.2.2⟩
  | update => exact hs
  | forAll _ _ _ _ ih =>
    rw [allLabels_forAll] at hs ⊢
    exact ⟨hs.1, ih hs.2⟩
  | staged _ _ _ _ ihc ihp =>
    rw [allLabels_staged] at hs ⊢
    exact ⟨hs.1, ihc hs.2.1, ihp hs.2.2⟩
  | group _ _ _ ih =>
    rw [allLabels_group] at hs ⊢
    refine ⟨hs.1, forall_mem_of_forall₂ ih ?_⟩
    rintro s hmem r ⟨-, hr⟩
    exact hr (hs.2 s hmem)

theorem allLabels_explicitSums (hP : ∀ i, P (.reduction .sum i)) (hs : (stmt s).AllLabels P)
    (k : NodeId) : (stmt (s.explicitSums.run k).1).AllLabels P := by
  cases s with
  | assign n target value op =>
    cases op with
    | none =>
      obtain ⟨n', value', k', hrun, hplaced, -⟩ := placed_explicitSums n k target value
      rw [hrun]
      exact (Summed.plain n n' hplaced).allLabels hP hs
    | some => exact hs
  | undefined | forAll | staged | group => exact hs

end Stmt

end SparseTensor
