import Mathlib.Tactic.MkIffOfInductiveProp
import SparseTensor.Notation.Concrete
import SparseTensor.Proofs.Checks
import SparseTensor.Proofs.Parts

/-!
# What makes a statement concrete

`Stmt.checkConcrete` walks a statement once, with the variables bound so far, and stops at the first
fault. What it asks for can be said without the walk, about all that stands in the statement
(`Stmt.IsConcrete`).

**Theorem (`checkConcrete_eq_ok`).** The check accepts a statement if and only if nothing in it is
undefined, every access is at variables that are bound around it, every reduction is over a variable
that occurs free in its operand, and every consumer reads what its producer assigns.

The check of a part is a condition on its root (`Part.Admitted`) and the checks of its children
(`check_eq_ok_node`), so it is that condition on everything the part contains (`check_eq_ok`). The
condition splits into the four above, and those on lists are about what stands in the tree.
-/

namespace SparseTensor

namespace Part

variable {p q : Part} {bound : List IndexVar}

def isDefined : Part → Bool
  | expr e => e.isDefined
  | stmt s => s.isDefined

def check (bound : List IndexVar) : Part → Except Fault Unit
  | expr e => e.check bound
  | stmt s => s.check bound

/-- What a node itself has to satisfy where the variables `bound` are bound. -/
@[mk_iff]
structure Admitted (bound : List IndexVar) (p : Part) : Prop where
  defined : p.isDefined = true
  bound : ∀ i ∈ p.indices, i ∈ bound
  reduced : ∀ n r i a, p = .expr (.reduction n r i a) → a.uses i = true
  consumed : ∀ n consumer producer, p = .stmt (.staged n consumer producer) →
    ∀ t ∈ producer.writes, t ∈ consumer.reads

/-! ## One node -/

theorem check_access {a : Access} :
    (Expr.access a).check bound = .ok () ↔ ∀ i ∈ a.indices, i ∈ bound := by
  rw [Expr.check]
  split
  · next i hi =>
    have hmem := List.mem_of_find?_eq_some hi
    have hi := List.find?_some hi
    simp only [decide_eq_true_eq] at hi
    simp only [reduceCtorEq, false_iff, not_forall]
    exact ⟨i, hmem, hi⟩
  · next h => simpa using h

theorem checkStaged_eq_ok {consumer producer : Stmt} :
    Stmt.checkStaged consumer producer = .ok () ↔ ∀ t ∈ producer.writes, t ∈ consumer.reads := by
  rw [Stmt.checkStaged]
  split
  · next t ht =>
    have hmem := List.mem_of_find?_eq_some ht
    have ht := List.find?_some ht
    simp only [Stmt.results, Stmt.inputs, List.mem_eraseDups, decide_eq_true_eq] at hmem ht
    simp only [reduceCtorEq, false_iff, not_forall]
    exact ⟨t, hmem, ht⟩
  · next h => simpa [Stmt.results, Stmt.inputs, List.mem_eraseDups] using h

theorem checkAll_eq_ok {ss : List Stmt} :
    Stmt.checkAll bound ss = .ok () ↔ ∀ s ∈ ss, s.check bound = .ok () := by
  induction ss with
  | nil => simp [Stmt.checkAll]
  | cons s ss ih => rw [Stmt.checkAll, bind_unit_eq_ok, ih, List.forall_mem_cons]

/-- A part passes the check if its root is admitted and its children pass, below what it binds. -/
theorem check_eq_ok_node :
    p.check bound = .ok () ↔
      p.Admitted bound ∧ ∀ c ∈ p.children, c.check (p.binder ++ bound) = .ok () := by
  rw [admitted_iff]
  cases p with
  | expr e =>
    cases e with
    | undefined => simp [check, Expr.check, isDefined, Expr.isDefined]
    | access a =>
      rw [check, check_access]
      simp [isDefined, Expr.isDefined, indices, children, Expr.children]
    | literal =>
      simp [check, Expr.check, isDefined, Expr.isDefined, indices, children, Expr.children]
    | unary _ _ a =>
      simp [check, Expr.check, isDefined, Expr.isDefined, indices, binder, children, Expr.children]
    | binary _ _ a b =>
      simp [check, Expr.check, bind_unit_eq_ok, isDefined, Expr.isDefined, indices, binder,
        children, Expr.children]
    | reduction _ _ i a =>
      simp only [check, Expr.check]
      by_cases ha : a.uses i = true
      · rw [if_pos ha]
        simp [isDefined, Expr.isDefined, indices, binder, children, Expr.children]
        rintro - _ _ _ _ rfl rfl rfl rfl
        exact ha
      · rw [if_neg ha]
        simp only [reduceCtorEq, false_iff, not_and]
        intro hadmitted
        exact absurd (hadmitted.2.2.1 _ _ i a rfl) ha
  | stmt s =>
    cases s with
    | undefined => simp [check, Stmt.check, isDefined, Stmt.isDefined]
    | assign _ target value =>
      simp [check, Stmt.check, bind_unit_eq_ok, isDefined, Stmt.isDefined, indices, binder,
        children, Stmt.children]
    | forAll _ i body =>
      simp [check, Stmt.check, isDefined, Stmt.isDefined, indices, binder, children, Stmt.children]
    | staged _ consumer producer =>
      rw [check, Stmt.check, bind_unit_eq_ok, bind_unit_eq_ok, checkStaged_eq_ok, ← and_assoc,
        and_comm]
      simp [check, isDefined, Stmt.isDefined, indices, binder, children, Stmt.children]
    | group _ _ members =>
      simp [check, Stmt.check, checkAll_eq_ok, isDefined, Stmt.isDefined, indices, binder, children,
        Stmt.children]

/-! ## The whole tree -/

/-- A part passes the check if everything that it contains is admitted. -/
theorem check_eq_ok :
    p.check bound = .ok () ↔ ∀ bound' q, p.Contains bound' q → q.Admitted (bound' ++ bound) := by
  induction p using induction generalizing bound with
  | step p ih =>
    rw [check_eq_ok_node, forall_contains]
    apply and_congr
    · rw [List.nil_append]
    · apply forall₂_congr
      intro c hc
      rw [ih c hc]
      simp only [List.append_assoc]

end Part

namespace Stmt

variable {s : Stmt}

/-- Every access in the statement, targets included, is at variables that a node around it binds. -/
def IsClosed (s : Stmt) : Prop :=
  ∀ bound a, (Part.stmt s).Contains bound (.expr (.access a)) → ∀ i ∈ a.indices, i ∈ bound

/-- What a statement needs to be run as it stands. -/
structure IsConcrete (s : Stmt) : Prop where
  /-- Nothing is missing. -/
  defined : ∀ bound q, (Part.stmt s).Contains bound q → q.isDefined = true
  closed : s.IsClosed
  /-- The variable of a reduction occurs free in its operand. -/
  reduced : ∀ bound n r i a,
    (Part.stmt s).Contains bound (.expr (.reduction n r i a)) → a.HasFree i
  /-- A consumer reads what its producer assigns. -/
  consumed : ∀ bound n consumer producer,
    (Part.stmt s).Contains bound (.stmt (.staged n consumer producer)) →
      ∀ t, producer.Assigns t → consumer.Accesses t

/-- A statement is closed if no index variable is free in it. -/
theorem isClosed_iff : s.IsClosed ↔ s.freeVars = [] := by
  rw [freeVars, List.eq_nil_iff_forall_not_mem]
  simp only [List.mem_eraseDups]
  constructor
  · intro h i hi
    obtain ⟨bound, q, hq, hiq, hbound⟩ := (Part.mem_freeOccurrences (p := .stmt s)).1 hi
    obtain ⟨a, rfl, hia⟩ := Part.mem_indices.1 hiq
    exact hbound (h bound a hq i hia)
  · intro h bound a ha i hi
    by_contra hbound
    exact h i ((Part.mem_freeOccurrences (p := .stmt s)).2 ⟨bound, _, ha, hi, hbound⟩)

theorem isConcrete_iff_admitted :
    s.IsConcrete ↔ ∀ bound q, (Part.stmt s).Contains bound q → q.Admitted bound := by
  constructor
  · intro h bound q hq
    refine ⟨h.defined bound q hq, ?_, ?_, ?_⟩
    · intro i hi
      obtain ⟨a, rfl, hi⟩ := Part.mem_indices.1 hi
      exact h.closed bound a hq i hi
    · rintro n r i a rfl
      exact Expr.uses_iff_hasFree.2 (h.reduced bound n r i a hq)
    · rintro n consumer producer rfl t ht
      exact mem_reads.2 (h.consumed bound n consumer producer hq t (mem_writes.1 ht))
  · intro h
    refine ⟨fun bound q hq => (h bound q hq).defined, ?_, ?_, ?_⟩
    · intro bound a ha
      exact (h bound _ ha).bound
    · intro bound n r i a ha
      exact Expr.uses_iff_hasFree.1 ((h bound _ ha).reduced n r i a rfl)
    · intro bound n consumer producer hq t ht
      exact mem_reads.1 ((h bound _ hq).consumed n consumer producer rfl t (mem_writes.2 ht))

/-- **The check for concrete statements is sound and complete.** It accepts a statement if and only
if nothing in it is undefined, every access is at variables that are bound around it, the variable
of every reduction has an occurrence in the operand that no reduction inside binds, and every tensor
that a producer assigns, outside producers inside it, is accessed on the right of an assignment of
the consumer. That every access is at bound variables means that the statement has no free ones. -/
theorem checkConcrete_eq_ok (s : Stmt) :
    (s.checkConcrete = .ok () ↔ s.IsConcrete) ∧ (s.IsClosed ↔ s.freeVars = []) := by
  refine ⟨?_, isClosed_iff⟩
  rw [isConcrete_iff_admitted]
  have h : (Part.stmt s).check [] = .ok () ↔ _ := Part.check_eq_ok
  simp only [List.append_nil] at h
  exact h

end Stmt

end SparseTensor
