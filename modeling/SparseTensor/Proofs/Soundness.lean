import SparseTensor.Proofs.Concreteness

/-!
# Soundness and scope

The check for concrete statements asks two kinds of questions at once. Some are about the tree
alone: nothing is undefined, every reduction is over a variable that its operand uses, every
consumer reads what its producer writes. A tree of which this holds is *sound* (`Stmt.isSound`). The
other one is about what is bound around the tree, and only the free occurrences matter for it.

**Theorem (`checkConcrete_iff`).** A statement is concrete iff it is sound and has no free variable.

A transformation that keeps both is therefore safe, and the variables that are bound on the way down
do not have to be followed again.
-/

namespace SparseTensor

namespace Expr

variable {e : Expr} {bound : List IndexVar}

/-- Whether nothing is undefined and every reduction is over a variable that its operand uses. -/
def isSound : Expr → Bool
  | undefined => false
  | access _ | literal _ _ => true
  | unary _ _ a => a.isSound
  | binary _ _ a b => a.isSound && b.isSound
  | reduction _ _ i a => a.uses i && a.isSound

theorem check_eq_ok :
    e.check bound = .ok () ↔ e.isSound = true ∧ ∀ i ∈ e.freeOccurrences, i ∈ bound := by
  induction e generalizing bound with
  | undefined => simp [check, isSound]
  | access a => simpa [isSound, freeOccurrences] using Part.check_access
  | literal => simp [check, isSound, freeOccurrences]
  | unary _ _ a ih => exact ih
  | binary _ _ a b iha ihb =>
    rw [check, bind_unit_eq_ok, iha, ihb, isSound, freeOccurrences, List.forall_mem_append,
      Bool.and_eq_true]
    exact and_and_and_comm
  | reduction _ _ i a ih =>
    rw [check, isSound, Bool.and_eq_true]
    by_cases ha : a.uses i = true
    · rw [if_pos ha, ih]
      simp only [ha, freeOccurrences, List.mem_filter, List.mem_cons, decide_eq_true_eq, true_and,
        and_imp, or_iff_not_imp_left]
    · simp [ha]

end Expr

namespace Stmt

variable {s : Stmt} {bound : List IndexVar}

mutual

/-- Whether nothing is undefined, every reduction is over a variable that its operand uses, and
every consumer reads what its producer writes. -/
def isSound : Stmt → Bool
  | undefined => false
  | assign _ _ value _ => value.isSound
  | forAll _ _ body => body.isSound
  | staged _ consumer producer =>
    consumer.isSound && producer.isSound &&
      producer.writes.all fun t => t ∈ consumer.reads
  | group _ _ members => areSound members

def areSound : List Stmt → Bool
  | [] => true
  | s :: ss => s.isSound && areSound ss

end

mutual

theorem check_eq_ok {bound : List IndexVar} : (s : Stmt) →
    (s.check bound = .ok () ↔ s.isSound = true ∧ ∀ i ∈ s.freeOccurrences, i ∈ bound)
  | undefined => by simp [check, isSound]
  | assign _ target value _ => by
    rw [check, bind_unit_eq_ok, Part.check_access, Expr.check_eq_ok, isSound, freeOccurrences,
      List.forall_mem_append]
    exact and_left_comm
  | forAll _ i body => by
    rw [check, check_eq_ok body, isSound, freeOccurrences]
    simp only [List.mem_filter, List.mem_cons, decide_eq_true_eq, and_imp, or_iff_not_imp_left]
  | staged _ consumer producer => by
    rw [check, bind_unit_eq_ok, bind_unit_eq_ok, check_eq_ok consumer, check_eq_ok producer,
      Part.checkStaged_eq_ok, isSound, freeOccurrences, List.forall_mem_append]
    simp only [Bool.and_eq_true, List.all_eq_true, decide_eq_true_eq]
    tauto
  | group _ _ members => checkAll_eq_ok members

theorem checkAll_eq_ok {bound : List IndexVar} : (ss : List Stmt) →
    (checkAll bound ss = .ok () ↔
      areSound ss = true ∧ ∀ i ∈ allFreeOccurrences ss, i ∈ bound)
  | [] => by simp [checkAll, areSound, allFreeOccurrences]
  | s :: ss => by
    rw [checkAll, bind_unit_eq_ok, check_eq_ok s, checkAll_eq_ok ss, areSound, allFreeOccurrences,
      List.forall_mem_append, Bool.and_eq_true]
    exact and_and_and_comm

end

/-- **Soundness and scope.** A statement is concrete iff it is sound and nothing is free in it. -/
theorem checkConcrete_iff :
    s.checkConcrete = .ok () ↔ s.isSound = true ∧ s.freeOccurrences = [] := by
  rw [checkConcrete, check_eq_ok, List.eq_nil_iff_forall_not_mem]
  simp only [List.not_mem_nil]

end Stmt

end SparseTensor
