import Mathlib.Data.List.Induction
import SparseTensor.Proofs.FirstUses

/-!
# Collecting variables in one pass

The variables of an expression or a statement can be collected in a single pass from left to right.
It carries a stack of the variables that are bound where it stands and the list of those that it has
found. A variable may be on the stack several times, and it goes off it when the pass leaves the
node that has bound it.

**Theorem (`variables_listed`).** A list of variables has those that occur, once each, in the order
of their first occurrences; and the pass comes to the same list. Where only free occurrences count,
those are the indices of accesses that no node on the way binds.

The pass notes the visible ones among the occurrences one after another, whatever is on the stack
and in the list (`Expr.collect_eq`, `Stmt.collectFree_eq`).
-/

namespace SparseTensor

/-- The list with `i` at its end, unless it is there already. -/
def note (out : List IndexVar) (i : IndexVar) : List IndexVar := if i ∈ out then out else out ++ [i]

/-! ## The pass -/

namespace Expr

/-- Notes the variables below the stack `bound`. If only free occurrences count, what is on the
stack is not noted and neither are the variables of reductions. -/
def collect (free : Bool) : Expr → (bound out : List IndexVar) → List IndexVar
  | undefined, _, out | literal _ _, _, out => out
  | access a, bound, out =>
    a.indices.foldl (fun out i => if free && decide (i ∈ bound) then out else note out i) out
  | unary _ _ a, bound, out => a.collect free bound out
  | binary _ _ a b, bound, out => b.collect free bound (a.collect free bound out)
  | reduction _ _ i a, bound, out => a.collect free (i :: bound) (if free then out else note out i)

end Expr

namespace Stmt

mutual

/-- Notes the free variables below the stack `bound`. An assignment is collected by itself first. -/
def collectFree : Stmt → (bound out : List IndexVar) → List IndexVar
  | undefined, _, out => out
  | assign _ target value _, bound, out =>
    let used := value.collect true [] ((Expr.access target).collect true [] [])
    used.foldl (fun out i => if i ∈ bound then out else note out i) out
  | forAll _ i body, bound, out => body.collectFree (i :: bound) out
  | staged _ consumer producer, bound, out =>
    producer.collectFree bound (consumer.collectFree bound out)
  | group _ _ members, bound, out => collectAllFree members bound out

def collectAllFree : List Stmt → (bound out : List IndexVar) → List IndexVar
  | [], _, out => out
  | s :: ss, bound, out => collectAllFree ss bound (s.collectFree bound out)

end

end Stmt

/-! ## Noting one after another -/

variable {i : IndexVar} {is bound out : List IndexVar}

/-- What is in the list already may be left out. -/
theorem foldl_note_filter (hi : i ∈ out) :
    (is.filter fun j => j ≠ i).foldl note out = is.foldl note out := by
  induction is generalizing out with
  | nil => rfl
  | cons j is ih =>
    have hnote : i ∈ note out j := by
      rw [note]
      split
      · exact hi
      · exact List.mem_append_left _ hi
    by_cases hj : j = i
    · rw [List.filter_cons_of_neg (by simpa using hj), ih hi, List.foldl_cons, note,
        if_pos (hj ▸ hi)]
    · rw [List.filter_cons_of_pos (by simpa using hj), List.foldl_cons, ih hnote, List.foldl_cons]

theorem foldl_note_eraseDups (is out : List IndexVar) :
    is.eraseDups.foldl note out = is.foldl note out := by
  induction is using eraseDups_induction generalizing out with
  | nil => rfl
  | cons i is ih =>
    rw [eraseDups_cons_eq, List.foldl_cons, ih, List.foldl_cons, foldl_note_filter]
    rw [note]
    split
    · assumption
    · exact List.mem_append_right _ (List.mem_singleton_self i)

/-- From the empty list on, noting leaves first occurrences. -/
theorem foldl_note_nil (is : List IndexVar) : is.foldl note [] = is.eraseDups := by
  induction is using List.reverseRecOn with
  | nil => rfl
  | append_singleton is i ih =>
    rw [List.foldl_append, ih, List.eraseDups_append]
    by_cases hi : i ∈ is <;> simp [note, List.removeAll, List.eraseDups_cons, hi]

/-! ## What the pass notes -/

open SparseTensor.Part

theorem Expr.collect_eq (free : Bool) (e : Expr) (bound out : List IndexVar) :
    e.collect free bound out =
      ((listed free (.expr e)).filter fun i => !(free && decide (i ∈ bound))).foldl note out := by
  induction e generalizing bound out with
  | undefined | literal => cases free <;> rfl
  | access a =>
    rw [List.foldl_filter]
    cases free <;> simp [collect, listed, freeOccurrences, occurrences]
  | unary _ _ a ih => exact ih bound out
  | binary _ _ a b iha ihb =>
    rw [collect, iha, ihb, ← List.foldl_append, ← List.filter_append]
    cases free <;> rfl
  | reduction _ _ i a ih =>
    rw [collect, ih]
    cases free <;> simp [listed, freeOccurrences, occurrences, Bool.and_comm]

namespace Stmt

mutual

theorem collectFree_eq : (s : Stmt) → (bound out : List IndexVar) →
    s.collectFree bound out = (s.freeOccurrences.filter fun i => i ∉ bound).foldl note out
  | undefined, _, _ => rfl
  | assign _ target value _, bound, out => by
    have hused : value.collect true [] ((Expr.access target).collect true [] []) =
        (target.indices ++ value.freeOccurrences).eraseDups := by
      rw [Expr.collect_eq, Expr.collect_eq, ← List.foldl_append, foldl_note_nil]
      simp [listed, Expr.freeOccurrences]
    have hnote : (fun out i => if i ∈ bound then out else note out i) =
        fun out i => if decide (i ∉ bound) = true then note out i else out := by
      funext out i
      by_cases hi : i ∈ bound <;> simp [hi]
    rw [collectFree, hused, hnote, ← List.foldl_filter, ← eraseDups_filter, foldl_note_eraseDups,
      freeOccurrences]
  | forAll _ i body, bound, out => by
    rw [collectFree, collectFree_eq body, freeOccurrences, List.filter_filter]
    simp [Bool.and_comm]
  | staged _ consumer producer, bound, out => by
    rw [collectFree, collectFree_eq consumer, collectFree_eq producer, ← List.foldl_append,
      ← List.filter_append, freeOccurrences]
  | group _ _ members, bound, out => collectAllFree_eq members bound out

theorem collectAllFree_eq : (ss : List Stmt) → (bound out : List IndexVar) →
    collectAllFree ss bound out =
      ((allFreeOccurrences ss).filter fun i => i ∉ bound).foldl note out
  | [], _, _ => rfl
  | s :: ss, bound, out => by
    rw [collectAllFree, collectFree_eq s, collectAllFree_eq ss, ← List.foldl_append,
      ← List.filter_append, allFreeOccurrences]

end

end Stmt

/-! ## The variables -/

/-- All occurrences are those at accesses and those of the variables of reductions. -/
theorem Expr.mem_occurrences {e : Expr} {i : IndexVar} : i ∈ e.occurrences ↔
    (∃ bound a, (Part.expr e).Contains bound (.expr (.access a)) ∧ i ∈ a.indices) ∨
      ∃ bound n reducer a, (Part.expr e).Contains bound (.expr (.reduction n reducer i a)) := by
  have h : i ∈ e.occurrences ↔
      ∃ bound q, (Part.expr e).Contains bound q ∧ (i ∈ q.indices ∨ i ∈ q.binder) := by
    induction e with
    | undefined | literal | access =>
      rw [exists_contains]
      simp [occurrences, Part.children, children, indices, binder]
    | unary _ _ a ih =>
      rw [exists_contains, occurrences, ih]
      simp [Part.children, children, indices, binder]
    | binary _ _ a b iha ihb =>
      rw [exists_contains, occurrences, List.mem_append, iha, ihb]
      simp [Part.children, children, indices, binder]
    | reduction _ _ j a ih =>
      rw [exists_contains, occurrences, List.mem_cons, ih]
      simp [Part.children, children, indices, binder]
  rw [h]
  constructor
  · rintro ⟨bound, q, hq, hi | hi⟩
    · obtain ⟨a, rfl, hi⟩ := mem_indices.1 hi
      exact .inl ⟨bound, a, hq, hi⟩
    · obtain ⟨x, rfl⟩ := exists_expr_of_contains hq
      cases x with
      | reduction n reducer j a =>
        obtain rfl := List.mem_singleton.1 hi
        exact .inr ⟨bound, n, reducer, a, hq⟩
      | _ => cases hi
  · rintro (⟨bound, a, hq, hi⟩ | ⟨bound, n, reducer, a, hq⟩)
    · exact ⟨bound, _, hq, .inl hi⟩
    · exact ⟨bound, _, hq, .inr (List.mem_singleton_self i)⟩

/-- Each list of variables has those that occur, in the order of their first occurrences, and is
what the pass collects. -/
theorem variables_listed :
    (∀ e : Expr, ListsFirst e.freeVars (OccursAt true (.expr e)) ∧
      (∀ i, i ∈ e.freeVars ↔ e.HasFree i) ∧ (∀ i, e.uses i = true ↔ e.HasFree i) ∧
      e.collect true [] [] = e.freeVars) ∧
    (∀ e : Expr, ListsFirst e.indexVars (OccursAt false (.expr e)) ∧
      (∀ i, i ∈ e.indexVars ↔
        (∃ bound a, (Part.expr e).Contains bound (.expr (.access a)) ∧ i ∈ a.indices) ∨
          ∃ bound n reducer a, (Part.expr e).Contains bound (.expr (.reduction n reducer i a))) ∧
      e.collect false [] [] = e.indexVars) ∧
    ∀ s : Stmt, ListsFirst s.freeVars (OccursAt true (.stmt s)) ∧
      (∀ i, i ∈ s.freeVars ↔ ∃ bound n target value op,
        (Part.stmt s).Contains bound (.stmt (.assign n target value op)) ∧
          (i ∈ target.indices ∨ value.HasFree i) ∧ i ∉ bound) ∧
      s.collectFree [] [] = s.freeVars := by
  have huses : ∀ (e : Expr) i, i ∈ e.freeOccurrences ↔ e.HasFree i := by
    intro e i
    rw [← Expr.uses_iff_hasFree, Expr.uses, decide_eq_true_eq]
  refine ⟨fun e => ⟨listsFirst true (.expr e) (.inl rfl), fun i => ?_,
      fun i => Expr.uses_iff_hasFree, ?_⟩,
    fun e => ⟨listsFirst false (.expr e) (.inr ⟨e, rfl⟩), fun i => ?_, ?_⟩,
    fun s => ⟨listsFirst true (.stmt s) (.inl rfl), fun i => ?_, ?_⟩⟩
  · rw [Expr.freeVars, List.mem_eraseDups, huses]
  · rw [Expr.collect_eq, foldl_note_nil]
    simp [listed, Expr.freeVars]
  · rw [Expr.indexVars, List.mem_eraseDups, Expr.mem_occurrences]
  · rw [Expr.collect_eq, foldl_note_nil]
    simp [listed, Expr.indexVars]
  · simp only [Stmt.freeVars, List.mem_eraseDups, Stmt.mem_freeOccurrences_assign, huses]
  · rw [Stmt.collectFree_eq, foldl_note_nil]
    simp [Stmt.freeVars]

end SparseTensor
