import Mathlib.Logic.Basic
import SparseTensor.Notation.Occurrences

/-!
# What stands where

An expression or a statement is a tree with nodes of two sorts. A part of it stands below reductions
and below statements for all values of a variable, and these bind variables for it.

**The relation** (`Part.Contains`). `p.Contains bound q` says that `q` stands in `p`, and that the
nodes on the way from `p` to `q` bind `bound`, the innermost first.

**Lists.** The lists of free occurrences, of writes and of reads are recursions on the tree. Here
they are found to have exactly what stands in the tree: a free occurrence is an index of an access
that nothing on the way binds (`mem_freeOccurrences`), a read is an access on the right of some
assignment (`Stmt.mem_reads`), and a write is an assignment outside all producers
(`Stmt.mem_writes`).

Each proof looks at one node and its children. `Part.induction` then carries it through the tree.
-/

namespace SparseTensor

namespace Part

/-- What a node binds in its children. -/
def binder : Part → List IndexVar
  | expr (.reduction _ _ i _) => [i]
  | stmt (.forAll _ i _) => [i]
  | _ => []

/-- `q` stands in `p`, and the nodes on the way bind `bound`, the innermost first. -/
inductive Contains : (p : Part) → (bound : List IndexVar) → (q : Part) → Prop
  | self (p : Part) : Contains p [] p
  | inner {p c q : Part} {bound : List IndexVar} :
      c ∈ p.children → Contains c bound q → Contains p (bound ++ p.binder) q

/-! ## Induction -/

section

variable {P : Part → Prop}

theorem induction_expr (step : ∀ p : Part, (∀ c ∈ p.children, P c) → P p) (e : Expr) :
    P (.expr e) := by
  induction e with
  | undefined | access | literal => exact step _ (by simp [children, Expr.children])
  | unary _ _ a ih | reduction _ _ _ a ih => exact step _ (by simpa [children, Expr.children])
  | binary _ _ a b iha ihb => exact step _ (by simpa [children, Expr.children] using ⟨iha, ihb⟩)

mutual

theorem induction_stmt (step : ∀ p : Part, (∀ c ∈ p.children, P c) → P p) : (s : Stmt) → P (.stmt s)
  | .undefined => step _ (by simp [children, Stmt.children])
  | .assign _ target value _ => by
    apply step
    simp only [children, Stmt.children, List.forall_mem_cons]
    exact ⟨induction_expr step _, induction_expr step value, by simp⟩
  | .forAll _ _ body => by
    apply step
    simpa [children, Stmt.children] using induction_stmt step body
  | .staged _ consumer producer => by
    apply step
    simpa [children, Stmt.children] using
      ⟨induction_stmt step consumer, induction_stmt step producer⟩
  | .group _ _ members => by
    apply step
    simpa [children, Stmt.children] using induction_members step members

theorem induction_members (step : ∀ p : Part, (∀ c ∈ p.children, P c) → P p) : (ss : List Stmt) →
    ∀ s ∈ ss, P (.stmt s)
  | [] => by simp
  | s :: ss => List.forall_mem_cons.2 ⟨induction_stmt step s, induction_members step ss⟩

end

/-- What holds of a node if it holds of its children holds everywhere. -/
theorem induction (step : ∀ p : Part, (∀ c ∈ p.children, P c) → P p) (p : Part) : P p := by
  cases p with
  | expr e => exact induction_expr step e
  | stmt s => exact induction_stmt step s

end

variable {p q : Part} {bound : List IndexVar} {i : IndexVar}

/-! ## What a node contains -/

theorem forall_contains {P : List IndexVar → Part → Prop} :
    (∀ bound q, p.Contains bound q → P bound q) ↔
      P [] p ∧ ∀ c ∈ p.children, ∀ bound q, c.Contains bound q → P (bound ++ p.binder) q := by
  constructor
  · intro h
    exact ⟨h [] p (.self p), fun c hc bound q hq => h _ q (.inner hc hq)⟩
  · rintro ⟨hself, hinner⟩ bound q h
    cases h with
    | self => exact hself
    | inner hc hq => exact hinner _ hc _ q hq

theorem exists_contains {P : List IndexVar → Part → Prop} :
    (∃ bound q, p.Contains bound q ∧ P bound q) ↔
      P [] p ∨ ∃ c ∈ p.children, ∃ bound q, c.Contains bound q ∧ P (bound ++ p.binder) q := by
  constructor
  · rintro ⟨bound, q, h, hP⟩
    cases h with
    | self => exact .inl hP
    | inner hc hq => exact .inr ⟨_, hc, _, q, hq, hP⟩
  · rintro (hP | ⟨c, hc, bound, q, hq, hP⟩)
    · exact ⟨[], p, .self p, hP⟩
    · exact ⟨_, q, .inner hc hq, hP⟩

/-- An expression contains expressions only. -/
theorem exists_expr_of_contains {e : Expr} (h : (expr e).Contains bound q) : ∃ x, q = expr x := by
  generalize hp : expr e = p at h
  induction h generalizing e with
  | self => exact ⟨e, hp.symm⟩
  | inner hc _ ih =>
    subst hp
    obtain ⟨c, -, rfl⟩ := List.mem_map.1 hc
    exact ih rfl

/-! ## Free occurrences -/

/-- The index variables at which a node itself is read or written. -/
def indices : Part → List IndexVar
  | expr (.access a) => a.indices
  | _ => []

theorem mem_indices : i ∈ q.indices ↔ ∃ a, q = .expr (.access a) ∧ i ∈ a.indices := by
  constructor
  · intro h
    cases q with
    | stmt s => cases h
    | expr e =>
      cases e with
      | access a => exact ⟨a, rfl, h⟩
      | _ => cases h
  · rintro ⟨a, rfl, h⟩
    exact h

def freeOccurrences : Part → List IndexVar
  | expr e => e.freeOccurrences
  | stmt s => s.freeOccurrences

@[simp] theorem freeOccurrences_expr (e : Expr) : (expr e).freeOccurrences = e.freeOccurrences :=
  rfl

@[simp] theorem freeOccurrences_stmt (s : Stmt) : (stmt s).freeOccurrences = s.freeOccurrences :=
  rfl

theorem mem_allFreeOccurrences {ss : List Stmt} :
    i ∈ Stmt.allFreeOccurrences ss ↔ ∃ s ∈ ss, i ∈ s.freeOccurrences := by
  induction ss with
  | nil => simp [Stmt.allFreeOccurrences]
  | cons s ss ih => simp [Stmt.allFreeOccurrences, ih]

/-- A free occurrence is in the node itself, or free in a child and not bound by the node. -/
theorem mem_freeOccurrences_node :
    i ∈ p.freeOccurrences ↔
      i ∈ p.indices ∨ i ∉ p.binder ∧ ∃ c ∈ p.children, i ∈ c.freeOccurrences := by
  cases p with
  | expr e =>
    cases e with
    | reduction => simp [Expr.freeOccurrences, indices, binder, children, Expr.children, and_comm]
    | _ => simp [Expr.freeOccurrences, indices, binder, children, Expr.children]
  | stmt s =>
    cases s with
    | forAll => simp [Stmt.freeOccurrences, indices, binder, children, Stmt.children, and_comm]
    | _ =>
      simp [Stmt.freeOccurrences, Expr.freeOccurrences, mem_allFreeOccurrences, indices, binder,
        children, Stmt.children]

/-- A variable is free where an access uses it and nothing on the way there binds it. -/
theorem mem_freeOccurrences :
    i ∈ p.freeOccurrences ↔ ∃ bound q, p.Contains bound q ∧ i ∈ q.indices ∧ i ∉ bound := by
  induction p using induction with
  | step p ih =>
    rw [mem_freeOccurrences_node, exists_contains]
    apply or_congr
    · simp
    · constructor
      · rintro ⟨hbinder, c, hc, hi⟩
        obtain ⟨bound, q, hq, hiq, hbound⟩ := (ih c hc).1 hi
        exact ⟨c, hc, bound, q, hq, hiq, by simp [hbound, hbinder]⟩
      · rintro ⟨c, hc, bound, q, hq, hiq, hbound⟩
        rw [List.mem_append, not_or] at hbound
        exact ⟨hbound.2, c, hc, (ih c hc).2 ⟨bound, q, hq, hiq, hbound.1⟩⟩

end Part

open SparseTensor.Part

namespace Expr

/-- What holds of an expression if it holds of its children holds of all. -/
theorem induction_children {P : Expr → Prop} (step : ∀ e : Expr, (∀ c ∈ e.children, P c) → P e)
    (e : Expr) : P e := by
  induction e with
  | undefined | access | literal => exact step _ (by simp [children])
  | unary _ _ a ih | reduction _ _ _ a ih => exact step _ (by simpa [children])
  | binary _ _ a b iha ihb => exact step _ (by simpa [children] using ⟨iha, ihb⟩)

/-- A variable occurs free in an expression that reads at it outside all reductions over it. -/
def HasFree (e : Expr) (i : IndexVar) : Prop :=
  ∃ bound a, (Part.expr e).Contains bound (.expr (.access a)) ∧ i ∈ a.indices ∧ i ∉ bound

/-- An expression accesses the tensors of the accesses in it. -/
def Accesses (e : Expr) (t : TensorVar) : Prop :=
  ∃ bound a, (Part.expr e).Contains bound (.expr (.access a)) ∧ a.tensor = t

theorem uses_iff_hasFree {e : Expr} {i : IndexVar} : e.uses i = true ↔ e.HasFree i := by
  rw [uses, decide_eq_true_eq]
  refine (mem_freeOccurrences (p := .expr e)).trans ?_
  constructor
  · rintro ⟨bound, q, hq, hi, hbound⟩
    obtain ⟨a, rfl, hi⟩ := mem_indices.1 hi
    exact ⟨bound, a, hq, hi, hbound⟩
  · rintro ⟨bound, a, ha, hi, hbound⟩
    exact ⟨bound, _, ha, hi, hbound⟩

theorem mem_reads {e : Expr} {t : TensorVar} : t ∈ e.reads ↔ e.Accesses t := by
  have h : t ∈ e.reads ↔ ∃ bound q, (Part.expr e).Contains bound q ∧
      ∃ a, q = .expr (.access a) ∧ a.tensor = t := by
    induction e with
    | undefined | literal | access =>
      rw [exists_contains]
      simp [reads, Part.children, children, eq_comm]
    | unary _ _ a ih | reduction _ _ _ a ih =>
      rw [exists_contains, reads, ih]
      simp [Part.children, children]
    | binary _ _ a b iha ihb =>
      rw [exists_contains, reads, List.mem_append, iha, ihb]
      simp [Part.children, children]
  rw [h]
  constructor
  · rintro ⟨bound, q, hq, a, rfl, ha⟩
    exact ⟨bound, a, hq, ha⟩
  · rintro ⟨bound, a, hq, ha⟩
    exact ⟨bound, _, hq, a, rfl, ha⟩

end Expr

namespace Stmt

variable {s : Stmt} {t : TensorVar}

/-! ## Statements inside a statement -/

/-- What holds of a statement if it holds of the statements right below it holds of all. -/
theorem induction_children {P : Stmt → Prop}
    (step : ∀ s : Stmt, (∀ c, .stmt c ∈ s.children → P c) → P s) (s : Stmt) : P s := by
  have h : ∀ p : Part, ∀ s, p = .stmt s → P s := by
    intro p
    induction p using Part.induction with
    | step p ih =>
      rintro s rfl
      exact step s fun c hc => ih _ hc c rfl
  exact h _ s rfl

/-- What a statement contains, as far as statements go. -/
theorem exists_contains_stmt {P : List IndexVar → Stmt → Prop} :
    (∃ bound r, (Part.stmt s).Contains bound (.stmt r) ∧ P bound r) ↔
      P [] s ∨ ∃ c, .stmt c ∈ s.children ∧ ∃ bound r,
        (Part.stmt c).Contains bound (.stmt r) ∧ P (bound ++ (Part.stmt s).binder) r := by
  constructor
  · rintro ⟨bound, r, h, hP⟩
    cases h with
    | self => exact .inl hP
    | @inner _ c _ bound hc hr =>
      cases c with
      | expr e =>
        obtain ⟨x, hx⟩ := exists_expr_of_contains hr
        cases hx
      | stmt c => exact .inr ⟨c, hc, bound, r, hr, hP⟩
  · rintro (hP | ⟨c, hc, bound, r, hr, hP⟩)
    · exact ⟨[], s, .self _, hP⟩
    · exact ⟨_, r, .inner hc hr, hP⟩

/-! ## Reads and writes -/

/-- A statement accesses the tensors on the right of the assignments in it. -/
def Accesses (s : Stmt) (t : TensorVar) : Prop :=
  ∃ bound n target value op,
    (Part.stmt s).Contains bound (.stmt (.assign n target value op)) ∧ value.Accesses t

/-- A statement assigns the targets of the assignments in it that are in no producer. -/
inductive Assigns : Stmt → TensorVar → Prop
  | assign (n : NodeId) (target : Access) (value : Expr) (op : Option BinaryOp) :
      Assigns (.assign n target value op) target.tensor
  | forAll {n : NodeId} {i : IndexVar} {body : Stmt} {t : TensorVar} :
      Assigns body t → Assigns (.forAll n i body) t
  | consumer {n : NodeId} {consumer producer : Stmt} {t : TensorVar} :
      Assigns consumer t → Assigns (.staged n consumer producer) t
  | member {n : NodeId} {grouping : Grouping} {members : List Stmt} {s : Stmt} {t : TensorVar} :
      s ∈ members → Assigns s t → Assigns (.group n grouping members) t

theorem mem_allReads {ss : List Stmt} : t ∈ allReads ss ↔ ∃ s ∈ ss, t ∈ s.reads := by
  induction ss with
  | nil => simp [allReads]
  | cons s ss ih => simp [allReads, ih]

theorem mem_allWrites {ss : List Stmt} : t ∈ allWrites ss ↔ ∃ s ∈ ss, t ∈ s.writes := by
  induction ss with
  | nil => simp [allWrites]
  | cons s ss ih => simp [allWrites, ih]

theorem mem_reads_node :
    t ∈ s.reads ↔ (∃ n target value op, s = .assign n target value op ∧ t ∈ value.reads) ∨
      ∃ c, .stmt c ∈ s.children ∧ t ∈ c.reads := by
  cases s with
  | assign n target value op =>
    constructor
    · intro ht
      exact .inl ⟨n, target, value, op, rfl, ht⟩
    · rintro (⟨_, _, _, _, h, ht⟩ | ⟨c, hc, -⟩)
      · cases h
        exact ht
      · simp [children] at hc
  | undefined | forAll | staged | group =>
    simp [reads, children, mem_allReads, or_and_right, exists_or]

theorem mem_reads : t ∈ s.reads ↔ s.Accesses t := by
  have h : t ∈ s.reads ↔ ∃ bound r, (Part.stmt s).Contains bound (.stmt r) ∧
      ∃ n target value op, r = .assign n target value op ∧ t ∈ value.reads := by
    induction s using induction_children with
    | step s ih =>
      rw [mem_reads_node, exists_contains_stmt]
      exact or_congr_right (exists_congr fun c => and_congr_right fun hc => ih c hc)
  rw [h]
  constructor
  · rintro ⟨bound, r, hr, n, target, value, op, rfl, ht⟩
    exact ⟨bound, n, target, value, op, hr, Expr.mem_reads.1 ht⟩
  · rintro ⟨bound, n, target, value, op, hr, ht⟩
    exact ⟨bound, _, hr, n, target, value, op, rfl, Expr.mem_reads.2 ht⟩

theorem mem_writes : t ∈ s.writes ↔ s.Assigns t := by
  induction s using induction_children with
  | step s ih =>
    constructor
    · intro ht
      cases s with
      | undefined => cases ht
      | assign n target value op =>
        rw [writes, List.mem_singleton] at ht
        rw [ht]
        exact .assign n target value op
      | forAll n i body => exact .forAll ((ih body (by simp [children])).1 ht)
      | staged n consumer producer => exact .consumer ((ih consumer (by simp [children])).1 ht)
      | group n grouping members =>
        obtain ⟨s, hs, ht⟩ := mem_allWrites.1 ht
        exact .member hs ((ih s (by simpa [children])).1 ht)
    · intro ht
      cases ht with
      | assign => exact List.mem_singleton_self _
      | @forAll n i body t ht => exact (ih body (by simp [children])).2 ht
      | @consumer n consumer producer t ht => exact (ih consumer (by simp [children])).2 ht
      | @member n grouping members s t hs ht =>
        exact mem_allWrites.2 ⟨s, hs, (ih s (by simpa [children])).2 ht⟩

end Stmt

end SparseTensor
