import SparseTensor.Proofs.Edits
import SparseTensor.Proofs.Leaves

/-!
# Traversals as visitors

A traversal visits every place once it is said what it does with targets, which not every traversal
looks into. If it follows an edit, its run on an expression or a statement is settled by that edit
(`Traversal.exists_yields`).

A traversal with handlers for accesses and literals only (`LeafHandlers`) walks on below every other
node. Without handlers of its own, it walks on everywhere.
-/

namespace SparseTensor

open Place

variable {σ : Type}

/-! ## Runs on either sort -/

theorem Yields.map {α β : Type} {x : TransformM σ α} {st st' : σ} {n n' : NodeId} {a : α}
    (f : α → β) (h : Yields x st n a st' n') : Yields (f <$> x) st n (f a) st' n' := by
  rw [map_eq_pure_bind]
  exact h.bind (.pure (f a))

theorem Yields.of_map {α β : Type} {x : TransformM σ α} {st st' : σ} {n n' : NodeId} {f : α → β}
    {b : β} (h : Yields (f <$> x) st n b st' n') : ∃ a, Yields x st n a st' n' ∧ b = f a := by
  rw [Yields, ExceptT.run_map, StateT.run_map, StateT.run_map] at h
  simp only [Yields]
  generalize (x.run.run st).run n = outcome at h ⊢
  obtain ⟨⟨fault | a, st₁⟩, n₁⟩ := outcome
  · cases h
  · cases h
    exact ⟨a, rfl, rfl⟩

namespace Traversal

/-- A traversal as a visitor, where targets are visited apart. -/
def visitor (r : Traversal σ) (target : Access → TransformM σ Expr) : Visitor σ :=
  ⟨r.expr, target, r.stmt⟩

/-- Visits a node of either sort. -/
def part (r : Traversal σ) : Part → TransformM σ Part
  | .expr e => .expr <$> r.expr e
  | .stmt s => .stmt <$> r.stmt s

theorem childrenOf_eq_map (r : Traversal σ) (members : List Stmt) :
    r.childrenOf members = members.map fun s => ⟨s, r.stmt s⟩ := by
  induction members with
  | nil => rfl
  | cons s members ih => rw [childrenOf, List.map_cons, ih]

/-- A hook that replaces nothing leaves the node to its handler. -/
theorem enterExpr_of_none {r : Traversal σ} {e : Expr} (h : r.replaceExpr? e = pure none)
    (handler : TransformM σ Expr) : r.enterExpr e handler = handler := by
  rw [enterExpr, h, pure_bind]

theorem enterStmt_of_none {r : Traversal σ} {s : Stmt} (h : r.replaceStmt? s = pure none)
    (handler : TransformM σ Stmt) : r.enterStmt s handler = handler := by
  rw [enterStmt, h, pure_bind]

/-- The run on a part is the visit of its place. -/
theorem yields_of_visits {r : Traversal σ} {target : Access → TransformM σ Expr} {p : Part}
    {q : Place} {st st' : σ} {n n' : NodeId}
    (h : (r.visitor target).Visits p.place st n q st' n') :
    ∃ q' : Part, q = q'.place ∧ Yields (r.part p) st n q' st' n' := by
  cases p with
  | expr e =>
    cases q with
    | read e' => exact ⟨.expr e', rfl, .map Part.expr h⟩
    | target | stmt => exact h.elim
  | stmt s =>
    cases q with
    | stmt s' => exact ⟨.stmt s', rfl, .map Part.stmt h⟩
    | read | target => exact h.elim

/-- A run succeeds where nothing is undefined, and does what the edit says. -/
theorem exists_yields_below {r : Traversal σ} {target : Access → TransformM σ Expr}
    {edit : Place → Edit} (hr : (r.visitor target).Follows edit) {p : Part} {n : NodeId}
    (hp : p.place.IsWhole) (hn : p.place.Precedes n) (st : σ) :
    ∃ q st' n', Yields (r.part p) st n q st' n' ∧ Edited edit p.place q.place ∧
      (Edit.PutsBelow edit p.place n → q.place.Precedes n') := by
  obtain ⟨q, st', n', hvisits, -, hedited⟩ := hr.runBelow hp st n hn
  obtain ⟨q, rfl, hrun⟩ := yields_of_visits hvisits
  exact ⟨q, st', n', hrun, hedited⟩

theorem exists_yields {r : Traversal σ} {target : Access → TransformM σ Expr} {edit : Place → Edit}
    (hr : (r.visitor target).Follows edit) {p : Part} {n : NodeId} (hp : p.place.IsWhole)
    (hn : p.place.Precedes n) (st : σ) :
    ∃ q st' n', Yields (r.part p) st n q st' n' ∧ Edited edit p.place q.place := by
  obtain ⟨q, st', n', hvisits, -, hedited⟩ := hr.run hp st n hn
  obtain ⟨q, rfl, hrun⟩ := yields_of_visits hvisits
  exact ⟨q, st', n', hrun, hedited⟩

end Traversal

/-! ## Traversals that handle leaves only -/

/-- What becomes of accesses and of literals. -/
structure LeafHandlers (σ : Type) where
  access : Access → TransformM σ Expr
  literal : NodeId → Value → TransformM σ Expr

namespace LeafHandlers

variable {h : LeafHandlers σ}

/-- The traversal that walks on below all other nodes. -/
def traversal (h : LeafHandlers σ) : Traversal σ := { access := h.access, literal := h.literal }

def visitor (h : LeafHandlers σ) : Visitor σ :=
  h.traversal.visitor fun a => h.traversal.expr (.access a)

/-- The traversal walks on below a node that is no leaf. -/
theorem visits_node {p : Place} {st st' : σ} {k k' : NodeId} {ds : List Place}
    (hdefined : p.isDefined = true) (hp : p.leaf? = none)
    (hds : h.visitor.VisitsAll p.children st k ds st' k') :
    ∃ q k'', h.visitor.Visits p st k q st' k'' ∧ Walked p ds k' q k'' := by
  cases p with
  | read e =>
    obtain ⟨e', k'', hwalk, hwalked⟩ := Visitor.walksExpr hds
    refine ⟨read e', k'', ?_, hwalked⟩
    cases e with
    | undefined => cases hdefined
    | access | literal => cases hp
    | _ => exact hwalk
  | target a => cases hp
  | stmt s =>
    obtain ⟨s', k'', hwalk, hwalked⟩ := Visitor.walksStmt hds
    refine ⟨stmt s', k'', ?_, hwalked⟩
    cases s with
    | undefined => cases hdefined
    | group j grouping members =>
      simp only [Visitor.walkStmt, visitor, Traversal.visitor,
        ← Traversal.childrenOf_eq_map] at hwalk
      exact hwalk
    | _ => exact hwalk

end LeafHandlers

/-- Without handlers, a traversal walks on everywhere. -/
theorem Traversal.follows_default :
    ((({} : Traversal σ)).visitor fun a => ({} : Traversal σ).expr (.access a)).Follows
      fun _ => .walk where
  replaced _ _ _ h := nomatch h
  relabelled _ h _ := nomatch h
  walked {p st st' n n' ds} hp _ hds := by
    let h : LeafHandlers σ := ⟨fun a => return .access a, fun k v => return .literal k v⟩
    cases hleaf : p.leaf? with
    | none => exact h.visits_node hp hleaf hds
    | some leaf =>
      cases p with
      | read e =>
        cases e with
        | access a =>
          obtain ⟨rfl, rfl, rfl⟩ := hds.of_nil
          exact ⟨.read (.access a), _, Yields.pure (Expr.access a), .kept .nil⟩
        | literal k v =>
          obtain ⟨rfl, rfl, rfl⟩ := hds.of_nil
          exact ⟨.read (.literal k v), _, Yields.pure (Expr.literal k v), .kept .nil⟩
        | _ => cases hleaf
      | target a =>
        obtain ⟨rfl, rfl, rfl⟩ := hds.of_nil
        exact ⟨.target a, _, Yields.pure (Expr.access a), .kept .nil⟩
      | stmt s => cases hleaf

end SparseTensor
