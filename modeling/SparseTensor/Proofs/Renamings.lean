import SparseTensor.Proofs.Traversals
import SparseTensor.Transform.Renaming

/-!
# Renaming as an edit

A renaming touches the nodes that mention one of its variables: accesses at it, whether they are
read or written, and reductions and statements that bind it. It gives these a new label and walks on
elsewhere (`Renaming.edit`), and `Renaming.exists_yields` says what its run gives.
-/

namespace SparseTensor

open Place

variable {σ : Type}

/-- The index variables that a node mentions: those at which it is read or written, or the one that
it binds. -/
def Label.vars : Label → List IndexVar
  | .access _ indices | .target _ indices => indices
  | .reduction _ i | .forAll i => [i]
  | _ => []

namespace Renaming

variable (m : Renaming)

/-- The label with its variables renamed. -/
def inLabel : Label → Label
  | .access t indices => .access t (indices.map m.apply)
  | .target t indices => .target t (indices.map m.apply)
  | .reduction reducer i => .reduction reducer (m.apply i)
  | .forAll i => .forAll (m.apply i)
  | label => label

/-- Whether the renaming has one of the variables that the node mentions. -/
def touches (p : Place) : Bool := p.label.vars.any fun i => (m.find? i).isSome

/-- What the renaming does with a place. -/
def edit (p : Place) : Edit := if m.touches p then .relabel (m.inLabel p.label) else .walk

/-- The part with its variables renamed. -/
def inPart : Part → TransformM σ Part
  | .expr e => .expr <$> m.inExpr e
  | .stmt s => .stmt <$> m.inStmt s

/-- The traversal of a renaming goes through targets as through reads. -/
def visitor : Visitor σ := m.traversal.visitor fun a => m.traversal.expr (.access a)

theorem edit_eq_relabel {m : Renaming} {p : Place} {label : Label} :
    m.edit p = .relabel label ↔ m.touches p = true ∧ m.inLabel p.label = label := by
  by_cases h : m.touches p <;> simp [edit, h]

theorem edit_eq_walk {m : Renaming} {p : Place} : m.edit p = .walk ↔ m.touches p = false := by
  by_cases h : m.touches p <;> simp [edit, h]

theorem edit_ne_replace {m : Renaming} {p new : Place} : m.edit p ≠ .replace new := by
  by_cases h : m.touches p <;> simp [edit, h]

theorem find?_eq_some {m : Renaming} {i : IndexVar} (h : (m.find? i).isSome = true) :
    m.find? i = some (m.apply i) := by
  obtain ⟨j, hj⟩ := Option.isSome_iff_exists.1 h
  rw [hj, apply, hj, Option.getD_some]

theorem expr_access (a : Access) : m.traversal.expr (.access a) =
    if m.touches (.target a) then
      (do return .access ⟨← fresh, a.tensor, a.indices.map m.apply⟩ : TransformM σ Expr)
    else return .access a := rfl

theorem expr_reduction (k : NodeId) (reducer : Reducer) (i : IndexVar) (a : Expr) :
    m.traversal.expr (.reduction k reducer i a) =
      match m.find? i with
      | some j =>
        (do let new ← m.traversal.expr a; return .reduction (← fresh) reducer j new :
          TransformM σ Expr)
      | none => m.visitor.walkExpr (.reduction k reducer i a) := rfl

theorem stmt_forAll (k : NodeId) (i : IndexVar) (body : Stmt) :
    m.traversal.stmt (.forAll k i body) =
      match m.find? i with
      | some j =>
        (do let new ← m.traversal.stmt body; return .forAll (← fresh) j new : TransformM σ Stmt)
      | none => m.visitor.walkStmt (.forAll k i body) := rfl

/-- An access that is touched is made anew, whether it is read or written. -/
theorem yields_access {a : Access} (h : m.touches (.target a) = true) (st : σ) (n : NodeId) :
    Yields (m.traversal.expr (.access a)) st n (.access ⟨n, a.tensor, a.indices.map m.apply⟩) st
      (n + 1) := by
  rw [expr_access, if_pos h]
  exact Yields.fresh.bind (.pure _)

theorem yields_access_kept {a : Access} (h : m.touches (.target a) = false) (st : σ) (n : NodeId) :
    Yields (m.traversal.expr (.access a)) st n (.access a) st n := by
  rw [expr_access, h]
  exact .pure (Expr.access a)

/-- **A renaming is an edit** that gives new labels to the nodes it touches. -/
theorem follows : (m.visitor (σ := σ)).Follows m.edit where
  replaced _ _ _ h := absurd h edit_ne_replace
  relabelled {p label st st' n n' ds} hp h hds := by
    obtain ⟨htouches, rfl⟩ := edit_eq_relabel.1 h
    cases p with
    | read e =>
      cases e with
      | access a =>
        obtain ⟨rfl, rfl, rfl⟩ := hds.of_nil
        exact ⟨.read (.access _), yields_access m htouches st' n', rfl, rfl, rfl⟩
      | reduction k reducer i a =>
        obtain ⟨a', st₁, n₁, ds', rfl, ha, hds⟩ := hds.of_read
        obtain ⟨rfl, rfl, rfl⟩ := hds.of_nil
        have hi : m.find? i = some (m.apply i) :=
          find?_eq_some (by simpa [touches, label, Label.vars] using htouches)
        refine ⟨.read (.reduction n' reducer (m.apply i) a'), ?_, rfl, rfl, rfl⟩
        show Yields (m.traversal.expr (.reduction k reducer i a)) _ _ _ _ _
        rw [expr_reduction, hi]
        exact Yields.bind ha (Yields.fresh.bind (.pure _))
      | undefined | literal | unary | binary => simp [touches, label, Label.vars] at htouches
    | target a =>
      obtain ⟨rfl, rfl, rfl⟩ := hds.of_nil
      exact ⟨.target _, yields_access m htouches st' n', rfl, rfl, rfl⟩
    | stmt s =>
      cases s with
      | forAll k i body =>
        obtain ⟨body', st₁, n₁, ds', rfl, hbody, hds⟩ := hds.of_stmt
        obtain ⟨rfl, rfl, rfl⟩ := hds.of_nil
        have hi : m.find? i = some (m.apply i) :=
          find?_eq_some (by simpa [touches, label, Label.vars] using htouches)
        refine ⟨.stmt (.forAll n' (m.apply i) body'), ?_, rfl, rfl, rfl⟩
        show Yields (m.traversal.stmt (.forAll k i body)) _ _ _ _ _
        rw [stmt_forAll, hi]
        exact Yields.bind hbody (Yields.fresh.bind (.pure _))
      | undefined | assign | staged | group => simp [touches, label, Label.vars] at htouches
  walked {p st st' n n' ds} hp h hds := by
    have htouches : m.touches p = false := edit_eq_walk.1 h
    cases p with
    | read e =>
      obtain ⟨e', n'', hwalk, hwalked⟩ := Visitor.walksExpr hds
      refine ⟨.read e', n'', ?_, hwalked⟩
      cases e with
      | undefined => cases hp
      | access a =>
        show Yields (m.traversal.expr (.access a)) _ _ _ _ _
        rw [expr_access, show m.touches (.target a) = false from htouches]
        exact hwalk
      | reduction k reducer i a =>
        have hi : m.find? i = none := by simpa [touches, label, Label.vars] using htouches
        show Yields (m.traversal.expr (.reduction k reducer i a)) _ _ _ _ _
        rw [expr_reduction, hi]
        exact hwalk
      | literal | unary | binary => exact hwalk
    | target a =>
      obtain ⟨rfl, rfl, rfl⟩ := hds.of_nil
      exact ⟨.target a, _, yields_access_kept m htouches st' n', .kept .nil⟩
    | stmt s =>
      obtain ⟨s', n'', hwalk, hwalked⟩ := Visitor.walksStmt hds
      refine ⟨.stmt s', n'', ?_, hwalked⟩
      cases s with
      | undefined => cases hp
      | forAll k i body =>
        have hi : m.find? i = none := by simpa [touches, label, Label.vars] using htouches
        show Yields (m.traversal.stmt (.forAll k i body)) _ _ _ _ _
        rw [stmt_forAll, hi]
        exact hwalk
      | group k grouping members =>
        simp only [Visitor.walkStmt, visitor, Traversal.visitor,
          ← Traversal.childrenOf_eq_map] at hwalk
        exact hwalk
      | assign | staged => exact hwalk

theorem edit_of_isEmpty {m : Renaming} (h : m.isEmpty = true) (p : Place) : m.edit p = .walk := by
  have hpairs : m.pairs = [] := List.isEmpty_iff.1 h
  simp [edit_eq_walk, touches, find?, hpairs]

theorem inPart_eq (p : Part) :
    m.inPart (σ := σ) p = if m.isEmpty then return p else m.traversal.part p := by
  by_cases h : m.isEmpty = true <;> cases p <;>
    simp [inPart, inExpr, inStmt, Traversal.part, h]

/-- **The run of a renaming** succeeds where nothing is undefined, and leaves a supply above all
that it makes. -/
theorem exists_yields_below {p : Part} {n : NodeId} (hp : p.place.IsWhole)
    (hn : p.place.Precedes n) (st : σ) :
    ∃ q st' n', Yields (m.inPart p) st n q st' n' ∧ Edited m.edit p.place q.place ∧
      q.place.Precedes n' := by
  rw [inPart_eq]
  by_cases h : m.isEmpty = true
  · rw [if_pos h]
    exact ⟨p, st, n, .pure p, .of_walk fun x _ => edit_of_isEmpty h x, hn⟩
  · rw [if_neg h]
    obtain ⟨q, st', n', hrun, hedited, hbelow⟩ :=
      Traversal.exists_yields_below (follows m) hp hn st
    exact ⟨q, st', n', hrun, hedited, hbelow fun _ _ _ hedit => absurd hedit edit_ne_replace⟩

theorem exists_yields {p : Part} {n : NodeId} (hp : p.place.IsWhole) (hn : p.place.Precedes n)
    (st : σ) :
    ∃ q st' n', Yields (m.inPart p) st n q st' n' ∧ Edited m.edit p.place q.place := by
  obtain ⟨q, st', n', hrun, hedited, -⟩ := m.exists_yields_below hp hn st
  exact ⟨q, st', n', hrun, hedited⟩

end Renaming

end SparseTensor
