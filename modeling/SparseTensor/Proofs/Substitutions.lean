import SparseTensor.Proofs.Traversals
import SparseTensor.Transform.Substitution

/-!
# Substitution as an edit

A substitution replaces every match and walks on elsewhere (`Substitution.edit`). A read or a
statement matches if it is like a key. A target matches only if what replaces it is an access, and
is not looked into. `Substitution.exists_yields` says what the run of a substitution gives.
-/

namespace SparseTensor

open Place

namespace Substitution

variable (m : Substitution)

/-- What a place is replaced by. Only an access replaces a target. -/
def match? : Place → Option Place
  | .read e => (m.expr? e).map .read
  | .target a =>
    match m.expr? (.access a) with
    | some (.access new) => some (.target new)
    | _ => none
  | .stmt s => (m.stmt? s).map .stmt

/-- What the substitution does with a place. -/
def edit (p : Place) : Edit :=
  match m.match? p with
  | some new => .replace new
  | none => .walk

/-- The part with every match replaced. -/
def inPart : Part → TransformM (List TransformEvent) Part
  | .expr e => .expr <$> m.inExpr e
  | .stmt s => .stmt <$> m.inStmt s

/-- The traversal of a substitution does not look into targets. -/
def visitor : Visitor (List TransformEvent) := m.traversal.visitor fun a => m.target (.access a)

theorem edit_eq_replace {m : Substitution} {p new : Place} :
    m.edit p = .replace new ↔ m.match? p = some new := by
  cases h : m.match? p <;> simp [edit, h]

theorem edit_eq_walk {m : Substitution} {p : Place} : m.edit p = .walk ↔ m.match? p = none := by
  cases h : m.match? p <;> simp [edit, h]

theorem edit_ne_relabel {m : Substitution} {p : Place} {label : Label} :
    m.edit p ≠ .relabel label := by
  cases h : m.match? p <;> simp [edit, h]

theorem match?_target_eq_some {m : Substitution} {a : Access} {new : Place} :
    m.match? (.target a) = some new ↔
      ∃ b, m.expr? (.access a) = some (.access b) ∧ new = .target b := by
  rw [match?]
  split
  next b h => simp [h, eq_comm]
  next h =>
    simp only [false_iff, reduceCtorEq, not_exists, not_and]
    intro b hb
    exact absurd hb (h b)

theorem target_access (a : Access) : m.target (.access a) =
    match m.match? (.target a) with
    | some (.target new) => (do log (.targetReplaced a); return .access new)
    | _ => return .access a := by
  rw [match?]
  unfold target
  cases h : m.expr? (.access a) with
  | none => rfl
  | some new => cases new <;> rfl

/-- The hook replaces a match, and logs it. -/
theorem replaceExpr?_eq (e : Expr) : m.traversal.replaceExpr? e =
    match m.expr? e with
    | some new => (do log (.exprReplaced e); return some new)
    | none => return none := rfl

theorem replaceStmt?_eq (s : Stmt) : m.traversal.replaceStmt? s =
    match m.stmt? s with
    | some new => (do log (.stmtReplaced s); return some new)
    | none => return none := rfl

theorem expr_eq {e : Expr} (h : e.isDefined = true) :
    m.traversal.expr e = m.traversal.enterExpr e (m.visitor.walkExpr e) := by
  cases e with
  | undefined => cases h
  | _ => rfl

theorem stmt_eq {s : Stmt} (h : s.isDefined = true) :
    m.traversal.stmt s = m.traversal.enterStmt s (m.visitor.walkStmt s) := by
  cases s with
  | undefined => cases h
  | group k grouping members =>
    rw [Traversal.stmt, Traversal.childrenOf_eq_map]
    rfl
  | _ => rfl

/-- **A substitution is an edit** that replaces the matches. -/
theorem follows : m.visitor.Follows m.edit where
  replaced {p new} events n hp h := by
    have hmatch := edit_eq_replace.1 h
    cases p with
    | read e =>
      obtain ⟨new, hnew, rfl⟩ := Option.map_eq_some_iff.1 hmatch
      refine ⟨events ++ [.exprReplaced e], ?_⟩
      show Yields (m.traversal.expr e) _ _ _ _ _
      rw [expr_eq m hp, Traversal.enterExpr, replaceExpr?_eq, hnew]
      rfl
    | target a =>
      obtain ⟨b, -, rfl⟩ := match?_target_eq_some.1 hmatch
      refine ⟨events ++ [.targetReplaced a], ?_⟩
      show Yields (m.target (.access a)) _ _ _ _ _
      rw [target_access, hmatch]
      rfl
    | stmt s =>
      obtain ⟨new, hnew, rfl⟩ := Option.map_eq_some_iff.1 hmatch
      refine ⟨events ++ [.stmtReplaced s], ?_⟩
      show Yields (m.traversal.stmt s) _ _ _ _ _
      rw [stmt_eq m hp, Traversal.enterStmt, replaceStmt?_eq, hnew]
      rfl
  relabelled _ h _ := absurd h edit_ne_relabel
  walked {p events events' n n' ds} hp h hds := by
    have hmatch := edit_eq_walk.1 h
    cases p with
    | read e =>
      obtain ⟨e', n'', hwalk, hwalked⟩ := Visitor.walksExpr hds
      refine ⟨.read e', n'', ?_, hwalked⟩
      have hnone : m.expr? e = none := Option.map_eq_none_iff.1 hmatch
      show Yields (m.traversal.expr e) _ _ _ _ _
      rwa [expr_eq m hp, Traversal.enterExpr_of_none (by rw [replaceExpr?_eq, hnone])]
    | target a =>
      obtain ⟨rfl, rfl, rfl⟩ := hds.of_nil
      refine ⟨.target a, _, ?_, .kept .nil⟩
      show Yields (m.target (.access a)) _ _ _ _ _
      rw [target_access, hmatch]
      exact .pure _
    | stmt s =>
      obtain ⟨s', n'', hwalk, hwalked⟩ := Visitor.walksStmt hds
      refine ⟨.stmt s', n'', ?_, hwalked⟩
      have hnone : m.stmt? s = none := Option.map_eq_none_iff.1 hmatch
      show Yields (m.traversal.stmt s) _ _ _ _ _
      rwa [stmt_eq m hp, Traversal.enterStmt_of_none (by rw [replaceStmt?_eq, hnone])]

theorem edit_of_isEmpty {m : Substitution} (h : m.isEmpty = true) (p : Place) :
    m.edit p = .walk := by
  obtain ⟨hexprs, hstmts⟩ : m.exprs = [] ∧ m.stmts = [] := by
    simpa [isEmpty] using h
  cases p <;> simp [edit_eq_walk, match?, expr?, stmt?, hexprs, hstmts]

theorem inPart_eq (p : Part) :
    m.inPart p = if m.isEmpty then return p else m.traversal.part p := by
  by_cases h : m.isEmpty = true <;> cases p <;>
    simp [inPart, inExpr, inStmt, Traversal.part, h]

/-- **The run of a substitution** succeeds where nothing is undefined. -/
theorem exists_yields {p : Part} {n : NodeId} (hp : p.place.IsWhole) (hn : p.place.Precedes n)
    (events : List TransformEvent) :
    ∃ q events' n', Yields (m.inPart p) events n q events' n' ∧
      Edited m.edit p.place q.place := by
  rw [inPart_eq]
  by_cases h : m.isEmpty = true
  · rw [if_pos h]
    exact ⟨p, events, n, .pure p, .of_walk fun x _ => edit_of_isEmpty h x⟩
  · rw [if_neg h]
    exact Traversal.exists_yields (follows m) hp hn events

end Substitution

end SparseTensor
