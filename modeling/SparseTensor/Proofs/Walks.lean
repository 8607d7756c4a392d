import SparseTensor.Proofs.Places
import SparseTensor.Proofs.Runs

/-!
# Visits of places

A transformation visits a place after the visits of its children, and answers with a place of the
same sort. `Visitor.Visits` says that a visit succeeds, and with what.

**Walking on** is what a transformation does where it has nothing else to do, and it is the same for
every kind of node (`Visitor.walksExpr`, `Visitor.walksStmt`). The node is given back if all
children are, and otherwise a new node is made with its label and with the new children
(`Place.Walked`).
-/

namespace SparseTensor

variable {σ : Type}

namespace Place

/-- Whether the places of two lists are the same nodes. -/
def AllSame (cs ds : List Place) : Prop := List.Forall₂ (fun c d => d.same c = true) cs ds

/-- The place is a node with this identity, this label and these children. -/
structure IsNode (k : NodeId) (label : Label) (children : List Place) (q : Place) : Prop where
  node? : q.node? = some k
  label : q.label = label
  children : q.children = children

/-- What walking on makes of `p` if its children become `ds` and `n` is the next identity: the place
`q`, and the next identity after that. -/
inductive Walked (p : Place) (ds : List Place) (n : NodeId) : Place → NodeId → Prop
  | kept : AllSame p.children ds → Walked p ds n p n
  | made {q : Place} : ¬ AllSame p.children ds → IsNode n p.label ds q → Walked p ds n q (n + 1)

/-- A node that is built anew unless its children are the same is walked on. -/
theorem walked_of_rebuild {α : Type} (sort : α → Place) {a b : α} {ds : List Place} {n : NodeId}
    {same : Bool} (hsame : same = true ↔ AllSame (sort a).children ds)
    (hb : IsNode n (sort a).label ds (sort b)) :
    Walked (sort a) ds n (sort (if same then a else b)) (if same then n else n + 1) := by
  by_cases h : same = true
  · simp only [if_pos h]
    exact .kept (hsame.1 h)
  · simp only [if_neg h]
    exact .made (fun hall => h (hsame.2 hall)) hb

end Place

open Place

/-- How the three sorts of places are visited. -/
structure Visitor (σ : Type) where
  expr : Expr → TransformM σ Expr
  target : Access → TransformM σ Expr
  stmt : Stmt → TransformM σ Stmt

namespace Visitor

/-- From a state and a supply of identities, the visit of a place succeeds with a place of its sort
and leaves a state and a supply. -/
def Visits (v : Visitor σ) : Place → σ → NodeId → Place → σ → NodeId → Prop
  | .read e, st, n, .read e', st', n' => Yields (v.expr e) st n e' st' n'
  | .target a, st, n, .target a', st', n' => Yields (v.target a) st n (.access a') st' n'
  | .stmt s, st, n, .stmt s', st', n' => Yields (v.stmt s) st n s' st' n'
  | _, _, _, _, _, _ => False

/-- The places of a list are visited in order. -/
inductive VisitsAll (v : Visitor σ) : List Place → σ → NodeId → List Place → σ → NodeId → Prop
  | nil (st : σ) (n : NodeId) : VisitsAll v [] st n [] st n
  | cons {c d : Place} {cs ds : List Place} {st st' st'' : σ} {n n' n'' : NodeId} :
      v.Visits c st n d st' n' → VisitsAll v cs st' n' ds st'' n'' →
        VisitsAll v (c :: cs) st n (d :: ds) st'' n''

variable {v : Visitor σ} {st st' : σ} {n n' : NodeId} {ds : List Place}

/-! ## Walking on -/

/-- Walking on below an expression. A leaf is given back. -/
def walkExpr (v : Visitor σ) (e : Expr) : TransformM σ Expr :=
  match e with
  | .unary _ op a => Walk.unary e op ⟨a, v.expr a⟩
  | .binary _ op a b => Walk.binary e op ⟨a, v.expr a⟩ ⟨b, v.expr b⟩
  | .reduction _ reducer i a => Walk.reduction e reducer i ⟨a, v.expr a⟩
  | e => return e

/-- Walking on below a statement. -/
def walkStmt (v : Visitor σ) (s : Stmt) : TransformM σ Stmt :=
  match s with
  | .assign _ a value op =>
    Walk.assign s op ⟨.access a, v.target a⟩ ⟨value, v.expr value⟩
  | .forAll _ i body => Walk.forAll s i ⟨body, v.stmt body⟩
  | .staged _ consumer producer =>
    Walk.staged s ⟨consumer, v.stmt consumer⟩ ⟨producer, v.stmt producer⟩
  | .group _ grouping members => Walk.group s grouping (members.map fun m => ⟨m, v.stmt m⟩)
  | s => return s

theorem VisitsAll.of_nil (h : v.VisitsAll [] st n ds st' n') : ds = [] ∧ st' = st ∧ n' = n := by
  cases h
  exact ⟨rfl, rfl, rfl⟩

theorem VisitsAll.of_read {e : Expr} {cs : List Place}
    (h : v.VisitsAll (.read e :: cs) st n ds st' n') :
    ∃ e' st₁ n₁ ds', ds = .read e' :: ds' ∧ Yields (v.expr e) st n e' st₁ n₁ ∧
      v.VisitsAll cs st₁ n₁ ds' st' n' := by
  obtain _ | ⟨hd, hds⟩ := h
  next d _ _ _ => cases d with
    | read e' => exact ⟨e', _, _, _, rfl, hd, hds⟩
    | target | stmt => exact hd.elim

theorem VisitsAll.of_target {a : Access} {cs : List Place}
    (h : v.VisitsAll (.target a :: cs) st n ds st' n') :
    ∃ a' st₁ n₁ ds', ds = .target a' :: ds' ∧ Yields (v.target a) st n (.access a') st₁ n₁ ∧
      v.VisitsAll cs st₁ n₁ ds' st' n' := by
  obtain _ | ⟨hd, hds⟩ := h
  next d _ _ _ => cases d with
    | target a' => exact ⟨a', _, _, _, rfl, hd, hds⟩
    | read | stmt => exact hd.elim

theorem VisitsAll.of_stmt {s : Stmt} {cs : List Place}
    (h : v.VisitsAll (.stmt s :: cs) st n ds st' n') :
    ∃ s' st₁ n₁ ds', ds = .stmt s' :: ds' ∧ Yields (v.stmt s) st n s' st₁ n₁ ∧
      v.VisitsAll cs st₁ n₁ ds' st' n' := by
  obtain _ | ⟨hd, hds⟩ := h
  next d _ _ _ => cases d with
    | stmt s' => exact ⟨s', _, _, _, rfl, hd, hds⟩
    | read | target => exact hd.elim

/-- Visiting the members of a group. -/
theorem VisitsAll.members {members : List Stmt}
    (h : v.VisitsAll (members.map .stmt) st n ds st' n') :
    ∃ news : List Stmt, ds = news.map .stmt ∧
      Yields (Walk.members (members.map fun m => ⟨m, v.stmt m⟩)) st n news st' n' ∧
      (Walk.allSame (members.map fun m => (⟨m, v.stmt m⟩ : Child σ Stmt)) news = true ↔
        AllSame (members.map .stmt) ds) := by
  induction members generalizing st n ds with
  | nil =>
    obtain ⟨rfl, rfl, rfl⟩ := h.of_nil
    exact ⟨[], rfl, .pure [], by simp [Walk.allSame, AllSame]⟩
  | cons m members ih =>
    obtain ⟨m', st₁, n₁, ds', rfl, hm, hrest⟩ := h.of_stmt
    obtain ⟨news, rfl, hnews, hsame⟩ := ih hrest
    refine ⟨m' :: news, rfl, Yields.members hm hnews, ?_⟩
    simp only [AllSame] at hsame
    simp [Walk.allSame, AllSame, same, hsame]

/-- **Walking on below an expression** visits the children and gives back the node, or makes a new
one. -/
theorem walksExpr {e : Expr} (h : v.VisitsAll (Place.read e).children st n ds st' n') :
    ∃ e' n'', Yields (v.walkExpr e) st n e' st' n'' ∧ Walked (.read e) ds n' (.read e') n'' := by
  cases e with
  | undefined | access | literal =>
    obtain ⟨rfl, rfl, rfl⟩ := h.of_nil
    exact ⟨_, _, .pure _, .kept .nil⟩
  | unary k op a =>
    obtain ⟨a', st₁, n₁, ds', rfl, ha, h⟩ := h.of_read
    obtain ⟨rfl, rfl, rfl⟩ := h.of_nil
    refine ⟨_, _, .unary op ha, ?_⟩
    exact walked_of_rebuild .read (by simp [AllSame, children, Expr.children, same]) ⟨rfl, rfl, rfl⟩
  | binary k op a b =>
    obtain ⟨a', st₁, n₁, ds', rfl, ha, h⟩ := h.of_read
    obtain ⟨b', st₂, n₂, ds'', rfl, hb, h⟩ := h.of_read
    obtain ⟨rfl, rfl, rfl⟩ := h.of_nil
    refine ⟨_, _, .binary op ha hb, ?_⟩
    exact walked_of_rebuild .read (by simp [AllSame, children, Expr.children, same]) ⟨rfl, rfl, rfl⟩
  | reduction k reducer i a =>
    obtain ⟨a', st₁, n₁, ds', rfl, ha, h⟩ := h.of_read
    obtain ⟨rfl, rfl, rfl⟩ := h.of_nil
    refine ⟨_, _, .reduction reducer i ha, ?_⟩
    exact walked_of_rebuild .read (by simp [AllSame, children, Expr.children, same]) ⟨rfl, rfl, rfl⟩

/-- **Walking on below a statement** visits the children and gives back the node, or makes a new
one. -/
theorem walksStmt {s : Stmt} (h : v.VisitsAll (Place.stmt s).children st n ds st' n') :
    ∃ s' n'', Yields (v.walkStmt s) st n s' st' n'' ∧ Walked (.stmt s) ds n' (.stmt s') n'' := by
  cases s with
  | undefined =>
    obtain ⟨rfl, rfl, rfl⟩ := h.of_nil
    exact ⟨_, _, .pure _, .kept .nil⟩
  | assign k a value op =>
    obtain ⟨a', st₁, n₁, ds', rfl, ha, h⟩ := h.of_target
    obtain ⟨value', st₂, n₂, ds'', rfl, hvalue, h⟩ := h.of_read
    obtain ⟨rfl, rfl, rfl⟩ := h.of_nil
    refine ⟨_, _, .assign op ha hvalue, ?_⟩
    exact walked_of_rebuild .stmt (by simp [AllSame, children, same, Expr.same, Expr.node?])
      ⟨rfl, rfl, rfl⟩
  | forAll k i body =>
    obtain ⟨body', st₁, n₁, ds', rfl, hbody, h⟩ := h.of_stmt
    obtain ⟨rfl, rfl, rfl⟩ := h.of_nil
    refine ⟨_, _, .forAll i hbody, ?_⟩
    exact walked_of_rebuild .stmt (by simp [AllSame, children, same]) ⟨rfl, rfl, rfl⟩
  | staged k consumer producer =>
    obtain ⟨consumer', st₁, n₁, ds', rfl, hc, h⟩ := h.of_stmt
    obtain ⟨producer', st₂, n₂, ds'', rfl, hp, h⟩ := h.of_stmt
    obtain ⟨rfl, rfl, rfl⟩ := h.of_nil
    refine ⟨_, _, .staged hc hp, ?_⟩
    exact walked_of_rebuild .stmt (by simp [AllSame, children, same]) ⟨rfl, rfl, rfl⟩
  | group k grouping members =>
    obtain ⟨news, rfl, hnews, hsame⟩ := h.members
    refine ⟨_, _, .group grouping hnews, ?_⟩
    exact walked_of_rebuild .stmt hsame ⟨rfl, rfl, rfl⟩

end Visitor

end SparseTensor
