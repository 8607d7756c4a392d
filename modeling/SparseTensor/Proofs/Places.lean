import Mathlib.Data.List.Forall2
import SparseTensor.Proofs.Parts

/-!
# Places in a tree

A transformation treats an access that is written differently from one that is read, so there are
three sorts of places: expressions that are read, targets that are written, and statements. A place
has a label, which says what kind of node it is, and children. Label and children are all there is
to a tree up to the identities of its nodes (`Place.alike_iff`), so what is shown for a label and a
list of children is shown for every kind of node.

`Place.at?` follows child numbers down from a place. `Place.Has` says that a place is found in this
way, and `Place.induction` carries what holds of children to the node above.
-/

namespace SparseTensor

/-- A place in a tree. -/
inductive Place where
  | read (e : Expr)
  | target (a : Access)
  | stmt (s : Stmt)

/-- A part of either sort as a place: an expression on its own is read. -/
def Part.place : Part → Place
  | expr e => .read e
  | stmt s => .stmt s

/-- What a node is, but for its identity and its children. -/
inductive Label where
  | noExpr
  | access (tensor : TensorVar) (indices : List IndexVar)
  | literal (value : Value)
  | unary (op : UnaryOp)
  | binary (op : BinaryOp)
  | reduction (reducer : Reducer) (var : IndexVar)
  | target (tensor : TensorVar) (indices : List IndexVar)
  | noStmt
  | assign (op : Option BinaryOp)
  | forAll (var : IndexVar)
  | staged
  | group (grouping : Grouping)

namespace Place

/-- The children in order. A target has none. -/
def children : Place → List Place
  | read e => e.children.map read
  | target _ => []
  | stmt .undefined => []
  | stmt (.assign _ a value _) => [target a, read value]
  | stmt (.forAll _ _ body) => [stmt body]
  | stmt (.staged _ consumer producer) => [stmt consumer, stmt producer]
  | stmt (.group _ _ members) => members.map stmt

def label : Place → Label
  | read .undefined => .noExpr
  | read (.access a) => .access a.tensor a.indices
  | read (.literal _ v) => .literal v
  | read (.unary _ op _) => .unary op
  | read (.binary _ op _ _) => .binary op
  | read (.reduction _ reducer i _) => .reduction reducer i
  | target a => .target a.tensor a.indices
  | stmt .undefined => .noStmt
  | stmt (.assign _ _ _ op) => .assign op
  | stmt (.forAll _ i _) => .forAll i
  | stmt (.staged ..) => .staged
  | stmt (.group _ grouping _) => .group grouping

def isDefined : Place → Bool
  | read e => e.isDefined
  | target _ => true
  | stmt s => s.isDefined

def node? : Place → Option NodeId
  | read e => e.node?
  | target a => some a.node
  | stmt s => s.node?

/-- Whether both are the same node of one sort, or both undefined. -/
def same : Place → Place → Bool
  | read a, read b => a.same b
  | target a, target b => decide (a.node = b.node)
  | stmt s, stmt t => s.same t
  | _, _ => false

/-- Whether both are the same tree up to the identities of nodes. -/
def alike : Place → Place → Bool
  | read a, read b => a.alike b
  | target a, target b => a.alike b
  | stmt s, stmt t => s.alike t
  | _, _ => false

variable {p q r x y : Place} {k n : NodeId}

theorem same_refl (p : Place) : p.same p = true := by
  cases p <;> simp [same, Expr.same_refl, Stmt.same_refl]

theorem node?_eq_of_same (h : q.same p = true) : q.node? = p.node? := by
  cases p <;> cases q <;> simp_all [same, node?, Expr.same, Stmt.same]

/-! ## Induction -/

/-- What holds of a place if it holds of its children holds everywhere. -/
theorem induction {P : Place → Prop} (step : ∀ p : Place, (∀ c ∈ p.children, P c) → P p)
    (p : Place) : P p := by
  have htarget : ∀ a, P (target a) := fun a => step _ (by simp [children])
  have hparts : ∀ part : Part, P part.place := by
    intro part
    induction part using Part.induction with
    | step part ih =>
      cases part with
      | expr e =>
        apply step
        intro c hc
        obtain ⟨a, ha, rfl⟩ := List.mem_map.1 hc
        exact ih (.expr a) (List.mem_map_of_mem ha)
      | stmt s =>
        apply step
        intro c hc
        cases s with
        | undefined => cases hc
        | assign _ a value =>
          simp only [Part.place, children, List.mem_cons, List.not_mem_nil, or_false] at hc
          rcases hc with rfl | rfl
          · exact htarget a
          · exact ih (.expr value) (by simp [Part.children, Stmt.children])
        | forAll _ _ body =>
          rw [List.mem_singleton.1 hc]
          exact ih (.stmt body) (by simp [Part.children, Stmt.children])
        | staged _ consumer producer =>
          simp only [Part.place, children, List.mem_cons, List.not_mem_nil, or_false] at hc
          rcases hc with rfl | rfl
          · exact ih (.stmt consumer) (by simp [Part.children, Stmt.children])
          · exact ih (.stmt producer) (by simp [Part.children, Stmt.children])
        | group _ _ members =>
          obtain ⟨s, hs, rfl⟩ := List.mem_map.1 hc
          exact ih (.stmt s) (by simpa [Part.children, Stmt.children] using hs)
  cases p with
  | read e => exact hparts (.expr e)
  | target a => exact htarget a
  | stmt s => exact hparts (.stmt s)

/-! ## What is found in a place -/

/-- The place that child numbers lead to. -/
def at? : Place → List Nat → Option Place
  | p, [] => some p
  | p, i :: path => p.children[i]?.bind fun c => c.at? path

theorem at?_cons_eq_some {i : Nat} {path : List Nat} :
    p.at? (i :: path) = some x ↔ ∃ c, p.children[i]? = some c ∧ c.at? path = some x := by
  rw [at?, Option.bind_eq_some_iff]

/-- `x` is a part of `p`, or `p` itself. -/
def Has (p x : Place) : Prop := ∃ path, p.at? path = some x

theorem has_iff : p.Has x ↔ x = p ∨ ∃ c ∈ p.children, c.Has x := by
  constructor
  · rintro ⟨path, h⟩
    cases path with
    | nil => exact .inl (Option.some.inj h).symm
    | cons i path =>
      obtain ⟨c, hc, h⟩ := at?_cons_eq_some.1 h
      exact .inr ⟨c, List.mem_of_getElem? hc, path, h⟩
  · rintro (rfl | ⟨c, hc, path, h⟩)
    · exact ⟨[], rfl⟩
    · obtain ⟨i, hi⟩ := List.getElem?_of_mem hc
      exact ⟨i :: path, at?_cons_eq_some.2 ⟨c, hi, h⟩⟩

theorem forall_has {P : Place → Prop} :
    (∀ x, p.Has x → P x) ↔ P p ∧ ∀ c ∈ p.children, ∀ x, c.Has x → P x := by
  constructor
  · intro h
    exact ⟨h p (has_iff.2 (.inl rfl)), fun c hc x hx => h x (has_iff.2 (.inr ⟨c, hc, hx⟩))⟩
  · rintro ⟨hself, hbelow⟩ x hx
    rcases has_iff.1 hx with rfl | ⟨c, hc, hx⟩
    · exact hself
    · exact hbelow c hc x hx

theorem Has.self (p : Place) : p.Has p := ⟨[], rfl⟩

theorem Has.of_child {c : Place} (hc : c ∈ p.children) (h : c.Has x) : p.Has x :=
  has_iff.2 (.inr ⟨c, hc, h⟩)

/-- Nothing in the place is undefined. -/
def IsWhole (p : Place) : Prop := ∀ x, p.Has x → x.isDefined = true

/-- All nodes of the place have identities below `n`. -/
def Precedes (p : Place) (n : NodeId) : Prop := ∀ x k, p.Has x → x.node? = some k → k < n

theorem IsWhole.child {c : Place} (h : p.IsWhole) (hc : c ∈ p.children) : c.IsWhole :=
  fun x hx => h x (hx.of_child hc)

theorem Precedes.child {c : Place} (h : p.Precedes n) (hc : c ∈ p.children) : c.Precedes n :=
  fun x k hx => h x k (hx.of_child hc)

theorem Precedes.mono {n' : NodeId} (h : p.Precedes n) (hle : n ≤ n') : p.Precedes n' :=
  fun x k hx hk => Nat.lt_of_lt_of_le (h x k hx hk) hle

theorem precedes_iff :
    p.Precedes n ↔ (∀ k, p.node? = some k → k < n) ∧ ∀ c ∈ p.children, c.Precedes n := by
  have h := forall_has (p := p) (P := fun x => ∀ k, x.node? = some k → k < n)
  constructor
  · intro hp
    obtain ⟨hself, hbelow⟩ := h.1 fun x hx k => hp x k hx
    exact ⟨hself, fun c hc x k hx => hbelow c hc x hx k⟩
  · rintro ⟨hself, hbelow⟩ x k hx
    exact h.2 ⟨hself, fun c hc x hx k => hbelow c hc x k hx⟩ x hx k

/-- A node that is newer than a place is not its root. -/
theorem Precedes.same_eq_false (h : p.Precedes n) (hq : q.node? = some k) (hk : n ≤ k) :
    q.same p = false := by
  rw [Bool.eq_false_iff]
  intro hsame
  exact Nat.not_lt.2 hk (h p k (.self p) (node?_eq_of_same hsame ▸ hq))

/-! ## Trees up to identities -/

/-- What holds of every member of a list and its partner holds of the two lists in step. -/
theorem forall₂_imp_of_mem {α β : Type} {R S : α → β → Prop} {as : List α} {bs : List β}
    (hS : ∀ a ∈ as, ∀ b, R a b → S a b) (h : List.Forall₂ R as bs) : List.Forall₂ S as bs :=
  ((List.forall₂_and_left as bs).2 ⟨hS, h⟩).imp fun _ b hab => hab.1 b hab.2

theorem forall₂_allAlike {ss ts : List Stmt} :
    Stmt.allAlike ss ts = true ↔
      List.Forall₂ (fun p q : Place => p.alike q = true) (ss.map stmt) (ts.map stmt) := by
  induction ss generalizing ts with
  | nil => cases ts <;> simp [Stmt.allAlike]
  | cons s ss ih => cases ts <;> simp [Stmt.allAlike, alike, ih]

/-- Places are alike if they have one label and their children are alike. -/
theorem alike_iff :
    p.alike q = true ↔
      p.label = q.label ∧ List.Forall₂ (fun c d => c.alike d = true) p.children q.children := by
  cases p with
  | read a =>
    cases q with
    | read b => cases a <;> cases b <;>
        simp only [alike, Expr.alike, Access.alike, label, children, Expr.children, and_assoc,
          Bool.and_eq_true, decide_eq_true_eq, List.map_nil, List.map_cons, List.forall₂_cons,
          List.Forall₂.nil, and_true, reduceCtorEq, false_and, Bool.false_eq_true,
          Label.access.injEq, Label.literal.injEq, Label.unary.injEq, Label.binary.injEq,
          Label.reduction.injEq]
    | target b => cases a <;> simp only [alike, label, reduceCtorEq, false_and, Bool.false_eq_true]
    | stmt s =>
      cases a <;> cases s <;> simp only [alike, label, reduceCtorEq, false_and, Bool.false_eq_true]
  | target a =>
    cases q with
    | read b => cases b <;> simp only [alike, label, reduceCtorEq, false_and, Bool.false_eq_true]
    | target b => simp [alike, Access.alike, label, children]
    | stmt s => cases s <;> simp only [alike, label, reduceCtorEq, false_and, Bool.false_eq_true]
  | stmt s =>
    cases q with
    | read b =>
      cases s <;> cases b <;> simp only [alike, label, reduceCtorEq, false_and, Bool.false_eq_true]
    | target b => cases s <;> simp only [alike, label, reduceCtorEq, false_and, Bool.false_eq_true]
    | stmt t =>
      cases s <;> cases t <;>
        simp only [alike, Stmt.alike, label, children, forall₂_allAlike, and_comm, Bool.and_eq_true,
          decide_eq_true_eq, List.forall₂_cons, List.Forall₂.nil, and_true, true_and, reduceCtorEq,
          false_and, Bool.false_eq_true, Label.assign.injEq, Label.forAll.injEq, Label.group.injEq]

theorem alike_refl (p : Place) : p.alike p = true := by
  cases p with
  | read e => exact e.alike_refl
  | target a => simp [alike, Access.alike]
  | stmt s => exact s.alike_refl

/-- Two trees that are like a third one are alike. -/
theorem alike_of_alike (hq : p.alike q = true) (hr : p.alike r = true) : q.alike r = true := by
  induction p using induction generalizing q r with
  | step p ih =>
    obtain ⟨hlabel, hq⟩ := alike_iff.1 hq
    obtain ⟨hlabel', hr⟩ := alike_iff.1 hr
    refine alike_iff.2 ⟨hlabel.symm.trans hlabel', ?_⟩
    -- The children of all three go in step.
    generalize p.children = cs at ih hq hr
    generalize q.children = ds at hq
    generalize r.children = es at hr
    induction hq generalizing es with
    | nil =>
      cases hr
      exact .nil
    | @cons c d cs ds hcd _ ih' =>
      cases hr with
      | cons hce hr =>
        refine .cons (ih c List.mem_cons_self hcd hce) (ih' ?_ _ hr)
        exact fun c hc => ih c (List.mem_cons_of_mem _ hc)

theorem alike_symm (h : p.alike q = true) : q.alike p = true := alike_of_alike h p.alike_refl

theorem alike_trans (hpq : p.alike q = true) (hqr : q.alike r = true) : p.alike r = true :=
  alike_of_alike (alike_symm hpq) hqr

/-- Like places are like the same places. -/
theorem alike_congr (h : p.alike q = true) (x : Place) : x.alike p = x.alike q :=
  Bool.eq_iff_iff.2 ⟨fun hx => alike_trans hx h, fun hx => alike_trans hx (alike_symm h)⟩

end Place

end SparseTensor
