import SparseTensor.Proofs.Substitutions

/-!
# Substitution without sharing

The plain way to substitute is a recursion that replaces a match and rebuilds everything else
(`Substitution.plain`). The traversal of a substitution keeps nodes wherever it can, and looks at
identities to do so.

**Theorem (`Substitution.inPart_alike_plain`).** Both give the same tree, if identities do not lie.
So the tree that comes out depends on the trees that go in and on nothing else, however much they
share.

Keys are compared as trees, so like places have like matches (`match?_congr`). What the traversal
does follows from `Edited.alike_rebuilt`.
-/

namespace SparseTensor

open Place

namespace Substitution

/-! ## The plain substitution -/

/-- The expression with every match replaced and every other node rebuilt. -/
def plainExpr (m : Substitution) : Expr → Expr
  | .unary k op a => (m.expr? (.unary k op a)).getD (.unary k op (m.plainExpr a))
  | .binary k op a b =>
    (m.expr? (.binary k op a b)).getD (.binary k op (m.plainExpr a) (m.plainExpr b))
  | .reduction k reducer i a =>
    (m.expr? (.reduction k reducer i a)).getD (.reduction k reducer i (m.plainExpr a))
  | e => (m.expr? e).getD e

/-- What is written to: the replacement, if it is an access. -/
def plainTarget (m : Substitution) (a : Access) : Access :=
  match m.expr? (.access a) with
  | some (.access new) => new
  | _ => a

mutual

/-- The statement with every match replaced and every other node rebuilt. -/
def plainStmt (m : Substitution) : Stmt → Stmt
  | .undefined => (m.stmt? .undefined).getD .undefined
  | .assign k a value op =>
    (m.stmt? (.assign k a value op)).getD (.assign k (m.plainTarget a) (m.plainExpr value) op)
  | .forAll k i body => (m.stmt? (.forAll k i body)).getD (.forAll k i (m.plainStmt body))
  | .staged k consumer producer =>
    (m.stmt? (.staged k consumer producer)).getD
      (.staged k (m.plainStmt consumer) (m.plainStmt producer))
  | .group k grouping members =>
    (m.stmt? (.group k grouping members)).getD (.group k grouping (m.plainMembers members))

def plainMembers (m : Substitution) : List Stmt → List Stmt
  | [] => []
  | s :: ss => m.plainStmt s :: m.plainMembers ss

end

/-- The part with every match replaced and every other node rebuilt. -/
def plain (m : Substitution) : Part → Part
  | .expr e => .expr (m.plainExpr e)
  | .stmt s => .stmt (m.plainStmt s)

/-- The plain substitution at a place. -/
def plainPlace (m : Substitution) : Place → Place
  | .read e => .read (m.plainExpr e)
  | .target a => .target (m.plainTarget a)
  | .stmt s => .stmt (m.plainStmt s)

variable {m m' : Substitution} {p q x y : Place}

theorem place_plain (m : Substitution) (p : Part) : (m.plain p).place = m.plainPlace p.place := by
  cases p <;> rfl

theorem plainMembers_eq_map (ss : List Stmt) : m.plainMembers ss = ss.map m.plainStmt := by
  induction ss with
  | nil => rw [plainMembers, List.map_nil]
  | cons s ss ih => rw [plainMembers, List.map_cons, ih]

theorem plainExpr_of_match {e new : Expr} (h : m.expr? e = some new) : m.plainExpr e = new := by
  cases e <;> simp [plainExpr, h]

theorem plainStmt_of_match {s new : Stmt} (h : m.stmt? s = some new) : m.plainStmt s = new := by
  cases s <;> simp [plainStmt, h]

theorem plainPlace_target (m : Substitution) (a : Access) :
    m.plainPlace (.target a) = (m.match? (.target a)).getD (.target a) := by
  rw [plainPlace, plainTarget, match?]
  cases h : m.expr? (.access a) with
  | none => rfl
  | some new => cases new <;> rfl

/-- **The plain substitution does what the substitution says**, and builds every other node anew. -/
theorem rebuiltBy_plain (m : Substitution) : Edit.RebuiltBy m.edit m.plainPlace where
  replaced {p new} h := by
    have hmatch := edit_eq_replace.1 h
    cases p with
    | read e =>
      obtain ⟨new, hnew, rfl⟩ := Option.map_eq_some_iff.1 hmatch
      rw [plainPlace, plainExpr_of_match hnew]
    | target a =>
      rw [plainPlace_target, hmatch, Option.getD_some]
    | stmt s =>
      obtain ⟨new, hnew, rfl⟩ := Option.map_eq_some_iff.1 hmatch
      rw [plainPlace, plainStmt_of_match hnew]
  relabelled h := absurd h edit_ne_relabel
  walked {p} h := by
    have hmatch := edit_eq_walk.1 h
    cases p with
    | read e =>
      have hnone : m.expr? e = none := Option.map_eq_none_iff.1 hmatch
      cases e <;> simp [plainPlace, plainExpr, hnone, label, children, Expr.children]
    | target a =>
      rw [plainPlace_target, hmatch, Option.getD_none]
      exact ⟨rfl, rfl⟩
    | stmt s =>
      have hnone : m.stmt? s = none := Option.map_eq_none_iff.1 hmatch
      cases s <;>
        simp [plainPlace, plainStmt, hnone, label, children, plainMembers_eq_map]

/-! ## Like trees -/

/-- Two substitutions put like trees in the place of the same keys. -/
structure Alike (m m' : Substitution) : Prop where
  exprs (e : Expr) : Option.Rel (fun a b => a.alike b = true) (m.expr? e) (m'.expr? e)
  stmts (s : Stmt) : Option.Rel (fun a b => a.alike b = true) (m.stmt? s) (m'.stmt? s)

theorem Alike.refl (m : Substitution) : m.Alike m where
  exprs e := by
    cases m.expr? e with
    | none => exact .none
    | some a => exact .some a.alike_refl
  stmts s := by
    cases m.stmt? s with
    | none => exact .none
    | some a => exact .some a.alike_refl

theorem expr?_congr {a b : Expr} (h : a.alike b = true) : m.expr? a = m.expr? b := by
  have hkeys : ∀ key : Expr, key.isAlike a = key.isAlike b := by
    intro key
    rw [Expr.isAlike_eq, Expr.isAlike_eq]
    exact alike_congr (p := .read a) (q := .read b) h (.read key)
  simp only [expr?, hkeys]

theorem stmt?_congr {s t : Stmt} (h : s.alike t = true) : m.stmt? s = m.stmt? t := by
  have hkeys : ∀ key : Stmt, key.isAlike s = key.isAlike t := by
    intro key
    rw [Stmt.isAlike_eq, Stmt.isAlike_eq]
    exact alike_congr (p := .stmt s) (q := .stmt t) h (.stmt key)
  simp only [stmt?, hkeys]

/-- Like substitutions replace like places by like ones, or neither of them. -/
theorem match?_congr (hm : m.Alike m') (h : p.alike q = true) :
    Option.Rel (fun x y : Place => x.alike y = true) (m.match? p) (m'.match? q) := by
  cases p with
  | read a =>
    cases q with
    | read b =>
      have hrel := hm.exprs b
      rw [match?, match?, expr?_congr h]
      generalize m.expr? b = x, m'.expr? b = y at hrel
      cases hrel with
      | none => exact .none
      | some hxy => exact .some hxy
    | target | stmt => cases h
  | target a =>
    cases q with
    | target b =>
      have hab : (Expr.access a).alike (.access b) = true := h
      have hrel := hm.exprs (.access b)
      rw [match?, match?, expr?_congr hab]
      generalize m.expr? (.access b) = x, m'.expr? (.access b) = y at hrel
      cases hrel with
      | none => exact .none
      | @some x y hxy =>
        -- Like expressions are both accesses, or neither is.
        cases x <;> cases y <;> first | exact .none | exact .some hxy | cases hxy
    | read | stmt => cases h
  | stmt s =>
    cases q with
    | stmt t =>
      have hrel := hm.stmts t
      rw [match?, match?, stmt?_congr h]
      generalize m.stmt? t = x, m'.stmt? t = y at hrel
      cases hrel with
      | none => exact .none
      | some hxy => exact .some hxy
    | read | target => cases h

/-- Like substitutions make like trees of like trees. -/
theorem plainPlace_congr (hm : m.Alike m') (h : p.alike q = true) :
    (m.plainPlace p).alike (m'.plainPlace q) = true := by
  induction p using Place.induction generalizing q with
  | step p ih =>
    obtain ⟨hlabel, hchildren⟩ := alike_iff.1 h
    have hmatch := match?_congr hm h
    generalize hp : m.match? p = x, hq : m'.match? q = y at hmatch
    cases hmatch with
    | some hxy =>
      rw [(rebuiltBy_plain m).replaced (edit_eq_replace.2 hp),
        (rebuiltBy_plain m').replaced (edit_eq_replace.2 hq)]
      exact hxy
    | none =>
      obtain ⟨hlabel', hp⟩ := (rebuiltBy_plain m).walked (edit_eq_walk.2 hp)
      obtain ⟨hlabel'', hq⟩ := (rebuiltBy_plain m').walked (edit_eq_walk.2 hq)
      rw [alike_iff, hlabel', hlabel'', hp, hq, List.forall₂_map_left_iff,
        List.forall₂_map_right_iff]
      refine ⟨hlabel, ?_⟩
      exact forall₂_imp_of_mem (fun c hc _ => ih c hc) hchildren

/-! ## The traversal -/

/-- What a run of the substitution on the part with the supply `n` goes by: nothing is undefined,
identities from `n` on are new, and a replacement with the identity of what it replaces is that
node. -/
structure Fits (m : Substitution) (p : Part) (n : NodeId) : Prop where
  whole : p.place.IsWhole
  fresh : p.place.Precedes n
  honest (x new : Place) : p.place.Has x → m.match? x = some new → new.same x = true → new = x

/-- **Substitution without sharing.** A substitution gives the tree that the plain substitution
gives. So two runs of like substitutions on like parts give like parts, whatever nodes they share
and whatever they log. -/
theorem inPart_alike_plain {m : Substitution} {p : Part} {n : NodeId} (h : m.Fits p n)
    (events : List TransformEvent) :
    ∃ q events' n', Yields (m.inPart p) events n q events' n' ∧
      (m.plain p).place.alike q.place = true ∧
      ∀ (m' : Substitution) (p' : Part) (k : NodeId) (log : List TransformEvent), m'.Fits p' k →
        m.Alike m' → p.place.alike p'.place = true →
          ∃ q' log' k', Yields (m'.inPart p') log k q' log' k' ∧
            q.place.alike q'.place = true := by
  have hrun : ∀ {m : Substitution} {p : Part} {n : NodeId} (events : List TransformEvent),
      m.Fits p n → ∃ q events' n', Yields (m.inPart p) events n q events' n' ∧
        (m.plain p).place.alike q.place = true := by
    intro m p n events h
    obtain ⟨q, events', n', hrun, hedited⟩ := m.exists_yields h.whole h.fresh events
    refine ⟨q, events', n', hrun, ?_⟩
    rw [place_plain]
    exact hedited.alike_rebuilt (rebuiltBy_plain m) fun x new hx hnew =>
      h.honest x new hx (edit_eq_replace.1 hnew)
  obtain ⟨q, events', n', hyields, hplain⟩ := hrun events h
  refine ⟨q, events', n', hyields, hplain, fun m' p' k log h' hm hp => ?_⟩
  obtain ⟨q', log', k', hyields', hplain'⟩ := hrun log h'
  refine ⟨q', log', k', hyields', ?_⟩
  have hcongr := plainPlace_congr hm hp
  rw [← place_plain, ← place_plain] at hcongr
  exact alike_trans (alike_symm hplain) (alike_trans hcongr hplain')

/-- In `d + d` every `d` becomes `-d`, whether the two are one node or two. -/
theorem inPart_alike_plain_shared :
    let d (k : NodeId) : Expr := .access ⟨k, .scalar 0 "d" (.float .double), []⟩
    let m := Substitution.empty.insertExpr (d 0) (.unary 1 .neg (d 0))
    let shared : Part := .expr (.binary 4 .add (d 2) (d 2))
    let apart : Part := .expr (.binary 4 .add (d 2) (d 3))
    m.Fits shared 5 ∧ m.Fits apart 5 ∧
      ∃ q events n q' events' n', Yields (m.inPart shared) [] 5 q events n ∧
        Yields (m.inPart apart) [] 5 q' events' n' ∧
        (m.plain shared).place.alike q.place = true ∧ q.place.alike q'.place = true := by
  intro d m shared apart
  have hfits : ∀ k, 1 < k → k < 4 → m.Fits (.expr (.binary 4 .add (d 2) (d k))) 5 := by
    intro k hk hk'
    let p : Place := .read (.binary 4 .add (d 2) (d k))
    have hall : ∀ {P : Place → Prop}, P p → (∀ j, 1 < j → j < 4 → P (.read (d j))) →
        ∀ x, p.Has x → P x := by
      intro P hp hd
      have hchildren : p.children = [.read (d 2), .read (d k)] := rfl
      rw [forall_has, hchildren]
      simp only [List.forall_mem_cons, List.not_mem_nil, IsEmpty.forall_iff, implies_true, and_true]
      exact ⟨hp, forall_has.2 ⟨hd 2 (by decide) (by decide), by simp [children, d, Expr.children]⟩,
        forall_has.2 ⟨hd k hk hk', by simp [children, d, Expr.children]⟩⟩
    refine ⟨hall rfl fun j _ _ => rfl, fun x j hx => ?_, fun x new hx => ?_⟩
    · refine hall (P := fun x => ∀ j, x.node? = some j → j < 5) ?_ ?_ x hx j
      · rintro _ ⟨⟩
        decide
      · rintro j _ hj _ ⟨⟩
        exact Nat.lt_succ_of_lt hj
    · refine hall (P := fun x => ∀ new, m.match? x = some new → new.same x = true → new = x) ?_ ?_ x
        hx new
      · rintro _ ⟨⟩
      · rintro j hj _ _ ⟨⟩ hsame
        have heq : 1 = j := Option.some.inj (of_decide_eq_true hsame)
        exact absurd heq (Nat.ne_of_lt hj)
  have hshared : m.Fits shared 5 := hfits 2 (by decide) (by decide)
  have hapart : m.Fits apart 5 := hfits 3 (by decide) (by decide)
  obtain ⟨q, events, n, hrun, hplain, hothers⟩ := inPart_alike_plain hshared []
  obtain ⟨q', events', n', hrun', hlike⟩ :=
    hothers m apart 5 [] hapart (.refl m) (by decide +kernel)
  exact ⟨hshared, hapart, q, events, n, q', events', n', hrun, hrun', hplain, hlike⟩

end Substitution

end SparseTensor
