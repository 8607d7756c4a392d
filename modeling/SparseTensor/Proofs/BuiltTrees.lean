import SparseTensor.Proofs.FreshNodes
import SparseTensor.Proofs.KeptNodes
import SparseTensor.Proofs.Labels

/-!
# Trees stay built

Three constructors make sure of something: an access has an index for every mode of its tensor, the
operator of a reduction is associative, and the target of an assignment is an access. `Part.Built`
says that a tree is made by the constructors, and so has these properties everywhere.

**Theorem (`Part.stays_built`).** From a built tree in which nothing is undefined, substitutions,
renamings and the writing out of sums make a built tree again, and they do not fail. A substitution
may put in undefined trees, and its replacement for a target need not be an access.

A tree is built iff all labels in it fit (`Part.built_iff`), so it is enough to look at the labels
that a transformation makes. A renaming does not ask the constructors when it makes an access or a
reduction. `Renaming.checkedTraversal` does, and on built trees it is the same computation
(`Renaming.checkedInPart_eq`).
-/

namespace SparseTensor

open Place

variable {σ : Type}

/-- What a constructor makes sure of. -/
def Label.Fits : Label → Prop
  | .access t indices | .target t indices => indices.length = t.order
  | _ => True

theorem Label.fits_access {a : Access} :
    (read (.access a)).AllLabels Label.Fits ↔ a.indices.length = a.tensor.order :=
  allLabels_leaf rfl

theorem Label.fits_target {a : Access} :
    (Place.target a).AllLabels Label.Fits ↔ a.indices.length = a.tensor.order := allLabels_leaf rfl

/-! ## Built trees -/

/-- The expression is made by the constructors. -/
inductive Expr.Built : Expr → Prop
  | undefined : Built .undefined
  | access {n : NodeId} {t : TensorVar} {indices : List IndexVar} {a : Access} :
      Access.ofIndices n t indices = .ok a → Built (.access a)
  | literal (n : NodeId) (v : Value) : Built (.literal n v)
  | unary {a : Expr} (n : NodeId) (op : UnaryOp) : Built a → Built (.unary n op a)
  | binary {a b : Expr} (n : NodeId) (op : BinaryOp) : Built a → Built b → Built (.binary n op a b)
  | reduction {op : BinaryOp} {reducer : Reducer} {a : Expr} (n : NodeId) (i : IndexVar) :
      Reducer.ofOp op = .ok reducer → Built a → Built (.reduction n reducer i a)

/-- The statement is made by the constructors. -/
inductive Stmt.Built : Stmt → Prop
  | undefined : Built .undefined
  | assign {n : NodeId} {target value : Expr} {op : Option BinaryOp} {s : Stmt} :
      target.Built → value.Built → Stmt.ofTarget n target value op = .ok s → Built s
  | forAll {body : Stmt} (n : NodeId) (i : IndexVar) : Built body → Built (.forAll n i body)
  | staged {consumer producer : Stmt} (n : NodeId) :
      Built consumer → Built producer → Built (.staged n consumer producer)
  | group {members : List Stmt} (n : NodeId) (grouping : Grouping) :
      (∀ s ∈ members, Built s) → Built (.group n grouping members)

def Part.Built : Part → Prop
  | expr e => e.Built
  | stmt s => s.Built

theorem Access.ofIndices_eq_ok {n : NodeId} {t : TensorVar} {indices : List IndexVar}
    {a : Access} :
    ofIndices n t indices = .ok a ↔ indices.length = t.order ∧ ⟨n, t, indices⟩ = a := by
  rw [ofIndices]
  split <;> simp [*]

theorem Reducer.ofOp_op (r : Reducer) : ofOp r.op = .ok r := by
  rw [ofOp, reducer?_op]

theorem Expr.built_iff {e : Expr} : e.Built ↔ (read e).AllLabels Label.Fits := by
  constructor
  · intro h
    induction h with
    | undefined | literal => exact (allLabels_leaf rfl).2 trivial
    | access ha =>
      obtain ⟨hlength, rfl⟩ := Access.ofIndices_eq_ok.1 ha
      exact Label.fits_access.2 hlength
    | unary _ _ _ ih => exact allLabels_unary.2 ⟨trivial, ih⟩
    | binary _ _ _ _ iha ihb => exact allLabels_binary.2 ⟨trivial, iha, ihb⟩
    | reduction _ _ _ _ ih => exact allLabels_reduction.2 ⟨trivial, ih⟩
  · intro h
    induction e with
    | undefined => exact .undefined
    | literal n v => exact .literal n v
    | access a => exact .access (Access.ofIndices_eq_ok.2 ⟨Label.fits_access.1 h, rfl⟩)
    | unary n op a ih => exact .unary n op (ih (allLabels_unary.1 h).2)
    | binary n op a b iha ihb =>
      obtain ⟨-, ha, hb⟩ := allLabels_binary.1 h
      exact .binary n op (iha ha) (ihb hb)
    | reduction n reducer i a ih =>
      exact .reduction n i (Reducer.ofOp_op reducer) (ih (allLabels_reduction.1 h).2)

theorem Stmt.fits_of_built {s : Stmt} (h : s.Built) : (stmt s).AllLabels Label.Fits := by
  induction h with
  | undefined => exact (allLabels_leaf rfl).2 trivial
  | @assign n target value op s htarget hvalue hs =>
    cases target with
    | access a =>
      cases hs
      have ha := Label.fits_access.1 (Expr.built_iff.1 htarget)
      exact allLabels_assign.2 ⟨trivial, Label.fits_target.2 ha, Expr.built_iff.1 hvalue⟩
    | _ => cases hs
  | forAll _ _ _ ih => exact allLabels_forAll.2 ⟨trivial, ih⟩
  | staged _ _ _ ihc ihp => exact allLabels_staged.2 ⟨trivial, ihc, ihp⟩
  | group _ _ _ ih => exact allLabels_group.2 ⟨trivial, ih⟩

theorem Stmt.built_of_fits {s : Stmt} (h : (stmt s).AllLabels Label.Fits) : s.Built := by
  induction s using Stmt.induction_children with
  | step s ih =>
    cases s with
    | undefined => exact .undefined
    | assign n a value op =>
      obtain ⟨-, ha, hvalue⟩ := allLabels_assign.1 h
      have htarget : (Expr.access a).Built :=
        .access (Access.ofIndices_eq_ok.2 ⟨Label.fits_target.1 ha, rfl⟩)
      exact .assign htarget (Expr.built_iff.2 hvalue) rfl
    | forAll n i body =>
      exact .forAll n i (ih body (by simp [children]) (allLabels_forAll.1 h).2)
    | staged n consumer producer =>
      obtain ⟨-, hc, hp⟩ := allLabels_staged.1 h
      exact .staged n (ih consumer (by simp [children]) hc) (ih producer (by simp [children]) hp)
    | group n grouping members =>
      have hmembers := (allLabels_group.1 h).2
      exact .group n grouping fun s hs => ih s (by simpa [children] using hs) (hmembers s hs)

/-- **A tree is built iff all labels in it fit.** -/
theorem Part.built_iff {p : Part} : p.Built ↔ p.place.AllLabels Label.Fits := by
  cases p with
  | expr e => exact Expr.built_iff
  | stmt s => exact ⟨Stmt.fits_of_built, Stmt.built_of_fits⟩

/-- What the constructors make sure of, said of everything that is found in a place. -/
structure Place.IsFormed (p : Place) : Prop where
  read : ∀ a, p.Has (.read (.access a)) → a.indices.length = a.tensor.order
  written : ∀ a, p.Has (.target a) → a.indices.length = a.tensor.order
  reduced : ∀ n reducer i a, p.Has (.read (.reduction n reducer i a)) →
    reducer.op = .add ∨ reducer.op = .mul
  assigned : ∀ n a value op, p.Has (.stmt (.assign n a value op)) →
    Stmt.ofTarget n (.access a) value op = .ok (.assign n a value op)

theorem Part.Built.isFormed {p : Part} (h : p.Built) : p.place.IsFormed where
  read a ha := Part.built_iff.1 h _ ha
  written a ha := Part.built_iff.1 h _ ha
  reduced _ reducer _ _ _ := by cases reducer <;> simp [Reducer.op]
  assigned _ _ _ _ _ := rfl

/-! ## Substitutions -/

namespace Substitution

variable {m : Substitution}

/-- All replacements are built. They may be undefined. -/
structure IsBuilt (m : Substitution) : Prop where
  exprs : ∀ pair ∈ m.exprs, pair.2.Built
  stmts : ∀ pair ∈ m.stmts, pair.2.Built

theorem IsBuilt.expr? (hm : m.IsBuilt) {e new : Expr} (h : m.expr? e = some new) : new.Built := by
  obtain ⟨pair, hpair, rfl⟩ := Option.map_eq_some_iff.1 h
  exact hm.exprs pair (List.mem_of_find?_eq_some hpair)

theorem IsBuilt.stmt? (hm : m.IsBuilt) {s new : Stmt} (h : m.stmt? s = some new) : new.Built := by
  obtain ⟨pair, hpair, rfl⟩ := Option.map_eq_some_iff.1 h
  exact hm.stmts pair (List.mem_of_find?_eq_some hpair)

/-- What a match is replaced by fits. -/
theorem IsBuilt.match? (hm : m.IsBuilt) {x new : Place} (h : m.match? x = some new) :
    new.AllLabels Label.Fits := by
  cases x with
  | read e =>
    obtain ⟨new, hnew, rfl⟩ := Option.map_eq_some_iff.1 h
    exact Expr.built_iff.1 (hm.expr? hnew)
  | target a =>
    obtain ⟨b, hb, rfl⟩ := match?_target_eq_some.1 h
    exact Label.fits_target.2 (Label.fits_access.1 (Expr.built_iff.1 (hm.expr? hb)))
  | stmt s =>
    obtain ⟨new, hnew, rfl⟩ := Option.map_eq_some_iff.1 h
    exact Stmt.fits_of_built (hm.stmt? hnew)

theorem built_of_edited (hm : m.IsBuilt) {p q : Part} (hp : p.Built)
    (h : Edited m.edit p.place q.place) : q.Built :=
  Part.built_iff.2 (h.allLabels (Part.built_iff.1 hp)
    (fun _ _ _ hedit => hm.match? (edit_eq_replace.1 hedit))
    fun _ _ _ hedit => absurd hedit edit_ne_relabel)

end Substitution

/-! ## Renamings -/

namespace Renaming

variable (m : Renaming)

theorem fits_inLabel {label : Label} (h : label.Fits) : (m.inLabel label).Fits := by
  cases label with
  | access t indices | target t indices => exact (List.length_map m.apply).trans h
  | _ => trivial

theorem built_of_edited {p q : Part} (hp : p.Built) (h : Edited m.edit p.place q.place) :
    q.Built := by
  have hfits := Part.built_iff.1 hp
  refine Part.built_iff.2 (h.allLabels hfits (fun _ _ _ h => absurd h edit_ne_replace) ?_)
  intro x label hx hedit
  obtain ⟨-, rfl⟩ := edit_eq_relabel.1 hedit
  exact m.fits_inLabel (hfits x hx)

/-- The traversal of the renaming where the constructors check the nodes that are made. -/
def checkedTraversal : Traversal σ :=
  { (m.traversal : Traversal σ) with
    access := fun a => do
      if a.indices.any fun i => (m.find? i).isSome then
        return .access (← Access.ofIndices (← fresh) a.tensor (a.indices.map m.apply))
      else return .access a
    reduction := fun self reducer i a => do
      match m.find? i with
      | some j =>
        let new ← a.visit
        return .reduction (← fresh) (← Reducer.ofOp reducer.op) j new
      | none => Walk.reduction self reducer i a }

variable {m}

theorem checkedTraversal_access {a : Access} (h : a.indices.length = a.tensor.order) :
    (m.checkedTraversal : Traversal σ).access a = m.traversal.access a := by
  have hchecked : ∀ n, Access.ofIndices n a.tensor (a.indices.map m.apply) =
      .ok ⟨n, a.tensor, a.indices.map m.apply⟩ := fun n =>
    Access.ofIndices_eq_ok.2 ⟨(List.length_map m.apply).trans h, rfl⟩
  simp only [checkedTraversal, traversal, hchecked]
  rfl

theorem checkedTraversal_reduction (self : Expr) (reducer : Reducer) (i : IndexVar)
    (a : Child σ Expr) :
    m.checkedTraversal.reduction self reducer i a = m.traversal.reduction self reducer i a := by
  simp only [checkedTraversal, traversal, Reducer.ofOp_op]
  rfl

/-- **The constructors have nothing to object to.** -/
theorem checkedTraversal_expr {e : Expr} (he : (read e).AllLabels Label.Fits) :
    (m.checkedTraversal : Traversal σ).expr e = m.traversal.expr e := by
  induction e with
  | undefined | literal => rfl
  | access a =>
    rw [Traversal.expr, Traversal.expr, checkedTraversal_access (Label.fits_access.1 he)]
    rfl
  | unary n op a ih =>
    rw [Traversal.expr, Traversal.expr, ih (allLabels_unary.1 he).2]
    rfl
  | binary n op a b iha ihb =>
    obtain ⟨-, ha, hb⟩ := allLabels_binary.1 he
    rw [Traversal.expr, Traversal.expr, iha ha, ihb hb]
    rfl
  | reduction n reducer i a ih =>
    rw [Traversal.expr, Traversal.expr, checkedTraversal_reduction,
      ih (allLabels_reduction.1 he).2]
    rfl

mutual

theorem checkedTraversal_stmt : (s : Stmt) → (stmt s).AllLabels Label.Fits →
    (m.checkedTraversal : Traversal σ).stmt s = m.traversal.stmt s
  | .undefined, _ => rfl
  | .assign n a value op, hs => by
    obtain ⟨-, ha, hvalue⟩ := allLabels_assign.1 hs
    -- A renaming goes through the target as through a read.
    have ha : (read (.access a)).AllLabels Label.Fits :=
      Label.fits_access.2 (Label.fits_target.1 ha)
    rw [Traversal.stmt, Traversal.stmt, checkedTraversal_expr ha, checkedTraversal_expr hvalue]
    rfl
  | .forAll n i body, hs => by
    rw [Traversal.stmt, Traversal.stmt, checkedTraversal_stmt body (allLabels_forAll.1 hs).2]
    rfl
  | .staged n consumer producer, hs => by
    obtain ⟨-, hc, hp⟩ := allLabels_staged.1 hs
    rw [Traversal.stmt, Traversal.stmt, checkedTraversal_stmt consumer hc,
      checkedTraversal_stmt producer hp]
    rfl
  | .group n grouping members, hs => by
    rw [Traversal.stmt, Traversal.stmt,
      checkedTraversal_childrenOf members (allLabels_group.1 hs).2]
    rfl

theorem checkedTraversal_childrenOf : (ss : List Stmt) →
    (∀ s ∈ ss, (stmt s).AllLabels Label.Fits) →
      (m.checkedTraversal : Traversal σ).childrenOf ss = m.traversal.childrenOf ss
  | [], _ => rfl
  | s :: ss, h => by
    rw [List.forall_mem_cons] at h
    rw [Traversal.childrenOf, Traversal.childrenOf, checkedTraversal_stmt s h.1,
      checkedTraversal_childrenOf ss h.2]

end

/-- The renaming of a part where the constructors check the nodes that are made. -/
def checkedInPart (m : Renaming) (p : Part) : TransformM σ Part :=
  if m.isEmpty then return p else m.checkedTraversal.part p

theorem checkedInPart_eq {p : Part} (hp : p.Built) :
    (m.checkedInPart p : TransformM σ Part) = m.inPart p := by
  have hfits := Part.built_iff.1 hp
  rw [checkedInPart, inPart_eq]
  cases p with
  | expr e => rw [Traversal.part, Traversal.part, checkedTraversal_expr hfits]
  | stmt s => rw [Traversal.part, Traversal.part, checkedTraversal_stmt s hfits]

end Renaming

/-! ## The pass that writes out sums -/

namespace Stmt

theorem built_explicitSums {s : Stmt} (hs : s.Built) (k : NodeId) :
    (s.explicitSums.run k).1.Built :=
  built_of_fits (allLabels_explicitSums (fun _ => trivial) (fits_of_built hs) k)

theorem Summed.built {s r : Stmt} (h : s.Summed r) (hs : s.Built) : r.Built :=
  built_of_fits (h.allLabels (fun _ => trivial) (fits_of_built hs))

end Stmt

/-! ## The main result -/

namespace Part

/-- **Trees stay built.** Let `p` be a built expression or statement in which nothing is undefined,
and `n` an identity above those of its nodes. None of these fails, and all of them give a built
tree, in which accesses have an index for every mode, targets are accesses, and reductions add or
multiply:

- a substitution whose replacements are built;
- a renaming, also if the constructors check every access and every reduction that it makes;
- writing out the sums of `p`, if `p` is a statement, and the pass that does so throughout. -/
theorem stays_built {σ : Type} (p : Part) (n : NodeId) (hp : p.Built) (hwhole : p.place.IsWhole)
    (hn : p.place.Precedes n) :
    (∀ (m : Substitution) (events : List TransformEvent), m.IsBuilt →
      ∃ q events' n', Yields (m.inPart p) events n q events' n' ∧ q.Built ∧ q.place.IsFormed) ∧
    (∀ (m : Renaming) (st : σ), ∃ q st' n', Yields (m.inPart p) st n q st' n' ∧
      Yields (m.checkedInPart p) st n q st' n' ∧ q.Built ∧ q.place.IsFormed) ∧
    ∀ s, p = .stmt s →
      (∃ r n', s.explicitSums.run n = (r, n') ∧ (Part.stmt r).Built ∧
        (Place.stmt r).IsFormed) ∧
      ∀ log, ∃ r n', ((Pass.summation.run s).run.run log).run n = ((.ok r, log), n') ∧
        (Part.stmt r).Built ∧ (Place.stmt r).IsFormed := by
  refine ⟨fun m events hm => ?_, fun m st => ?_, ?_⟩
  · obtain ⟨q, events', n', hrun, hedited⟩ := m.exists_yields hwhole hn events
    have hq := Substitution.built_of_edited hm hp hedited
    exact ⟨q, events', n', hrun, hq, hq.isFormed⟩
  · obtain ⟨q, st', n', hrun, hedited⟩ := m.exists_yields hwhole hn st
    have hq := m.built_of_edited hp hedited
    refine ⟨q, st', n', hrun, ?_, hq, hq.isFormed⟩
    rw [Renaming.checkedInPart_eq hp]
    exact hrun
  · rintro s rfl
    constructor
    · have hr : (Part.stmt (s.explicitSums.run n).1).Built := Stmt.built_explicitSums hp n
      exact ⟨_, _, rfl, hr, hr.isFormed⟩
    · intro log
      obtain ⟨r, n', hrun, hsums⟩ := Stmt.yields_summation log [] n s
        (Stmt.isWhole_of_labels s (isWhole_iff_allLabels.1 hwhole)) ((precedes_stmt s).1 hn)
      have hr : (Part.stmt r).Built := hsums.summed.built hp
      exact ⟨r, n', PassM.run_ofTransform hrun, hr, hr.isFormed⟩

/-- In `y(i) = sum(j, A(i,j))`, where the substitution has `-y(i)` for the target, which cannot be
written, and nothing for the value that is read. -/
theorem stays_built_sum :
    let i : IndexVar := ⟨0, "i"⟩
    let j : IndexVar := ⟨1, "j"⟩
    let tensor (k : Nat) (name : String) (order : Nat) : TensorVar :=
      ⟨k, name, ⟨.float .double, ⟨List.replicate order .unknown⟩⟩, .dense order⟩
    let y : Access := ⟨0, tensor 0 "y" 1, [i]⟩
    let a : Expr := .access ⟨1, tensor 1 "A" 2, [i, j]⟩
    let p : Part := .stmt (.assign 3 y (.reduction 2 .sum j a) none)
    let m : Substitution := (Substitution.empty.insertExpr a .undefined).insertExpr (.access y)
      (.unary 4 .neg (.access y))
    p.Built ∧ p.place.IsWhole ∧ p.place.Precedes 5 ∧ m.IsBuilt ∧
      (∃ q events' n', Yields (m.inPart p) [] 5 q events' n' ∧ q.Built ∧ q.place.IsFormed) ∧
      ∃ q st' n', Yields ((Renaming.empty.insert j i).inPart p) () 5 q st' n' ∧
        Yields ((Renaming.empty.insert j i).checkedInPart p) () 5 q st' n' ∧
        q.Built ∧ q.place.IsFormed := by
  intro i j tensor y a p m
  have ha : a.Built := .access (Access.ofIndices_eq_ok.2 ⟨by rfl, rfl⟩)
  have hy : (Expr.access y).Built := .access (Access.ofIndices_eq_ok.2 ⟨by rfl, rfl⟩)
  have hreduced : (Expr.reduction 2 .sum j a).Built := .reduction 2 j (Reducer.ofOp_op .sum) ha
  have hp : p.Built := .assign hy hreduced rfl
  have hwhole : p.place.IsWhole := by
    refine isWhole_iff_allLabels.2 (allLabels_assign.2 ⟨rfl, (allLabels_leaf rfl).2 rfl, ?_⟩)
    exact allLabels_reduction.2 ⟨rfl, (allLabels_leaf rfl).2 rfl⟩
  have hn : p.place.Precedes 5 := (precedes_stmt _).2 (by decide +kernel)
  have hm : m.IsBuilt := by
    refine ⟨?_, by rintro _ ⟨⟩⟩
    rintro pair (_ | ⟨_, _ | ⟨_, ⟨⟩⟩⟩)
    · exact .unary 4 .neg hy
    · exact .undefined
  obtain ⟨hsubstitution, hrenaming, -⟩ := stays_built (σ := Unit) p 5 hp hwhole hn
  exact ⟨hp, hwhole, hn, hm, hsubstitution m [] hm, hrenaming (Renaming.empty.insert j i) ()⟩

end Part

end SparseTensor
