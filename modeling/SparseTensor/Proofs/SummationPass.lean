import SparseTensor.Proofs.Runs
import SparseTensor.Proofs.Statements
import SparseTensor.Proofs.SumPlacement
import SparseTensor.Transform.Pass

/-!
# The pass that writes out sums

`Pass.summation` goes through a statement and writes out the implicit sums of every plain assignment
in it. It looks at each assignment alone: whether a statement around it binds a variable makes no
difference.

**Theorem (`run_summation`).** The pass succeeds on every statement in which no statement is
missing, in particular on every concrete one. The assignments stay where they are, and each gets
sums over exactly the variables that it sums over implicitly. If there are none, the statement is
given back as it was, and only then.

The proof is an induction on the statement. What a statement is turned into is the statement itself
or has a root that is newer than everything in it (`SumsInto`), which is what the traversal goes by.
Either way it is the same arrangement of the same assignments (`Stmt.Summed`).
-/

namespace SparseTensor

/-- The variables that an assignment sums over implicitly. Only a plain one does. -/
def Assignment.summedVars (a : Assignment) : List IndexVar :=
  match a.op with
  | none => Stmt.summedVars a.target a.value
  | some _ => []

/-- The second assignment is the first with its sums written out. -/
structure Assignment.Summed (a a' : Assignment) : Prop where
  bound : a'.bound = a.bound
  target : a'.target = a.target
  op : a'.op = a.op
  kept : a.summedVars = [] → a'.value = a.value
  placed : Expr.Placed a.summedVars a.value a'.value
  reductions : a'.value.reductions.Perm
    (a.summedVars.map (Reducer.sum, ·) ++ a.value.reductions)

namespace Stmt

/-- The second statement is the first with the sums of its plain assignments written out. All else
is as it was, but for the identities of nodes that something changed below. -/
inductive Summed : Stmt → Stmt → Prop
  | plain {target : Access} {value value' : Expr} (n n' : NodeId) :
      Expr.Placed (summedVars target value) value value' →
        Summed (assign n target value none) (assign n' target value' none)
  | update (n : NodeId) (target : Access) (value : Expr) (op : BinaryOp) :
      Summed (assign n target value (some op)) (assign n target value (some op))
  | forAll {s r : Stmt} (n n' : NodeId) (i : IndexVar) :
      Summed s r → Summed (forAll n i s) (forAll n' i r)
  | staged {c p c' p' : Stmt} (n n' : NodeId) :
      Summed c c' → Summed p p' → Summed (staged n c p) (staged n' c' p')
  | group {ss rs : List Stmt} (n n' : NodeId) (grouping : Grouping) :
      List.Forall₂ Summed ss rs → Summed (group n grouping ss) (group n' grouping rs)

variable {σ : Type} {bound : List IndexVar} {s r : Stmt} {ss rs : List Stmt} {n n' : NodeId}

/-- What a statement below statements that bind `bound` is turned into, with the supply before and
after: itself, if it sums over nothing, and otherwise a new statement. -/
structure SumsInto (bound : List IndexVar) (n : NodeId) (s r : Stmt) (n' : NodeId) : Prop where
  mono : n ≤ n'
  summed : s.Summed r
  assignments : List.Forall₂ Assignment.Summed (s.assignments bound) (r.assignments bound)
  outcome : (r = s ∧ ∀ a ∈ s.assignments bound, a.summedVars = []) ∨
    (∃ k, r.node? = some k ∧ n ≤ k) ∧ ∃ a ∈ s.assignments bound, a.summedVars ≠ []

/-- What the members of a group are turned into. -/
structure AllSumInto (σ : Type) (bound : List IndexVar) (n : NodeId) (ss rs : List Stmt)
    (n' : NodeId) : Prop where
  mono : n ≤ n'
  summed : List.Forall₂ Summed ss rs
  assignments : List.Forall₂ Assignment.Summed (allAssignments bound ss) (allAssignments bound rs)
  outcome : (rs = ss ∧ ∀ a ∈ allAssignments bound ss, a.summedVars = []) ∨
    Walk.allSame ((summationTraversal (σ := σ)).childrenOf ss) rs = false ∧
      ∃ a ∈ allAssignments bound ss, a.summedVars ≠ []

/-- The traversal can tell whether the statement is a new one. -/
theorem SumsInto.same_or (h : SumsInto bound n s r n') (hs : ∀ j ∈ s.nodes, j < n) :
    (r.same s = true ∧ r = s ∧ ∀ a ∈ s.assignments bound, a.summedVars = []) ∨
      r.same s = false ∧ ∃ a ∈ s.assignments bound, a.summedVars ≠ [] := by
  rcases h.outcome with ⟨rfl, hnone⟩ | ⟨⟨k, hr, hk⟩, hsome⟩
  · exact .inl ⟨same_refl r, rfl, hnone⟩
  · exact .inr ⟨same_eq_false hs hr hk, hsome⟩

theorem allSame_self (σ : Type) (ss : List Stmt) :
    Walk.allSame ((summationTraversal (σ := σ)).childrenOf ss) ss = true := by
  induction ss with
  | nil => rfl
  | cons s ss ih => rw [Traversal.childrenOf, Walk.allSame, same_refl, ih]; rfl

theorem yields_enter {handler : TransformM σ Stmt} {st st' : σ} {r : Stmt}
    (h : Yields handler st n r st' n') :
    Yields (summationTraversal.enterStmt s handler) st n r st' n' :=
  Yields.bind (.pure none) h

theorem yields_explicitSums (target : Access) (value : Expr) (op : Option BinaryOp) (m n : NodeId)
    (st : σ) : ∃ r n', Yields (liftM (assign m target value op).explicitSums) st n r st n' ∧
      SumsInto bound n (assign m target value op) r n' := by
  cases op with
  | some op =>
    have hsummed :
        Assignment.Summed ⟨bound, target, value, some op⟩ ⟨bound, target, value, some op⟩ :=
      ⟨rfl, rfl, rfl, fun _ => rfl, .refl _, .refl _⟩
    refine ⟨_, n, rfl, Nat.le_refl n, .update m target value op, .cons hsummed .nil, .inl ⟨rfl, ?_⟩⟩
    simp [assignments, Assignment.summedVars]
  | none =>
    obtain ⟨k, value', n', hrun, hplaced, houtcome⟩ := placed_explicitSums m n target value
    have hsummed :
        Assignment.Summed ⟨bound, target, value, none⟩ ⟨bound, target, value', none⟩ := by
      refine ⟨rfl, rfl, rfl, fun hnone => ?_, hplaced,
        hplaced.reductions_perm fun v hv => (mem_summedVars.1 hv).1⟩
      rcases houtcome with ⟨-, -, hvalue, -⟩ | ⟨hsome, -⟩
      · exact hvalue
      · exact absurd hnone hsome
    refine ⟨_, n', .lift hrun, ?_, .plain m k hplaced, .cons hsummed .nil, ?_⟩
    · rcases houtcome with ⟨-, -, -, rfl⟩ | ⟨-, -, hlt⟩
      · exact Nat.le_refl n'
      · exact Nat.le_of_lt hlt
    · rcases houtcome with ⟨hnone, rfl, rfl, -⟩ | ⟨hsome, rfl, -⟩
      · exact .inl ⟨rfl, by simpa [assignments, Assignment.summedVars] using hnone⟩
      · refine .inr ⟨⟨k, rfl, Nat.le_refl k⟩, _, List.mem_cons_self, ?_⟩
        simpa [Assignment.summedVars] using hsome

mutual

/-- **One traversal.** Every statement is turned into what `SumsInto` says, and the state of the
traversal is left alone. -/
theorem yields_summation (st : σ) (bound : List IndexVar) (n : NodeId) : (s : Stmt) →
    s.isWhole = true → (∀ j ∈ s.nodes, j < n) →
      ∃ r n', Yields (summationTraversal.stmt s) st n r st n' ∧ SumsInto bound n s r n'
  | undefined, hwhole, _ => by cases hwhole
  | assign m target value op, _, _ => by
    obtain ⟨r, n', hyields, hsums⟩ := yields_explicitSums target value op m n st
    exact ⟨r, n', yields_enter hyields, hsums⟩
  | forAll m i body, hwhole, hn => by
    have hbody : ∀ j ∈ body.nodes, j < n := fun j hj => hn j (List.mem_cons_of_mem m hj)
    obtain ⟨r, n', hyields, hsums⟩ := yields_summation st (i :: bound) n body hwhole hbody
    refine ⟨_, _, yields_enter (.forAll i hyields), ?_⟩
    rcases hsums.same_or hbody with ⟨hsame, rfl, hnone⟩ | ⟨hsame, hsome⟩
    · simp only [hsame, if_true]
      exact ⟨hsums.mono, .forAll m m i hsums.summed, hsums.assignments, .inl ⟨rfl, hnone⟩⟩
    · simp only [hsame]
      exact ⟨Nat.le_succ_of_le hsums.mono, .forAll m n' i hsums.summed, hsums.assignments,
        .inr ⟨⟨n', rfl, hsums.mono⟩, hsome⟩⟩
  | staged m consumer producer, hwhole, hn => by
    rw [isWhole, Bool.and_eq_true] at hwhole
    have hc : ∀ j ∈ consumer.nodes, j < n := fun j hj =>
      hn j (List.mem_cons_of_mem m (List.mem_append_left _ hj))
    obtain ⟨r, n₁, hyields, hsums⟩ := yields_summation st bound n consumer hwhole.1 hc
    have hp : ∀ j ∈ producer.nodes, j < n₁ := fun j hj =>
      Nat.lt_of_lt_of_le (hn j (List.mem_cons_of_mem m (List.mem_append_right _ hj))) hsums.mono
    obtain ⟨r', n₂, hyields', hsums'⟩ := yields_summation st bound n₁ producer hwhole.2 hp
    have hmono : n ≤ n₂ := Nat.le_trans hsums.mono hsums'.mono
    have hall := List.rel_append hsums.assignments hsums'.assignments
    refine ⟨_, _, yields_enter (.staged hyields hyields'), ?_⟩
    rcases hsums.same_or hc with ⟨hsame, rfl, hnone⟩ | ⟨hsame, a, ha, hsome⟩
    · rcases hsums'.same_or hp with ⟨hsame', rfl, hnone'⟩ | ⟨hsame', a, ha, hsome⟩
      · simp only [hsame, hsame', Bool.and_self, if_true]
        exact ⟨hmono, .staged m m hsums.summed hsums'.summed, hall,
          .inl ⟨rfl, List.forall_mem_append.2 ⟨hnone, hnone'⟩⟩⟩
      · simp only [hsame', Bool.and_false]
        exact ⟨Nat.le_succ_of_le hmono, .staged m n₂ hsums.summed hsums'.summed, hall,
          .inr ⟨⟨n₂, rfl, hmono⟩, a, List.mem_append_right _ ha, hsome⟩⟩
    · simp only [hsame, Bool.false_and]
      exact ⟨Nat.le_succ_of_le hmono, .staged m n₂ hsums.summed hsums'.summed, hall,
        .inr ⟨⟨n₂, rfl, hmono⟩, a, List.mem_append_left _ ha, hsome⟩⟩
  | group m grouping members, hwhole, hn => by
    obtain ⟨rs, n', hyields, hsums⟩ := yields_members st bound n members hwhole
      fun j hj => hn j (List.mem_cons_of_mem m hj)
    refine ⟨_, _, yields_enter (.group grouping hyields), ?_⟩
    rcases hsums.outcome with ⟨rfl, hnone⟩ | ⟨hsame, hsome⟩
    · simp only [allSame_self, if_true]
      exact ⟨hsums.mono, .group m m grouping hsums.summed, hsums.assignments, .inl ⟨rfl, hnone⟩⟩
    · simp only [hsame]
      exact ⟨Nat.le_succ_of_le hsums.mono, .group m n' grouping hsums.summed, hsums.assignments,
        .inr ⟨⟨n', rfl, hsums.mono⟩, hsome⟩⟩

theorem yields_members (st : σ) (bound : List IndexVar) (n : NodeId) : (ss : List Stmt) →
    areWhole ss = true → (∀ j ∈ allNodes ss, j < n) →
      ∃ rs n', Yields (Walk.members (summationTraversal.childrenOf ss)) st n rs st n' ∧
        AllSumInto σ bound n ss rs n'
  | [], _, _ => ⟨[], n, .pure [], Nat.le_refl n, .nil, .nil, .inl ⟨rfl, by simp [allAssignments]⟩⟩
  | s :: ss, hwhole, hn => by
    rw [areWhole, Bool.and_eq_true] at hwhole
    have hs : ∀ j ∈ s.nodes, j < n := fun j hj => hn j (List.mem_append_left _ hj)
    obtain ⟨r, n₁, hyields, hsums⟩ := yields_summation st bound n s hwhole.1 hs
    obtain ⟨rs, n₂, hyields', hsums'⟩ := yields_members st bound n₁ ss hwhole.2
      fun j hj => Nat.lt_of_lt_of_le (hn j (List.mem_append_right _ hj)) hsums.mono
    refine ⟨r :: rs, n₂, .members hyields hyields', Nat.le_trans hsums.mono hsums'.mono,
      .cons hsums.summed hsums'.summed, List.rel_append hsums.assignments hsums'.assignments, ?_⟩
    rw [Traversal.childrenOf, Walk.allSame]
    rcases hsums.same_or hs with ⟨hsame, rfl, hnone⟩ | ⟨hsame, a, ha, hsome⟩
    · rcases hsums'.outcome with ⟨rfl, hnone'⟩ | ⟨hsame', a, ha, hsome⟩
      · exact .inl ⟨rfl, List.forall_mem_append.2 ⟨hnone, hnone'⟩⟩
      · exact .inr ⟨by rw [hsame', Bool.and_false], a, List.mem_append_right _ ha, hsome⟩
    · exact .inr ⟨by rw [hsame, Bool.false_and], a, List.mem_append_left _ ha, hsome⟩

end

end Stmt

/-! ## The pass -/

theorem PassM.run_ofTransform {α : Type} {x : TransformM (List TransformEvent) α}
    {log log' : List TransformEvent} {n n' : NodeId} {a : α} (h : Yields x log n a log' n') :
    ((ofTransform x).run.run log).run n = ((.ok a, log'), n') := by
  rw [Yields] at h
  rw [ofTransform, ExceptT.run_mk, StateT.run_bind, StateT.run_bind, h]
  rfl

namespace Pass

/-- **The pass that writes out sums.** On a statement in which no statement is missing, as in every
concrete one, the pass succeeds. It keeps loops, stages and groups arranged as they are, every
assignment in its place and its target as it is, and puts sums over exactly those variables into its
value that it sums over implicitly: for a plain assignment those that are free in its value and not
in its target, whatever is bound around it, and none for any other. If there are none in the whole
statement it gives back the statement itself, and otherwise a new one. -/
theorem run_summation (s : Stmt) (n : NodeId) (log : List TransformEvent)
    (hn : ∀ j ∈ s.nodes, j < n) :
    (s.checkConcrete = .ok () → s.isWhole = true) ∧
      (s.isWhole = true → ∃ r n', ((summation.run s).run.run log).run n = ((.ok r, log), n') ∧
        s.Summed r ∧ List.Forall₂ Assignment.Summed (s.assignments []) (r.assignments []) ∧
        ((∀ a ∈ s.assignments [], a.summedVars = []) → r = s) ∧
        ((∃ a ∈ s.assignments [], a.summedVars ≠ []) → r.same s = false)) := by
  refine ⟨Stmt.isWhole_of_check s, fun hwhole => ?_⟩
  obtain ⟨r, n', hyields, hsums⟩ := Stmt.yields_summation log [] n s hwhole hn
  refine ⟨r, n', ?_, hsums.summed, hsums.assignments, fun hnone => ?_, fun hsome => ?_⟩
  · exact PassM.run_ofTransform hyields
  · rcases hsums.outcome with ⟨hrs, -⟩ | ⟨-, a, ha, hsome⟩
    · exact hrs
    · exact absurd (hnone a ha) hsome
  · obtain ⟨a, ha, hsome⟩ := hsome
    rcases hsums.same_or hn with ⟨-, -, hnone⟩ | ⟨hsame, -⟩
    · exact absurd (hnone a ha) hsome
    · exact hsame

/-- A copy, `forall(i, a(i) = b(i))`, has no implicit sum and is kept. -/
theorem run_summation_copy :
    let i : IndexVar := ⟨0, "i"⟩
    let vector (k : Nat) (name : String) : TensorVar :=
      ⟨k, name, ⟨.float .double, ⟨[.unknown]⟩⟩, .dense 1⟩
    let s : Stmt :=
      .forAll 3 i (.assign 2 ⟨0, vector 0 "a", [i]⟩ (.access ⟨1, vector 1 "b", [i]⟩) none)
    (∀ j ∈ s.nodes, j < 4) ∧ s.checkConcrete = .ok () ∧
      ∃ r n', ((summation.run s).run.run []).run 4 = ((.ok r, []), n') ∧ r = s := by
  intro i vector s
  have hn : ∀ j ∈ s.nodes, j < 4 := by decide
  have hconcrete : s.checkConcrete = .ok () := by decide +kernel
  obtain ⟨hwhole, hrun⟩ := run_summation s 4 [] hn
  obtain ⟨r, n', hrun, -, -, hkept, -⟩ := hrun (hwhole hconcrete)
  refine ⟨hn, hconcrete, r, n', hrun, hkept ?_⟩
  intro a ha
  rw [List.mem_singleton.1 ha]
  decide +kernel

/-- In `forall(i, x = b(i))`, which is concrete, the variable is bound around the assignment, and
the pass sums over it all the same. -/
theorem run_summation_bound :
    let i : IndexVar := ⟨0, "i"⟩
    let x : Access := ⟨0, .scalar 0 "x" (.float .double), []⟩
    let b : Expr := .access ⟨1, ⟨1, "b", ⟨.float .double, ⟨[.unknown]⟩⟩, .dense 1⟩, [i]⟩
    let s : Stmt := .forAll 3 i (.assign 2 x b none)
    let r : Stmt := .forAll 6 i (.assign 4 x (.reduction 5 .sum i b) none)
    s.checkConcrete = .ok () ∧ ((summation.run s).run.run []).run 4 = ((.ok r, []), 7) ∧
      r.same s = false := by
  intro i x b s r
  exact ⟨by decide +kernel, rfl, rfl⟩

end Pass

end SparseTensor
