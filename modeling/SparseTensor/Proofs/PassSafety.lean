import SparseTensor.Proofs.SummationPass
import SparseTensor.Proofs.WrittenSums

/-!
# The pass that writes out sums is safe

A pass is one stage of a pipeline, and the stages after it count on what the stages before it have
established. `Pass.summation` takes nothing away from them.

**Theorem (`run_summation_safe`).** On every statement in which no statement is missing, the pass
succeeds. It keeps what is computed and what is read, in order, and the arrangement of the
assignments. A concrete statement stays concrete, and no variable becomes free. Running the pass on
what comes out gives back the same node.

The last point is about the nodes themselves (`yields_self`). All others are facts about the
relation `Stmt.Summed`, which the pass establishes, and follow from what sums do to one value.
-/

namespace SparseTensor

theorem Assignment.Summed.summedVars_eq_nil {a a' : Assignment} (h : a.Summed a') :
    a'.summedVars = [] := by
  have hplaced := h.placed
  rw [summedVars] at hplaced ⊢
  rw [h.op, h.target]
  cases hop : a.op with
  | none =>
    rw [hop] at hplaced
    exact Stmt.summedVars_of_placed hplaced
  | some op => rfl

namespace Stmt

variable {σ : Type} {s r : Stmt}

/-! ## What the pass keeps -/

/-- Induction on how sums are written out. The members of two groups go in step. -/
theorem Summed.induction {P : ∀ s r, Summed s r → Prop}
    (plain : ∀ {target value value'} (n n' : NodeId)
      (h : Expr.Placed (summedVars target value) value value'), P _ _ (.plain n n' h))
    (update : ∀ n target value op, P _ _ (.update n target value op))
    (forAll : ∀ {s r} (n n' : NodeId) (i : IndexVar) (h : Summed s r), P s r h →
      P _ _ (.forAll n n' i h))
    (staged : ∀ {c p c' p'} (n n' : NodeId) (hc : Summed c c') (hp : Summed p p'), P c c' hc →
      P p p' hp → P _ _ (.staged n n' hc hp))
    (group : ∀ {ss rs} (n n' : NodeId) (grouping : Grouping)
      (hs : List.Forall₂ (fun s r => ∃ h, P s r h) ss rs),
      P _ _ (.group n n' grouping (hs.imp fun _ _ ⟨h, _⟩ => h)))
    (h : Summed s r) : P s r h := by
  refine @Summed.rec P (fun ss rs _ => List.Forall₂ (fun s r => ∃ h, P s r h) ss rs)
    ?plain ?update ?forAll ?staged ?group .nil (fun h _ ih ihs => .cons ⟨h, ih⟩ ihs) _ _ h
  case plain => exact plain
  case update => exact update
  case forAll => exact forAll
  case staged => exact staged
  case group => exact fun n n' grouping _ ih => group n n' grouping ih

/-- What is put together from the members of a group is kept if it is kept of each member. -/
theorem Summed.members_eq {α : Type} {value : Stmt → α} {all : List Stmt → α} (op : α → α → α)
    (hall : ∀ s ss, all (s :: ss) = op (value s) (all ss)) {ss rs : List Stmt}
    (h : List.Forall₂ (fun s r => ∃ _ : Summed s r, value r = value s) ss rs) :
    all rs = all ss := by
  induction h with
  | nil => rfl
  | cons hs _ ih =>
    obtain ⟨-, hs⟩ := hs
    rw [hall, hall, hs, ih]

theorem Summed.writes_eq (h : s.Summed r) : r.writes = s.writes := by
  induction h using Summed.induction with
  | plain | update => rfl
  | forAll _ _ _ _ ih => exact ih
  | staged _ _ _ _ ihc => exact ihc
  | group _ _ _ ih => exact members_eq (· ++ ·) (fun _ _ => rfl) ih

theorem Summed.reads_eq (h : s.Summed r) : r.reads = s.reads := by
  induction h using Summed.induction with
  | plain _ _ hplaced => exact hplaced.reads_eq
  | update => rfl
  | forAll _ _ _ _ ih => exact ih
  | staged _ _ _ _ ihc ihp => rw [reads, reads, ihc, ihp]
  | group _ _ _ ih => exact members_eq (· ++ ·) (fun _ _ => rfl) ih

theorem Summed.isWhole_eq (h : s.Summed r) : r.isWhole = s.isWhole := by
  induction h using Summed.induction with
  | plain | update => rfl
  | forAll _ _ _ _ ih => exact ih
  | staged _ _ _ _ ihc ihp => rw [isWhole, isWhole, ihc, ihp]
  | group _ _ _ ih => exact members_eq (· && ·) (fun _ _ => rfl) ih

theorem Summed.freeOccurrences_sublist (h : s.Summed r) :
    r.freeOccurrences.Sublist s.freeOccurrences := by
  induction h using Summed.induction with
  | @plain target _ _ _ _ hplaced =>
    rw [freeOccurrences, freeOccurrences, hplaced.freeOccurrences_eq]
    exact List.filter_sublist.append_left target.indices
  | update => exact .refl _
  | forAll _ _ _ _ ih => exact ih.filter _
  | staged _ _ _ _ ihc ihp => exact ihc.append ihp
  | group _ _ _ ih =>
    rw [freeOccurrences, freeOccurrences]
    induction ih with
    | nil => exact .refl _
    | cons hs _ ihs =>
      obtain ⟨-, hs⟩ := hs
      exact hs.append ihs

/-- A statement is as sound as it was. A consumer reads what its producer writes, because reads and
writes are what they were. -/
theorem Summed.isSound_eq (h : s.Summed r) : r.isSound = s.isSound := by
  induction h using Summed.induction with
  | plain _ _ hplaced =>
    exact hplaced.isSound_eq nodup_summedVars fun v hv => (mem_summedVars.1 hv).1
  | update => rfl
  | forAll _ _ _ _ ih => exact ih
  | staged _ _ hc hp ihc ihp => rw [isSound, isSound, ihc, ihp, hp.writes_eq, hc.reads_eq]
  | group _ _ _ ih => exact members_eq (· && ·) (fun _ _ => rfl) ih

theorem Summed.checkConcrete (h : s.Summed r) (hs : s.checkConcrete = .ok ()) :
    r.checkConcrete = .ok () := by
  obtain ⟨hsound, hfree⟩ := checkConcrete_iff.1 hs
  refine checkConcrete_iff.2 ⟨by rw [h.isSound_eq, hsound], ?_⟩
  exact List.sublist_nil.1 (hfree ▸ h.freeOccurrences_sublist)

theorem Summed.freeVars_subset (h : s.Summed r) : r.freeVars ⊆ s.freeVars := by
  intro v hv
  rw [freeVars, List.mem_eraseDups] at hv ⊢
  exact h.freeOccurrences_sublist.subset hv

/-! ## Running the pass again -/

mutual

/-- A statement in which nothing is summed over implicitly is given back, whatever the identities of
its nodes are. -/
theorem yields_self (st : σ) (bound : List IndexVar) (n : NodeId) : (s : Stmt) →
    s.isWhole = true → (∀ a ∈ s.assignments bound, a.summedVars = []) →
      Yields (summationTraversal.stmt s) st n s st n
  | undefined, hwhole, _ => by cases hwhole
  | assign m target value (some op), _, _ => yields_enter (.lift rfl)
  | assign m target value none, _, hnone => by
    have hnil : summedVars target value = [] := hnone _ List.mem_cons_self
    exact yields_enter (.lift (explicitSums_of_nil hnil m n))
  | forAll m i body, hwhole, hnone => by
    have hbody := yields_self st (i :: bound) n body hwhole hnone
    have hforAll : Yields (Walk.forAll (forAll m i body) i ⟨body, summationTraversal.stmt body⟩)
        st n _ st _ := .forAll i hbody
    simp only [same_refl, if_true] at hforAll
    exact yields_enter hforAll
  | staged m consumer producer, hwhole, hnone => by
    rw [isWhole, Bool.and_eq_true] at hwhole
    obtain ⟨hc, hp⟩ := List.forall_mem_append.1 hnone
    have hconsumer := yields_self st bound n consumer hwhole.1 hc
    have hproducer := yields_self st bound n producer hwhole.2 hp
    have hstaged : Yields (Walk.staged (staged m consumer producer)
        ⟨consumer, summationTraversal.stmt consumer⟩ ⟨producer, summationTraversal.stmt producer⟩)
        st n _ st _ := .staged hconsumer hproducer
    simp only [same_refl, Bool.and_self, if_true] at hstaged
    exact yields_enter hstaged
  | group m grouping members, hwhole, hnone => by
    have hmembers := yields_selves st bound n members hwhole hnone
    have hgroup : Yields (Walk.group (group m grouping members) grouping
        (summationTraversal.childrenOf members)) st n _ st _ := .group grouping hmembers
    simp only [allSame_self, if_true] at hgroup
    exact yields_enter hgroup

theorem yields_selves (st : σ) (bound : List IndexVar) (n : NodeId) : (ss : List Stmt) →
    areWhole ss = true → (∀ a ∈ allAssignments bound ss, a.summedVars = []) →
      Yields (Walk.members (summationTraversal.childrenOf ss)) st n ss st n
  | [], _, _ => .pure []
  | s :: ss, hwhole, hnone => by
    rw [areWhole, Bool.and_eq_true] at hwhole
    obtain ⟨hs, hss⟩ := List.forall_mem_append.1 hnone
    exact .members (yields_self st bound n s hwhole.1 hs)
      (yields_selves st bound n ss hwhole.2 hss)

end

end Stmt

/-! ## The main result -/

namespace Pass

/-- **The pass that writes out sums is safe.** Let no statement be missing in `s`, and `n` be an
identity above those of its nodes. The pass succeeds on `s`, and what comes out

- computes and reads the same tensors in the same order;
- is concrete if `s` is;
- has no free variable that `s` does not have;
- is `s` but for the values of its plain assignments: the assignments that combine a value with
  their target are the same nodes, and loops, stages and groups are arranged as they were;
- is given back, as the same node, if the pass is run on it. -/
theorem run_summation_safe (s : Stmt) (n : NodeId) (log : List TransformEvent)
    (hs : s.isWhole = true) (hn : ∀ j ∈ s.nodes, j < n) :
    ∃ r n', ((summation.run s).run.run log).run n = ((.ok r, log), n') ∧
      r.results = s.results ∧ r.inputs = s.inputs ∧
      (s.checkConcrete = .ok () → r.checkConcrete = .ok ()) ∧
      (∀ v ∈ r.freeVars, v ∈ s.freeVars) ∧
      s.Summed r ∧
      ∀ log' k, ((summation.run r).run.run log').run k = ((.ok r, log'), k) := by
  obtain ⟨r, n', hyields, hsums⟩ := Stmt.yields_summation log [] n s hs hn
  have hsummed := hsums.summed
  have hwhole : r.isWhole = true := by rw [hsummed.isWhole_eq, hs]
  have hnone : ∀ a ∈ r.assignments [], a.summedVars = [] :=
    forall_mem_of_forall₂ hsums.assignments fun _ _ _ h => h.summedVars_eq_nil
  refine ⟨r, n', PassM.run_ofTransform hyields, ?_, ?_, hsummed.checkConcrete,
    hsummed.freeVars_subset, hsummed, fun log' k => ?_⟩
  · rw [Stmt.results, Stmt.results, hsummed.writes_eq]
  · rw [Stmt.inputs, Stmt.inputs, hsummed.reads_eq]
  · exact PassM.run_ofTransform (Stmt.yields_self log' [] k r hwhole hnone)

/-- In `where(forall(i, a(i) += w(i)), forall(i, forall(j, w(i) = B(i,j) * c(j))))`, where the
producer sums over `j` inside a loop over `j`, and the consumer reads what it produces. -/
theorem run_summation_safe_staged :
    let i : IndexVar := ⟨0, "i"⟩
    let j : IndexVar := ⟨1, "j"⟩
    let tensor (k : Nat) (name : String) (order : Nat) : TensorVar :=
      ⟨k, name, ⟨.float .double, ⟨List.replicate order .unknown⟩⟩, .dense order⟩
    let consumer : Stmt := .forAll 3 i
      (.assign 2 ⟨0, tensor 0 "a" 1, [i]⟩ (.access ⟨1, tensor 1 "w" 1, [i]⟩) (some .add))
    let producer : Stmt := .forAll 9 i (.forAll 8 j (.assign 7 ⟨4, tensor 1 "w" 1, [i]⟩
      (.binary 10 .mul (.access ⟨5, tensor 2 "B" 2, [i, j]⟩) (.access ⟨6, tensor 3 "c" 1, [j]⟩))
      none))
    let s : Stmt := .staged 11 consumer producer
    s.isWhole = true ∧ (∀ j ∈ s.nodes, j < 12) ∧ s.checkConcrete = .ok () ∧
      ∃ r n', ((summation.run s).run.run []).run 12 = ((.ok r, []), n') ∧
        r.results = [tensor 0 "a" 1] ∧
        r.inputs = [tensor 1 "w" 1, tensor 2 "B" 2, tensor 3 "c" 1] ∧
        r.checkConcrete = .ok () ∧ r.freeVars = [] ∧ s.Summed r ∧
        ∀ log' k, ((summation.run r).run.run log').run k = ((.ok r, log'), k) := by
  intro i j tensor consumer producer s
  have hwhole : s.isWhole = true := rfl
  have hn : ∀ j ∈ s.nodes, j < 12 := by decide +kernel
  have hs : s.checkConcrete = .ok () := by decide +kernel
  have hfree : s.freeVars = [] := by decide +kernel
  obtain ⟨r, n', hrun, hresults, hinputs, hconcrete, hvars, hsummed, hagain⟩ :=
    run_summation_safe s 12 [] hwhole hn
  refine ⟨hwhole, hn, hs, r, n', hrun, hresults.trans ?_, hinputs.trans ?_, hconcrete hs, ?_,
    hsummed, hagain⟩
  · decide +kernel
  · decide +kernel
  · rw [List.eq_nil_iff_forall_not_mem]
    exact fun v hv => List.not_mem_nil (hfree ▸ hvars v hv)

end Pass

end SparseTensor
