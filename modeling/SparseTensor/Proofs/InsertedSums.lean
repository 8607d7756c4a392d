import SparseTensor.Proofs.SumPlacement

/-!
# What the sums of an assignment leave alone

To write out the sums of a plain assignment is to insert them, and to do nothing else. The relation
`WithSums` allows for no more than that: a sum may be put above an expression, and to get one below
a negation, a sum or a difference, that node is made anew. A part that gets no sums is the very same
part, its nodes included. Where sums are nested, the outer variable is the one that was used first.

**Theorem (`explicitSums_inserts`).** The value that comes out is the given one with one sum
inserted over each variable that is free in it and not in the target. Its type is unchanged. The
target is kept, and a statement that is no plain assignment is given back as it was.

The sums are placed one by one, and each goes down into an expression that has sums in it already.
It goes past none of them (`WithSums.deepSum`). So it matters only that its variable was used before
theirs, which holds because the last variables come first.
-/

namespace SparseTensor

namespace Expr

/-- The second expression is the first with sums inserted over the variables `is`, which are listed
from left to right, an outer one before those inside. The order of nested sums is that of `vs`. -/
inductive WithSums (vs : List IndexVar) : (is : List IndexVar) → Expr → Expr → Prop
  | keep (e : Expr) : WithSums vs [] e e
  | sum {is : List IndexVar} {e r : Expr} (n : NodeId) (i : IndexVar) :
      WithSums vs is e r → (∀ j ∈ is, [i, j].Sublist vs) →
        WithSums vs (i :: is) e (reduction n .sum i r)
  | neg {is : List IndexVar} {a a' : Expr} (n n' : NodeId) :
      is ≠ [] → WithSums vs is a a' → WithSums vs is (unary n .neg a) (unary n' .neg a')
  | additive {is js : List IndexVar} {op : BinaryOp} {a a' b b' : Expr} (n n' : NodeId) :
      op.isAdditive = true → is ++ js ≠ [] → WithSums vs is a a' → WithSums vs js b b' →
        WithSums vs (is ++ js) (binary n op a b) (binary n' op a' b')

variable {vs is : List IndexVar} {e r : Expr} {i : IndexVar}

namespace WithSums

theorem type_eq (h : WithSums vs is e r) : r.type = e.type := by
  induction h with
  | keep => rfl
  | sum _ _ _ _ ih => exact ih
  | neg _ _ _ _ ih => exact ih
  | additive _ _ _ _ _ _ iha ihb => rw [type, type, iha, ihb]

theorem mem_freeOccurrences (h : WithSums vs is e r) (hi : i ∉ is) :
    i ∈ r.freeOccurrences ↔ i ∈ e.freeOccurrences := by
  induction h with
  | keep => rfl
  | sum _ _ _ _ ih =>
    rw [List.mem_cons, not_or] at hi
    simp [freeOccurrences, ih hi.2, hi.1]
  | neg _ _ _ _ ih => exact ih hi
  | additive _ _ _ _ _ _ iha ihb =>
    rw [List.mem_append, not_or] at hi
    simp [freeOccurrences, iha hi.1, ihb hi.2]

theorem of_neg {m : NodeId} {a' : Expr} (h : WithSums vs is e (unary m .neg a')) :
    ∃ n a, e = unary n .neg a ∧ WithSums vs is a a' := by
  cases h with
  | keep => exact ⟨m, a', rfl, .keep a'⟩
  | neg n _ _ ha => exact ⟨n, _, rfl, ha⟩

theorem of_additive {m : NodeId} {op : BinaryOp} {a' b' : Expr}
    (h : WithSums vs is e (binary m op a' b')) :
    ∃ n a b js ks, is = js ++ ks ∧ e = binary n op a b ∧ WithSums vs js a a' ∧
      WithSums vs ks b b' := by
  cases h with
  | keep => exact ⟨m, a', b', [], [], rfl, rfl, .keep a', .keep b'⟩
  | additive n _ _ _ ha hb => exact ⟨n, _, _, _, _, rfl, rfl, ha, hb⟩

/-! ## One more variable -/

theorem deepSum_of_isTerm (h : WithSums vs is e r) (hr : r.isTerm = true)
    (hi : i ∈ r.freeOccurrences) (hbefore : ∀ j ∈ is, [i, j].Sublist vs) (n : NodeId) :
    ∃ js, js.Perm (i :: is) ∧ WithSums vs js e ((r.deepSum i).run n).1 := by
  rw [Expr.deepSum_of_isTerm hr hi]
  exact ⟨i :: is, .refl _, .sum n i h hbefore⟩

/-- **One more sum.** A sum over a variable that was used before those of all sums that are there is
inserted among them. -/
theorem deepSum (h : WithSums vs is e r) (hi : i ∈ e.freeOccurrences) (hnew : i ∉ is)
    (hbefore : ∀ j ∈ is, [i, j].Sublist vs) (n : NodeId) :
    ∃ js, js.Perm (i :: is) ∧ WithSums vs js e ((r.deepSum i).run n).1 := by
  -- The induction is on the expression that has the sums in it, as it is the one gone down into.
  induction r generalizing e is n with
  | undefined | access | literal | reduction =>
    exact h.deepSum_of_isTerm rfl ((h.mem_freeOccurrences hnew).2 hi) hbefore n
  | unary m op a' ih =>
    cases op with
    | sqrt => exact h.deepSum_of_isTerm rfl ((h.mem_freeOccurrences hnew).2 hi) hbefore n
    | neg =>
      obtain ⟨k, a, rfl, ha⟩ := h.of_neg
      obtain ⟨js, hperm, hjs⟩ := ih ha hi hnew hbefore (n + 1)
      have hr : a'.uses i = true := uses_iff.2 ((ha.mem_freeOccurrences hnew).2 hi)
      rw [deepSum_neg hr]
      exact ⟨js, hperm, .neg k n (List.ne_nil_of_mem (hperm.mem_iff.2 List.mem_cons_self)) hjs⟩
  | binary m op a' b' iha ihb =>
    have hir := (h.mem_freeOccurrences hnew).2 hi
    by_cases hop : op.isAdditive = true
    · obtain ⟨k, a, b, js, ks, rfl, rfl, ha, hb⟩ := h.of_additive
      rw [List.mem_append, not_or] at hnew
      rw [List.forall_mem_append] at hbefore
      have huses : a'.uses i = true ∨ b'.uses i = true := by simpa [freeOccurrences] using hir
      cases hia : a'.uses i with
      | true =>
        cases hib : b'.uses i with
        | true =>
          rw [deepSum_both hia hib]
          exact ⟨i :: (js ++ ks), .refl _, .sum n i h (List.forall_mem_append.2 hbefore)⟩
        | false =>
          have hi : i ∈ a.freeOccurrences :=
            (ha.mem_freeOccurrences hnew.1).1 (uses_iff.1 hia)
          obtain ⟨js', hperm, hjs⟩ := iha ha hi hnew.1 hbefore.1 (n + 1)
          rw [deepSum_left hop hia hib]
          have hmem : i ∈ js' ++ ks :=
            List.mem_append_left ks (hperm.mem_iff.2 List.mem_cons_self)
          exact ⟨js' ++ ks, hperm.append_right ks,
            .additive k n hop (List.ne_nil_of_mem hmem) hjs hb⟩
      | false =>
        have hib : b'.uses i = true := by simpa [hia] using huses
        have hi : i ∈ b.freeOccurrences :=
          (hb.mem_freeOccurrences hnew.2).1 (uses_iff.1 hib)
        obtain ⟨ks', hperm, hks⟩ := ihb hb hi hnew.2 hbefore.2 (n + 1)
        rw [deepSum_right hop hia hib]
        have hmem : i ∈ js ++ ks' :=
          List.mem_append_right js (hperm.mem_iff.2 List.mem_cons_self)
        exact ⟨js ++ ks', (hperm.append_left js).trans List.perm_middle,
          .additive k n hop (List.ne_nil_of_mem hmem) ha hks⟩
    · exact h.deepSum_of_isTerm (by simp [isTerm, hop]) hir hbefore n

end WithSums

/-! ## All variables -/

theorem withSums_deepSums (hvs : is.Sublist vs) (hnodup : is.Nodup)
    (huses : ∀ i ∈ is, i ∈ e.freeOccurrences) (n : NodeId) :
    ∃ js, js.Perm is ∧ WithSums vs js e ((e.deepSums is).run n).1 := by
  induction is generalizing n with
  | nil => exact ⟨[], .refl _, .keep e⟩
  | cons i is ih =>
    obtain ⟨hnew, hnodup⟩ := List.nodup_cons.1 hnodup
    rw [List.forall_mem_cons] at huses
    obtain ⟨js, hperm, hjs⟩ := ih (List.sublist_of_cons_sublist hvs) hnodup huses.2 n
    have hbefore : ∀ j ∈ js, [i, j].Sublist vs := fun j hj =>
      ((List.singleton_sublist.2 (hperm.mem_iff.1 hj)).cons_cons i).trans hvs
    rw [deepSums, List.foldrM_cons]
    obtain ⟨ks, hperm', hks⟩ := hjs.deepSum huses.1 (fun h => hnew (hperm.mem_iff.1 h)) hbefore _
    exact ⟨ks, hperm'.trans (hperm.cons i), hks⟩

end Expr

namespace Stmt

/-- **Sums are inserted, and nothing else is done.** A plain assignment keeps its target, and its
value gets one sum over each variable that is free in it and not in the target, nested in the order
of first use. The type of the value stays what it was. Any other statement is left alone. -/
theorem explicitSums_inserts :
    (∀ (n m : NodeId) (target : Access) (value : Expr), ∃ n' value' m' is,
      (assign n target value none).explicitSums.run m = (assign n' target value' none, m') ∧
        Expr.WithSums value.freeVars is value value' ∧ is.Nodup ∧
        (∀ i, i ∈ is ↔ i ∈ value.freeVars ∧ i ∉ target.indices) ∧
        value'.type = value.type) ∧
    ∀ (s : Stmt) (m : NodeId), (∀ n target value, s ≠ assign n target value none) →
      s.explicitSums.run m = (s, m) := by
  constructor
  · intro n m target value
    have hmem : ∀ i, i ∈ summedVars target value ↔ i ∈ value.freeVars ∧ i ∉ target.indices := by
      simp [summedVars]
    cases hsummed : summedVars target value with
    | nil =>
      refine ⟨n, value, m, [], ?_, .keep value, .nil, fun i => ?_, rfl⟩
      · rw [explicitSums, hsummed]
        rfl
      · rw [← hmem, hsummed]
    | cons i is =>
      have hsub : (summedVars target value).Sublist value.freeVars := List.filter_sublist
      have hnodup : (summedVars target value).Nodup := nodup_summedVars
      obtain ⟨js, hperm, hjs⟩ := Expr.withSums_deepSums hsub hnodup
        (fun i hi => (mem_summedVars.1 hi).1) (m + 1)
      refine ⟨m, _, ((value.deepSums (summedVars target value)).run (m + 1)).2, js, ?_, hjs,
        hperm.nodup_iff.2 hnodup, fun i => ?_, hjs.type_eq⟩
      · rw [explicitSums, hsummed]
        rfl
      · rw [hperm.mem_iff, hmem]
  · intro s m hs
    cases s with
    | assign n target value op =>
      cases op with
      | none => exact absurd rfl (hs n target value)
      | some => rfl
    | undefined | forAll | staged | group => rfl

/-- Of `a = B(i) - C(i,j)` and `a += B(i)`, only the first gets sums, over `i` and `j`. -/
theorem explicitSums_inserts_update :
    let i : IndexVar := ⟨0, "i"⟩
    let j : IndexVar := ⟨1, "j"⟩
    let tensor (k : Nat) (name : String) (order : Nat) : TensorVar :=
      ⟨k, name, ⟨.float .double, ⟨List.replicate order .unknown⟩⟩, .dense order⟩
    let target : Access := ⟨0, tensor 0 "a" 0, []⟩
    let term : Expr := .access ⟨1, tensor 1 "B" 1, [i]⟩
    let value : Expr := .binary 3 .sub term (.access ⟨2, tensor 2 "C" 2, [i, j]⟩)
    (∃ n' value' m' is,
      (assign 4 target value none).explicitSums.run 5 = (assign n' target value' none, m') ∧
        Expr.WithSums [i, j] is value value' ∧ i ∈ is ∧ j ∈ is) ∧
      (assign 4 target term (some .add)).explicitSums.run 5 =
        (assign 4 target term (some .add), 5) := by
  intro i j tensor target term value
  have hvars : value.freeVars = [i, j] := by decide +kernel
  obtain ⟨n', value', m', is, hrun, hsums, -, hmem, -⟩ :=
    explicitSums_inserts.1 4 5 target value
  rw [hvars] at hsums hmem
  refine ⟨⟨n', value', m', is, hrun, hsums, (hmem i).2 ?_, (hmem j).2 ?_⟩, ?_⟩
  · simp [target]
  · simp [target]
  · exact explicitSums_inserts.2 _ 5 (by simp)

end Stmt

end SparseTensor
