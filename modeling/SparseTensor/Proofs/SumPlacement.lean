import Mathlib.Data.List.Nodup
import SparseTensor.Notation.Summation
import SparseTensor.Proofs.FirstOccurrences

/-!
# Where sums are placed

`Expr.deepSums` places sums over several variables, the last one first, and each sees the sums that
are already there. The relation `Placed` says what comes out, by the shape of the expression and
without the order of events:

- A negation passes all sums on to its operand.
- A sum or a difference splits the variables in two. Up to the last one that both operands use, all
  stop above it; behind that one every variable goes on into the one operand that uses it.
- Any other node, a term, gets all sums above it.

A variable that only one operand uses may so be held up by a later one that both use.

**Theorem (`placed_deepSums`).** Sums over variables that an expression uses are placed in this way.

The proof adds one variable in front of those that are placed (`Placed.deepSum`). It goes down as
far as the placed expression still looks like the given one, and the split of every node it passes
is extended at one end.
-/

namespace SparseTensor

namespace Expr

@[simp] theorem uses_iff {e : Expr} {i : IndexVar} : e.uses i = true ↔ i ∈ e.freeOccurrences :=
  decide_eq_true_iff

/-- Whether an expression is a term of a signed sum: neither a negation nor a sum nor a
difference. -/
def isTerm : Expr → Bool
  | unary _ .neg _ => false
  | binary _ op _ _ => !op.isAdditive
  | _ => true

/-- `v` stops above operands `a` and `b`: both use `v` or a variable behind it. -/
def Stops (a b : Expr) (is : List IndexVar) (v : IndexVar) : Prop :=
  ∃ w ∈ is, (w = v ∨ [v, w].Sublist is) ∧ w ∈ a.freeOccurrences ∧ w ∈ b.freeOccurrences

instance (a b : Expr) (is : List IndexVar) (v : IndexVar) : Decidable (Stops a b is v) :=
  inferInstanceAs (Decidable (∃ w ∈ is, _))

/-- The second expression is the first with a sum over each of the variables around it. -/
inductive Wrapped : List IndexVar → Expr → Expr → Prop
  | nil (e : Expr) : Wrapped [] e e
  | cons {is : List IndexVar} {e r : Expr} (n : NodeId) (i : IndexVar) :
      Wrapped is e r → Wrapped (i :: is) e (reduction n .sum i r)

/-- The second expression is the first with sums over the variables placed in it. -/
inductive Placed : List IndexVar → Expr → Expr → Prop
  | term {is : List IndexVar} {e r : Expr} :
      e.isTerm = true → Wrapped is e r → Placed is e r
  | neg {is : List IndexVar} {a a' : Expr} (n n' : NodeId) :
      Placed is a a' → Placed is (unary n .neg a) (unary n' .neg a')
  | additive (outer inner : List IndexVar) {op : BinaryOp} {a a' b b' r : Expr} (n n' : NodeId) :
      op.isAdditive = true → (∀ v ∈ outer, Stops a b outer v) →
        (∀ v ∈ inner, v ∈ a.freeOccurrences → v ∉ b.freeOccurrences) →
          Placed (inner.filter a.uses) a a' → Placed (inner.filter b.uses) b b' →
            Wrapped outer (binary n' op a' b') r → Placed (outer ++ inner) (binary n op a b) r

variable {is : List IndexVar} {e r : Expr} {i : IndexVar}

/-! ## What is still free -/

theorem Wrapped.mem_freeOccurrences (h : Wrapped is e r) {v : IndexVar} :
    v ∈ r.freeOccurrences ↔ v ∈ e.freeOccurrences ∧ v ∉ is := by
  induction h with
  | nil e => simp
  | cons n i _ ih => simp [freeOccurrences, ih, and_assoc, and_comm]

/-- A sum takes its variable away, wherever it is placed. -/
theorem Placed.mem_freeOccurrences (h : Placed is e r) {v : IndexVar} :
    v ∈ r.freeOccurrences ↔ v ∈ e.freeOccurrences ∧ v ∉ is := by
  induction h with
  | term _ hwrap => exact hwrap.mem_freeOccurrences
  | neg _ _ _ ih => exact ih
  | additive outer inner _ _ _ _ _ _ _ hwrap iha ihb =>
    rw [hwrap.mem_freeOccurrences]
    simp only [freeOccurrences, List.mem_append, iha, ihb, List.mem_filter, uses_iff]
    by_cases hinner : v ∈ inner
    · simp [hinner]
    · simp [hinner]

/-! ## What is added -/

/-- The reductions of an expression, from left to right, each by what it combines with and its
variable. -/
def reductions : Expr → List (Reducer × IndexVar)
  | undefined | access _ | literal _ _ => []
  | unary _ _ a => a.reductions
  | binary _ _ a b => a.reductions ++ b.reductions
  | reduction _ reducer i a => (reducer, i) :: a.reductions

theorem Wrapped.reductions_eq (h : Wrapped is e r) :
    r.reductions = is.map (Reducer.sum, ·) ++ e.reductions := by
  induction h with
  | nil e => rfl
  | cons n i _ ih => simp [reductions, ih]

/-- Nothing is reduced that was not, but for one sum over each variable. -/
theorem Placed.reductions_perm (h : Placed is e r) (huses : ∀ v ∈ is, v ∈ e.freeOccurrences) :
    r.reductions.Perm (is.map (Reducer.sum, ·) ++ e.reductions) := by
  induction h with
  | term _ hwrap => rw [hwrap.reductions_eq]
  | neg _ _ _ ih => exact ih huses
  | @additive outer inner op a a' b b' r n n' _ _ hinner _ _ hwrap iha ihb =>
    have hsplit : (inner.filter a.uses ++ inner.filter b.uses).Perm inner := by
      have hb : inner.filter b.uses = inner.filter fun v => !a.uses v := by
        refine List.filter_congr fun v hv => ?_
        have hab : v ∈ a.freeOccurrences ∨ v ∈ b.freeOccurrences :=
          List.mem_append.1 (huses v (List.mem_append_right outer hv))
        by_cases hva : v ∈ a.freeOccurrences
        · simp [uses, hva, hinner v hv hva]
        · simp [uses, hva, hab.resolve_left hva]
      rw [hb]
      exact List.filter_append_perm a.uses inner
    have ha := iha (by simp)
    have hb := ihb (by simp)
    rw [hwrap.reductions_eq, List.map_append, List.append_assoc]
    refine List.Perm.append_left _ ((ha.append hb).trans ?_)
    have hmap := hsplit.map (Reducer.sum, ·)
    rw [List.map_append] at hmap
    refine List.Perm.trans ?_ (hmap.append_right (a.reductions ++ b.reductions))
    simp only [List.append_assoc]
    refine List.Perm.append_left _ ?_
    rw [← List.append_assoc, ← List.append_assoc]
    exact List.perm_append_comm.append_right _

/-! ## One more variable -/

theorem Placed.refl (e : Expr) : Placed [] e e := by
  induction e with
  | undefined | access | literal | reduction => exact .term rfl (.nil _)
  | unary n op a ih =>
    cases op with
    | neg => exact .neg n n ih
    | sqrt => exact .term rfl (.nil _)
  | binary n op a b iha ihb =>
    by_cases hop : op.isAdditive = true
    · exact .additive [] [] n n hop (by simp) (by simp) iha ihb (.nil _)
    · exact .term (by simp [isTerm, hop]) (.nil _)

theorem deepSum_of_isTerm (hr : r.isTerm = true) (hi : i ∈ r.freeOccurrences) (n : NodeId) :
    ((r.deepSum i).run n).1 = reduction n .sum i r := by
  have hsum : ((r.sum i).run n).1 = reduction n .sum i r := rfl
  rw [← hsum]
  cases r with
  | undefined | literal => simp [freeOccurrences] at hi
  | access | reduction => simp [deepSum, hi]
  | unary m op a =>
    cases op with
    | neg => cases hr
    | sqrt => simp [deepSum, hi]
  | binary m op a b =>
    have hop : op.isAdditive = false := by simpa [isTerm] using hr
    have huses : a.uses i = true ∨ b.uses i = true := by simpa [freeOccurrences] using hi
    rw [deepSum, hop]
    cases ha : a.uses i with
    | true => cases b.uses i <;> rfl
    | false =>
      rw [ha] at huses
      rw [huses.resolve_left (by simp)]

section

variable {a b : Expr} {op : BinaryOp}

theorem deepSum_neg (ha : a.uses i = true) (m n : NodeId) :
    (((unary m .neg a).deepSum i).run n).1 = unary n .neg ((a.deepSum i).run (n + 1)).1 := by
  rw [deepSum, if_pos ha]
  rfl

theorem deepSum_left (hop : op.isAdditive = true) (ha : a.uses i = true) (hb : b.uses i = false)
    (m n : NodeId) :
    (((binary m op a b).deepSum i).run n).1 = binary n op ((a.deepSum i).run (n + 1)).1 b := by
  rw [deepSum, hop, ha, hb]
  rfl

theorem deepSum_right (hop : op.isAdditive = true) (ha : a.uses i = false) (hb : b.uses i = true)
    (m n : NodeId) :
    (((binary m op a b).deepSum i).run n).1 = binary n op a ((b.deepSum i).run (n + 1)).1 := by
  rw [deepSum, hop, ha, hb]
  rfl

/-- A sum stops above operands that both use its variable. -/
theorem deepSum_both (ha : a.uses i = true) (hb : b.uses i = true) (m n : NodeId) :
    (((binary m op a b).deepSum i).run n).1 = reduction n .sum i (binary m op a b) := by
  rw [deepSum, ha, hb]
  cases op.isAdditive <;> rfl

end

theorem stops_cons {a b : Expr} {is : List IndexVar} {v o : IndexVar} (h : Stops a b (o :: is) o) :
    Stops a b (v :: o :: is) v := by
  obtain ⟨w, hmem, hw, hab⟩ := h
  refine ⟨w, List.mem_cons_of_mem v hmem, .inr ?_, hab⟩
  rcases hw with rfl | hw
  · simp
  · exact (List.singleton_sublist.2 (hw.subset (by simp))).cons_cons v

theorem Stops.cons {a b : Expr} {v o : IndexVar} (h : Stops a b is v) : Stops a b (o :: is) v := by
  obtain ⟨w, hmem, hw, hab⟩ := h
  exact ⟨w, List.mem_cons_of_mem o hmem, hw.imp id fun hsub => hsub.cons o, hab⟩

/-- **One more sum.** A sum over a further variable that the expression uses goes where it belongs
as the first of the variables. -/
theorem Placed.deepSum (h : Placed is e r) (hi : i ∈ e.freeOccurrences) (hnew : i ∉ is)
    (n : NodeId) : Placed (i :: is) e ((r.deepSum i).run n).1 := by
  induction h generalizing n with
  | term hterm hwrap =>
    have hr := hwrap.mem_freeOccurrences.2 ⟨hi, hnew⟩
    cases hwrap with
    | nil =>
      rw [deepSum_of_isTerm hterm hr]
      exact .term hterm (.cons n i (.nil _))
    | cons m o hwrap =>
      rw [deepSum_of_isTerm rfl hr]
      exact .term hterm (.cons n i (.cons m o hwrap))
  | @neg is a a' m m' ha ih =>
    have hr : a'.uses i = true := uses_iff.2 (ha.mem_freeOccurrences.2 ⟨hi, hnew⟩)
    rw [deepSum_neg hr]
    exact .neg m n (ih hi hnew (n + 1))
  | @additive outer inner op a a' b b' r m m' hop houter hinner ha hb hwrap iha ihb =>
    rw [List.mem_append, not_or] at hnew
    -- The operands have kept `i`, because it is none of the variables that are placed.
    have hua : a'.uses i = a.uses i := by
      simp [uses, ha.mem_freeOccurrences, hnew.2]
    have hub : b'.uses i = b.uses i := by
      simp [uses, hb.mem_freeOccurrences, hnew.2]
    have huses : a.uses i = true ∨ b.uses i = true := by simpa [freeOccurrences] using hi
    cases hwrap with
    | @cons os _ r k o hwrap =>
      -- A sum is around the node already, and the new one goes around that.
      have hr : i ∈ (reduction k .sum o r).freeOccurrences := by
        rw [(Wrapped.cons k o hwrap).mem_freeOccurrences]
        simp only [freeOccurrences, List.mem_append, ← uses_iff, hua, hub]
        exact ⟨huses, hnew.1⟩
      rw [deepSum_of_isTerm rfl hr, ← List.cons_append]
      refine .additive (i :: o :: os) inner m m' hop ?_ hinner ha hb (.cons n i (.cons k o hwrap))
      intro v hv
      rcases List.mem_cons.1 hv with rfl | hv
      · exact stops_cons (houter o List.mem_cons_self)
      · exact (houter v hv).cons
    | nil =>
      cases hia : a.uses i with
      | true =>
        cases hib : b.uses i with
        | true =>
          -- Both operands use it, so it stops here.
          rw [deepSum_both (hua.trans hia) (hub.trans hib), List.nil_append]
          refine .additive [i] inner m m' hop ?_ hinner ha hb (.cons n i (.nil _))
          intro v hv
          rw [List.mem_singleton.1 hv]
          exact ⟨i, List.mem_cons_self, .inl rfl, uses_iff.1 hia, uses_iff.1 hib⟩
        | false =>
          rw [deepSum_left hop (hua.trans hia) (hub.trans hib), List.nil_append]
          refine .additive [] (i :: inner) m n hop (by simp) ?_ ?_ ?_ (.nil _)
          · simpa [← uses_iff, hib] using hinner
          · rw [List.filter_cons_of_pos hia]
            exact iha (uses_iff.1 hia) (fun h => hnew.2 (List.mem_of_mem_filter h)) (n + 1)
          · rwa [List.filter_cons_of_neg (by simp [hib])]
      | false =>
        have hib : b.uses i = true := by simpa [hia] using huses
        rw [deepSum_right hop (hua.trans hia) (hub.trans hib), List.nil_append]
        refine .additive [] (i :: inner) m n hop (by simp) ?_ ?_ ?_ (.nil _)
        · simpa [← uses_iff, hia] using hinner
        · rwa [List.filter_cons_of_neg (by simp [hia])]
        · rw [List.filter_cons_of_pos hib]
          exact ihb (uses_iff.1 hib) (fun h => hnew.2 (List.mem_of_mem_filter h)) (n + 1)

/-! ## All variables -/

theorem le_supply_deepSum (i : IndexVar) (e : Expr) (n : NodeId) :
    n ≤ ((e.deepSum i).run n).2 := by
  have hsum : ∀ (e : Expr) (n : NodeId), n ≤ ((e.sum i).run n).2 := fun e n => Nat.le_succ n
  have hpure : ∀ (e : Expr) (n : NodeId), n ≤ ((pure e : Fresh Expr).run n).2 := fun e n =>
    Nat.le_refl n
  induction e generalizing n with
  | undefined | access | literal | reduction =>
    simp only [deepSum]
    split
    · exact hsum _ _
    · exact hpure _ _
  | unary m op a ih =>
    cases op with
    | neg =>
      rw [deepSum]
      split
      · exact Nat.le_of_succ_le (ih (n + 1))
      · exact hpure _ _
    | sqrt =>
      simp only [deepSum]
      split
      · exact hsum _ _
      · exact hpure _ _
  | binary m op a b iha ihb =>
    rw [deepSum]
    split
    · exact hpure _ _
    · exact Nat.le_of_succ_le (iha (n + 1))
    · exact Nat.le_of_succ_le (ihb (n + 1))
    · exact hsum _ _

theorem le_supply_deepSums (is : List IndexVar) (e : Expr) (n : NodeId) :
    n ≤ ((e.deepSums is).run n).2 := by
  induction is with
  | nil => exact Nat.le_refl n
  | cons i is ih =>
    rw [deepSums, List.foldrM_cons]
    exact Nat.le_trans ih (le_supply_deepSum i _ _)

theorem placed_deepSums (hnodup : is.Nodup) (huses : ∀ v ∈ is, v ∈ e.freeOccurrences)
    (n : NodeId) : Placed is e ((e.deepSums is).run n).1 := by
  induction is generalizing n with
  | nil => exact .refl e
  | cons i is ih =>
    obtain ⟨hnew, hnodup⟩ := List.nodup_cons.1 hnodup
    rw [deepSums, List.foldrM_cons]
    exact (ih hnodup (fun v hv => huses v (List.mem_cons_of_mem i hv)) n).deepSum
      (huses i List.mem_cons_self) hnew _

end Expr

/-! ## The summed variables of an assignment -/

namespace Stmt

variable {target : Access} {value : Expr}

theorem nodup_summedVars : (summedVars target value).Nodup := (nodup_eraseDups _).filter _

theorem mem_summedVars {v : IndexVar} :
    v ∈ summedVars target value ↔ v ∈ value.freeOccurrences ∧ v ∉ target.indices := by
  simp [summedVars, Expr.freeVars]

/-- **Implicit sums are placed.** A plain assignment keeps its target, and its value gets a sum over
each of the summed variables. Without any it stays itself; otherwise it is a new one. -/
theorem placed_explicitSums (n m : NodeId) (target : Access) (value : Expr) :
    ∃ n' value' m', (assign n target value none).explicitSums.run m =
        (assign n' target value' none, m') ∧
      Expr.Placed (summedVars target value) value value' ∧
      (summedVars target value = [] ∧ n' = n ∧ value' = value ∧ m' = m ∨
        summedVars target value ≠ [] ∧ n' = m ∧ m < m') := by
  rw [explicitSums]
  cases h : summedVars target value with
  | nil => exact ⟨n, value, m, rfl, .refl value, .inl ⟨rfl, rfl, rfl, rfl⟩⟩
  | cons i is =>
    refine ⟨m, _, _, rfl, ?_, .inr ⟨by simp, rfl, ?_⟩⟩
    · rw [← h]
      exact Expr.placed_deepSums nodup_summedVars (fun v hv => (mem_summedVars.1 hv).1) (m + 1)
    · exact Expr.le_supply_deepSums (i :: is) value (m + 1)

end Stmt

end SparseTensor
