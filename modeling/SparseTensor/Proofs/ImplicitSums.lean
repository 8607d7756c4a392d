import SparseTensor.Proofs.SummedTerms

/-!
# The meaning of implicit sums

What a plain assignment means once its sums are written out (`Stmt.eval_explicitSums`), and when it
is what one would expect.

- A term is summed over its own variables only, unless it is in a sum or a difference both operands
  of which use one summed variable. Then it may be multiplied by the size of a range that it has
  nothing to do with (`Stmt.eval_explicitSums_shared`).
- The operands of an addition may be swapped if this does not change the order in which the summed
  variables are used first. That order decides which sums hold up which, so that another order may
  give another value (`Stmt.eval_explicitSums_swapped`).
-/

namespace SparseTensor

open SparseTensor.Expr

variable {V α : Type} [CommRing α] {I : RingInterpretation V α}

/-! ## Swapped operands -/

/-- The second expression is the first with the operands of one addition swapped. -/
inductive Expr.Swap : Expr → Expr → Prop
  | here (n n' : NodeId) (a b : Expr) : Swap (binary n .add a b) (binary n' .add b a)
  | unary {a a' : Expr} (n n' : NodeId) (op : UnaryOp) :
      Swap a a' → Swap (unary n op a) (unary n' op a')
  | left {a a' : Expr} (n n' : NodeId) (op : BinaryOp) (b : Expr) :
      Swap a a' → Swap (binary n op a b) (binary n' op a' b)
  | right {b b' : Expr} (n n' : NodeId) (op : BinaryOp) (a : Expr) :
      Swap b b' → Swap (binary n op a b) (binary n' op a b')
  | reduction {a a' : Expr} (n n' : NodeId) (reducer : Reducer) (i : IndexVar) :
      Swap a a' → Swap (reduction n reducer i a) (reduction n' reducer i a')

namespace Expr.Swap

variable {e e' : Expr}

theorem mem_freeOccurrences (h : Swap e e') (v : IndexVar) :
    v ∈ e.freeOccurrences ↔ v ∈ e'.freeOccurrences := by
  induction h with
  | here => simp [freeOccurrences, or_comm]
  | unary _ _ _ _ ih => exact ih
  | left _ _ _ _ _ ih | right _ _ _ _ _ ih | reduction _ _ _ _ _ ih =>
    simp [freeOccurrences, ih]

theorem uses_eq (h : Swap e e') (v : IndexVar) : e.uses v = e'.uses v := by
  rw [Bool.eq_iff_iff, uses_iff, uses_iff, h.mem_freeOccurrences]

theorem eval_eq (h : Swap e e') (ρ : IndexVar → V) : I.eval e ρ = I.eval e' ρ := by
  induction h generalizing ρ with
  | here => exact add_comm _ _
  | unary n n' op _ ih => exact congrArg (I.toInterpretation.unary op) (ih ρ)
  | left n n' op b _ ih => exact congrArg (I.toInterpretation.binary op · (I.eval b ρ)) (ih ρ)
  | right n n' op a _ ih => exact congrArg (I.toInterpretation.binary op (I.eval a ρ)) (ih ρ)
  | reduction n n' reducer i _ ih =>
    refine congrArg (I.toInterpretation.reduce reducer) (List.map_congr_left fun v _ => ?_)
    exact ih (Function.update ρ i v)

end Expr.Swap

/-- Two terms of one sign and one value, summed over the same variables. -/
structure Term.Like (I : RingInterpretation V α) (t t' : Term) : Prop where
  sign : t.sign = t'.sign
  eval : ∀ ρ, I.eval t.expr ρ = I.eval t'.expr ρ
  uses : ∀ v, t.expr.uses v = t'.expr.uses v
  covered : ∀ is v, t.covered is v = t'.covered is v

namespace Term.Like

variable {t t' : Term}

theorem refl (t : Term) : Like I t t := ⟨rfl, fun _ => rfl, fun _ => rfl, fun _ _ => rfl⟩

theorem ofSwap {e e' : Expr} (h : Swap e e') : Like I ⟨1, [], e⟩ ⟨1, [], e'⟩ :=
  ⟨rfl, h.eval_eq, h.uses_eq, fun _ _ => rfl⟩

theorem scale (h : Like I t t') (c : Int) : Like I (t.scale c) (t'.scale c) :=
  ⟨congrArg (c * ·) h.sign, h.eval, h.uses, h.covered⟩

/-- Where a term is does not matter beyond what the operands around it use. -/
theorem inside (h : Like I t t') {a b a' b' : Expr}
    (hab : ∀ v, v ∈ a.freeOccurrences ∧ v ∈ b.freeOccurrences ↔
      v ∈ a'.freeOccurrences ∧ v ∈ b'.freeOccurrences)
    (hor : ∀ v, v ∈ a.freeOccurrences ∨ v ∈ b.freeOccurrences ↔
      v ∈ a'.freeOccurrences ∨ v ∈ b'.freeOccurrences) :
    Like I (t.inside a b) (t'.inside a' b') := by
  refine ⟨h.sign, h.eval, h.uses, fun is v => ?_⟩
  have hstops : Stops a b is v ↔ Stops a' b' is v := by simp only [Stops, hab]
  have hcovered := h.covered is v
  rw [Bool.eq_iff_iff, covered_iff, covered_iff] at hcovered ⊢
  simp only [Term.inside, List.mem_cons, exists_eq_or_imp, hor, hstops, hcovered]

theorem summedOver_eq (h : Like I t t') (is : List IndexVar) :
    t.summedOver is = t'.summedOver is := by
  refine List.filter_congr fun v _ => ?_
  rw [h.uses, h.covered]

end Term.Like

theorem Expr.sum_terms_additive {op : BinaryOp} (hop : op.isAdditive = true) (n : NodeId)
    (a b : Expr) (g : Term → α) : ((binary n op a b).terms.map g).sum =
      (a.terms.map fun t => g (t.inside a b)).sum +
        (b.terms.map fun t => g ((t.scale op.sign).inside a b)).sum := by
  simp [terms, hop, Function.comp_def]

/-- Swapping operands changes the order of the terms and nothing that counts for a sum over them. -/
theorem Expr.Swap.sum_terms {e e' : Expr} (h : Swap e e') {g : Term → α}
    (hg : ∀ t t', Term.Like I t t' → g t = g t') :
    (e.terms.map g).sum = (e'.terms.map g).sum := by
  induction h generalizing g with
  | here n n' a b =>
    have hterm : ∀ (a b : Expr) (t : Term), g (t.inside a b) = g ((t.scale 1).inside b a) := by
      intro a b t
      have hscale : Term.Like I t (t.scale 1) :=
        ⟨(one_mul t.sign).symm, fun _ => rfl, fun _ => rfl, fun _ _ => rfl⟩
      exact hg _ _ (hscale.inside (fun v => and_comm) fun v => or_comm)
    rw [sum_terms_additive rfl, sum_terms_additive rfl, add_comm, funext (hterm a b),
      funext (hterm b a)]
    rfl
  | unary n n' op hswap ih =>
    cases op with
    | neg =>
      rw [terms, terms, List.map_map, List.map_map]
      exact ih fun t t' ht => hg _ _ (ht.scale (-1))
    | sqrt => simp [terms, hg _ _ (Term.Like.ofSwap (hswap.unary n n' .sqrt))]
  | @left a a' n n' op b hswap ih =>
    by_cases hop : op.isAdditive = true
    · have hinside : ∀ t t', Term.Like I t t' → g (t.inside a b) = g (t'.inside a' b) :=
        fun t t' ht => hg _ _ (ht.inside (by simp [hswap.mem_freeOccurrences])
          (by simp [hswap.mem_freeOccurrences]))
      rw [sum_terms_additive hop, sum_terms_additive hop]
      simp only [hinside _ _ (Term.Like.refl _)]
      rw [ih fun t t' ht => hg _ _ (ht.inside (fun _ => Iff.rfl) fun _ => Iff.rfl)]
    · simp [terms, hop, hg _ _ (Term.Like.ofSwap (hswap.left n n' op b))]
  | @right b b' n n' op a hswap ih =>
    by_cases hop : op.isAdditive = true
    · have hinside : ∀ t t', Term.Like I t t' → g (t.inside a b) = g (t'.inside a b') :=
        fun t t' ht => hg _ _ (ht.inside (by simp [hswap.mem_freeOccurrences])
          (by simp [hswap.mem_freeOccurrences]))
      rw [sum_terms_additive hop, sum_terms_additive hop]
      simp only [hinside _ _ (Term.Like.refl _)]
      rw [ih fun t t' ht => hg _ _ ((ht.scale op.sign).inside (fun _ => Iff.rfl) fun _ => Iff.rfl)]
    · simp [terms, hop, hg _ _ (Term.Like.ofSwap (hswap.right n n' op a))]
  | reduction n n' reducer i hswap ih =>
    simp [terms, hg _ _ (Term.Like.ofSwap (hswap.reduction n n' reducer i))]

namespace Term

/-- Unless a sum or a difference that the term is in has operands that use one summed variable, the
term is summed over the variables that it uses. -/
theorem summedOver_of_apart {is : List IndexVar} {t : Term} (h : ∀ p ∈ t.above, ∀ v ∈ is,
    v ∈ p.1.freeOccurrences → v ∉ p.2.freeOccurrences) :
    t.summedOver is = is.filter t.expr.uses := by
  refine List.filter_congr fun v _ => ?_
  have hcovered : t.covered is v = false := by
    rw [Bool.eq_false_iff, ne_eq, covered_iff]
    rintro ⟨p, hp, -, w, hw, -, hwa, hwb⟩
    exact h p hp w hw hwa hwb
  rw [hcovered, Bool.or_false]

end Term

theorem Expr.Swap.signedSum_eq {e e' : Expr} (h : Swap e e') (is : List IndexVar)
    (ρ : IndexVar → V) :
    I.signedSum (Term.summedOver is) e.terms ρ = I.signedSum (Term.summedOver is) e'.terms ρ := by
  refine h.sum_terms (I := I) fun t t' ht => ?_
  have heval : I.eval t.expr = I.eval t'.expr := funext ht.eval
  rw [ht.sign, ht.summedOver_eq, heval]

/-! ## Assignments -/

namespace Stmt

/-- **The meaning of implicit sums.** A plain assignment keeps its target when its sums are written
out. Its value becomes the signed sum of its terms, each summed over those of the summed variables
that it uses and those that cover it. A term is summed over no other variables than its own unless
both operands of a sum or a difference that it is in use one summed variable. Swapping the operands
of an addition keeps the value if it keeps the order of the summed variables. -/
theorem eval_explicitSums (I : RingInterpretation V α) (target : Access) (value : Expr)
    (n m : NodeId) : ∃ n' value' m',
      (assign n target value none).explicitSums.run m = (assign n' target value' none, m') ∧
      (∀ ρ, I.eval value' ρ =
        I.signedSum (Term.summedOver (summedVars target value)) value.terms ρ) ∧
      (∀ t ∈ value.terms, (∀ p ∈ t.above, ∀ v ∈ summedVars target value,
          v ∈ p.1.freeOccurrences → v ∉ p.2.freeOccurrences) →
        t.summedOver (summedVars target value) =
          (summedVars target value).filter t.expr.uses) ∧
      ∀ other, Swap value other → summedVars target other = summedVars target value →
        ∀ k l k' other' l', (assign k target other none).explicitSums.run l =
            (assign k' target other' none, l') → ∀ ρ, I.eval other' ρ = I.eval value' ρ := by
  have hvalue : ∀ {value value' : Expr}, Placed (summedVars target value) value value' → ∀ ρ,
      I.eval value' ρ = I.signedSum (Term.summedOver (summedVars target value)) value.terms ρ :=
    fun h => I.eval_placed h nodup_summedVars fun v hv => (mem_summedVars.1 hv).1
  obtain ⟨n', value', m', hrun, hplaced, -⟩ := placed_explicitSums n m target value
  refine ⟨n', value', m', hrun, hvalue hplaced, fun t _ => Term.summedOver_of_apart, ?_⟩
  intro other hswap hvars k l k' other' l' hother ρ
  obtain ⟨_, _, _, hrun', hplaced', -⟩ := placed_explicitSums k l target other
  rw [hrun'] at hother
  cases hother
  rw [hvalue hplaced, hvalue hplaced', hvars, hswap.signedSum_eq]

/-- In `x = b(i) + c + d(i)` the sum over `i` covers `c`. If everything is one and `i` has two
values, `x` becomes six. Summed over the variables that they use, the terms come to five. -/
theorem eval_explicitSums_shared :
    let i : IndexVar := ⟨0, "i"⟩
    let vector (k : Nat) (name : String) : TensorVar :=
      ⟨k, name, ⟨.float .double, ⟨[.unknown]⟩⟩, .dense 1⟩
    let x : Access := ⟨0, .scalar 0 "x" (.float .double), []⟩
    let b : Expr := .access ⟨1, vector 1 "b", [i]⟩
    let c : Expr := .access ⟨2, .scalar 2 "c" (.float .double), []⟩
    let d : Expr := .access ⟨3, vector 3 "d", [i]⟩
    let value : Expr := .binary 5 .add (.binary 4 .add b c) d
    let I : RingInterpretation Nat Int :=
      ⟨fun _ => [0, 1], 0, fun _ _ => 1, fun _ => 0, id, fun y _ => y⟩
    let ρ : IndexVar → Nat := fun _ => 0
    ∃ value', (assign 6 x value none).explicitSums.run 7 = (assign 7 x value' none, 9) ∧
      I.eval value' ρ = 6 ∧
      I.signedSum (fun t => (summedVars x value).filter t.expr.uses) value.terms ρ = 5 := by
  intro i vector x b c d value I ρ
  exact ⟨.reduction 8 .sum i value, rfl, by decide +kernel, by decide +kernel⟩

/-- The order of first use cannot be left out. In `x = b(i) + c(j) + d(j)` the sum over `j` is
placed at the root and holds up the one over `i`. With `b` and `c` swapped, the sum over `i` is
placed first and goes down to `b`. If everything is one and both variables have two values, `x`
becomes twelve in the one case and eight in the other. -/
theorem eval_explicitSums_swapped :
    let i : IndexVar := ⟨0, "i"⟩
    let j : IndexVar := ⟨1, "j"⟩
    let vector (k : Nat) (name : String) : TensorVar :=
      ⟨k, name, ⟨.float .double, ⟨[.unknown]⟩⟩, .dense 1⟩
    let x : Access := ⟨0, .scalar 0 "x" (.float .double), []⟩
    let b : Expr := .access ⟨1, vector 1 "b", [i]⟩
    let c : Expr := .access ⟨2, vector 2 "c", [j]⟩
    let d : Expr := .access ⟨3, vector 3 "d", [j]⟩
    let value : Expr := .binary 5 .add (.binary 4 .add b c) d
    let other : Expr := .binary 5 .add (.binary 4 .add c b) d
    let I : RingInterpretation Nat Int :=
      ⟨fun _ => [0, 1], 0, fun _ _ => 1, fun _ => 0, id, fun y _ => y⟩
    let ρ : IndexVar → Nat := fun _ => 0
    Swap value other ∧ summedVars x value = [i, j] ∧ summedVars x other = [j, i] ∧
      ∃ value' other' m m',
        (assign 6 x value none).explicitSums.run 7 = (assign 7 x value' none, m) ∧
        (assign 6 x other none).explicitSums.run 7 = (assign 7 x other' none, m') ∧
        I.eval value' ρ = 12 ∧ I.eval other' ρ = 8 := by
  intro i j vector x b c d value other I ρ
  refine ⟨.left 5 5 .add d (.here 4 4 b c), by decide +kernel, by decide +kernel,
    .reduction 9 .sum i (.reduction 8 .sum j value),
    .reduction 11 .sum j (.binary 8 .add (.binary 9 .add c (.reduction 10 .sum i b)) d), 10, 12,
    rfl, rfl, ?_, ?_⟩
  · decide +kernel
  · decide +kernel

end Stmt

end SparseTensor
