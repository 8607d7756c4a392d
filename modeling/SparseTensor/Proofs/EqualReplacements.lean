import Mathlib.Algebra.Ring.Int.Defs
import SparseTensor.Proofs.FreshNodes
import SparseTensor.Proofs.Interpretation
import SparseTensor.Proofs.Labels
import SparseTensor.Proofs.PlainSubstitution

/-!
# Equals for equals

A substitution is used to bring an expression into another form that means the same.

**Theorem (`Substitution.inExpr_equates`).** If every key has the type of what replaces it, and the
same value whatever values the index variables have, then the expression that comes out has the type
and the values of the one that went in. This holds under every interpretation.

**Idea.** An interpretation looks at an expression only through the label of its node and through
its children (`Interpretation.Equates.congr`), and so does the type. So it is enough that every node
that the substitution replaces has a replacement with its type and values. A key below a reduction
may mention the variable that is bound there: the values of key and replacement agree under all
assignments, also under those that the reduction makes.
-/

namespace SparseTensor

open Place

variable {V α : Type} {I : Interpretation V α} {a b c : Expr}

/-! ## Expressions that mean the same -/

namespace Interpretation

/-- Both have one type, and one value wherever the index variables have the same values. -/
structure Equates (I : Interpretation V α) (a b : Expr) : Prop where
  type_eq : a.type = b.type
  eval_eq : ∀ ρ, I.eval a ρ = I.eval b ρ

namespace Equates

theorem refl (I : Interpretation V α) (a : Expr) : I.Equates a a := ⟨rfl, fun _ => rfl⟩

theorem symm (h : I.Equates a b) : I.Equates b a := ⟨h.type_eq.symm, fun ρ => (h.eval_eq ρ).symm⟩

theorem trans (hab : I.Equates a b) (hbc : I.Equates b c) : I.Equates a c :=
  ⟨hab.type_eq.trans hbc.type_eq, fun ρ => (hab.eval_eq ρ).trans (hbc.eval_eq ρ)⟩

/-- **Meaning is compositional.** Nodes with one label and children that mean the same mean the
same. -/
theorem congr (hlabel : (read a).label = (read b).label)
    (h : List.Forall₂ I.Equates a.children b.children) : I.Equates a b := by
  cases a with
  | undefined =>
    cases b with
    | undefined => exact refl I _
    | _ => cases hlabel
  | access x =>
    cases b with
    | access y =>
      obtain ⟨htensor, hindices⟩ := Label.access.inj hlabel
      exact ⟨by rw [Expr.type, Expr.type, htensor], fun ρ => by rw [eval, eval, htensor, hindices]⟩
    | _ => cases hlabel
  | literal _ v =>
    cases b with
    | literal =>
      cases hlabel
      exact ⟨rfl, fun _ => rfl⟩
    | _ => cases hlabel
  | unary _ op x =>
    cases b with
    | unary _ _ y =>
      cases hlabel
      obtain ⟨hx, -⟩ := List.forall₂_cons.1 h
      refine ⟨?_, fun ρ => congrArg (I.unary op) (hx.eval_eq ρ)⟩
      cases op <;> rw [Expr.type, Expr.type, hx.type_eq]
    | _ => cases hlabel
  | binary _ op x y =>
    cases b with
    | binary _ _ x' y' =>
      cases hlabel
      obtain ⟨hx, h⟩ := List.forall₂_cons.1 h
      obtain ⟨hy, -⟩ := List.forall₂_cons.1 h
      exact ⟨congrArg₂ DataType.promote hx.type_eq hy.type_eq,
        fun ρ => congrArg₂ (I.binary op) (hx.eval_eq ρ) (hy.eval_eq ρ)⟩
    | _ => cases hlabel
  | reduction _ reducer i x =>
    cases b with
    | reduction _ _ _ x' =>
      cases hlabel
      obtain ⟨hx, -⟩ := List.forall₂_cons.1 h
      refine ⟨hx.type_eq, fun ρ => ?_⟩
      -- The reduction changes the assignment, so `hx` has to hold under all of them.
      exact congrArg (I.reduce reducer) (List.map_congr_left fun v _ => hx.eval_eq _)
    | _ => cases hlabel

theorem of_children {R : Place → Place → Prop} (hlabel : (read a).label = (read b).label)
    (h : List.Forall₂ R (read a).children (read b).children)
    (hR : ∀ c ∈ a.children, ∀ {d}, R (read c) (read d) → I.Equates c d) : I.Equates a b := by
  rw [children, children, List.forall₂_map_left_iff, List.forall₂_map_right_iff] at h
  exact .congr hlabel (forall₂_imp_of_mem (fun c hc _ => hR c hc) h)

theorem of_alike (h : a.alike b = true) : I.Equates a b := by
  induction a using Expr.induction_children generalizing b with
  | step a ih =>
    obtain ⟨hlabel, hchildren⟩ := (alike_iff (p := read a) (q := read b)).1 h
    exact of_children hlabel hchildren ih

end Equates

end Interpretation

/-! ## The main result -/

namespace Substitution

variable {m : Substitution} {e e' : Expr}

/-- Every key has the type and the values of what replaces it. -/
def Equates (m : Substitution) (I : Interpretation V α) : Prop :=
  ∀ pair ∈ m.exprs, ∀ new, m.expr? pair.1 = some new → I.Equates pair.1 new

/-- What is like a key means what replaces it. -/
theorem Equates.expr? (hm : m.Equates I) {new : Expr} (h : m.expr? e = some new) :
    I.Equates e new := by
  obtain ⟨pair, hfind, rfl⟩ := Option.map_eq_some_iff.1 h
  have hlike : pair.1.alike e = true := by
    simpa using List.find?_some hfind
  have hkey : m.expr? pair.1 = some pair.2 := (expr?_congr hlike).trans h
  exact (Interpretation.Equates.of_alike hlike).symm.trans
    (hm pair (List.mem_of_find?_eq_some hfind) pair.2 hkey)

theorem equates_of_edited (hm : m.Equates I) (h : Edited m.edit (read e) (read e')) :
    I.Equates e e' := by
  induction e using Expr.induction_children generalizing e' with
  | step e ih =>
    cases h with
    | replaced hedit =>
      obtain ⟨new, hnew, heq⟩ := Option.map_eq_some_iff.1 (edit_eq_replace.1 hedit)
      cases heq
      exact hm.expr? hnew
    | relabelled hedit => exact absurd hedit edit_ne_relabel
    | kept => exact .refl I e
    | made _ hlabel _ _ hall =>
      exact .of_children hlabel.symm hall ih

/-- **Equals for equals.** Let nothing be undefined in `e`, `n` be an identity above those of its
nodes, and every key of `m` have the type of what replaces it and, in the interpretation `I`, the
same value for all values of the index variables. Then the substitution succeeds, and the expression
that it gives has the type of `e` and its value for all values of the index variables. -/
theorem inExpr_equates (I : Interpretation V α) (m : Substitution) (e : Expr) (n : NodeId)
    (events : List TransformEvent) (he : (read e).IsWhole) (hn : (read e).Precedes n)
    (hm : m.Equates I) :
    ∃ e' events' n', Yields (m.inExpr e) events n e' events' n' ∧ e'.type = e.type ∧
      ∀ ρ, I.eval e' ρ = I.eval e ρ := by
  obtain ⟨q, events', n', hpart, hedited⟩ := m.exists_yields (p := .expr e) he hn events
  obtain ⟨e', hrun, rfl⟩ := hpart.of_map
  have hequal : I.Equates e e' := equates_of_edited hm hedited
  exact ⟨e', events', n', hrun, hequal.type_eq.symm, fun ρ => (hequal.eval_eq ρ).symm⟩

/-- In `sum(i, (b(i) + b(i)) * b(i))` the sum of `b(i)` with itself becomes `2 * b(i)` as a whole,
and the `b(i)` beside it becomes `--b(i)`. The key mentions the variable that is bound there. If
`b` has the values one, two and three, the value stays 28. -/
theorem inExpr_equates_doubled :
    let i : IndexVar := ⟨0, "i"⟩
    let b (k : NodeId) : Expr :=
      .access ⟨k, ⟨0, "b", ⟨.int .w64, ⟨[.unknown]⟩⟩, .dense 1⟩, [i]⟩
    let twice (k : NodeId) : Expr := .binary (k + 2) .add (b k) (b (k + 1))
    let m := (Substitution.empty.insertExpr (b 0) (.unary 2 .neg (.unary 1 .neg (b 0)))).insertExpr
      (twice 0) (.binary 4 .mul (.literal 3 (.int .w64 2)) (b 0))
    let e : Expr := .reduction 10 .sum i (.binary 9 .mul (twice 5) (b 8))
    let I : Interpretation Int Int := RingInterpretation.toInterpretation
      ⟨fun _ => [1, 2, 3], 0, fun _ vs => vs.sum, fun v => v.toInt?.getD 0, id, fun x _ => x⟩
    (read e).IsWhole ∧ (read e).Precedes 11 ∧ m.Equates I ∧
      ∃ e' events' n', Yields (m.inExpr e) [] 11 e' events' n' ∧ e'.type = .int .w64 ∧
        ∀ ρ, I.eval e' ρ = 28 := by
  intro i b twice m e I
  have he : (read e).IsWhole := by
    rw [isWhole_iff_allLabels, allLabels_reduction, allLabels_binary, allLabels_binary,
      allLabels_leaf rfl, allLabels_leaf rfl, allLabels_leaf rfl]
    exact ⟨rfl, rfl, ⟨rfl, rfl, rfl⟩, rfl⟩
  have hn : (read e).Precedes 11 := precedes_read.2 (by decide +kernel)
  have hm : m.Equates I := by
    intro pair hpair new hnew
    rcases List.mem_cons.1 hpair with rfl | hpair
    · cases hnew
      exact ⟨rfl, fun ρ => (Int.two_mul _).symm⟩
    · cases List.mem_singleton.1 hpair
      cases hnew
      exact ⟨rfl, fun ρ => (Int.neg_neg _).symm⟩
  obtain ⟨e', events', n', hrun, htype, heval⟩ := inExpr_equates I m e 11 [] he hn hm
  refine ⟨he, hn, hm, e', events', n', hrun, htype, fun ρ => (heval ρ).trans ?_⟩
  show I.eval e ρ = 28
  simp [I, e, i, b, twice, Interpretation.eval, RingInterpretation.toInterpretation]

end Substitution

end SparseTensor
