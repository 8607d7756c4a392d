import Mathlib.Data.List.Perm.Basic
import SparseTensor.Notation.Occurrences

/-!
# Promoting several types

Types are promoted two at a time. How more than two are grouped and in which order they come
matters in one situation only (`DataType.OrderMatters`): a floating point or complex type is to be
met in single precision, and among the others there are a signed integer and an unsigned one of 32
bits. If these two meet each other first they make an integer of 64 bits, which asks for double
precision.

**Theorem (`promoteAll_regrouped`).** Outside of this situation every grouping of the types, in
every order, has the type that promoting them one after another has, and in it there are two orders
that differ. So the operands of sums and of products may be regrouped and exchanged, at any depth of
an expression, without a change of its type.

What types come to is known by their members, up to the precision (`Serves`), and the precision is
known unless the order matters. Integers and truth values alone may be regrouped without further
ado, since their promotion is associative (`promote_assoc`).
-/

namespace SparseTensor

namespace Width

theorem sup_comm (a b : Width) : a.sup b = b.sup a := by cases a <;> cases b <;> rfl

theorem sup_left_comm (a b c : Width) : a.sup (b.sup c) = b.sup (a.sup c) := by
  cases a <;> cases b <;> cases c <;> rfl

theorem double_sup (a b : Width) : (a.sup b).double = a.double.sup b.double := by
  cases a <;> cases b <;> rfl

end Width

namespace DataType

/-- Whether components of the type are floating point numbers or made of them. -/
def isFloating (t : DataType) : Bool := t.isFloat || t.isComplex

/-- The types are promoted differently in different orders: there is a floating point or complex
type to be met in single precision, a signed integer and an unsigned one of 32 bits. -/
def OrderMatters (types : List DataType) : Prop :=
  (∃ t ∈ types, t.isFloating = true) ∧ (∃ t ∈ types, t.isInt = true) ∧ uint .w32 ∈ types ∧
    ∀ t ∈ types, t.needsDouble = false

instance (types : List DataType) : Decidable (OrderMatters types) :=
  inferInstanceAs (Decidable ((∃ t ∈ types, t.isFloating = true) ∧ (∃ t ∈ types, t.isInt = true) ∧
    uint .w32 ∈ types ∧ ∀ t ∈ types, t.needsDouble = false))

variable {a b c v w : DataType} {types types' xs ys : List DataType}

/-! ## Two types -/

theorem promote_comm (a b : DataType) : promote a b = promote b a := by
  cases a <;> cases b <;> simp [promote, commonPrecision, Bool.or_comm, Width.sup_comm]

@[simp] theorem isFloating_promote (a b : DataType) :
    (promote a b).isFloating = (a.isFloating || b.isFloating) := by
  cases a <;> cases b <;> rfl

@[simp] theorem isComplex_promote (a b : DataType) :
    (promote a b).isComplex = (a.isComplex || b.isComplex) := by
  cases a <;> cases b <;> rfl

/-- Nothing but a signed integer makes one. -/
theorem isInt_of_promote (h : (promote a b).isInt = true) : a.isInt = true ∨ b.isInt = true := by
  cases a <;> cases b <;> simp_all [promote, isInt]

/-- An unsigned integer is as wide as one of those that it is made of. -/
theorem eq_uint_of_promote {w : Width} (h : promote a b = uint w) : a = uint w ∨ b = uint w := by
  have hall : ∀ a ∈ all, ∀ b ∈ all, (promote a b).isUInt = true →
      promote a b = a ∨ promote a b = b := by
    decide
  rw [← h, eq_comm (a := a), eq_comm (a := b)]
  exact hall a (mem_all a) b (mem_all b) (by rw [h]; rfl)

theorem needsDouble_promote_left (b : DataType) (h : a.needsDouble = true) :
    (promote a b).needsDouble = true := by
  have hall : ∀ a ∈ all, ∀ b ∈ all, a.needsDouble = true → (promote a b).needsDouble = true := by
    decide
  exact hall a (mem_all a) b (mem_all b) h

/-- Two types that meet in single precision make one that does not in one case only. -/
theorem of_needsDouble_promote (h : (promote a b).needsDouble = true)
    (ha : a.needsDouble = false) (hb : b.needsDouble = false) :
    a.isInt = true ∧ b = uint .w32 ∨ a = uint .w32 ∧ b.isInt = true := by
  have hall : ∀ a ∈ all, ∀ b ∈ all, (promote a b).needsDouble = true → a.needsDouble = false →
      b.needsDouble = false → a.isInt = true ∧ b = uint .w32 ∨ a = uint .w32 ∧ b.isInt = true := by
    decide
  exact hall a (mem_all a) b (mem_all b) h ha hb

/-- A floating point type asks for double precision if it did or if the other one does. -/
theorem needsDouble_promote (ha : a.isFloating = true) (b : DataType) :
    (promote a b).needsDouble = (a.needsDouble || b.needsDouble) := by
  rw [Bool.eq_iff_iff, Bool.or_eq_true]
  constructor
  · intro h
    by_contra hsingle
    simp only [not_or, Bool.not_eq_true] at hsingle
    rcases of_needsDouble_promote h hsingle.1 hsingle.2 with ⟨hint, -⟩ | ⟨rfl, -⟩
    · cases a <;> simp_all [isFloating, isFloat, isComplex, isInt]
    · cases ha
  · rintro (h | h)
    · exact needsDouble_promote_left b h
    · rw [promote_comm]
      exact needsDouble_promote_left a h

/-- A floating point type is told from the others by its kind and its precision. -/
theorem eq_of_isFloating (hv : v.isFloating = true) (hw : w.isFloating = true)
    (hcomplex : v.isComplex = w.isComplex) (hdouble : v.needsDouble = w.needsDouble) : v = w := by
  have hall : ∀ v ∈ all, ∀ w ∈ all, v.isFloating = true → w.isFloating = true →
      v.isComplex = w.isComplex → v.needsDouble = w.needsDouble → v = w := by
    decide
  exact hall v (mem_all v) w (mem_all w) hv hw hcomplex hdouble

/-! ## Three types -/

/-- Types without floating point numbers may be added to a third type in either order. -/
theorem promote_right_comm (a : DataType) (hb : b.isFloating = false) (hc : c.isFloating = false) :
    promote (promote a b) c = promote (promote a c) b := by
  cases ha : a.isFloating with
  | true =>
    apply eq_of_isFloating
    · simp [ha]
    · simp [ha]
    · simp [Bool.or_right_comm]
    · simp [needsDouble_promote, ha, Bool.or_right_comm]
  | false =>
    cases a <;> cases b <;> cases c <;>
      simp_all [promote, isFloating, isFloat, isComplex, Width.double_sup, Width.sup_comm,
        Width.sup_left_comm]

theorem promote_assoc (ha : a.isFloating = false) (hc : c.isFloating = false) :
    promote (promote a b) c = promote a (promote b c) := by
  rw [promote_comm a b, promote_right_comm b ha hc, promote_comm]

/-! ## What several types come to -/

/-- `v` is what the types come to in some order. The order has no say in anything but the
precision. -/
structure Serves (types : List DataType) (v : DataType) : Prop where
  floating : v.isFloating = types.any isFloating
  complex : v.isComplex = types.any isComplex
  int : v.isInt = true → types.any isInt = true
  uint : ∀ w, v = .uint w → .uint w ∈ types
  double : types.any needsDouble = true → v.needsDouble = true
  /-- Double precision for which no type asks is due to two of them together. -/
  excess : v.needsDouble = true → types.any needsDouble = false →
    types.any isInt = true ∧ .uint .w32 ∈ types

theorem serves_nil : Serves [] undefined where
  floating := rfl
  complex := rfl
  int := nofun
  uint := nofun
  double := nofun
  excess := nofun

theorem serves_single (t : DataType) : Serves [t] t := by
  constructor <;> simp_all

theorem Serves.append (hv : Serves xs v) (hw : Serves ys w) : Serves (xs ++ ys) (promote v w) where
  floating := by rw [isFloating_promote, hv.floating, hw.floating, List.any_append]
  complex := by rw [isComplex_promote, hv.complex, hw.complex, List.any_append]
  int := by
    intro h
    rw [List.any_append, Bool.or_eq_true]
    exact (isInt_of_promote h).imp hv.int hw.int
  uint := by
    intro u h
    rw [List.mem_append]
    exact (eq_uint_of_promote h).imp (hv.uint u) (hw.uint u)
  double := by
    intro h
    rw [List.any_append, Bool.or_eq_true] at h
    rcases h with h | h
    · exact needsDouble_promote_left w (hv.double h)
    · rw [promote_comm]
      exact needsDouble_promote_left v (hw.double h)
  excess := by
    intro h hsingle
    rw [List.any_append, Bool.or_eq_false_iff] at hsingle
    rw [List.any_append, Bool.or_eq_true, List.mem_append]
    cases hdv : v.needsDouble with
    | true => exact (hv.excess hdv hsingle.1).imp .inl .inl
    | false =>
      cases hdw : w.needsDouble with
      | true => exact (hw.excess hdw hsingle.2).imp .inr .inr
      | false =>
        rcases of_needsDouble_promote h hdv hdw with ⟨hint, huint⟩ | ⟨huint, hint⟩
        · exact ⟨.inl (hv.int hint), .inr (hw.uint _ huint)⟩
        · exact ⟨.inr (hw.int hint), .inl (hv.uint _ huint)⟩

theorem Serves.perm (h : Serves types v) (hperm : types.Perm types') : Serves types' v where
  floating := by rw [h.floating, hperm.any_eq]
  complex := by rw [h.complex, hperm.any_eq]
  int := by rw [← hperm.any_eq]; exact h.int
  uint := fun w hw => hperm.mem_iff.1 (h.uint w hw)
  double := by rw [← hperm.any_eq]; exact h.double
  excess := by rw [← hperm.any_eq, ← hperm.any_eq, ← hperm.mem_iff]; exact h.excess

/-- Where the order does not matter, double precision is what one of the types asks for. -/
theorem Serves.needsDouble_eq (h : Serves types v) (horder : ¬ OrderMatters types)
    (hfloating : types.any isFloating = true) : v.needsDouble = types.any needsDouble := by
  cases hdouble : types.any needsDouble with
  | true => exact h.double hdouble
  | false =>
    rw [Bool.eq_false_iff]
    intro hv
    obtain ⟨hint, huint⟩ := h.excess hv hdouble
    exact horder
      ⟨List.any_eq_true.1 hfloating, List.any_eq_true.1 hint, huint, by simpa using hdouble⟩

theorem Serves.unique (hv : Serves types v) (hw : Serves types w)
    (horder : ¬ OrderMatters types) (hfloating : types.any isFloating = true) : v = w := by
  apply eq_of_isFloating
  · rw [hv.floating, hfloating]
  · rw [hw.floating, hfloating]
  · rw [hv.complex, hw.complex]
  · rw [hv.needsDouble_eq horder hfloating, hw.needsDouble_eq horder hfloating]

/-! ## One after another -/

theorem Serves.foldl (h : Serves xs v) : Serves (xs ++ ys) (ys.foldl promote v) := by
  induction ys generalizing xs v with
  | nil => rwa [List.append_nil]
  | cons t ys ih =>
    rw [← List.singleton_append, ← List.append_assoc]
    exact ih (h.append (serves_single t))

theorem serves_promoteAll (types : List DataType) : Serves types (promoteAll types) :=
  serves_nil.foldl

/-- Without floating point numbers, types may be promoted among themselves first. -/
theorem foldl_promote (ha : a.isFloating = false) (htypes : types.any isFloating = false) :
    types.foldl promote a = promote a (promoteAll types) := by
  induction types generalizing a with
  | nil => cases a <;> rfl
  | cons t types ih =>
    rw [List.any_cons, Bool.or_eq_false_iff] at htypes
    obtain ⟨ht, htypes⟩ := htypes
    have hrest : (promoteAll types).isFloating = false := by
      rw [(serves_promoteAll types).floating, htypes]
    calc (t :: types).foldl promote a
      _ = promote (promote a t) (promoteAll types) := ih (by simp [ha, ht]) htypes
      _ = promote a (promote t (promoteAll types)) := promote_assoc ha hrest
      _ = promote a (promoteAll (t :: types)) := congrArg _ (ih ht htypes).symm

theorem promoteAll_append (h : (xs ++ ys).any isFloating = false) :
    promoteAll (xs ++ ys) = promote (promoteAll xs) (promoteAll ys) := by
  rw [List.any_append, Bool.or_eq_false_iff] at h
  rw [promoteAll, List.foldl_append]
  exact foldl_promote ((serves_promoteAll xs).floating.trans h.1) h.2

theorem promoteAll_perm (h : types.any isFloating = false) (hperm : types.Perm types') :
    promoteAll types = promoteAll types' := by
  have hwhole : ∀ t ∈ types, t.isFloating = false := by simpa using h
  exact hperm.foldl_eq' (fun b hb c hc a => promote_right_comm a (hwhole b hb) (hwhole c hc)) _

/-! ## Two at a time -/

/-- A way to promote types two at a time. -/
inductive Pairing where
  | single (t : DataType)
  | pair (a b : Pairing)

namespace Pairing

/-- The types from left to right. -/
def leaves : Pairing → List DataType
  | single t => [t]
  | pair a b => a.leaves ++ b.leaves

/-- What the types come to. -/
def type : Pairing → DataType
  | single t => t
  | pair a b => promote a.type b.type

theorem serves (g : Pairing) : Serves g.leaves g.type := by
  induction g with
  | single t => exact serves_single t
  | pair a b iha ihb => exact iha.append ihb

theorem type_eq_promoteAll (g : Pairing) (h : g.leaves.any isFloating = false) :
    g.type = promoteAll g.leaves := by
  induction g with
  | single t => rfl
  | pair a b iha ihb =>
    have hab := h
    rw [leaves, List.any_append, Bool.or_eq_false_iff] at hab
    rw [type, iha hab.1, ihb hab.2, leaves, promoteAll_append h]

/-- Where the order does not matter, the groups do not matter either. -/
theorem type_eq_of_perm (g : Pairing) (hperm : g.leaves.Perm types)
    (h : ¬ OrderMatters types) : g.type = promoteAll types := by
  cases hfloating : types.any isFloating with
  | true => exact (g.serves.perm hperm).unique (serves_promoteAll types) h hfloating
  | false =>
    rw [← hperm.any_eq] at hfloating
    rw [g.type_eq_promoteAll hfloating, promoteAll_perm hfloating hperm]

end Pairing

theorem promoteAll_eq_of_perm (hperm : types'.Perm types) (h : ¬ OrderMatters types) :
    promoteAll types' = promoteAll types := by
  cases hfloating : types.any isFloating with
  | true =>
    exact ((serves_promoteAll types').perm hperm).unique (serves_promoteAll types) h hfloating
  | false => exact (promoteAll_perm hfloating hperm.symm).symm

/-! ## Where the order matters -/

theorem needsDouble_foldl (h : a.needsDouble = true) :
    (types.foldl promote a).needsDouble = true := by
  induction types generalizing a with
  | nil => exact h
  | cons t types ih => exact ih (needsDouble_promote_left t h)

/-- Single precision is kept from the first floating point type on. -/
theorem not_needsDouble_foldl (ha : a.isFloating = true) (h : a.needsDouble = false)
    (htypes : ∀ t ∈ types, t.needsDouble = false) :
    (types.foldl promote a).needsDouble = false := by
  induction types generalizing a with
  | nil => exact h
  | cons t types ih =>
    obtain ⟨ht, htypes⟩ := List.forall_mem_cons.1 htypes
    refine ih ?_ ?_ htypes
    · rw [isFloating_promote, ha, Bool.true_or]
    · rw [needsDouble_promote ha, h, ht, Bool.or_self]

theorem promoteAll_cons (t : DataType) (types : List DataType) :
    promoteAll (t :: types) = types.foldl promote t := rfl

/-- Begin with a floating point type, or with the two integers. -/
theorem exists_perm_of_orderMatters (h : OrderMatters types) :
    ∃ xs ys, xs.Perm types ∧ ys.Perm types ∧ promoteAll xs ≠ promoteAll ys := by
  obtain ⟨⟨f, hf, hfloating⟩, ⟨i, hi, hint⟩, huint, hsingle⟩ := h
  have huint : uint .w32 ∈ types.erase i := by
    refine (List.mem_erase_of_ne ?_).2 huint
    rintro rfl
    cases hint
  refine ⟨f :: types.erase f, i :: uint .w32 :: (types.erase i).erase (uint .w32),
    (List.perm_cons_erase hf).symm,
    (((List.perm_cons_erase huint).cons i).symm.trans (List.perm_cons_erase hi).symm), ?_⟩
  have hfirst : (promoteAll (f :: types.erase f)).needsDouble = false := by
    rw [promoteAll_cons]
    exact not_needsDouble_foldl hfloating (hsingle f hf) fun t ht =>
      hsingle t (List.mem_of_mem_erase ht)
  have hmeet : (promote i (uint .w32)).needsDouble = true := by
    cases i with
    | int w => cases w <;> rfl
    | _ => cases hint
  have hsecond : (promoteAll (i :: uint .w32 :: (types.erase i).erase (uint .w32))).needsDouble =
      true := by
    rw [promoteAll_cons, List.foldl_cons]
    exact needsDouble_foldl hmeet
  intro heq
  rw [heq, hsecond] at hfirst
  cases hfirst

end DataType

/-! ## Operands of an expression -/

namespace Expr

open DataType (OrderMatters Pairing)

variable {a a' b b' e e' : Expr}

/-- The operands of a chain of nodes with the operator, from left to right. An expression with
another root is the only operand. -/
def operands (op : BinaryOp) : Expr → List Expr
  | binary n f a b => if f = op then a.operands op ++ b.operands op else [binary n f a b]
  | e => [e]

/-- The second expression has the same operands in the same chains, regrouped and exchanged. A chain
is regrouped as a whole, where the order of its types does not matter. -/
inductive Regrouped : Expr → Expr → Prop
  | refl (e : Expr) : Regrouped e e
  | unary (n n' : NodeId) (op : UnaryOp) {a a' : Expr} :
      Regrouped a a' → Regrouped (.unary n op a) (.unary n' op a')
  | binary (n n' : NodeId) (op : BinaryOp) {a a' b b' : Expr} :
      Regrouped a a' → Regrouped b b' → Regrouped (.binary n op a b) (.binary n' op a' b')
  | reduction (n n' : NodeId) (reducer : Reducer) (i : IndexVar) {a a' : Expr} :
      Regrouped a a' → Regrouped (.reduction n reducer i a) (.reduction n' reducer i a')
  | swap (n n' : NodeId) (op : BinaryOp) {a a' b b' : Expr} :
      Regrouped a a' → Regrouped b b' → Regrouped (.binary n op a b) (.binary n' op b' a')
  | chain (op : BinaryOp) {e e' : Expr} {xs : List Expr} :
      List.Forall₂ Regrouped (e.operands op) xs → xs.Perm (e'.operands op) →
      ¬ OrderMatters ((e.operands op).map type) → Regrouped e e'

/-- A chain promotes the types of its operands two at a time. -/
theorem exists_pairing (op : BinaryOp) (e : Expr) :
    ∃ g : Pairing, g.leaves = (e.operands op).map type ∧ g.type = e.type := by
  induction e with
  | binary n f a b iha ihb =>
    by_cases hf : f = op
    · obtain ⟨g, hg, hgtype⟩ := iha
      obtain ⟨h, hh, hhtype⟩ := ihb
      refine ⟨.pair g h, ?_, ?_⟩
      · rw [Pairing.leaves, hg, hh, operands, if_pos hf, List.map_append]
      · rw [Pairing.type, hgtype, hhtype, type]
    · refine ⟨.single (a.type.promote b.type), ?_, rfl⟩
      rw [operands, if_neg hf]
      rfl
  | _ => exact ⟨.single _, rfl, rfl⟩

theorem type_eq_of_operands {op : BinaryOp}
    (hperm : ((e'.operands op).map type).Perm ((e.operands op).map type))
    (horder : ¬ OrderMatters ((e.operands op).map type)) : e'.type = e.type := by
  obtain ⟨g, hg, hgtype⟩ := exists_pairing op e
  obtain ⟨g', hg', hgtype'⟩ := exists_pairing op e'
  rw [← hgtype, ← hgtype', g.type_eq_of_perm (by rw [hg]) horder,
    g'.type_eq_of_perm (by rwa [hg']) horder]

theorem Regrouped.type_eq (h : e.Regrouped e') : e'.type = e.type := by
  refine @Regrouped.rec (fun e e' _ => e'.type = e.type) (fun xs ys _ => ys.map type = xs.map type)
    ?refl ?unary ?binary ?reduction ?swap ?chain rfl ?cons _ _ h
  case refl => exact fun _ => rfl
  case unary =>
    intro n n' op a a' _ ih
    cases op <;> rw [type, type, ih]
  case binary =>
    intro n n' op a a' b b' _ _ iha ihb
    rw [type, type, iha, ihb]
  case reduction => exact fun _ _ _ _ _ _ _ ih => ih
  case swap =>
    intro n n' op a a' b b' _ _ iha ihb
    rw [type, type, iha, ihb, DataType.promote_comm]
  case chain =>
    intro op e e' xs _ hperm horder ih
    refine type_eq_of_operands ?_ horder
    rw [← ih]
    exact (hperm.map type).symm
  case cons =>
    intro x y xs ys _ _ ih ihs
    rw [List.map_cons, List.map_cons, ih, ihs]

end Expr

/-! ## The theorem -/

namespace DataType

open SparseTensor.Expr (Regrouped)

/-- **Promoting several types.**

- If the order does not matter, promoting the types one after another gives the same in every order,
  and so does promoting them two at a time in whatever groups.
- If it matters, two orders differ.
- In either case nothing but the precision can differ.
- An expression keeps its type if the operands of its chains are regrouped and exchanged, where the
  order of their types does not matter, and if the two operands of any node are exchanged. -/
theorem promoteAll_regrouped :
    (∀ types : List DataType, ¬ OrderMatters types ↔
      (∀ types', types'.Perm types → promoteAll types' = promoteAll types) ∧
        ∀ g : Pairing, g.leaves.Perm types → g.type = promoteAll types) ∧
    (∀ types : List DataType, OrderMatters types →
      ∃ xs ys, xs.Perm types ∧ ys.Perm types ∧ promoteAll xs ≠ promoteAll ys) ∧
    (∀ (types : List DataType) (g : Pairing), g.leaves.Perm types →
      g.type = promoteAll types ∨ g.type.isFloating = true ∧
        (promoteAll types).isFloating = true ∧ g.type.isComplex = (promoteAll types).isComplex) ∧
    ∀ e e' : Expr, Regrouped e e' → e'.type = e.type := by
  refine ⟨fun types => ⟨fun h => ⟨fun types' hperm => ?_, fun g hperm => ?_⟩, ?_⟩,
    fun types h => exists_perm_of_orderMatters h, ?_, ?_⟩
  · exact promoteAll_eq_of_perm hperm h
  · exact g.type_eq_of_perm hperm h
  · rintro ⟨hsame, -⟩ h
    obtain ⟨xs, ys, hxs, hys, hne⟩ := exists_perm_of_orderMatters h
    exact hne ((hsame xs hxs).trans (hsame ys hys).symm)
  · intro types g hperm
    have hg := g.serves.perm hperm
    have hall := serves_promoteAll types
    cases hfloating : types.any isFloating with
    | true =>
      exact .inr ⟨hg.floating.trans hfloating, hall.floating.trans hfloating,
        hg.complex.trans hall.complex.symm⟩
    | false =>
      refine .inl (g.type_eq_of_perm hperm fun h => ?_)
      rw [List.any_eq_true.2 h.1] at hfloating
      cases hfloating
  · exact fun e e' h => h.type_eq

/-- A sum of three and a product of two scalars. The sum is regrouped, and the product changes
places with an operand of the sum. -/
theorem promoteAll_regrouped_sum :
    let scalar := fun (id : Nat) (t : DataType) =>
      Expr.access ⟨id, .scalar id "" t, []⟩
    let a := scalar 0 (.int .w32)
    let b := scalar 1 (.uint .w16)
    let c := scalar 2 (.float .single)
    let d := scalar 3 (.uint .w32)
    let e := Expr.binary 4 .add (.binary 5 .add a b) (.binary 6 .mul c d)
    let e' := Expr.binary 7 .add a (.binary 8 .add (.binary 9 .mul d c) b)
    Regrouped e e' ∧ e'.type = e.type := by
  intro scalar a b c d e e'
  have hproduct : Regrouped (.binary 6 .mul c d) (.binary 9 .mul d c) :=
    .swap _ _ _ (.refl c) (.refl d)
  have h : Regrouped e e' :=
    .chain .add (.cons (.refl a) (.cons (.refl b) (.cons hproduct .nil)))
      (.cons a (.swap _ _ _)) (by decide)
  exact ⟨h, promoteAll_regrouped.2.2.2 e e' h⟩

/-- A signed integer and an unsigned one of 32 bits meet a floating point number in single
precision, unless they have met each other before. -/
theorem promoteAll_mixed :
    let a := Expr.access ⟨0, .scalar 0 "a" (.int .w32), []⟩
    let b := Expr.access ⟨1, .scalar 1 "b" (.uint .w32), []⟩
    let c := Expr.access ⟨2, .scalar 2 "c" (.float .single), []⟩
    promoteAll [.int .w32, .uint .w32, .float .single] = .float .double ∧
      promoteAll [.float .single, .int .w32, .uint .w32] = .float .single ∧
      (Expr.binary 3 .add (.binary 4 .add a b) c).type = .float .double ∧
      (Expr.binary 5 .add a (.binary 6 .add b c)).type = .float .single := by
  decide

end DataType

end SparseTensor
