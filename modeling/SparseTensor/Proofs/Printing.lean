import SparseTensor.Proofs.Places
import SparseTensor.Proofs.Reading
import SparseTensor.Proofs.Statements
import SparseTensor.Proofs.Tokens

/-!
# What printed expressions are read as

The text of an expression leaves out parentheses around a right operand of `+` or `*` that is itself
an operator of the same level: `a + (b - c)` and `(a + b) - c` have one text. So the tree that is
read is the printed one with these operands grouped to the left (`Expr.grouped`).

**Theorem (`Expr.text_reads`).** In a scope where all is well named, the text of an expression can
be read, as its grouped tree and as nothing else. That is the printed tree iff the printed tree has
no right operand of the kind above (`Expr.GroupsLeft`).

The tokens of the text are derived by an induction on the expression. The tree of a regrouped
operand is not a part of the whole. So the induction says what the tokens stand for alone, and what
they stand for after a left operand (`Expr.Derived`).
-/

namespace SparseTensor

variable {S : Scope} {a b c e : Expr} {op op' : BinaryOp} {ts pre : List Token}

/-! ## Grouping to the left -/

namespace Expr

/-- The tree of `a op b` without parentheses: the operator goes down the left operands of `b` that
are on its level. -/
def joined (op : BinaryOp) (a : Expr) : Expr → Expr
  | binary k op' b c =>
    if op'.binding = op.binding then binary 0 op' (joined op a b) c
    else binary 0 op a (binary k op' b c)
  | b => binary 0 op a b

/-- The tree that the text of an expression stands for. -/
def grouped : Expr → Expr
  | undefined => undefined
  | access a => access ⟨0, a.tensor, a.indices⟩
  | literal _ v => literal 0 v
  | unary _ op a => unary 0 op a.grouped
  | binary _ op a b =>
    if op.enclosesRight then binary 0 op a.grouped b.grouped else joined op a.grouped b.grouped
  | reduction _ r i a => reduction 0 r i a.grouped

/-- No right operand of `+` or `*` is itself an operator of the same level. -/
def GroupsLeft : Expr → Prop
  | undefined | access _ | literal _ _ => True
  | unary _ _ a | reduction _ _ _ a => a.GroupsLeft
  | binary _ op a b =>
    (op.enclosesRight = true ∨ b.binding ≠ op.binding) ∧ a.GroupsLeft ∧ b.GroupsLeft

theorem joined_of_ne (h : b.binding ≠ op.binding) : joined op a b = binary 0 op a b := by
  cases b with
  | binary k op' b c => exact if_neg h
  | undefined | access | literal | unary | reduction => rfl

theorem joined_binary (h : op'.binding = op.binding) (k : NodeId) :
    joined op a (binary k op' b c) = binary 0 op' (joined op a b) c := if_pos h

theorem binding_joined (op : BinaryOp) (a b : Expr) : (joined op a b).binding = op.binding := by
  by_cases h : b.binding = op.binding
  · cases b with
    | binary k op' b c =>
      rw [joined_binary h]
      exact h
    | undefined | access | literal | unary | reduction => rfl
  · rw [joined_of_ne h]
    rfl

theorem binding_grouped (e : Expr) : e.grouped.binding = e.binding := by
  cases e with
  | unary _ op _ => cases op <;> rfl
  | binary k op a b =>
    by_cases h : op.enclosesRight = true
    · simp only [grouped, if_pos h, binding]
    · rw [grouped, if_neg h, binding_joined]
      rfl
  | undefined | access | literal | reduction => rfl

theorem joined_joined (h : op'.binding = op.binding) (a b c : Expr) :
    joined op a (joined op' b c) = joined op' (joined op a b) c := by
  induction c with
  | binary k op'' c d ihc _ =>
    by_cases h' : op''.binding = op'.binding
    · rw [joined_binary h', joined_binary h', joined_binary (h'.trans h), ihc]
    · rw [joined_of_ne (b := binary k op'' c d) h', joined_of_ne (b := binary k op'' c d) h',
        joined_binary h]
  | undefined | access | literal | unary | reduction => exact joined_binary h 0

/-! ## From tokens to trees -/

theorem derives_parens {l : Binding} (l' : Binding) (h : S.Derives l ts a) :
    S.Derives l' (.opening :: (ts ++ [.closing])) a := by
  have hatom : l'.strength ≤ Binding.atom.strength := by cases l' <;> decide
  exact (Scope.Derives.parens (h.tighter (strength_sum_le l))).tighter hatom

theorem derives_enclosed {l l' : Binding} (h : S.Derives l ts a) :
    S.Derives l' (enclosedTokens (decide (l.strength < l'.strength)) ts) a := by
  by_cases hlt : l.strength < l'.strength
  · rw [decide_eq_true hlt]
    exact derives_parens l' h
  · rw [decide_eq_false hlt]
    exact h.tighter (Nat.not_lt.1 hlt)

theorem derives_right (hpre : S.Derives op.binding pre a) (hb : S.Derives b.binding ts c) :
    S.Derives op.binding (pre ++ .op op ::
      enclosedTokens (decide (b.binding.strength < op.binding.strength)
        || decide (b.binding.strength = op.binding.strength)) ts) (binary 0 op a c) := by
  by_cases hlt : op.binding.strength < b.binding.strength
  · rw [decide_eq_false (Nat.not_lt.2 (Nat.le_of_lt hlt)), decide_eq_false (Nat.ne_of_gt hlt)]
    exact .binary hpre hlt hb
  · have hatom : op.binding.strength < Binding.atom.strength := by cases op <;> decide
    have henclosed : (decide (b.binding.strength < op.binding.strength)
        || decide (b.binding.strength = op.binding.strength)) = true := by
      rw [Bool.or_eq_true, decide_eq_true_iff, decide_eq_true_iff]
      omega
    rw [henclosed]
    exact .binary hpre hatom (derives_parens .atom hb)

/-- What the tokens of an expression stand for, alone and after a left operand of its level. -/
structure Derived (S : Scope) (e : Expr) : Prop where
  alone : S.Derives e.binding e.tokens e.grouped
  after {op : BinaryOp} {a : Expr} {pre : List Token} : e.binding = op.binding →
    S.Derives op.binding pre a →
      S.Derives op.binding (pre ++ .op op :: e.tokens) (joined op a e.grouped)

/-- An operand that is enclosed if it binds less tightly than the operator, after a left one. -/
theorem Derived.enclosed (h : Derived S e) (hpre : S.Derives op.binding pre a) :
    S.Derives op.binding
      (pre ++ .op op :: enclosedTokens (decide (e.binding.strength < op.binding.strength)) e.tokens)
      (joined op a e.grouped) := by
  by_cases heq : e.binding = op.binding
  · rw [heq, decide_eq_false (Nat.lt_irrefl _)]
    exact h.after heq hpre
  · have hne : e.binding.strength ≠ op.binding.strength := by
      intro hstrength
      revert heq hstrength
      cases e.binding <;> cases op.binding <;> decide
    have hright := derives_right (b := e) hpre h.alone
    rw [decide_eq_false hne, Bool.or_false] at hright
    rwa [joined_of_ne (by rwa [binding_grouped])]

/-- **The tokens of an expression stand for its grouped tree.** -/
theorem derived (he : e.WrittenIn S) : Derived S e := by
  have hatom : Binding.sign.strength ≤ Binding.atom.strength := by decide
  have hleaf : ∀ {e : Expr}, Binding.sign.strength ≤ e.binding.strength →
      S.Derives e.binding e.tokens e.grouped → Derived S e := by
    refine fun hle halone => ⟨halone, fun {op a pre} heq => ?_⟩
    exact absurd (heq ▸ hle) (Nat.not_le.2 (strength_binding_lt op))
  induction e with
  | undefined | literal => exact he.elim
  | access a =>
    refine hleaf hatom ?_
    obtain ⟨k, t, indices⟩ := a
    cases indices with
    | nil => exact .scalar he.1
    | cons i indices => exact .access he.1 (List.cons_ne_nil _ _) he.2
  | unary k op a ih =>
    cases op with
    | neg =>
      refine hleaf (Nat.le_refl _) ?_
      exact .neg (derives_enclosed (ih he).alone)
    | sqrt =>
      refine hleaf hatom ?_
      exact .sqrt ((ih he).alone.tighter (strength_sum_le _))
  | reduction k r i a ih =>
    refine hleaf hatom ?_
    exact .reduction he.1 ((ih he.2).alone.tighter (strength_sum_le _))
  | binary k op a b iha ihb =>
    have ha := iha he.1
    have hb := ihb he.2
    -- Whatever the left operand has become, the right one comes after it.
    have hright : ∀ {pre c}, S.Derives op.binding pre c →
        S.Derives op.binding (pre ++ .op op ::
          enclosedTokens (decide (b.binding.strength < op.binding.strength)
            || (op.enclosesRight && decide (b.binding.strength = op.binding.strength))) b.tokens)
          (if op.enclosesRight then binary 0 op c b.grouped else joined op c b.grouped) := by
      intro pre c hpre
      by_cases hencloses : op.enclosesRight = true
      · rw [hencloses, Bool.true_and, if_pos rfl]
        exact derives_right hpre hb.alone
      · rw [Bool.not_eq_true] at hencloses
        rw [hencloses, Bool.false_and, Bool.or_false]
        exact hb.enclosed hpre
    refine ⟨hright (derives_enclosed ha.alone), fun {op' c pre} heq hpre => ?_⟩
    have heq : op.binding = op'.binding := heq
    have hleft := ha.enclosed hpre
    rw [← heq] at hleft ⊢
    have hboth := hright hleft
    rw [List.append_assoc, List.cons_append] at hboth
    by_cases hencloses : op.enclosesRight = true
    · rw [if_pos hencloses, ← joined_binary heq] at hboth
      rwa [grouped, if_pos hencloses]
    · rw [if_neg hencloses, ← joined_joined heq] at hboth
      rwa [grouped, if_neg hencloses]

/-! ## Where the printed tree comes back -/

theorem length_nodes_of_alike (h : a.alike b = true) : a.nodes.length = b.nodes.length := by
  induction a generalizing b with
  | undefined | access | literal => cases b <;> simp_all [alike, nodes]
  | unary _ _ a ih =>
    cases b with
    | unary =>
      simp only [alike, Bool.and_eq_true] at h
      simp [nodes, ih h.2]
    | undefined | access | literal | binary | reduction => simp [alike] at h
  | reduction _ _ _ a ih =>
    cases b with
    | reduction =>
      simp only [alike, Bool.and_eq_true] at h
      simp [nodes, ih h.2]
    | undefined | access | literal | unary | binary => simp [alike] at h
  | binary _ _ a₁ a₂ ih₁ ih₂ =>
    cases b with
    | binary =>
      simp only [alike, Bool.and_eq_true] at h
      simp [nodes, ih₁ h.1.2, ih₂ h.2]
    | undefined | access | literal | unary | reduction => simp [alike] at h

theorem length_nodes_joined (op : BinaryOp) (a b : Expr) :
    (joined op a b).nodes.length = a.nodes.length + b.nodes.length + 1 := by
  induction b with
  | binary k op' b c ihb _ =>
    by_cases h : op'.binding = op.binding
    · simp only [joined_binary h, nodes, List.length_cons, List.length_append, ihb]
      omega
    · rw [joined_of_ne (b := binary k op' b c) h]
      simp [nodes]
  | undefined | access | literal | unary | reduction => simp [joined, nodes]

theorem length_nodes_grouped (e : Expr) : e.grouped.nodes.length = e.nodes.length := by
  induction e with
  | undefined | access | literal => rfl
  | unary _ _ a ih | reduction _ _ _ a ih => simp [grouped, nodes, ih]
  | binary k op a b iha ihb =>
    by_cases h : op.enclosesRight = true
    · simp [grouped, h, nodes, iha, ihb]
    · simp [grouped, h, nodes, length_nodes_joined, iha, ihb]

/-- A right operand of the operator's own level is not one any more after grouping: the tree has a
smaller one in its place. -/
theorem joined_not_alike (hb : b.binding = op.binding) (k : NodeId) :
    (joined op a b.grouped).alike (binary k op c b) = false := by
  have hlength := length_nodes_grouped b
  rw [← binding_grouped] at hb
  rw [Bool.eq_false_iff]
  intro halike
  cases hgrouped : b.grouped with
  | binary k' op' x y =>
    rw [hgrouped] at hb hlength halike
    rw [joined_binary hb, alike, Bool.and_eq_true] at halike
    have hy := length_nodes_of_alike halike.2
    simp only [nodes, List.length_cons, List.length_append] at hlength
    omega
  | unary _ op' _ =>
    rw [hgrouped] at hb
    cases op' <;> cases op <;> cases hb
  | undefined | access | literal | reduction =>
    rw [hgrouped] at hb
    cases op <;> cases hb

/-- **The printed tree comes back** iff no right operand of `+` or `*` is on its level. -/
theorem grouped_alike_iff : e.grouped.alike e = true ↔ e.GroupsLeft := by
  induction e with
  | undefined | access | literal => simp [grouped, alike, Access.alike, GroupsLeft]
  | unary _ _ a ih | reduction _ _ _ a ih => simp [grouped, alike, GroupsLeft, ih]
  | binary k op a b iha ihb =>
    by_cases hencloses : op.enclosesRight = true
    · simp [grouped, hencloses, alike, GroupsLeft, iha, ihb]
    · by_cases hb : b.binding = op.binding
      · simp [grouped, hencloses, GroupsLeft, hb, joined_not_alike hb]
      · have hne : b.grouped.binding ≠ op.binding := by rwa [binding_grouped]
        simp [grouped, hencloses, joined_of_ne hne, alike, GroupsLeft, hb, iha, ihb]

theorem reads_grouped (hS : S.WellNamed) (he : e.WrittenIn S) : S.Reads e.text e.grouped := by
  rw [Scope.Reads, scan_text hS he]
  exact (derived he).alone.tighter (strength_sum_le _)

/-- **What printed expressions are read as.** In a scope where all is well named, the text of an
expression can be read as its grouped tree and as nothing else. This is the printed tree iff no
right operand of `+` or `*` in it is itself an operator of the same level. So among the expressions
without such operands, those with one text are alike. -/
theorem text_reads (hS : S.WellNamed) (he : e.WrittenIn S) :
    (∀ x, S.Reads e.text x ↔ x = e.grouped) ∧ (e.grouped.alike e = true ↔ e.GroupsLeft) ∧
      ∀ e' : Expr, e'.WrittenIn S → e.GroupsLeft → e'.GroupsLeft → e'.text = e.text →
        e'.alike e = true := by
  have hreads := reads_grouped hS he
  refine ⟨fun x => ⟨fun hx => hx.unique hS hreads, ?_⟩, grouped_alike_iff, ?_⟩
  · rintro rfl
    exact hreads
  · intro e' he' hleft hleft' htext
    have hreads' := reads_grouped hS he'
    rw [htext] at hreads'
    have hgrouped : e'.grouped = e.grouped := hreads'.unique hS hreads
    have halike := grouped_alike_iff.2 hleft
    rw [← hgrouped] at halike
    exact Place.alike_of_alike (p := .read e'.grouped) (q := .read e') (r := .read e)
      (grouped_alike_iff.2 hleft') halike

/-- The text of `a - (b - c)` keeps its parentheses and is read as that tree. -/
theorem text_reads_sub :
    let a : TensorVar := .scalar 0 "a" (.float .double)
    let b : TensorVar := .scalar 1 "b" (.float .double)
    let c : TensorVar := .scalar 2 "c" (.float .double)
    let S : Scope := ⟨[a, b, c], []⟩
    let e : Expr := .binary 4 .sub (.access ⟨0, a, []⟩)
      (.binary 3 .sub (.access ⟨1, b, []⟩) (.access ⟨2, c, []⟩))
    S.WellNamed ∧ e.WrittenIn S ∧ e.GroupsLeft ∧ (∀ x, S.Reads e.text x ↔ x = e.grouped) ∧
      e.grouped.alike e = true := by
  intro a b c S e
  have hS : S.WellNamed := ⟨by decide +kernel, by decide +kernel, by decide +kernel⟩
  have he : e.WrittenIn S := by simp [e, S, WrittenIn]
  have hleft : e.GroupsLeft := by simp [e, GroupsLeft, BinaryOp.enclosesRight]
  obtain ⟨hreads, hgrouped, -⟩ := text_reads hS he
  exact ⟨hS, he, hleft, hreads, hgrouped.2 hleft⟩

/-- The text of `a * (b / c)` has no parentheses. It is the text of `(a * b) / c`, another tree, and
is read as that. -/
theorem text_mul_div :
    let a : TensorVar := .scalar 0 "a" (.float .double)
    let b : TensorVar := .scalar 1 "b" (.float .double)
    let c : TensorVar := .scalar 2 "c" (.float .double)
    let S : Scope := ⟨[a, b, c], []⟩
    let e : Expr := .binary 4 .mul (.access ⟨0, a, []⟩)
      (.binary 3 .div (.access ⟨1, b, []⟩) (.access ⟨2, c, []⟩))
    let e' : Expr := .binary 0 .div (.binary 0 .mul (.access ⟨0, a, []⟩) (.access ⟨0, b, []⟩))
      (.access ⟨0, c, []⟩)
    S.WellNamed ∧ e.WrittenIn S ∧ e'.WrittenIn S ∧ e.text = e'.text ∧ e.alike e' = false ∧
      ∀ x, S.Reads e.text x ↔ x = e' := by
  intro a b c S e e'
  have hS : S.WellNamed := ⟨by decide +kernel, by decide +kernel, by decide +kernel⟩
  have he : e.WrittenIn S := by simp [e, S, WrittenIn]
  have he' : e'.WrittenIn S := by simp [e', S, WrittenIn]
  have hreads : S.Reads e.text e' := reads_grouped hS he
  refine ⟨hS, he, he', by decide +kernel, by decide +kernel, fun x => ?_⟩
  constructor
  · intro hx
    exact hx.unique hS hreads
  · rintro rfl
    exact hreads

end Expr

end SparseTensor
