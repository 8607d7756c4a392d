import SparseTensor.Proofs.FreshNodes
import SparseTensor.Proofs.Labels
import SparseTensor.Proofs.Traversals

/-!
# Traversals that handle leaves only

Most rewritings say what becomes of accesses and literals and leave the rest to the traversal.

**Theorem (`LeafHandlers.part_fill`).** Such a traversal hands every leaf to its handler, once for
every place where it stands, from left to right, and each handler finds the state that the one
before it left. What comes out is the tree with the answers in the place of its leaves.

**Idea.** `Serves` says of a list of leaves that handling them one by one succeeds, and `Handed`
says what happened. Both follow the list, and the traversal follows the tree. They meet at a node
that is no leaf, whose leaves are those of its children one after another: what is shown for one
place, with any leaves to come after it, is then shown for the children by a second induction
(`Rebuilds.all`). A node that is given back makes no difference, because it was given back for
children that are the same.
-/

namespace SparseTensor

open Place

variable {σ : Type}

/-- What may take the place of a leaf: an access is needed where something is written, and an answer
with the identity of the leaf is that node. -/
structure Leaf.Takes (leaf : Leaf) (e : Expr) : Prop where
  access (a : Access) : leaf = .written a → ∃ b, e = .access b
  honest : e.same leaf.expr = true → e = leaf.expr

namespace LeafHandlers

variable (h : LeafHandlers σ)

/-- A target is handled as an access that is read. -/
def handle : Leaf → TransformM σ Expr
  | .read a | .written a => h.access a
  | .literal k v => h.literal k v

/-- From the state `st`, the handlers answer the leaves one after another, whatever the supply is
from `n` on. They only add to the supply. -/
def Serves (n : NodeId) : List Leaf → σ → Prop
  | [], _ => True
  | leaf :: rest, st => ∀ k, n ≤ k → ∃ e st' k', Yields (h.handle leaf) st k e st' k' ∧ k ≤ k' ∧
      leaf.Takes e ∧ Serves n rest st'

/-- The leaves were handed to their handlers one after another, each with the state that the one
before it left. Between two of them other nodes may have been made. -/
inductive Handed : List Leaf → σ → NodeId → List Expr → σ → NodeId → Prop
  | nil {st : σ} {k k' : NodeId} : k ≤ k' → Handed [] st k [] st k'
  | cons {leaf : Leaf} {rest : List Leaf} {st st₁ st' : σ} {k k₁ k₂ k' : NodeId} {e : Expr}
      {es : List Expr} : k ≤ k₁ → Yields (h.handle leaf) st k₁ e st₁ k₂ →
        Handed rest st₁ k₂ es st' k' → Handed (leaf :: rest) st k (e :: es) st' k'

variable {h}

namespace Handed

variable {leaves rest : List Leaf} {st st₁ st' : σ} {k k₁ k' l : NodeId} {es es' : List Expr}

theorem length_eq (hs : h.Handed leaves st k es st' k') : es.length = leaves.length := by
  induction hs with
  | nil => rfl
  | cons _ _ _ ih => rw [List.length_cons, List.length_cons, ih]

theorem of_le (hle : l ≤ k) (hs : h.Handed leaves st k es st' k') :
    h.Handed leaves st l es st' k' := by
  cases hs with
  | nil hk => exact .nil (Nat.le_trans hle hk)
  | cons hk hrun hrest => exact .cons (Nat.le_trans hle hk) hrun hrest

theorem le_of (hs : h.Handed leaves st k es st' k') (hle : k' ≤ l) :
    h.Handed leaves st k es st' l := by
  induction hs with
  | nil hk => exact .nil (Nat.le_trans hk hle)
  | cons hk hrun _ ih => exact .cons hk hrun (ih hle)

theorem append (hs : h.Handed leaves st k es st₁ k₁) (hs' : h.Handed rest st₁ k₁ es' st' k') :
    h.Handed (leaves ++ rest) st k (es ++ es') st' k' := by
  induction hs with
  | nil hk => exact hs'.of_le hk
  | cons hk hrun _ ih => exact .cons hk hrun (ih hs')

end Handed

theorem serves_of_forall {n : NodeId} {leaves : List Leaf}
    (hall : ∀ leaf ∈ leaves, ∀ st k, n ≤ k → ∃ e st' k', Yields (h.handle leaf) st k e st' k' ∧
      k ≤ k' ∧ leaf.Takes e) (st : σ) : h.Serves n leaves st := by
  induction leaves generalizing st with
  | nil => trivial
  | cons leaf rest ih =>
    rw [List.forall_mem_cons] at hall
    intro k hk
    obtain ⟨e, st', k', hrun, hle, htakes⟩ := hall.1 st k hk
    exact ⟨e, st', k', hrun, hle, htakes, ih hall.2 st'⟩

/-! ## The run -/

theorem visits_leaf {p : Place} {st st' : σ} {k k' : NodeId} {leaf : Leaf} {e : Expr}
    (hp : p.leaf? = some leaf) (he : leaf.Takes e) (hrun : Yields (h.handle leaf) st k e st' k') :
    ∃ q, h.visitor.Visits p st k q st' k' ∧ (∀ more, p.fill (e :: more) = q) ∧
      (q.same p = true → q = p) := by
  have hread : ∀ a, Yields (h.access a) st k e st' k' →
      Yields (h.traversal.expr (.access a)) st k e st' k' := by
    intro a hrun
    rwa [Traversal.expr, Traversal.enterExpr_of_none rfl]
  cases p with
  | read x =>
    cases x with
    | access a =>
      cases hp
      exact ⟨read e, hread a hrun, fun _ => rfl, fun hsame => congrArg read (he.honest hsame)⟩
    | literal j v =>
      cases hp
      refine ⟨read e, ?_, fun _ => rfl, fun hsame => congrArg read (he.honest hsame)⟩
      show Yields (h.traversal.expr (.literal j v)) st k e st' k'
      rwa [Traversal.expr, Traversal.enterExpr_of_none rfl]
    | _ => cases hp
  | target a =>
    cases hp
    obtain ⟨b, rfl⟩ := he.access a rfl
    refine ⟨target b, hread a hrun, fun _ => rfl, fun hsame => ?_⟩
    have hb : Expr.access b = .access a := he.honest <| by
      simpa [Place.same, Expr.same, Leaf.expr, Expr.node?] using hsame
    cases hb
    rfl
  | stmt s => cases hp

variable (h) in
/-- Visiting the place hands its leaves to their handlers and puts the answers in their place, from
every state from which the handlers serve these leaves and any others after them. -/
def Rebuilds (n : NodeId) (p : Place) : Prop :=
  ∀ rest st k, n ≤ k → h.Serves n (p.leaves ++ rest) st → ∃ q es st' k',
    h.visitor.Visits p st k q st' k' ∧ k ≤ k' ∧ h.Handed p.leaves st k es st' k' ∧
    h.Serves n rest st' ∧ (∀ more, (p.fill (es ++ more)).alike q = true) ∧
    (q.same p = true → q = p)

/-- What holds of one place holds of a list of places that are visited one after another. -/
theorem Rebuilds.all {n : NodeId} {cs : List Place} (hcs : ∀ c ∈ cs, h.Rebuilds n c)
    (rest : List Leaf) (st : σ) {k : NodeId} (hk : n ≤ k)
    (hs : h.Serves n (cs.flatMap Place.leaves ++ rest) st) :
    ∃ ds es st' k', h.visitor.VisitsAll cs st k ds st' k' ∧ k ≤ k' ∧
      h.Handed (cs.flatMap Place.leaves) st k es st' k' ∧ h.Serves n rest st' ∧
      (∀ more, List.Forall₂ (fun c d => c.alike d = true) (Place.fillAll cs (es ++ more)) ds) ∧
      (AllSame cs ds → ds = cs) := by
  induction cs generalizing st k with
  | nil =>
    exact ⟨[], [], st, k, .nil st k, Nat.le_refl k, .nil (Nat.le_refl k), hs, fun _ => .nil,
      fun _ => rfl⟩
  | cons c cs ih =>
    rw [List.forall_mem_cons] at hcs
    rw [List.flatMap_cons, List.append_assoc] at hs
    obtain ⟨d, es, st₁, k₁, hd, hle, hhanded, hs, halike, hsame⟩ := hcs.1 _ st k hk hs
    obtain ⟨ds, es', st', k', hds, hle', hhanded', hs, halike', hsame'⟩ :=
      ih hcs.2 st₁ (Nat.le_trans hk hle) hs
    refine ⟨d :: ds, es ++ es', st', k', .cons hd hds, Nat.le_trans hle hle',
      hhanded.append hhanded', hs, fun more => ?_, fun hall => ?_⟩
    · rw [Place.fillAll, List.append_assoc, ← hhanded.length_eq, List.drop_left]
      exact .cons (halike _) (halike' more)
    · obtain ⟨hd, hds⟩ := List.forall₂_cons.1 hall
      rw [hsame hd, hsame' hds]

/-- **Every place is rebuilt around the answers** if nothing in it is undefined. -/
theorem rebuilds {n : NodeId} {p : Place} (hp : p.IsWhole) (hn : p.Precedes n) :
    h.Rebuilds n p := by
  induction p using Place.induction with
  | step p ih =>
    intro rest st k hk hs
    cases hleaf : p.leaf? with
    | some leaf =>
      rw [leaves_of_leaf hleaf] at hs ⊢
      obtain ⟨e, st', k', hrun, hle, htakes, hs⟩ := hs k hk
      obtain ⟨q, hvisits, hfill, hsame⟩ := visits_leaf hleaf htakes hrun
      refine ⟨q, [e], st', k', hvisits, hle, .cons (Nat.le_refl k) hrun (.nil (Nat.le_refl k')), hs,
        fun more => ?_, hsame⟩
      rw [List.singleton_append, hfill]
      exact alike_refl q
    | none =>
      rw [leaves_eq_flatMap hleaf] at hs ⊢
      obtain ⟨ds, es, st', k', hds, hle, hhanded, hs, hchildren, hall⟩ :=
        Rebuilds.all (fun c hc => ih c hc (hp.child hc) (hn.child hc)) rest st hk hs
      obtain ⟨q, k'', hvisits, hwalked⟩ := visits_node (hp p (.self p)) hleaf hds
      -- The node has its label and, alike, its children, whether or not it was made anew.
      have hfill : ∀ {q : Place}, q.label = p.label → q.children = ds → ∀ more,
          (p.fill (es ++ more)).alike q = true := by
        intro q hlabel hq more
        rw [alike_iff, label_fill hleaf, children_fill hleaf, hlabel, hq]
        exact ⟨rfl, hchildren more⟩
      refine ⟨q, es, st', k'', hvisits, ?_⟩
      cases hwalked with
      | kept hsame =>
        exact ⟨hle, hhanded, hs, hfill rfl (hall hsame).symm, fun _ => rfl⟩
      | made _ hq =>
        have hnew : q.same p = false := hn.same_eq_false hq.node? (Nat.le_trans hk hle)
        refine ⟨Nat.le_succ_of_le hle, hhanded.le_of (Nat.le_succ k'), hs,
          hfill hq.label hq.children, fun hsame => ?_⟩
        rw [hnew] at hsame
        cases hsame

/-! ## The main result -/

/-- **The traversal rebuilds around the answers.** Let nothing be undefined in `p`, `n` be an
identity above those of its nodes, and let the handlers answer the leaves of `p` one after another
from the state `st` on, targets by accesses. Then the traversal of `p` succeeds. It hands every leaf
to its handler in turn, and it gives `p` with the answers in the place of the leaves. -/
theorem part_fill (h : LeafHandlers σ) (p : Part) (n : NodeId) (st : σ) (hp : p.place.IsWhole)
    (hn : p.place.Precedes n) (hs : h.Serves n p.place.leaves st) :
    ∃ q es st' n', Yields (h.traversal.part p) st n q st' n' ∧
      h.Handed p.place.leaves st n es st' n' ∧ (p.place.fill es).alike q.place = true := by
  rw [← List.append_nil p.place.leaves] at hs
  obtain ⟨q, es, st', n', hvisits, -, hhanded, -, halike, -⟩ :=
    rebuilds hp hn [] st n (Nat.le_refl n) hs
  obtain ⟨q, rfl, hrun⟩ := Traversal.yields_of_visits hvisits
  have halike := halike []
  rw [List.append_nil] at halike
  exact ⟨q, es, st', n', hrun, hhanded, halike⟩

/-- In `y(i) += 7 * (x(i) * 7)`, with handlers that remember what they are handed and put in the
place of a literal how many leaves came before it. -/
theorem part_fill_counted :
    let vector (k : Nat) (name : String) : Access :=
      ⟨k, ⟨k, name, ⟨.int .w64, ⟨[.unknown]⟩⟩, .dense 1⟩, [⟨0, "i"⟩]⟩
    let number (k : NodeId) (v : Nat) : Expr := .literal k (.int .w64 v)
    let s (a b : Expr) : Stmt := .assign 6 (vector 0 "y")
      (.binary 5 .mul a (.binary 4 .mul (.access (vector 2 "x")) b)) (some .add)
    let h : LeafHandlers (List Expr) := {
      access := fun a => do
        modify (· ++ [.access a])
        return .access a
      literal := fun k v => do
        let seen ← get
        set (seen ++ [.literal k v])
        return .literal (← fresh) (.int .w64 seen.length) }
    let p : Part := .stmt (s (number 1 7) (number 3 7))
    p.place.IsWhole ∧ p.place.Precedes 7 ∧ h.Serves 7 p.place.leaves [] ∧
      ∃ q n', Yields (h.traversal.part p) [] 7 q
          [.access (vector 0 "y"), number 1 7, .access (vector 2 "x"), number 3 7] n' ∧
        (stmt (s (number 0 1) (number 0 3))).alike q.place = true := by
  intro vector number s h p
  have hp : p.place.IsWhole := by
    rw [isWhole_iff_allLabels]
    show (stmt _).AllLabels _
    rw [allLabels_assign, allLabels_binary, allLabels_binary, allLabels_leaf rfl,
      allLabels_leaf rfl, allLabels_leaf rfl, allLabels_leaf rfl]
    exact ⟨rfl, rfl, rfl, rfl, rfl, rfl, rfl⟩
  have hn : p.place.Precedes 7 := (precedes_stmt _).2 (by decide +kernel)
  have hnodes : ∀ leaf ∈ p.place.leaves, ∀ j ∈ leaf.expr.node?, j < 7 := by decide +kernel
  have hs : h.Serves 7 p.place.leaves [] := by
    refine serves_of_forall (fun leaf hleaf st k hk => ?_) []
    cases leaf with
    | read a | written a =>
      exact ⟨.access a, _, k, rfl, Nat.le_refl k, ⟨fun _ _ => ⟨a, rfl⟩, fun _ => rfl⟩⟩
    | literal j v =>
      have hnew : k ≠ j := Nat.ne_of_gt (Nat.lt_of_lt_of_le (hnodes _ hleaf j rfl) hk)
      refine ⟨.literal k (.int .w64 st.length), _, k + 1, rfl, Nat.le_succ k, nofun,
        fun hsame => ?_⟩
      exact absurd (Option.some.inj (of_decide_eq_true hsame)) hnew
  obtain ⟨q, es, st', n', hrun, hhanded, halike⟩ := part_fill h p 7 [] hp hn hs
  refine ⟨hp, hn, hs, q, n', ?_⟩
  obtain _ | ⟨_, h₁, hhanded⟩ := hhanded
  obtain _ | ⟨_, h₂, hhanded⟩ := hhanded
  obtain _ | ⟨_, h₃, hhanded⟩ := hhanded
  obtain _ | ⟨_, h₄, hhanded⟩ := hhanded
  obtain _ | _ := hhanded
  cases h₁
  cases h₂
  cases h₃
  cases h₄
  exact ⟨hrun, alike_trans (by rfl) halike⟩

end LeafHandlers

end SparseTensor
