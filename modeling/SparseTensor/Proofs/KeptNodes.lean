import SparseTensor.Proofs.Renamings
import SparseTensor.Proofs.Substitutions

/-!
# Nodes that are kept

Whoever runs a transformation takes a node that is given back as the sign that nothing changed. So a
transformation must give back the nodes that it does not have to change, and no others.

**Theorem (`Part.kept_nodes`).** A traversal without handlers gives back what it is given. A
renaming does so iff none of its variables is mentioned. A substitution does so iff every match that
it comes to is replaced by the node that stands there, and what lies beside these matches and has
none in it is found again, node for node, where it was.
-/

namespace SparseTensor

open Place

theorem reaches_iff {edit : Place → Edit} (hedit : ∀ y new, edit y ≠ .replace new)
    {p x : Place} {path : List Nat} : Reaches edit p path x ↔ p.at? path = some x := by
  refine ⟨Reaches.at?_eq, fun h => ?_⟩
  induction path generalizing p with
  | nil =>
    cases h
    exact .self _
  | cons i path ih =>
    obtain ⟨c, hc, hx⟩ := at?_cons_eq_some.1 h
    exact .inner (hedit _) hc (ih hx)

theorem Renaming.keeps_iff {m : Renaming} {x : Place} :
    (m.edit x).Keeps x ↔ ∀ i ∈ x.label.vars, m.find? i = none := by
  have htouches : m.touches x = false ↔ ∀ i ∈ x.label.vars, m.find? i = none := by
    simp [touches]
  rw [← htouches]
  by_cases h : m.touches x = true
  · simp [edit, h, Edit.Keeps]
  · simp [edit, h, Edit.Keeps]

/-- A substitution keeps a place iff nothing else takes its place. -/
theorem Substitution.keeps_iff {m : Substitution} {x : Place} :
    (m.edit x).Keeps x ↔ ∀ new, m.match? x = some new → new.same x = true := by
  cases h : m.match? x with
  | none => simp [edit, h, Edit.Keeps]
  | some new => simp [edit, h, Edit.Keeps]

namespace Part

theorem place_inj {p q : Part} (h : p.place = q.place) : p = q := by
  cases p <;> cases q <;> cases h <;> rfl

/-- **Nodes that are kept.** Let `p` be an expression or a statement in which nothing is undefined,
and `n` an identity above those of its nodes.

- A traversal without handlers gives `p` back.
- A renaming gives `p` back iff no access in `p`, read or written, is at a variable that it renames,
  and no reduction and no statement in `p` binds one.
- A substitution gives `p` back iff every topmost match in `p` is replaced by the node that stands
  there. A part of `p` that is in no match and has no match in it stays where it is, node for
  node. -/
theorem kept_nodes {σ : Type} (p : Part) (n : NodeId) (hp : p.place.IsWhole)
    (hn : p.place.Precedes n) :
    (∀ st : σ, ∃ st' n', Yields (({} : Traversal σ).part p) st n p st' n') ∧
      (∀ (m : Renaming) (st : σ), ∃ q st' n', Yields (m.inPart p) st n q st' n' ∧
        (q.place.same p.place = true ↔
          ∀ x, p.place.Has x → ∀ i ∈ x.label.vars, m.find? i = none)) ∧
      ∀ (m : Substitution) (events : List TransformEvent), ∃ q events' n',
        Yields (m.inPart p) events n q events' n' ∧
        (q.place.same p.place = true ↔
          ∀ path x new, Reaches m.edit p.place path x → m.match? x = some new →
            new.same x = true) ∧
        ∀ path x, Reaches m.edit p.place path x → (∀ y, x.Has y → m.match? y = none) →
          q.place.at? path = some x := by
  refine ⟨fun st => ?_, fun m st => ?_, fun m events => ?_⟩
  · obtain ⟨q, st', n', hrun, hedited⟩ :=
      Traversal.exists_yields Traversal.follows_default hp hn st
    rw [place_inj (hedited.eq_of_walk fun _ _ => rfl)] at hrun
    exact ⟨st', n', hrun⟩
  · obtain ⟨q, st', n', hrun, hedited⟩ := m.exists_yields hp hn st
    refine ⟨q, st', n', hrun, ?_⟩
    simp only [hedited.same_iff, Renaming.keeps_iff,
      reaches_iff fun y new => Renaming.edit_ne_replace]
    exact ⟨fun h x ⟨path, hx⟩ => h path x hx, fun h path x hx => h x ⟨path, hx⟩⟩
  · obtain ⟨q, events', n', hrun, hedited⟩ := m.exists_yields hp hn events
    refine ⟨q, events', n', hrun, ?_, fun path x hx hnone => ?_⟩
    · simp only [hedited.same_iff, Substitution.keeps_iff]
      exact ⟨fun h path x new hx => h path x hx new, fun h path x hx new => h path x new hx⟩
    · exact hedited.at?_eq hx fun y hy => Substitution.edit_eq_walk.2 (hnone y hy)

/-- In `a(i) = b(i)`, renaming `j` changes nothing and renaming `i` does. Replacing the read by
itself changes nothing either. -/
theorem kept_nodes_copy :
    let i : IndexVar := ⟨0, "i"⟩
    let j : IndexVar := ⟨1, "j"⟩
    let vector (k : Nat) (name : String) : TensorVar :=
      ⟨k, name, ⟨.float .double, ⟨[.unknown]⟩⟩, .dense 1⟩
    let b : Expr := .access ⟨1, vector 1 "b", [i]⟩
    let p : Part := .stmt (.assign 2 ⟨0, vector 0 "a", [i]⟩ b none)
    p.place.IsWhole ∧ p.place.Precedes 3 ∧
      (∃ st' n', Yields (({} : Traversal Unit).part p) () 3 p st' n') ∧
      (∃ q st' n', Yields ((Renaming.empty.insert j i).inPart p) () 3 q st' n' ∧
        q.place.same p.place = true) ∧
      (∃ q st' n', Yields ((Renaming.empty.insert i j).inPart p) () 3 q st' n' ∧
        q.place.same p.place = false) ∧
      ∃ q events' n', Yields ((Substitution.empty.insertExpr b b).inPart p) [] 3 q events' n' ∧
        q.place.same p.place = true := by
  intro i j vector b p
  have hall : ∀ {P : Place → Prop}, P p.place → P (.target ⟨0, vector 0 "a", [i]⟩) → P (.read b) →
      ∀ x, p.place.Has x → P x := by
    intro P hp ha hb
    have hchildren : p.place.children = [.target ⟨0, vector 0 "a", [i]⟩, .read b] := rfl
    rw [forall_has, hchildren]
    simp only [List.forall_mem_cons, List.not_mem_nil, IsEmpty.forall_iff, implies_true, and_true]
    exact ⟨hp, forall_has.2 ⟨ha, by simp [Place.children]⟩,
      forall_has.2 ⟨hb, by simp [Place.children, b, Expr.children]⟩⟩
  have hwhole : p.place.IsWhole := hall rfl rfl rfl
  have hfresh : p.place.Precedes 3 := fun x k hx =>
    hall (P := fun x => ∀ k, x.node? = some k → k < 3) (by rintro _ ⟨⟩; decide)
      (by rintro _ ⟨⟩; decide) (by rintro _ ⟨⟩; decide) x hx k
  obtain ⟨hdefault, hrenaming, hsubstitution⟩ := kept_nodes (σ := Unit) p 3 hwhole hfresh
  refine ⟨hwhole, hfresh, hdefault (), ?_, ?_, ?_⟩
  · obtain ⟨q, st', n', hrun, hsame⟩ := hrenaming (Renaming.empty.insert j i) ()
    refine ⟨q, st', n', hrun, hsame.2 (hall ?_ ?_ ?_)⟩ <;> decide
  · obtain ⟨q, st', n', hrun, hsame⟩ := hrenaming (Renaming.empty.insert i j) ()
    refine ⟨q, st', n', hrun, Bool.eq_false_iff.2 fun h => ?_⟩
    have hfind := hsame.1 h (.read b) ⟨[1], rfl⟩ i List.mem_cons_self
    revert hfind
    decide
  · let m := Substitution.empty.insertExpr b b
    have hmatch : ∀ x, p.place.Has x → ∀ new, m.match? x = some new → new.same x = true :=
      hall (by rintro _ ⟨⟩) (by rintro _ ⟨⟩) (by rintro _ ⟨⟩; rfl)
    obtain ⟨q, events', n', hrun, hsame, -⟩ := hsubstitution m []
    exact ⟨q, events', n', hrun, hsame.2 fun path x new hx => hmatch x hx.has new⟩

end Part

end SparseTensor
