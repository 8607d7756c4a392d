import SparseTensor.Proofs.Walks

/-!
# Edits

What a transformation does with a place is one of three things (`Edit`): it replaces the place
outright, gives it another label, or walks on. Its visits are then determined by what it does where.

**The relation** (`Edited`). A replaced place is what it was replaced by. A place with a new label
is a new node above its edited children. Otherwise the place is kept if all its children are given
back, and is a new node if one is not.

**Theorem (`Visitor.Follows.run`).** A visitor that follows an edit visits every place in which
nothing is undefined, and turns it into what `Edited` says. What comes out is again below the supply
that is left, if all that the edit puts in is (`Visitor.Follows.runBelow`), so that another visitor
may follow.

Three facts about `Edited` say what became of a place. It is given back iff every part that the edit
reaches is kept (`Edited.same_iff`). A part that is reached and in which the edit changes nothing is
found again where it was (`Edited.at?_eq`). And if identities do not lie, what comes out is the tree
that would come out if every node was built anew (`Edited.alike_rebuilt`).
-/

namespace SparseTensor

open Place

/-- What is done with a place. -/
inductive Edit where
  | replace (new : Place)
  | relabel (label : Label)
  | walk

/-- Whether the place itself stays the node that it is, as far as the edit of it goes. -/
def Edit.Keeps : Edit → Place → Prop
  | replace new, p => new.same p = true
  | relabel _, _ => False
  | walk, _ => True

variable {σ : Type} {edit : Place → Edit} {p q x y : Place} {path : List Nat} {n : NodeId}

/-- What an edit turns a place into. -/
inductive Edited (edit : Place → Edit) : Place → Place → Prop
  | replaced {p new : Place} : edit p = .replace new → Edited edit p new
  | relabelled {p q : Place} : edit p = .relabel q.label → q.same p = false →
      List.Forall₂ (Edited edit) p.children q.children → Edited edit p q
  | kept {p : Place} {ds : List Place} : edit p = .walk → AllSame p.children ds →
      List.Forall₂ (Edited edit) p.children ds → Edited edit p p
  | made {p q : Place} : edit p = .walk → q.label = p.label → q.same p = false →
      ¬ AllSame p.children q.children →
      List.Forall₂ (Edited edit) p.children q.children → Edited edit p q

/-- All that the edit puts into the place has identities below `n`. -/
def Edit.PutsBelow (edit : Place → Edit) (p : Place) (n : NodeId) : Prop :=
  ∀ x new, p.Has x → edit x = .replace new → new.Precedes n

theorem Edit.PutsBelow.child {c : Place} (h : Edit.PutsBelow edit p n) (hc : c ∈ p.children) :
    Edit.PutsBelow edit c n :=
  fun x new hx => h x new (hx.of_child hc)

theorem Edit.PutsBelow.mono {n' : NodeId} (h : Edit.PutsBelow edit p n) (hle : n ≤ n') :
    Edit.PutsBelow edit p n' :=
  fun x new hx hedit => (h x new hx hedit).mono hle

/-! ## The run of a visitor -/

namespace Visitor

/-- The visitor does what the edit says. -/
structure Follows (v : Visitor σ) (edit : Place → Edit) : Prop where
  replaced {p new : Place} (st : σ) (n : NodeId) : p.isDefined = true → edit p = .replace new →
    ∃ st', v.Visits p st n new st' n
  relabelled {p : Place} {label : Label} {st st' : σ} {n n' : NodeId} {ds : List Place} :
    p.isDefined = true → edit p = .relabel label → v.VisitsAll p.children st n ds st' n' →
      ∃ q, v.Visits p st n q st' (n' + 1) ∧ IsNode n' label ds q
  walked {p : Place} {st st' : σ} {n n' : NodeId} {ds : List Place} :
    p.isDefined = true → edit p = .walk → v.VisitsAll p.children st n ds st' n' →
      ∃ q n'', v.Visits p st n q st' n'' ∧ Walked p ds n' q n''

variable {v : Visitor σ}

/-- From every state and every supply above it, the visitor turns the place into what the edit
says. -/
def Runs (v : Visitor σ) (edit : Place → Edit) (p : Place) : Prop :=
  ∀ st n, p.Precedes n → ∃ q st' n', v.Visits p st n q st' n' ∧ n ≤ n' ∧ Edited edit p q

/-- The visitor runs, and what comes out is below the supply that is left if all that the edit puts
in is below the supply. -/
def RunsBelow (v : Visitor σ) (edit : Place → Edit) (p : Place) : Prop :=
  ∀ st n, p.Precedes n → ∃ q st' n', v.Visits p st n q st' n' ∧ n ≤ n' ∧ Edited edit p q ∧
    (Edit.PutsBelow edit p n → q.Precedes n')

theorem RunsBelow.all {cs : List Place} (h : ∀ c ∈ cs, v.RunsBelow edit c) (st : σ) {n : NodeId}
    (hn : ∀ c ∈ cs, c.Precedes n) :
    ∃ ds st' n', v.VisitsAll cs st n ds st' n' ∧ n ≤ n' ∧ List.Forall₂ (Edited edit) cs ds ∧
      ((∀ c ∈ cs, Edit.PutsBelow edit c n) → ∀ d ∈ ds, d.Precedes n') := by
  induction cs generalizing st n with
  | nil => exact ⟨[], st, n, .nil st n, Nat.le_refl n, .nil, by simp⟩
  | cons c cs ih =>
    rw [List.forall_mem_cons] at h hn
    obtain ⟨d, st₁, n₁, hd, hle, hedited, hbelow⟩ := h.1 st n hn.1
    obtain ⟨ds, st₂, n₂, hds, hle', hall, hbelow'⟩ := ih h.2 st₁ fun c hc => (hn.2 c hc).mono hle
    refine ⟨d :: ds, st₂, n₂, .cons hd hds, Nat.le_trans hle hle', .cons hedited hall, ?_⟩
    intro hputs
    rw [List.forall_mem_cons] at hputs ⊢
    exact ⟨(hbelow hputs.1).mono hle', hbelow' fun c hc => (hputs.2 c hc).mono hle⟩

/-- **A visitor does what its edit says** wherever nothing is undefined. -/
theorem Follows.runBelow (hv : v.Follows edit) (hp : p.IsWhole) : v.RunsBelow edit p := by
  induction p using Place.induction with
  | step p ih =>
    intro st n hn
    have hdefined : p.isDefined = true := hp p (.self p)
    obtain ⟨ds, st', n', hds, hle, hall, hbelow⟩ :=
      RunsBelow.all (fun c hc => ih c hc (hp.child hc)) st fun c hc => hn.child hc
    have hnew : ∀ {q label}, IsNode n' label ds q → q.same p = false :=
      fun hq => hn.same_eq_false hq.node? hle
    have hmade : ∀ {q label}, IsNode n' label ds q → Edit.PutsBelow edit p n →
        q.Precedes (n' + 1) := by
      intro q label hq hputs
      rw [precedes_iff, hq.node?, hq.children]
      refine ⟨fun k hk => Option.some.inj hk ▸ Nat.lt_succ_self n', fun d hd => ?_⟩
      exact (hbelow (fun c hc => hputs.child hc) d hd).mono (Nat.le_succ n')
    cases hedit : edit p with
    | replace new =>
      -- The children are not visited in this case.
      obtain ⟨st', hvisits⟩ := hv.replaced st n hdefined hedit
      exact ⟨new, st', n, hvisits, Nat.le_refl n, .replaced hedit,
        fun hputs => hputs p new (.self p) hedit⟩
    | relabel label =>
      obtain ⟨q, hvisits, hq⟩ := hv.relabelled hdefined hedit hds
      have hchildren := hq.children ▸ hall
      exact ⟨q, st', n' + 1, hvisits, Nat.le_succ_of_le hle,
        .relabelled (hq.label ▸ hedit) (hnew hq) hchildren, hmade hq⟩
    | walk =>
      obtain ⟨q, n'', hvisits, hwalked⟩ := hv.walked hdefined hedit hds
      refine ⟨q, st', n'', hvisits, ?_⟩
      cases hwalked with
      | kept hsame => exact ⟨hle, .kept hedit hsame hall, fun _ => hn.mono hle⟩
      | made hsame hq =>
        have hchildren := hq.children ▸ hall
        exact ⟨Nat.le_succ_of_le hle,
          .made hedit hq.label (hnew hq) (hq.children ▸ hsame) hchildren, hmade hq⟩

theorem Follows.run (hv : v.Follows edit) (hp : p.IsWhole) : v.Runs edit p := by
  intro st n hn
  obtain ⟨q, st', n', hvisits, hle, hedited, -⟩ := hv.runBelow hp st n hn
  exact ⟨q, st', n', hvisits, hle, hedited⟩

end Visitor

/-! ## What is reached -/

/-- `x` stands at `path` in `p`, and nothing above it is replaced. -/
inductive Reaches (edit : Place → Edit) : Place → List Nat → Place → Prop
  | self (p : Place) : Reaches edit p [] p
  | inner {p c x : Place} {i : Nat} {path : List Nat} : (∀ new, edit p ≠ .replace new) →
      p.children[i]? = some c → Reaches edit c path x → Reaches edit p (i :: path) x

theorem Reaches.at?_eq (h : Reaches edit p path x) : p.at? path = some x := by
  induction h with
  | self p => rfl
  | inner _ hc _ ih => exact at?_cons_eq_some.2 ⟨_, hc, ih⟩

theorem Reaches.has (h : Reaches edit p path x) : p.Has x := ⟨path, h.at?_eq⟩

/-- Below a place that is not replaced, every child is reached. -/
theorem forall_reaches {P : Place → Prop} (hp : ∀ new, edit p ≠ .replace new) :
    (∀ path x, Reaches edit p path x → P x) ↔
      P p ∧ ∀ c ∈ p.children, ∀ path x, Reaches edit c path x → P x := by
  constructor
  · intro h
    refine ⟨h [] p (.self p), fun c hc path x hx => ?_⟩
    obtain ⟨i, hi⟩ := List.getElem?_of_mem hc
    exact h (i :: path) x (.inner hp hi hx)
  · rintro ⟨hself, hbelow⟩ path x hx
    cases hx with
    | self => exact hself
    | inner _ hc hx => exact hbelow _ (List.mem_of_getElem? hc) _ x hx

namespace Edited

/-! ## What is given back -/

theorem allSame_iff {P : Place → Prop} {cs ds : List Place}
    (h : List.Forall₂ (fun c d => d.same c = true ↔ P c) cs ds) :
    AllSame cs ds ↔ ∀ c ∈ cs, P c := by
  rw [AllSame]
  induction h with
  | nil => simp
  | cons hcd _ ih => rw [List.forall₂_cons, List.forall_mem_cons, hcd, ih]

/-- **What is given back.** A place is given back iff everything that is reached in it is kept. -/
theorem same_iff (h : Edited edit p q) :
    q.same p = true ↔ ∀ path x, Reaches edit p path x → (edit x).Keeps x := by
  induction p using Place.induction generalizing q with
  | step p ih =>
    cases h with
    | replaced hedit =>
      -- Nothing below a place that is replaced is reached.
      constructor
      · intro hsame path x hx
        cases hx with
        | self => simpa [hedit, Edit.Keeps] using hsame
        | inner hnot => exact absurd hedit (hnot _)
      · intro hkeeps
        simpa [hedit, Edit.Keeps] using hkeeps [] p (.self p)
    | relabelled hedit hnew =>
      simp only [hnew, Bool.false_eq_true, false_iff]
      intro hkeeps
      simpa [hedit, Edit.Keeps] using hkeeps [] p (.self p)
    | kept hedit hsame hall =>
      -- The place walks on, so all depends on the children, here and in the last case.
      have hbelow := (allSame_iff (forall₂_imp_of_mem (fun c hc d => ih c hc) hall)).1 hsame
      rw [forall_reaches (by simp [hedit])]
      simp only [same_refl, true_iff]
      exact ⟨by simp [hedit, Edit.Keeps], hbelow⟩
    | made hedit _ hnew hchanged hall =>
      rw [forall_reaches (by simp [hedit])]
      simp only [hnew, Bool.false_eq_true, false_iff]
      rintro ⟨-, hbelow⟩
      exact hchanged ((allSame_iff (forall₂_imp_of_mem (fun c hc d => ih c hc) hall)).2 hbelow)

/-- A place in which the edit changes nothing may be given back without a visit. -/
theorem of_walk (h : ∀ x, p.Has x → edit x = .walk) : Edited edit p p := by
  induction p using Place.induction with
  | step p ih =>
    have hchildren : ∀ c ∈ p.children, Edited edit c c :=
      fun c hc => ih c hc fun x hx => h x (hx.of_child hc)
    exact .kept (h p (.self p)) (List.forall₂_same.2 fun c _ => same_refl c)
      (List.forall₂_same.2 hchildren)

theorem eq_of_walk (h : Edited edit p q) (hwalk : ∀ x, p.Has x → edit x = .walk) : q = p := by
  induction p using Place.induction generalizing q with
  | step p ih =>
    have hself : edit p = .walk := hwalk p (.self p)
    cases h with
    | replaced hedit => simp [hself] at hedit
    | relabelled hedit => simp [hself] at hedit
    | kept => rfl
    | made _ _ _ hchanged hall =>
      refine absurd (forall₂_imp_of_mem (fun c hc d hcd => ?_) hall) hchanged
      rw [ih c hc hcd fun x hx => hwalk x (hx.of_child hc)]
      exact same_refl c

/-- **What stays.** A part that is reached and in which the edit changes nothing is found again
where it was. -/
theorem at?_eq (h : Edited edit p q) (hx : Reaches edit p path x)
    (hwalk : ∀ y, x.Has y → edit y = .walk) : q.at? path = some x := by
  induction hx generalizing q with
  | self p => rw [h.eq_of_walk hwalk, at?]
  | @inner p c x i path hnot hc hx ih =>
    have hchild : ∀ {ds}, List.Forall₂ (Edited edit) p.children ds →
        ∃ d, ds[i]? = some d ∧ d.at? path = some x := by
      intro ds hall
      obtain ⟨hi, rfl⟩ := List.getElem?_eq_some_iff.1 hc
      have hi' : i < ds.length := hall.length_eq ▸ hi
      exact ⟨ds[i], List.getElem?_eq_getElem hi', ih (hall.get hi hi') hwalk⟩
    cases h with
    | replaced hedit => exact absurd hedit (hnot q)
    | kept => exact at?_cons_eq_some.2 ⟨c, hc, hx.at?_eq⟩
    | relabelled _ _ hall => exact at?_cons_eq_some.2 (hchild hall)
    | made _ _ _ _ hall => exact at?_cons_eq_some.2 (hchild hall)

end Edited

/-! ## What is built -/

/-- Identities do not lie: a replacement with the identity of what it replaces is that node. -/
def Edit.Honest (edit : Place → Edit) (p : Place) : Prop :=
  ∀ x new, p.Has x → edit x = .replace new → new.same x = true → new = x

theorem Edit.Honest.child {c : Place} (h : Honest edit p) (hc : c ∈ p.children) : Honest edit c :=
  fun x new hx => h x new (hx.of_child hc)

/-- `f` does what the edit says and builds every other node anew. -/
structure Edit.RebuiltBy (edit : Place → Edit) (f : Place → Place) : Prop where
  replaced {p new : Place} : edit p = .replace new → f p = new
  relabelled {p : Place} {label : Label} : edit p = .relabel label →
    (f p).label = label ∧ (f p).children = p.children.map f
  walked {p : Place} : edit p = .walk → (f p).label = p.label ∧ (f p).children = p.children.map f

namespace Edited

/-- If identities do not lie, a place that is given back is the place that was there. -/
theorem eq_of_same (h : Edited edit p q) (hp : Edit.Honest edit p) (hsame : q.same p = true) :
    q = p := by
  cases h with
  | replaced hedit => exact hp p q (.self p) hedit hsame
  | kept => rfl
  | relabelled _ hnew => simp [hnew] at hsame
  | made _ _ hnew => simp [hnew] at hsame

theorem eq_of_allSame {cs ds : List Place} (h : List.Forall₂ (Edited edit) cs ds)
    (hcs : ∀ c ∈ cs, Edit.Honest edit c) (hsame : AllSame cs ds) : ds = cs := by
  induction h with
  | nil => rfl
  | @cons c d cs ds hcd _ ih =>
    rw [List.forall_mem_cons] at hcs
    obtain ⟨hd, hds⟩ := List.forall₂_cons.1 hsame
    rw [hcd.eq_of_same hcs.1 hd, ih hcs.2 hds]

/-- **What is built.** If identities do not lie, nodes that are given back make no difference to the
tree. -/
theorem alike_rebuilt {f : Place → Place} (hf : Edit.RebuiltBy edit f) (h : Edited edit p q)
    (hp : Edit.Honest edit p) : (f p).alike q = true := by
  induction p using Place.induction generalizing q with
  | step p ih =>
    have hchildren : ∀ {ds}, List.Forall₂ (Edited edit) p.children ds →
        List.Forall₂ (fun c d => c.alike d = true) (p.children.map f) ds := fun hall =>
      List.forall₂_map_left_iff.2
        (forall₂_imp_of_mem (fun c hc d hcd => ih c hc hcd (hp.child hc)) hall)
    cases h with
    | replaced hedit =>
      rw [hf.replaced hedit]
      exact alike_refl q
    | relabelled hedit _ hall =>
      obtain ⟨hlabel, hfp⟩ := hf.relabelled hedit
      exact alike_iff.2 ⟨hlabel, hfp ▸ hchildren hall⟩
    | kept hedit hsame hall =>
      obtain ⟨hlabel, hfp⟩ := hf.walked hedit
      have hds := eq_of_allSame hall (fun c hc => hp.child hc) hsame
      exact alike_iff.2 ⟨hlabel, hfp ▸ hchildren (hds ▸ hall)⟩
    | made hedit hlabel' _ _ hall =>
      obtain ⟨hlabel, hfp⟩ := hf.walked hedit
      exact alike_iff.2 ⟨hlabel.trans hlabel'.symm, hfp ▸ hchildren hall⟩

end Edited

end SparseTensor
