import SparseTensor.Proofs.Images
import SparseTensor.Proofs.Labels
import SparseTensor.Proofs.Renamings

/-!
# Renamings and images

A renaming makes the nodes that it touches anew, and those above them, and gives back all others.
The image makes every node anew. Both come to one tree (`Renaming.exists_image_part`), since a node
that is given back mentions no variable that the renaming has. So what a renaming gives may be
computed with images, which compose and commute with the analyses.
-/

namespace SparseTensor

open Place

variable {σ : Type}

namespace Renaming

variable {m : Renaming}

theorem inLabel_eq_image (label : Label) : m.inLabel label = label.image m.apply := by
  cases label <;> rfl

theorem isDefined_inLabel (label : Label) : (m.inLabel label).isDefined = label.isDefined := by
  cases label <;> rfl

theorem apply_of_find?_eq_none {i : IndexVar} (h : m.find? i = none) : m.apply i = i := by
  rw [apply, h, Option.getD_none]

/-- A label that mentions none of the variables stays the same. -/
theorem image_label_of_walk {p : Place} (h : m.edit p = .walk) :
    p.label.image m.apply = p.label := by
  have hvars : ∀ i ∈ p.label.vars, m.apply i = i := by
    have hnone : ∀ i ∈ p.label.vars, m.find? i = none := by
      simpa [touches] using edit_eq_walk.1 h
    exact fun i hi => apply_of_find?_eq_none (hnone i hi)
  cases hlabel : p.label with
  | access t indices | target t indices =>
    rw [hlabel] at hvars
    have hindices : indices.map m.apply = indices :=
      (List.map_congr_left hvars).trans (List.map_id indices)
    rw [Label.image, hindices]
  | reduction reducer i | forAll i =>
    rw [hlabel] at hvars
    rw [Label.image, hvars i List.mem_cons_self]
  | _ => rfl

/-- If a renaming built every node anew, it would build the image. -/
theorem rebuiltBy (m : Renaming) : Edit.RebuiltBy m.edit (image m.apply) where
  replaced h := absurd h edit_ne_replace
  relabelled {p label} h := by
    obtain ⟨-, rfl⟩ := edit_eq_relabel.1 h
    exact ⟨(label_image _ p).trans (inLabel_eq_image _).symm, children_image _ p⟩
  walked {p} h := ⟨(label_image _ p).trans (image_label_of_walk h), children_image _ p⟩

theorem image_of_edited {p q : Place} (h : Edited m.edit p q) :
    q.image id = p.image m.apply := by
  have hhonest : Edit.Honest m.edit p := fun x new _ h => absurd h edit_ne_replace
  have halike := alike_iff_image.1 (h.alike_rebuilt m.rebuiltBy hhonest)
  rw [Place.image_image] at halike
  exact halike.symm

theorem isWhole_of_edited {p q : Place} (h : Edited m.edit p q) (hp : p.IsWhole) : q.IsWhole := by
  have hlabels := isWhole_iff_allLabels.1 hp
  refine isWhole_iff_allLabels.2 (h.allLabels hlabels ?_ ?_)
  · exact fun _ _ _ hedit => absurd hedit edit_ne_replace
  · intro x label hx hedit
    obtain ⟨-, rfl⟩ := edit_eq_relabel.1 hedit
    exact (isDefined_inLabel _).trans (hlabels x hx)

/-- **What a renaming gives** is like the image. It may be renamed again. -/
theorem exists_image_part (m : Renaming) {p : Part} {n : NodeId} (hp : p.place.IsWhole)
    (hn : p.place.Precedes n) (st : σ) :
    ∃ q st' n', Yields (m.inPart p) st n q st' n' ∧ q.place.image id = p.place.image m.apply ∧
      q.place.IsWhole ∧ q.place.Precedes n' := by
  obtain ⟨q, st', n', hrun, hedited, hbelow⟩ := m.exists_yields_below hp hn st
  exact ⟨q, st', n', hrun, image_of_edited hedited, isWhole_of_edited hedited hp, hbelow⟩

theorem exists_image (m : Renaming) {s : Stmt} {n : NodeId} (hs : (stmt s).IsWhole)
    (hn : (stmt s).Precedes n) (st : σ) :
    ∃ r st' n', Yields (m.inStmt s) st n r st' n' ∧ r.image id = s.image m.apply := by
  obtain ⟨q, st', n', hpart, himage, -⟩ := m.exists_image_part (p := .stmt s) hs hn st
  obtain ⟨r, hrun, rfl⟩ := hpart.of_map
  exact ⟨r, st', n', hrun, Place.stmt.inj himage⟩

end Renaming

end SparseTensor
