import SparseTensor.Proofs.Places

/-!
# Images of trees

The image of a tree under a map of index variables has the map applied to every variable, at
binders as in accesses, and all identities forgotten. So two trees are alike iff they have one image
under the identity (`Place.alike_iff_image`), and what an analysis makes of images says both how it
treats renamed trees and that it does not look at identities.

`Stmt.occurrences` lists the variables to which an image applies its map.
-/

namespace SparseTensor

def Access.image (f : IndexVar → IndexVar) (a : Access) : Access := ⟨0, a.tensor, a.indices.map f⟩

/-- The expression with `f` applied to its variables and its identities forgotten. -/
def Expr.image (f : IndexVar → IndexVar) : Expr → Expr
  | undefined => undefined
  | access a => access (a.image f)
  | literal _ v => literal 0 v
  | unary _ op a => unary 0 op (a.image f)
  | binary _ op a b => binary 0 op (a.image f) (b.image f)
  | reduction _ reducer i a => reduction 0 reducer (f i) (a.image f)

namespace Stmt

mutual

/-- The statement with `f` applied to its variables and its identities forgotten. -/
def image (f : IndexVar → IndexVar) : Stmt → Stmt
  | undefined => undefined
  | assign _ target value op => assign 0 (target.image f) (value.image f) op
  | forAll _ i body => forAll 0 (f i) (body.image f)
  | staged _ consumer producer => staged 0 (consumer.image f) (producer.image f)
  | group _ grouping members => group 0 grouping (images f members)

def images (f : IndexVar → IndexVar) : List Stmt → List Stmt
  | [] => []
  | s :: ss => s.image f :: images f ss

end

mutual

/-- All occurrences of index variables, from left to right, targets and binders included. -/
def occurrences : Stmt → List IndexVar
  | undefined => []
  | assign _ target value _ => target.indices ++ value.occurrences
  | forAll _ i body => i :: body.occurrences
  | staged _ consumer producer => consumer.occurrences ++ producer.occurrences
  | group _ _ members => allOccurrences members

def allOccurrences : List Stmt → List IndexVar
  | [] => []
  | s :: ss => s.occurrences ++ allOccurrences ss

end

variable {f : IndexVar → IndexVar}

theorem images_eq_map (ss : List Stmt) : images f ss = ss.map (image f) := by
  induction ss with
  | nil => rfl
  | cons s ss ih => rw [images, List.map_cons, ih]

end Stmt

def Label.image (f : IndexVar → IndexVar) : Label → Label
  | .access t indices => .access t (indices.map f)
  | .target t indices => .target t (indices.map f)
  | .reduction reducer i => .reduction reducer (f i)
  | .forAll i => .forAll (f i)
  | label => label

theorem Label.image_id (label : Label) : label.image id = label := by
  cases label <;> simp [image]

theorem Label.image_comp (f g : IndexVar → IndexVar) (label : Label) :
    (label.image f).image g = label.image (g ∘ f) := by
  cases label <;> simp [image]

namespace Place

def image (f : IndexVar → IndexVar) : Place → Place
  | read e => read (e.image f)
  | target a => target (a.image f)
  | stmt s => stmt (s.image f)

variable {f g : IndexVar → IndexVar} {p q : Place}

theorem label_image (f : IndexVar → IndexVar) (p : Place) :
    (p.image f).label = p.label.image f := by
  cases p with
  | read e => cases e <;> rfl
  | target a => rfl
  | stmt s => cases s <;> rfl

theorem children_image (f : IndexVar → IndexVar) (p : Place) :
    (p.image f).children = p.children.map (image f) := by
  cases p with
  | read e => cases e <;> rfl
  | target a => rfl
  | stmt s =>
    cases s with
    | group _ _ members =>
      simp only [image, Stmt.image, Stmt.images_eq_map, children, List.map_map]
      rfl
    | _ => rfl

/-- An image is told by the images of the label and of the children. -/
theorem image_congr (hlabel : p.label.image f = q.label.image g)
    (hchildren : p.children.map (image f) = q.children.map (image g)) : p.image f = q.image g := by
  cases p with
  | read a =>
    cases q with
    | read b =>
      cases a <;> cases b <;>
        simp_all [label, Label.image, children, Expr.children, image, Expr.image, Access.image]
    | target => cases a <;> cases hlabel
    | stmt s => cases a <;> cases s <;> cases hlabel
  | target a =>
    cases q with
    | read b => cases b <;> cases hlabel
    | target b => simp_all [label, Label.image, image, Access.image]
    | stmt s => cases s <;> cases hlabel
  | stmt s =>
    cases q with
    | read b => cases s <;> cases b <;> cases hlabel
    | target => cases s <;> cases hlabel
    | stmt t =>
      cases s with
      | group _ grouping members =>
        cases t with
        | group _ _ members' =>
          cases hlabel
          simp only [children, List.map_map] at hchildren
          have hmembers : members.map (Stmt.image f) = members'.map (Stmt.image g) := by
            have hinj : Function.Injective stmt := fun _ _ => Place.stmt.inj
            apply List.map_injective_iff.2 hinj
            rw [List.map_map, List.map_map]
            exact hchildren
          simp only [image, Stmt.image, Stmt.images_eq_map, hmembers]
        | _ => cases hlabel
      | _ => cases t <;> simp_all [label, Label.image, children, image, Stmt.image]

/-- **Images compose.** The image of an image is the image under both maps. -/
theorem image_comp (f g : IndexVar → IndexVar) (p : Place) :
    (p.image f).image g = p.image (g ∘ f) := by
  induction p using induction with
  | step p ih =>
    refine image_congr ?_ ?_
    · rw [label_image, Label.image_comp]
    · rw [children_image, List.map_map]
      exact List.map_congr_left ih

/-- Once its identities are forgotten, a tree is its own image. -/
theorem image_image (p : Place) : (p.image f).image id = p.image f := image_comp f id p

/-- Like trees have the same images. -/
theorem image_eq_of_alike (h : p.alike q = true) : p.image f = q.image f := by
  induction p using induction generalizing q with
  | step p ih =>
    obtain ⟨hlabel, hchildren⟩ := alike_iff.1 h
    have himages : List.Forall₂ Eq (p.children.map (image f)) (q.children.map (image f)) :=
      List.forall₂_map_left_iff.2 <| List.forall₂_map_right_iff.2 <|
        forall₂_imp_of_mem (fun c hc _ => ih c hc) hchildren
    exact image_congr (by rw [hlabel]) (List.forall₂_eq_eq_eq ▸ himages)

theorem alike_image (p : Place) : p.alike (p.image id) = true := by
  induction p using induction with
  | step p ih =>
    refine alike_iff.2 ⟨?_, ?_⟩
    · rw [label_image, Label.image_id]
    · rw [children_image, List.forall₂_map_right_iff, List.forall₂_same]
      exact ih

/-- **Trees are alike iff they have one image.** -/
theorem alike_iff_image : p.alike q = true ↔ p.image id = q.image id := by
  refine ⟨image_eq_of_alike, fun h => ?_⟩
  exact alike_trans (alike_image p) (h ▸ alike_symm (alike_image q))

end Place

theorem Stmt.alike_iff_image {s t : Stmt} : s.alike t = true ↔ s.image id = t.image id := by
  have h : (Place.stmt s).alike (.stmt t) = true ↔ _ := Place.alike_iff_image
  exact h.trans ⟨Place.stmt.inj, congrArg Place.stmt⟩

end SparseTensor
