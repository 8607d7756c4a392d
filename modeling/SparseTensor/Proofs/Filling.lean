import SparseTensor.Proofs.Positions
import SparseTensor.Proofs.Segments
import SparseTensor.Proofs.StrictOrder

/-!
# What a segment stands for

`Segment.fill` lists what is stored below a position whose segment is given, level by level: a
dense level has every coordinate, a sparse one those that occur, and a leaf without an entry has
the zero.

For a proper segment, whose entries increase from the level on and stay below the sizes, the list
increases (`Proper.fill_increasing`), stays below the sizes (`Proper.fill_bounded`), has every
entry of the segment (`Proper.mem_fill`) and zeros otherwise (`Proper.eq_zero_of_mem_fill`). Each is
an induction on the levels, and the children of a proper segment are proper one level below.
-/

namespace SparseTensor.Segment

variable {level size c : Nat} {sizes : List Nat} {seg : Segment}

/-! ## Proper segments -/

/-- From the level on, the coordinates of the entries increase and are below the sizes. -/
structure Proper (level : Nat) (sizes : List Nat) (seg : Segment) : Prop where
  increasing : seg.Pairwise fun a b => coordsLt (a.coords.drop level) (b.coords.drop level)
  bounded : ∀ e ∈ seg, List.Forall₂ (· < ·) (e.coords.drop level) sizes

theorem getElem?_at {e : Entry} (h : level < e.coords.length) :
    e.coords[level]? = some (e.at level) := by
  rw [Entry.at, List.getD_eq_getElem?_getD, List.getElem?_eq_getElem h, Option.getD_some]

theorem drop_eq_at_cons_of_lt {e : Entry} (h : level < e.coords.length) :
    e.coords.drop level = e.at level :: e.coords.drop (level + 1) := by
  rw [List.drop_eq_getElem_cons h, (List.getElem_eq_iff h).2 (getElem?_at h)]

theorem lt_length_of_bounded {e : Entry}
    (h : List.Forall₂ (· < ·) (e.coords.drop level) (size :: sizes)) : level < e.coords.length := by
  have hlen := h.length_eq
  rw [List.length_drop, List.length_cons] at hlen
  omega

theorem drop_eq_at_cons {e : Entry}
    (h : List.Forall₂ (· < ·) (e.coords.drop level) (size :: sizes)) :
    e.coords.drop level = e.at level :: e.coords.drop (level + 1) :=
  drop_eq_at_cons_of_lt (lt_length_of_bounded h)

theorem Proper.uncons (h : Proper level (size :: sizes) seg) {e : Entry} (he : e ∈ seg) :
    e.at level < size ∧ List.Forall₂ (· < ·) (e.coords.drop (level + 1)) sizes := by
  have hb := h.bounded e he
  rw [drop_eq_at_cons hb, List.forall₂_cons] at hb
  exact hb

theorem Proper.increasing_uncons (h : Proper level (size :: sizes) seg) :
    seg.Pairwise fun a b => a.at level < b.at level ∨ a.at level = b.at level ∧
      coordsLt (a.coords.drop (level + 1)) (b.coords.drop (level + 1)) := by
  refine h.increasing.imp_of_mem fun {a b} ha hb hab => ?_
  rwa [drop_eq_at_cons (h.bounded a ha), drop_eq_at_cons (h.bounded b hb), coordsLt_cons] at hab

theorem Proper.ascends (h : Proper level (size :: sizes) seg) : Ascends level seg :=
  h.increasing_uncons.imp fun hab => by omega

theorem Proper.part (h : Proper level (size :: sizes) seg) (c : Nat) :
    Proper (level + 1) sizes (part level seg c) where
  increasing := by
    refine (h.increasing_uncons.filter _).imp_of_mem fun {a b} ha hb hab => ?_
    have hac := (mem_part.1 ha).2
    have hbc := (mem_part.1 hb).2
    rcases hab with hlt | ⟨-, hlt⟩
    · omega
    · exact hlt
  bounded e he := (h.uncons (mem_part.1 he).1).2

/-! ## Filling -/

/-- The value at a leaf: that of its entry, if there is one. -/
def leafValue (zero : Value) (seg : Segment) : Value := (seg.head?.map Entry.value).getD zero

/-- What is stored below a position with the segment `seg`, with coordinates from the level on. -/
def fill (zero : Value) : (level : Nat) → List (LevelFormat × Nat) → Segment → List Entry
  | _, [], seg => [⟨[], leafValue zero seg⟩]
  | level, (f, size) :: stack, seg =>
    (children level f size seg).flatMap fun r =>
      (fill zero (level + 1) stack r.2).map (Entry.under r.1)

variable {zero : Value} {stack : List (LevelFormat × Nat)}

theorem Proper.fill_bounded (h : Proper level (stack.map Prod.snd) seg) {x : Entry}
    (hx : x ∈ fill zero level stack seg) : List.Forall₂ (· < ·) x.coords (stack.map Prod.snd) := by
  induction stack generalizing level seg x with
  | nil =>
    rw [fill, List.mem_singleton] at hx
    rw [hx]
    exact .nil
  | cons f stack ih =>
    rw [fill, List.mem_flatMap] at hx
    obtain ⟨r, hr, hx⟩ := hx
    obtain ⟨y, hy, rfl⟩ := List.mem_map.1 hx
    have hlt := lt_size_of_mem_children h.ascends (fun e he => (h.uncons he).1) hr
    rw [eq_part_of_mem_children h.ascends hr] at hy
    exact .cons hlt (ih (h.part r.1) hy)

theorem Proper.fill_increasing (h : Proper level (stack.map Prod.snd) seg) :
    Increasing (fill zero level stack seg) := by
  induction stack generalizing level seg with
  | nil => exact List.pairwise_singleton _ _
  | cons f stack ih =>
    rw [Increasing, fill, List.pairwise_flatMap]
    constructor
    · intro r hr
      have hpart := eq_part_of_mem_children h.ascends hr
      rw [hpart, List.pairwise_map]
      exact (ih (h.part r.1)).imp fun hab => coordsLt_cons.2 (.inr ⟨rfl, hab⟩)
    · refine (List.pairwise_map.1 (children_increasing h.ascends)).imp fun {r s} hrs x hx y hy => ?_
      obtain ⟨x, -, rfl⟩ := List.mem_map.1 hx
      obtain ⟨y, -, rfl⟩ := List.mem_map.1 hy
      exact coordsLt_cons.2 (.inl hrs)

/-- Every entry of the segment is listed. -/
theorem Proper.mem_fill (h : Proper level (stack.map Prod.snd) seg) {e : Entry} (he : e ∈ seg) :
    ⟨e.coords.drop level, e.value⟩ ∈ fill zero level stack seg := by
  induction stack generalizing level seg with
  | nil =>
    -- Nothing is left to tell two entries apart, so there is only one.
    have hnil : ∀ x ∈ seg, x.coords.drop level = [] := fun x hx =>
      List.forall₂_nil_right_iff.1 (h.bounded x hx)
    obtain ⟨x, seg, rfl⟩ := List.exists_cons_of_ne_nil (List.ne_nil_of_mem he)
    rcases List.mem_cons.1 he with rfl | he'
    · rw [fill, hnil e List.mem_cons_self]
      exact List.mem_singleton_self _
    · have hlt := (List.pairwise_cons.1 h.increasing).1 e he'
      rw [hnil x List.mem_cons_self, hnil e he] at hlt
      exact absurd hlt (coordsLt_irrefl [])
  | cons f stack ih =>
    have hchild := part_mem_children (f := f.1) h.ascends (fun x hx => (h.uncons hx).1) he
    rw [fill, List.mem_flatMap]
    refine ⟨_, hchild, List.mem_map.2 ⟨_, ih (h.part _) (mem_part.2 ⟨he, rfl⟩), ?_⟩⟩
    rw [Entry.under, drop_eq_at_cons (h.bounded e he)]

/-- What is listed is an entry of the segment or a zero. -/
theorem Proper.eq_zero_of_mem_fill (h : Proper level (stack.map Prod.snd) seg) {x : Entry}
    (hx : x ∈ fill zero level stack seg) :
    x.value = zero ∨ ∃ e ∈ seg, x = ⟨e.coords.drop level, e.value⟩ := by
  induction stack generalizing level seg x with
  | nil =>
    rw [fill, List.mem_singleton] at hx
    cases seg with
    | nil => exact .inl (by rw [hx]; rfl)
    | cons e seg =>
      refine .inr ⟨e, List.mem_cons_self, ?_⟩
      rw [List.forall₂_nil_right_iff.1 (h.bounded e List.mem_cons_self)]
      exact hx
  | cons f stack ih =>
    rw [fill, List.mem_flatMap] at hx
    obtain ⟨r, hr, hx⟩ := hx
    obtain ⟨y, hy, rfl⟩ := List.mem_map.1 hx
    have hpart := eq_part_of_mem_children h.ascends hr
    rw [hpart] at hy
    rcases ih (h.part r.1) hy with hzero | ⟨e, he, rfl⟩
    · exact .inl hzero
    · obtain ⟨he, hc⟩ := mem_part.1 he
      refine .inr ⟨e, he, ?_⟩
      rw [Entry.under, drop_eq_at_cons (h.bounded e he), hc]

end SparseTensor.Segment
