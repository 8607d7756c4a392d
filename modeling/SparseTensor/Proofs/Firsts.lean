import SparseTensor.Proofs.Segments
import SparseTensor.Proofs.StrictOrder
import SparseTensor.Storage.Builder

/-!
# First insertions

Sorting moves entries past one another only where their coordinates differ, so at each coordinate
it keeps the order of insertion (`firstAt?_mergeSort`). Of a sorted list `Builder.firsts` keeps the
first entry at each coordinate and nothing else (`mem_firsts`), and what it keeps increases
(`firsts_increasing`).
-/

namespace SparseTensor

/-- The first entry at the coordinate `c`. -/
def firstAt? (es : List Entry) (c : List Nat) : Option Entry := es.find? fun e => e.coords = c

theorem coords_of_firstAt? {es : List Entry} {c : List Nat} {e : Entry}
    (h : firstAt? es c = some e) : e.coords = c :=
  of_decide_eq_true (List.find?_some h :)

theorem exists_firstAt? {es : List Entry} {e : Entry} (he : e ∈ es) :
    ∃ x, firstAt? es e.coords = some x := by
  rw [← Option.isSome_iff_exists, firstAt?, List.find?_isSome]
  exact ⟨e, he, by simp⟩

/-- Where no coordinate is repeated, every entry is the first at its coordinate. -/
theorem firstAt?_of_nodup {es : List Entry} (h : (es.map Entry.coords).Nodup) {e : Entry} :
    firstAt? es e.coords = some e ↔ e ∈ es := by
  constructor
  · exact List.mem_of_find?_eq_some
  · intro he
    obtain ⟨x, hx⟩ := exists_firstAt? he
    rw [hx, List.inj_on_of_nodup_map h (List.mem_of_find?_eq_some hx) he (coords_of_firstAt? hx)]

/-! ## Sorting -/

theorem coordsLe_refl (c : List Nat) : coordsLe c c = true := (coordsLe_total c c).elim id id

theorem Entry.le_trans (a b c : Entry) : a.le b = true → b.le c = true → a.le c = true :=
  coordsLe_trans

theorem Entry.le_total (a b : Entry) : (a.le b || b.le a) = true := by
  rw [Bool.or_eq_true]
  exact coordsLe_total a.coords b.coords

theorem pairwise_mergeSort_le (es : List Entry) :
    (es.mergeSort Entry.le).Pairwise fun a b => coordsLe a.coords b.coords = true :=
  List.pairwise_mergeSort Entry.le_trans Entry.le_total es

/-- The entries at one coordinate keep their order. -/
theorem filter_mergeSort (es : List Entry) (c : List Nat) :
    (es.mergeSort Entry.le).filter (fun e => e.coords = c) = es.filter fun e => e.coords = c := by
  have hsame : (es.filter fun e => e.coords = c).Pairwise fun a b => Entry.le a b = true := by
    refine List.pairwise_of_forall_mem_list fun a ha b hb => ?_
    have hac : a.coords = c := of_decide_eq_true (List.mem_filter.1 ha).2
    have hbc : b.coords = c := of_decide_eq_true (List.mem_filter.1 hb).2
    rw [Entry.le, hac, hbc]
    exact coordsLe_refl c
  have hsub : (es.filter fun e => e.coords = c).Sublist (es.mergeSort Entry.le) :=
    List.sublist_mergeSort Entry.le_trans Entry.le_total hsame List.filter_sublist
  have hsub' := hsub.filter fun e => e.coords = c
  rw [List.filter_filter] at hsub'
  simp only [Bool.and_self] at hsub'
  refine (hsub'.eq_of_length ?_).symm
  exact ((List.mergeSort_perm es Entry.le).filter _).length_eq.symm

theorem firstAt?_mergeSort (es : List Entry) (c : List Nat) :
    firstAt? (es.mergeSort Entry.le) c = firstAt? es c := by
  rw [firstAt?, ← List.head?_filter, filter_mergeSort, List.head?_filter, firstAt?]

namespace Builder

/-! ## The first at each coordinate -/

theorem firsts_subset (es : List Entry) : firsts es ⊆ es := by
  induction es with
  | nil => exact List.Subset.refl []
  | cons e es ih =>
    intro x hx
    rcases List.mem_cons.1 hx with rfl | hx
    · exact List.mem_cons_self
    · exact List.mem_cons_of_mem e (ih ((List.dropWhile_sublist _).subset hx))

/-- In front of entries that increase and are not before it, an entry removes the one at its
coordinate. -/
theorem firsts_cons {e : Entry} {es : List Entry}
    (hle : ∀ x ∈ es, coordsLe e.coords x.coords = true) (hes : Increasing (firsts es)) :
    firsts (e :: es) = e :: (firsts es).filter fun x => !decide (x.coords = e.coords) := by
  rw [firsts, dropWhile_eq_filter]
  refine hes.imp_of_mem fun {a b} ha _ hab hb => ?_
  -- `a` is between `e` and `b`, which have one coordinate.
  rw [decide_eq_true_eq] at hb ⊢
  exact coordsLe_antisymm (hb ▸ hab.1) (hle a (firsts_subset es ha))

theorem firsts_increasing {es : List Entry}
    (h : es.Pairwise fun a b => coordsLe a.coords b.coords = true) : Increasing (firsts es) := by
  induction es with
  | nil => exact .nil
  | cons e es ih =>
    obtain ⟨hle, hes⟩ := List.pairwise_cons.1 h
    rw [firsts_cons hle (ih hes), Increasing, List.pairwise_cons]
    refine ⟨fun x hx => ?_, (ih hes).filter _⟩
    obtain ⟨hx, hne⟩ := List.mem_filter.1 hx
    exact ⟨hle x (firsts_subset es hx), fun heq => by simp [heq] at hne⟩

/-- The first entry at each coordinate is kept, and no other. -/
theorem mem_firsts {es : List Entry} (h : es.Pairwise fun a b => coordsLe a.coords b.coords = true)
    {x : Entry} : x ∈ firsts es ↔ firstAt? es x.coords = some x := by
  induction es with
  | nil => simp [firsts, firstAt?]
  | cons e es ih =>
    obtain ⟨hle, hes⟩ := List.pairwise_cons.1 h
    rw [firsts_cons hle (firsts_increasing hes), List.mem_cons, List.mem_filter, ih hes, firstAt?,
      firstAt?, List.find?_cons]
    by_cases hx : e.coords = x.coords
    · simp [hx, eq_comm]
    · have hne : x ≠ e := fun h => hx (h ▸ rfl)
      simp [hx, hne, Ne.symm hx]

end Builder

end SparseTensor
