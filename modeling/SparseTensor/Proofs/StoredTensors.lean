import SparseTensor.Proofs.Faithful

/-!
# Equality of stored tensors

A storage keeps values at positions, and a position stands for a coordinate: going up level by level
gives one component after another (`Level.locate`). So a storage has a list of values at every
coordinate, in the order of positions. A dense level fills in zeros, and a sparse level may repeat
coordinates and list them in any order.

**Theorem (`Storage.equals_iff_nonzerosAt`).** Two storages are equal iff they have the same
component type and order and, at every coordinate, the same values that are not zero, in the same
order. If no coordinate is stored twice, it is enough that both have the same nonzero value, or
none, at each.

`Storage.equals` sorts the entries that are not zero. A sort does not reorder what is at one
coordinate, so each coordinate still has its list (`nonzerosAt_eq`), and a sorted list is determined
by the lists that its coordinates have (`eq_of_sorted`).
-/

namespace SparseTensor

/-! ## Sorted entries -/

theorem mem_iff_of_filter_eq {es fs : List Entry}
    (h : ∀ c, es.filter (fun e => e.coords = c) = fs.filter fun e => e.coords = c) (e : Entry) :
    e ∈ es ↔ e ∈ fs := by
  have hat : e ∈ es.filter (fun x => x.coords = e.coords) ↔
      e ∈ fs.filter fun x => x.coords = e.coords := by rw [h e.coords]
  simpa using hat

theorem eq_of_sorted {es fs : List Entry}
    (hes : es.Pairwise fun a b => coordsLe a.coords b.coords = true)
    (hfs : fs.Pairwise fun a b => coordsLe a.coords b.coords = true)
    (h : ∀ c, es.filter (fun e => e.coords = c) = fs.filter fun e => e.coords = c) : es = fs := by
  have hmem := mem_iff_of_filter_eq h
  induction es generalizing fs with
  | nil =>
    rw [List.eq_nil_iff_forall_not_mem.2 fun e he => List.not_mem_nil ((hmem e).2 he)]
  | cons e es ih =>
    cases fs with
    | nil => exact absurd ((hmem e).1 List.mem_cons_self) List.not_mem_nil
    | cons f fs =>
      obtain ⟨hle, hes'⟩ := List.pairwise_cons.1 hes
      obtain ⟨hlf, hfs'⟩ := List.pairwise_cons.1 hfs
      -- Each head is in the other list, so neither coordinate is before the other.
      have hcoords : e.coords = f.coords := by
        apply coordsLe_antisymm
        · rcases List.mem_cons.1 ((hmem f).2 List.mem_cons_self) with rfl | hf
          · exact coordsLe_refl _
          · exact hle f hf
        · rcases List.mem_cons.1 ((hmem e).1 List.mem_cons_self) with rfl | he
          · exact coordsLe_refl _
          · exact hlf e he
      have hhead := h e.coords
      rw [List.filter_cons_of_pos (by simp), List.filter_cons_of_pos (by simp [hcoords]),
        List.cons.injEq] at hhead
      obtain ⟨rfl, -⟩ := hhead
      have htail : ∀ c, es.filter (fun x => x.coords = c) = fs.filter fun x => x.coords = c := by
        intro c
        have hc := h c
        rw [List.filter_cons, List.filter_cons] at hc
        split at hc
        · exact (List.cons.inj hc).2
        · exact hc
      rw [ih hes' hfs' htail (mem_iff_of_filter_eq htail)]

theorem filter_coords_eq_map (es : List Entry) (c : List Nat) :
    es.filter (fun e => e.coords = c) =
      ((es.filter fun e => e.coords = c).map Entry.value).map (Entry.mk c) := by
  rw [List.map_map, List.map_congr_left (g := id), List.map_id]
  intro e he
  have hc : e.coords = c := of_decide_eq_true (List.mem_filter.1 he).2
  simp [← hc]

/-! ## Going up -/

namespace Level

/-- The coordinate at which position `p` of the level is. -/
def coordinateAt : Level → (p : Nat) → Nat
  | dense sizes, p => p % (dense sizes).size?.getD 0
  | sparse _ coordinates, p => (coordinates.values.getD p 0).toNat

/-- The position of the level above below which position `p` is. Below a sparse level it is the last
one whose run of positions starts at `p` or before. -/
def parentOf : Level → (p : Nat) → Nat
  | dense sizes, p => p / (dense sizes).size?.getD 0
  | sparse positions _, p => positions.values.countP (fun v => v ≤ (p : Int)) - 1

/-- The position above the first level to which position `p` of the last level leads up, and the
coordinates on the way. -/
def locate : List Level → (p : Nat) → Nat × List Nat
  | [], p => (p, [])
  | l :: levels, p =>
    let (k, coords) := locate levels p
    (l.parentOf k, l.coordinateAt k :: coords)

/-- As many positions start at `p` or before as there are up to the one whose run contains `p`. -/
theorem countP_le_of_sorted {vs : List Int} (hs : vs.Pairwise (· ≤ ·)) {p q : Nat}
    {first last : Int} (hfirst : vs[q]? = some first) (hlast : vs[q + 1]? = some last)
    (hle : first ≤ p) (hlt : (p : Int) < last) :
    vs.countP (fun v => v ≤ (p : Int)) = q + 1 := by
  obtain ⟨hq, rfl⟩ := List.getElem?_eq_some_iff.1 hfirst
  obtain ⟨hq', rfl⟩ := List.getElem?_eq_some_iff.1 hlast
  have hmono := List.pairwise_iff_getElem.1 hs
  have hbefore : (vs.take (q + 1)).countP (fun v => v ≤ (p : Int)) = q + 1 := by
    have hlength : (vs.take (q + 1)).length = q + 1 := by rw [List.length_take]; omega
    refine Eq.trans (List.countP_eq_length.2 fun v hv => ?_) hlength
    obtain ⟨i, hi, rfl⟩ := List.mem_iff_getElem.1 hv
    rw [List.getElem_take, decide_eq_true_eq]
    rcases Nat.lt_or_ge i q with hiq | hiq
    · exact Int.le_trans (hmono i q (by omega) hq hiq) hle
    · obtain rfl : i = q := by omega
      exact hle
  have hafter : (vs.drop (q + 1)).countP (fun v => v ≤ (p : Int)) = 0 := by
    refine List.countP_eq_zero.2 fun v hv => ?_
    obtain ⟨i, hi, rfl⟩ := List.mem_iff_getElem.1 hv
    rw [List.getElem_drop, decide_eq_true_eq, Int.not_le]
    rw [List.length_drop] at hi
    rcases Nat.eq_zero_or_pos i with rfl | hpos
    · exact hlt
    · exact Int.lt_of_lt_of_le hlt (hmono (q + 1) (q + 1 + i) hq' (by omega) (by omega))
  rw [← List.take_append_drop (q + 1) vs, List.countP_append, hbefore, hafter]

variable {mode parents n : Nat} {kind : LevelKind} {l : Level} {levels : List Level}

theorem eq_of_above (hl : l.extent mode parents kind = .ok n) {p q c : Nat} (h : l.Above p q c) :
    l.parentOf p = q ∧ l.coordinateAt p = c := by
  cases h with
  | dense p hm =>
    rw [parentOf, coordinateAt, hm]
    exact ⟨rfl, rfl⟩
  | sparse hfirst hlast hle hlt hc =>
    have hs := (extent_sparse_eq_ok.1 hl).2.sorted
    rw [parentOf, coordinateAt, countP_le_of_sorted hs hfirst hlast hle hlt,
      List.getD_eq_getElem?_getD, hc]
    exact ⟨rfl, rfl⟩

theorem locate_eq_of_climb {size : Nat} (hlevels : Stacked parents levels size) {p top : Nat}
    {coords : List Nat} (h : Climb levels p top coords) : locate levels p = (top, coords) := by
  induction hlevels generalizing top coords with
  | nil =>
    cases h
    rfl
  | cons hl _ ih =>
    cases h with
    | level hclimb habove =>
      obtain ⟨hq, hc⟩ := eq_of_above hl habove
      rw [locate, ih hclimb]
      exact Prod.ext hq (congrArg (· :: _) hc)

end Level

/-! ## The values at a coordinate -/

namespace Storage

variable {s t : Storage}

/-- The coordinate of a position, in dimension order. -/
def coordsAt (s : Storage) (p : Nat) : List Nat :=
  s.format.toDimensionOrder (Level.locate s.index.levels p).2

/-- The values at a coordinate that are not zero, in the order of positions. -/
def nonzerosAt (s : Storage) (c : List Nat) : List Value :=
  (s.values.zipIdx.filter fun x => s.coordsAt x.2 = c && !x.1.isZero).map Prod.fst

/-- The value at a coordinate, if there is one that is not zero. -/
def nonzeroAt? (s : Storage) (c : List Nat) : Option Value := (s.nonzerosAt c).head?

/-- No two positions have the same coordinate. -/
def StoresOnce (s : Storage) : Prop := ((List.range s.index.size).map s.coordsAt).Nodup

theorem entries_eq (s : Storage) :
    s.entries = s.values.zipIdx.map fun x => ⟨s.coordsAt x.2, x.1⟩ := by
  obtain ⟨-, hall⟩ := s.walkFrom_top
  have hlength := hall.length_eq
  rw [List.length_range, ← s.length_values] at hlength
  refine List.ext_getElem (by simp [entries, hlength]) fun p hp hp' => ?_
  have hlt : p < s.levelEntries.length := by simpa [entries] using hp
  obtain ⟨hclimb, hvalue⟩ := hall.get (i := p) (by rwa [hall.length_eq]) hlt
  simp only [List.get_eq_getElem, List.getElem_range] at hclimb hvalue
  have hlt' : p < s.values.length := by omega
  have hv : s.values[p] = s.levelEntries[p].value :=
    Option.some.inj ((List.getElem?_eq_getElem hlt').symm.trans hvalue)
  simp [entries, coordsAt, Level.locate_eq_of_climb s.stacked hclimb, hv]

/-- What is not zero at a coordinate is left there by sorting. -/
theorem nonzerosAt_eq (s : Storage) (c : List Nat) :
    s.nonzerosAt c = (s.nonzeros.filter fun e => e.coords = c).map Entry.value := by
  rw [nonzeros, filter_mergeSort, List.filter_filter, entries_eq, List.filter_map, List.map_map]
  rfl

theorem nonzeros_eq_iff : s.nonzeros = t.nonzeros ↔ ∀ c, s.nonzerosAt c = t.nonzerosAt c := by
  constructor
  · intro h c
    rw [nonzerosAt_eq, nonzerosAt_eq, h]
  · intro h
    refine eq_of_sorted (pairwise_mergeSort_le _) (pairwise_mergeSort_le _) fun c => ?_
    have hc := h c
    rw [nonzerosAt_eq, nonzerosAt_eq] at hc
    exact (filter_coords_eq_map _ c).trans (hc ▸ (filter_coords_eq_map _ c).symm)

theorem StoresOnce.nonzerosAt_eq (h : s.StoresOnce) (c : List Nat) :
    s.nonzerosAt c = (s.nonzeroAt? c).toList := by
  have hcoords : s.values.zipIdx.map (fun x => s.coordsAt x.2) =
      (List.range s.index.size).map s.coordsAt := by
    rw [← s.length_values, List.range_eq_range', ← List.zipIdx_map_snd 0 s.values, List.map_map]
    rfl
  rw [nonzeroAt?, nonzerosAt]
  have hsub : (s.values.zipIdx.filter fun x => s.coordsAt x.2 = c && !x.1.isZero).Sublist
    s.values.zipIdx := List.filter_sublist
  have hnodup := List.Nodup.sublist (hsub.map fun x => s.coordsAt x.2) (by rw [hcoords]; exact h)
  have hat : ∀ x ∈ s.values.zipIdx.filter fun x => s.coordsAt x.2 = c && !x.1.isZero,
      s.coordsAt x.2 = c := by
    intro x hx
    have hx := (List.mem_filter.1 hx).2
    rw [Bool.and_eq_true] at hx
    exact of_decide_eq_true hx.1
  cases hfound : s.values.zipIdx.filter fun x => s.coordsAt x.2 = c && !x.1.isZero with
  | nil => rfl
  | cons x xs =>
    cases xs with
    | nil => rfl
    | cons y ys =>
      rw [hfound] at hnodup hat
      have hxy : s.coordsAt x.2 = s.coordsAt y.2 :=
        (hat x (by simp)).trans (hat y (by simp)).symm
      simp [hxy] at hnodup

/-- **Equality of stored tensors.** Two storages are equal iff they have the same component type and
the same order, and at every coordinate the same values that are not zero, bit for bit and in the
order of positions. If neither stores a coordinate twice, then iff at every coordinate both have
the same value that is not zero, or none. -/
theorem equals_iff_nonzerosAt (s t : Storage) :
    (s.equals t = true ↔ s.type = t.type ∧ s.format.order = t.format.order ∧
      ∀ c, s.nonzerosAt c = t.nonzerosAt c) ∧
    (s.StoresOnce → t.StoresOnce →
      (s.equals t = true ↔ s.type = t.type ∧ s.format.order = t.format.order ∧
        ∀ c, s.nonzeroAt? c = t.nonzeroAt? c)) := by
  have hlists : s.equals t = true ↔ s.type = t.type ∧ s.format.order = t.format.order ∧
      ∀ c, s.nonzerosAt c = t.nonzerosAt c := by
    rw [equals_iff, nonzeros_eq_iff]
  refine ⟨hlists, fun hs ht => hlists.trans ?_⟩
  refine and_congr_right' (and_congr_right' (forall_congr' fun c => ?_))
  constructor
  · intro h
    rw [nonzeroAt?, h, nonzeroAt?]
  · intro h
    rw [hs.nonzerosAt_eq, ht.nonzerosAt_eq, h]

/-- A dense vector with a negative zero equals a sparse one whose coordinates are out of order. -/
theorem equals_iff_nonzerosAt_unsorted :
    let one : Value := .float .double 0x3FF0000000000000
    let two : Value := .float .double 0x4000000000000000
    let negativeZero : Value := .float .double 0x8000000000000000
    let full : Storage := ⟨.float .double, ⟨.dense 1, [.dense ⟨.int32, [3], by decide⟩], 3,
      by decide, by decide⟩, [one, negativeZero, two], by decide, by decide⟩
    let packed : Storage := ⟨.float .double, ⟨.sparse 1,
      [.sparse ⟨.int32, [0, 2], by decide⟩ ⟨.int32, [2, 0], by decide⟩], 2, by decide, by decide⟩,
      [two, one], by decide, by decide⟩
    full.StoresOnce ∧ packed.StoresOnce ∧ full.equals packed = true := by
  intro one two negativeZero full packed
  have hfull : full.StoresOnce := by unfold StoresOnce; decide +kernel
  have hpacked : packed.StoresOnce := by unfold StoresOnce; decide +kernel
  refine ⟨hfull, hpacked, ((equals_iff_nonzerosAt full packed).2 hfull hpacked).2
    ⟨rfl, rfl, fun c => ?_⟩⟩
  have hatFull : full.coordsAt 0 = [0] ∧ full.coordsAt 1 = [1] ∧ full.coordsAt 2 = [2] := by
    decide +kernel
  have hatPacked : packed.coordsAt 0 = [2] ∧ packed.coordsAt 1 = [0] := by decide +kernel
  have hzero : one.isZero = false ∧ negativeZero.isZero = true ∧ two.isZero = false := by
    decide +kernel
  have hvaluesFull : full.values.zipIdx = [(one, 0), (negativeZero, 1), (two, 2)] := rfl
  have hvaluesPacked : packed.values.zipIdx = [(two, 0), (one, 1)] := rfl
  rw [nonzeroAt?, nonzeroAt?, nonzerosAt, nonzerosAt, hvaluesFull, hvaluesPacked]
  by_cases h0 : [0] = c
  · subst h0
    simp [hatFull, hatPacked, hzero]
  · by_cases h2 : [2] = c
    · subst h2
      simp [hatFull, hatPacked, hzero]
    · simp [hatFull, hatPacked, hzero, h0, h2]

end Storage

end SparseTensor
