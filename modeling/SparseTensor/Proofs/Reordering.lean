import SparseTensor.Proofs.Outcome

/-!
# Packing and the order of insertion

What a builder packs is a function of its type, its format and the first value at each coordinate,
unless it refuses a coordinate that was inserted twice. So the order of the insertions shows in the
storage only where it decides which value came first.

**Theorem (`pack_reordered`).** Two builders of one type and one format that keep first insertions
end alike, with the same storage or for the same fault, if every coordinate has the same first value
in both. Two that refuse repetitions end alike if one has the insertions of the other in another
order, and then they also name the same coordinate when they refuse one.

Sorting brings the coordinates of a permutation into one list (`map_coords_sorted_of_perm`), and
which coordinates are repeated depends on that list alone (`map_coords_repeats_congr`).
-/

namespace SparseTensor.Builder

variable {type : TensorType} {format : Format} {es es' : List Entry} {b b' : Builder} {zero : Value}

/-! ## What packing depends on -/

theorem pack_of_accepted (hknown : b.type.shape.firstUnknown? = none)
    (hzero : Value.zero b.type.component = .ok zero)
    (haccepted : b.duplicates = .refuse → b.repeated = []) :
    b.pack = b.assemble (firsts b.sorted) zero >>= fun r =>
      Storage.ofValues b.type.component b.format r.1 r.2 := by
  rw [pack, packLogged, hknown, hzero]
  dsimp only
  split
  · next hrefuse hrepeated =>
    rw [haccepted hrefuse] at hrepeated
    cases hrepeated
  · cases b.assemble (firsts b.sorted) zero <;> rfl

/-- Builders of one type end alike if they do where the sizes are known and the type has a zero. -/
theorem pack_congr_of_known (htype : b.type = b'.type)
    (h : ∀ zero, b.type.shape.firstUnknown? = none → Value.zero b.type.component = .ok zero →
      b.pack = b'.pack) : b.pack = b'.pack := by
  cases hknown : b.type.shape.firstUnknown? with
  | some mode => rw [pack_of_unknown hknown, pack_of_unknown (htype ▸ hknown)]
  | none =>
    by_cases htyped : b.type.component = .undefined
    · rw [pack_of_undefined hknown htyped, pack_of_undefined (htype ▸ hknown) (htype ▸ htyped)]
    · obtain ⟨zero, hzero⟩ := Value.exists_zero htyped
      exact h zero hknown hzero

theorem pack_congr (htype : b.type = b'.type) (hformat : b.format = b'.format)
    (hfirsts : firsts b.sorted = firsts b'.sorted)
    (haccepted : b.duplicates = .refuse → b.repeated = [])
    (haccepted' : b'.duplicates = .refuse → b'.repeated = []) : b.pack = b'.pack := by
  refine pack_congr_of_known htype fun zero hknown hzero => ?_
  rw [pack_of_accepted hknown hzero haccepted,
    pack_of_accepted (htype ▸ hknown) (htype ▸ hzero) haccepted', assemble, assemble, stack,
    stack, htype, hformat, hfirsts]

/-- The first insertions decide what is kept. -/
theorem Holds.firsts_congr (h : b.Holds type format es) (h' : b'.Holds type format es')
    (hfirst : ∀ c, firstAt? es c = firstAt? es' c) : firsts b.sorted = firsts b'.sorted := by
  refine eq_of_increasing (firsts_increasing (pairwise_mergeSort_le _))
    (firsts_increasing (pairwise_mergeSort_le _)) fun x => ?_
  rw [h.mem_firsts, h'.mem_firsts]
  simp only [hfirst]

/-! ## Permutations -/

theorem map_coords_repeats_congr (h : es.map Entry.coords = es'.map Entry.coords) :
    (repeats es).map Entry.coords = (repeats es').map Entry.coords := by
  induction es generalizing es' with
  | nil => rw [List.map_eq_nil_iff.1 h.symm]
  | cons e es ih =>
    obtain ⟨e', es', rfl, he, hes⟩ := List.map_eq_cons_iff.1 h.symm
    cases es with
    | nil => rw [List.map_eq_nil_iff.1 hes]; rfl
    | cons f es =>
      obtain ⟨f', es', rfl, hf, -⟩ := List.map_eq_cons_iff.1 hes
      have hrest := ih hes.symm
      by_cases hfe : f.coords = e.coords
      · simp [repeats, he, hf, hfe, hrest]
      · simp [repeats, he, hf, hfe, hrest]

theorem map_coords_sorted_of_perm (h : b.Holds type format es) (h' : b'.Holds type format es')
    (hperm : es.Perm es') : b.sorted.map Entry.coords = b'.sorted.map Entry.coords := by
  have hcoords : (b.sorted.map Entry.coords).Perm (b'.sorted.map Entry.coords) := by
    rw [h.sorted_eq, h'.sorted_eq]
    apply List.Perm.map
    exact (List.mergeSort_perm _ _).trans
      ((hperm.map format.atLevels).trans (List.mergeSort_perm _ _).symm)
  refine hcoords.eq_of_pairwise (fun c d _ _ => coordsLe_antisymm) ?_ ?_
  · exact List.pairwise_map.2 (pairwise_mergeSort_le _)
  · exact List.pairwise_map.2 (pairwise_mergeSort_le _)

theorem repeated_of_perm (h : b.Holds type format es) (h' : b'.Holds type format es')
    (hperm : es.Perm es') : b.repeated = b'.repeated := by
  have hrepeats := map_coords_repeats_congr (map_coords_sorted_of_perm h h' hperm)
  have hmap : ∀ b : Builder,
      b.repeated = ((repeats b.sorted).map Entry.coords).map b.format.toDimensionOrder := by
    intro b
    rw [repeated, List.map_map]
    rfl
  rw [hmap, hmap, hrepeats, h.format_eq, h'.format_eq]

theorem firstAt?_of_perm (hnodup : (es.map Entry.coords).Nodup) (hperm : es.Perm es')
    (c : List Nat) : firstAt? es c = firstAt? es' c := by
  have hnodup' : (es'.map Entry.coords).Nodup := (hperm.map _).nodup_iff.1 hnodup
  ext e
  constructor
  · intro he
    obtain rfl := coords_of_firstAt? he
    rw [firstAt?_of_nodup hnodup] at he
    exact (firstAt?_of_nodup hnodup').2 (hperm.mem_iff.1 he)
  · intro he
    obtain rfl := coords_of_firstAt? he
    rw [firstAt?_of_nodup hnodup'] at he
    exact (firstAt?_of_nodup hnodup).2 (hperm.mem_iff.2 he)

theorem pack_of_perm (h : b.Holds type format es) (h' : b'.Holds type format es')
    (hrefuse : b.duplicates = .refuse) (hrefuse' : b'.duplicates = .refuse)
    (hperm : es.Perm es') : b.pack = b'.pack := by
  have htype : b.type = b'.type := h.type_eq.trans h'.type_eq.symm
  have hformat : b.format = b'.format := h.format_eq.trans h'.format_eq.symm
  have hrepeated := repeated_of_perm h h' hperm
  cases hcoords : b.repeated with
  | nil =>
    have hnodup : (es.map Entry.coords).Nodup := by
      rw [List.nodup_iff_count_le_one]
      intro c
      by_contra htwice
      exact h.repeated_ne_nil.2 ⟨c, by omega⟩ hcoords
    exact pack_congr htype hformat (h.firsts_congr h' (firstAt?_of_perm hnodup hperm))
      (fun _ => hcoords) fun _ => hrepeated.symm.trans hcoords
  | cons c cs =>
    refine pack_congr_of_known htype fun zero hknown hzero => ?_
    rw [pack_of_repeated hknown hzero hrefuse hcoords,
      pack_of_repeated (htype ▸ hknown) (htype ▸ hzero) hrefuse' (hrepeated ▸ hcoords)]

/-- **Packing and the order of insertion.** Take two builders of one type and one format, whatever
their insertions. If both keep first insertions, and every coordinate has the same first insertion
in both or none in either, they end alike: they pack the same storage or fail for the same fault. If
both refuse repetitions, and one has the insertions of the other in another order, they end alike,
and a coordinate that is refused is the same. -/
theorem pack_reordered (hb : Built type format es b) (hb' : Built type format es' b') :
    (b.duplicates = .keepFirst → b'.duplicates = .keepFirst →
      (∀ c, firstAt? es c = firstAt? es' c) → b.pack = b'.pack) ∧
    (b.duplicates = .refuse → b'.duplicates = .refuse → es.Perm es' → b.pack = b'.pack) := by
  have hb := hb.holds
  have hb' := hb'.holds
  constructor
  · intro hkeep hkeep' hfirst
    refine pack_congr (hb.type_eq.trans hb'.type_eq.symm) (hb.format_eq.trans hb'.format_eq.symm)
      (hb.firsts_congr hb' hfirst) ?_ ?_
    · rw [hkeep]
      exact nofun
    · rw [hkeep']
      exact nofun
  · exact pack_of_perm hb hb'

/-- In a column-major matrix, a second value at `[0, 1]` changes nothing, and neither does it matter
which column comes first. -/
theorem pack_reordered_csc :
    let type : TensorType := ⟨.bool, ⟨[.fixed 2 (by decide), .fixed 3 (by decide)]⟩⟩
    let format : Format := ⟨[.dense .int32, .sparse .int32 .int32], [1, 0], by decide⟩
    let es : List Entry := [⟨[0, 1], .bool true⟩, ⟨[1, 0], .bool true⟩, ⟨[0, 1], .bool false⟩]
    let es' : List Entry := [⟨[1, 0], .bool true⟩, ⟨[0, 1], .bool true⟩]
    ∃ b b', Built type format es b ∧ Built type format es' b' ∧ b.duplicates = .keepFirst ∧
      b'.duplicates = .keepFirst ∧ (∀ c, firstAt? es c = firstAt? es' c) ∧ b.pack = b'.pack := by
  intro type format es es'
  have hb : Built type format es ⟨type, format, .keepFirst, es⟩ :=
    (((Built.new rfl).insert ⟨[0, 1], .bool true⟩ rfl).insert ⟨[1, 0], .bool true⟩ rfl).insert
      ⟨[0, 1], .bool false⟩ rfl
  have hb' : Built type format es' ⟨type, format, .keepFirst, es'⟩ :=
    ((Built.new rfl).insert ⟨[1, 0], .bool true⟩ rfl).insert ⟨[0, 1], .bool true⟩ rfl
  have hfirst : ∀ c, firstAt? es c = firstAt? es' c := by
    intro c
    by_cases h₀ : [0, 1] = c
    · subst h₀
      rfl
    · by_cases h₁ : [1, 0] = c
      · subst h₁
        rfl
      · simp [firstAt?, es, es', h₀, h₁]
  exact ⟨_, _, hb, hb', rfl, rfl, hfirst, (pack_reordered hb hb').1 rfl rfl hfirst⟩

end SparseTensor.Builder
