import Mathlib.Data.List.Basic
import SparseTensor.Proofs.FreshNodes
import SparseTensor.Proofs.RenamedImages

/-!
# Renaming twice

Two renamings one after the other are one renaming.

**Theorem (`Renaming.inPart_comp`).** Renaming by `m₁` and then by `m₂` gives the tree that one
renaming gives which sends every variable to where the two send it. Such a renaming is always there
(`Renaming.andThen`), whether or not the two keep variables apart, and whatever names they share.
If `m₂` takes back what `m₁` does, the tree comes back. The inverse of a permutation does so
(`Renaming.IsPermutation.leftInverse`).

All follows from what one renaming gives, the image under its map of variables, because images
compose. It matters for this that all variables are renamed at once: if `i` becomes `j` while `j`
becomes `i`, no variable is renamed twice.
-/

namespace SparseTensor

open Place

variable {σ : Type}

namespace Renaming

variable (m m₁ m₂ : Renaming)

/-- The variables that are renamed. -/
def keys : List IndexVar := m.pairs.map Prod.fst

/-- The renaming that does what `m₁` and then `m₂` do. -/
def andThen : Renaming := ⟨(m₁.keys ++ m₂.keys).map fun i => (i, m₂.apply (m₁.apply i))⟩

/-- The renaming with all pairs turned round. -/
def inverse : Renaming := ⟨m.pairs.map Prod.swap⟩

/-- The renaming permutes its keys. -/
structure IsPermutation : Prop where
  nodup : m.keys.Nodup
  perm : (m.pairs.map Prod.snd).Perm m.keys

variable {m}

theorem find?_eq_none_iff {i : IndexVar} : m.find? i = none ↔ i ∉ m.keys := by
  simp only [find?, List.lookup_eq_none_iff, keys, List.mem_map, not_exists, not_and, bne_iff_ne]
  exact ⟨fun h p hp hi => h p hp hi.symm, fun h p hp hi => h p hp hi.symm⟩

theorem apply_of_notMem {i : IndexVar} (h : i ∉ m.keys) : m.apply i = i :=
  apply_of_find?_eq_none (find?_eq_none_iff.2 h)

/-- If no key is repeated, every pair counts. -/
theorem apply_of_mem (hm : m.keys.Nodup) {i j : IndexVar} (h : (i, j) ∈ m.pairs) :
    m.apply i = j := by
  obtain ⟨before, after, hpairs⟩ := List.append_of_mem h
  have hfirst : ∀ p ∈ before, i ≠ p.1 := by
    intro p hp hi
    rw [keys, hpairs, List.map_append, List.map_cons, List.nodup_append] at hm
    exact hm.2.2 p.1 (List.mem_map_of_mem hp) i List.mem_cons_self hi.symm
  have hfind : m.find? i = some j :=
    List.lookup_eq_some_iff.2 ⟨before, after, hpairs, fun p hp => bne_iff_ne.2 (hfirst p hp)⟩
  rw [apply, hfind, Option.getD_some]

theorem apply_andThen (m₁ m₂ : Renaming) : (m₁.andThen m₂).apply = m₂.apply ∘ m₁.apply := by
  funext i
  by_cases hi : i ∈ m₁.keys ++ m₂.keys
  · rw [apply, find?, andThen, List.lookup_graph (fun i => m₂.apply (m₁.apply i)) hi,
      Option.getD_some, Function.comp_apply]
  · have hkeys : (m₁.andThen m₂).keys = m₁.keys ++ m₂.keys := by
      simp [andThen, keys, Function.comp_def]
    rw [apply_of_notMem (hkeys ▸ hi)]
    rw [List.mem_append, not_or] at hi
    rw [Function.comp_apply, apply_of_notMem hi.1, apply_of_notMem hi.2]

/-- **The inverse of a permutation** takes it back. -/
theorem IsPermutation.leftInverse (h : m.IsPermutation) :
    Function.LeftInverse m.inverse.apply m.apply := by
  have hkeys : m.inverse.keys = m.pairs.map Prod.snd := by
    simp [inverse, keys, Function.comp_def]
  intro i
  by_cases hi : i ∈ m.keys
  · obtain ⟨⟨i, j⟩, hpair, rfl⟩ := List.mem_map.1 hi
    have hback : (j, i) ∈ m.inverse.pairs := List.mem_map_of_mem (f := Prod.swap) hpair
    rw [apply_of_mem h.nodup hpair]
    exact apply_of_mem (hkeys ▸ h.perm.nodup_iff.2 h.nodup) hback
  · have hi' : i ∉ m.inverse.keys := fun hmem => hi (h.perm.mem_iff.1 (hkeys ▸ hmem))
    rw [apply_of_notMem hi, apply_of_notMem hi']

/-! ## The main result -/

/-- **Renamings compose.** Let nothing be undefined in `p` and `n` be an identity above those of its
nodes. Renaming by `m₁` and then by `m₂` succeeds, and

- the first run renames every variable of `p` once and all at the same time;
- any renaming `m` that sends each variable where `m₁` and then `m₂` send it gives in one run a tree
  like the one that the two runs give, and `m₁.andThen m₂` is one;
- if `m₂` sends back what `m₁` sends away, the tree that comes out is like `p`. -/
theorem inPart_comp (m₁ m₂ : Renaming) (p : Part) (n : NodeId) (st : σ) (hp : p.place.IsWhole)
    (hn : p.place.Precedes n) :
    ∃ q st₁ n₁ r st₂ n₂, Yields (m₁.inPart p) st n q st₁ n₁ ∧
      Yields (m₂.inPart q) st₁ n₁ r st₂ n₂ ∧
      (p.place.image m₁.apply).alike q.place = true ∧
      (∀ (m : Renaming) (st : σ) (k : NodeId), m.apply = m₂.apply ∘ m₁.apply →
        p.place.Precedes k →
          ∃ r' st' k', Yields (m.inPart p) st k r' st' k' ∧ r.place.alike r'.place = true) ∧
      (m₁.andThen m₂).apply = m₂.apply ∘ m₁.apply ∧
      (Function.LeftInverse m₂.apply m₁.apply → r.place.alike p.place = true) := by
  obtain ⟨q, st₁, n₁, hrun₁, himage₁, hq, hn₁⟩ := m₁.exists_image_part hp hn st
  obtain ⟨r, st₂, n₂, hrun₂, himage₂, -⟩ := m₂.exists_image_part hq hn₁ st₁
  have hboth : r.place.image id = p.place.image (m₂.apply ∘ m₁.apply) :=
    calc r.place.image id = q.place.image m₂.apply := himage₂
      _ = (q.place.image id).image m₂.apply := (image_comp id m₂.apply q.place).symm
      _ = (p.place.image m₁.apply).image m₂.apply := by rw [himage₁]
      _ = p.place.image (m₂.apply ∘ m₁.apply) := image_comp m₁.apply m₂.apply p.place
  refine ⟨q, st₁, n₁, r, st₂, n₂, hrun₁, hrun₂, ?_, ?_, apply_andThen m₁ m₂, ?_⟩
  · rw [alike_iff_image, image_image, himage₁]
  · intro m st k hm hk
    obtain ⟨r', st', k', hrun, himage, -⟩ := m.exists_image_part hp hk st
    exact ⟨r', st', k', hrun, alike_iff_image.2 (by rw [hboth, himage, hm])⟩
  · intro hinverse
    rw [alike_iff_image, hboth, hinverse.comp_eq_id]

/-- In `y(i) = sum(j, A(i,j))`, where `i`, `j` and `k` change places in a round. One round gives
`y(j) = sum(k, A(j,k))`, which the inverse takes back, and two rounds are one renaming. -/
theorem inPart_comp_round :
    let i : IndexVar := ⟨0, "i"⟩
    let j : IndexVar := ⟨1, "j"⟩
    let k : IndexVar := ⟨2, "k"⟩
    let tensor (id : Nat) (name : String) (order : Nat) : TensorVar :=
      ⟨id, name, ⟨.float .double, ⟨List.replicate order .unknown⟩⟩, .dense order⟩
    let s (i j : IndexVar) : Stmt := .assign 3 ⟨0, tensor 0 "y" 1, [i]⟩
      (.reduction 2 .sum j (.access ⟨1, tensor 1 "A" 2, [i, j]⟩)) none
    let m : Renaming := ⟨[(i, j), (j, k), (k, i)]⟩
    m.IsPermutation ∧ (Part.stmt (s i j)).place.IsWhole ∧ (Part.stmt (s i j)).place.Precedes 4 ∧
      (∃ q n₁ r n₂, Yields (m.inPart (.stmt (s i j))) () 4 q () n₁ ∧
        Yields (m.inverse.inPart q) () n₁ r () n₂ ∧
        (stmt (s j k)).alike q.place = true ∧ r.place.alike (stmt (s i j)) = true) ∧
      ∃ q n₁ r n₂, Yields (m.inPart (.stmt (s i j))) () 4 q () n₁ ∧
        Yields (m.inPart q) () n₁ r () n₂ ∧
        ∃ r' k', Yields ((m.andThen m).inPart (.stmt (s i j))) () 4 r' () k' ∧
          r.place.alike r'.place = true := by
  intro i j k tensor s m
  have hm : m.IsPermutation := ⟨by decide, by decide⟩
  have hwhole : (stmt (s i j)).IsWhole := by
    rw [isWhole_iff_allLabels, allLabels_assign, allLabels_reduction, allLabels_leaf rfl,
      allLabels_leaf rfl]
    exact ⟨rfl, rfl, rfl, rfl⟩
  have hn : (stmt (s i j)).Precedes 4 := (precedes_stmt _).2 (by decide +kernel)
  have hround : (stmt (s j k)).alike ((stmt (s i j)).image m.apply) = true := by decide +kernel
  refine ⟨hm, hwhole, hn, ?_, ?_⟩
  · obtain ⟨q, _, n₁, r, _, n₂, hrun₁, hrun₂, himage, -, -, hback⟩ :=
      inPart_comp m m.inverse (.stmt (s i j)) 4 () hwhole hn
    exact ⟨q, n₁, r, n₂, hrun₁, hrun₂, alike_trans hround himage, hback hm.leftInverse⟩
  · obtain ⟨q, _, n₁, r, _, n₂, hrun₁, hrun₂, -, hone, hboth, -⟩ :=
      inPart_comp m m (.stmt (s i j)) 4 () hwhole hn
    obtain ⟨r', _, k', hrun, hlike⟩ := hone (m.andThen m) () 4 hboth hn
    exact ⟨q, n₁, r, n₂, hrun₁, hrun₂, r', k', hrun, hlike⟩

end Renaming

end SparseTensor
