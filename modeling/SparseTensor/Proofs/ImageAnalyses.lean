import SparseTensor.Proofs.FirstOccurrences
import SparseTensor.Proofs.Images
import SparseTensor.Proofs.Soundness
import SparseTensor.Proofs.SumPlacement

/-!
# Analyses of images

Let `f` map no two of the variables that occur in a tree to one. Then analysing the image of the
tree under `f` gives the image of the analysis: free variables in their order
(`Stmt.freeVars_image`), tensors (`Stmt.writes_image`, `Stmt.reads_image`), the check for concrete
statements (`Stmt.checkConcrete_image`), and where sums are placed (`Stmt.image_explicitSums`).

All comparisons of variables in these analyses are between variables that occur in the tree. So it
is enough that `f` is injective on a set `S` that has all of these.
-/

namespace SparseTensor

variable {f : IndexVar → IndexVar} {S : Set IndexVar} {i : IndexVar}

/-- What is found in a list is found in its image, and conversely. -/
theorem mem_map_of_injOn {is : List IndexVar} (hf : S.InjOn f) (hi : i ∈ S)
    (his : ∀ j ∈ is, j ∈ S) : f i ∈ is.map f ↔ i ∈ is :=
  List.mem_map.trans (hf.mem_image_iff his hi)

namespace Expr

variable {e : Expr}

theorem occurrences_of_free (h : i ∈ e.freeOccurrences) : i ∈ e.occurrences := by
  induction e with
  | undefined | literal => cases h
  | access a => exact h
  | unary _ _ a ih => exact ih h
  | binary _ _ a b iha ihb => exact List.mem_append.2 ((List.mem_append.1 h).imp iha ihb)
  | reduction _ _ j a ih => exact List.mem_cons_of_mem j (ih (List.mem_filter.1 h).1)

theorem reads_image : (e.image f).reads = e.reads := by
  induction e with
  | undefined | access | literal => rfl
  | unary _ _ a ih | reduction _ _ _ a ih => exact ih
  | binary _ _ a b iha ihb => rw [image, reads, reads, iha, ihb]

theorem freeOccurrences_image (hf : S.InjOn f) (he : ∀ j ∈ e.occurrences, j ∈ S) :
    (e.image f).freeOccurrences = e.freeOccurrences.map f := by
  induction e with
  | undefined | access | literal => rfl
  | unary _ _ a ih => exact ih he
  | binary _ _ a b iha ihb =>
    obtain ⟨ha, hb⟩ := List.forall_mem_append.1 he
    rw [image, freeOccurrences, freeOccurrences, iha ha, ihb hb, List.map_append]
  | reduction _ _ i a ih =>
    obtain ⟨hi, ha⟩ := List.forall_mem_cons.1 he
    rw [image, freeOccurrences, freeOccurrences, ih ha]
    exact filter_ne_map hf hi fun j hj => ha j (occurrences_of_free hj)

theorem uses_image (hf : S.InjOn f) (hi : i ∈ S) (he : ∀ j ∈ e.occurrences, j ∈ S) :
    (e.image f).uses (f i) = e.uses i := by
  rw [Bool.eq_iff_iff, uses_iff, uses_iff, freeOccurrences_image hf he]
  exact mem_map_of_injOn hf hi fun j hj => he j (occurrences_of_free hj)

theorem isSound_image (hf : S.InjOn f) (he : ∀ j ∈ e.occurrences, j ∈ S) :
    (e.image f).isSound = e.isSound := by
  induction e with
  | undefined | access | literal => rfl
  | unary _ _ a ih => exact ih he
  | binary _ _ a b iha ihb =>
    obtain ⟨ha, hb⟩ := List.forall_mem_append.1 he
    rw [image, isSound, isSound, iha ha, ihb hb]
  | reduction _ _ i a ih =>
    obtain ⟨hi, ha⟩ := List.forall_mem_cons.1 he
    rw [image, isSound, isSound, uses_image hf hi ha, ih ha]

theorem freeVars_image (hf : S.InjOn f) (he : ∀ j ∈ e.occurrences, j ∈ S) :
    (e.image f).freeVars = e.freeVars.map f := by
  rw [freeVars, freeVars, freeOccurrences_image hf he]
  exact eraseDups_map hf fun j hj => he j (occurrences_of_free hj)

end Expr

namespace Stmt

variable {s : Stmt}

mutual

theorem occurrences_of_free {i : IndexVar} :
    (s : Stmt) → i ∈ s.freeOccurrences → i ∈ s.occurrences
  | undefined, h => h
  | assign _ _ _ _, h => List.mem_append.2 ((List.mem_append.1 h).imp id Expr.occurrences_of_free)
  | forAll _ j body, h =>
    List.mem_cons_of_mem j (occurrences_of_free body (List.mem_filter.1 h).1)
  | staged _ consumer producer, h => List.mem_append.2
    ((List.mem_append.1 h).imp (occurrences_of_free consumer) (occurrences_of_free producer))
  | group _ _ members, h => allOccurrences_of_free members h

theorem allOccurrences_of_free {i : IndexVar} :
    (ss : List Stmt) → i ∈ allFreeOccurrences ss → i ∈ allOccurrences ss
  | [], h => h
  | s :: ss, h => List.mem_append.2
    ((List.mem_append.1 h).imp (occurrences_of_free s) (allOccurrences_of_free ss))

end

mutual

theorem writes_image : (s : Stmt) → (s.image f).writes = s.writes
  | undefined | assign .. => rfl
  | forAll _ _ body => writes_image body
  | staged _ consumer _ => writes_image consumer
  | group _ _ members => allWrites_images members

theorem allWrites_images : (ss : List Stmt) → allWrites (images f ss) = allWrites ss
  | [] => rfl
  | s :: ss => by rw [images, allWrites, allWrites, writes_image s, allWrites_images ss]

end

mutual

theorem reads_image : (s : Stmt) → (s.image f).reads = s.reads
  | undefined => rfl
  | assign .. => Expr.reads_image
  | forAll _ _ body => reads_image body
  | staged _ consumer producer => by
    rw [image, reads, reads, reads_image consumer, reads_image producer]
  | group _ _ members => allReads_images members

theorem allReads_images : (ss : List Stmt) → allReads (images f ss) = allReads ss
  | [] => rfl
  | s :: ss => by rw [images, allReads, allReads, reads_image s, allReads_images ss]

end

mutual

theorem freeOccurrences_image (hf : S.InjOn f) : (s : Stmt) → (∀ j ∈ s.occurrences, j ∈ S) →
    (s.image f).freeOccurrences = s.freeOccurrences.map f
  | undefined, _ => rfl
  | assign _ target value _, h => by
    have hvalue := (List.forall_mem_append.1 h).2
    rw [image, freeOccurrences, freeOccurrences, Expr.freeOccurrences_image hf hvalue,
      List.map_append]
    rfl
  | forAll _ i body, h => by
    obtain ⟨hi, hbody⟩ := List.forall_mem_cons.1 h
    rw [image, freeOccurrences, freeOccurrences, freeOccurrences_image hf body hbody]
    exact filter_ne_map hf hi fun j hj => hbody j (occurrences_of_free body hj)
  | staged _ consumer producer, h => by
    obtain ⟨hc, hp⟩ := List.forall_mem_append.1 h
    rw [image, freeOccurrences, freeOccurrences, freeOccurrences_image hf consumer hc,
      freeOccurrences_image hf producer hp, List.map_append]
  | group _ _ members, h => allFreeOccurrences_images hf members h

theorem allFreeOccurrences_images (hf : S.InjOn f) : (ss : List Stmt) →
    (∀ j ∈ allOccurrences ss, j ∈ S) →
      allFreeOccurrences (images f ss) = (allFreeOccurrences ss).map f
  | [], _ => rfl
  | s :: ss, h => by
    obtain ⟨hs, hss⟩ := List.forall_mem_append.1 h
    rw [images, allFreeOccurrences, allFreeOccurrences, freeOccurrences_image hf s hs,
      allFreeOccurrences_images hf ss hss, List.map_append]

end

mutual

theorem isSound_image (hf : S.InjOn f) : (s : Stmt) → (∀ j ∈ s.occurrences, j ∈ S) →
    (s.image f).isSound = s.isSound
  | undefined, _ => rfl
  | assign _ _ _ _, h => Expr.isSound_image hf (List.forall_mem_append.1 h).2
  | forAll _ _ body, h => isSound_image hf body (List.forall_mem_cons.1 h).2
  | staged _ consumer producer, h => by
    obtain ⟨hc, hp⟩ := List.forall_mem_append.1 h
    rw [image, isSound, isSound, isSound_image hf consumer hc, isSound_image hf producer hp,
      writes_image, reads_image]
  | group _ _ members, h => areSound_images hf members h

theorem areSound_images (hf : S.InjOn f) : (ss : List Stmt) →
    (∀ j ∈ allOccurrences ss, j ∈ S) → areSound (images f ss) = areSound ss
  | [], _ => rfl
  | s :: ss, h => by
    obtain ⟨hs, hss⟩ := List.forall_mem_append.1 h
    rw [images, areSound, areSound, isSound_image hf s hs, areSound_images hf ss hss]

end

theorem freeVars_image (hf : S.InjOn f) (hs : ∀ j ∈ s.occurrences, j ∈ S) :
    (s.image f).freeVars = s.freeVars.map f := by
  rw [freeVars, freeVars, freeOccurrences_image hf s hs]
  exact eraseDups_map hf fun j hj => hs j (occurrences_of_free s hj)

/-- **Concreteness is a matter of structure.** -/
theorem checkConcrete_image (hf : S.InjOn f) (hs : ∀ j ∈ s.occurrences, j ∈ S) :
    (s.image f).checkConcrete = .ok () ↔ s.checkConcrete = .ok () := by
  rw [checkConcrete_iff, checkConcrete_iff, isSound_image hf s hs, freeOccurrences_image hf s hs,
    List.map_eq_nil_iff]

/-- Neither looks at identities. -/
theorem freeVars_image_id : (s.image id).freeVars = s.freeVars := by
  rw [freeVars_image (Set.injOn_id Set.univ) fun _ _ => trivial, List.map_id]

theorem checkConcrete_image_id : (s.image id).checkConcrete = .ok () ↔ s.checkConcrete = .ok () :=
  checkConcrete_image (Set.injOn_id Set.univ) fun _ _ => trivial

end Stmt

/-! ## Implicit sums -/

namespace Expr

variable {e e' : Expr} {is : List IndexVar}

theorem image_image : (e.image f).image id = e.image f :=
  Place.read.inj (Place.image_image (.read e))

theorem image_sum (n k : NodeId) :
    ((e.sum i).run n).1.image f = (((e.image f).sum (f i)).run k).1.image id :=
  congrArg (reduction 0 .sum (f i)) image_image.symm

theorem image_sum_of_uses (hf : S.InjOn f) (hi : i ∈ S) (he : ∀ j ∈ e.occurrences, j ∈ S)
    (n k : NodeId) :
    ((if e.uses i then e.sum i else return e : Fresh Expr).run n).1.image f =
      ((if (e.image f).uses (f i) then (e.image f).sum (f i) else return e.image f : Fresh Expr).run
        k).1.image id := by
  rw [uses_image hf hi he]
  split
  · exact image_sum n k
  · exact image_image.symm

/-- **The image of one more sum** is one more sum over the image. -/
theorem image_deepSum (hf : S.InjOn f) (hi : i ∈ S) (he : ∀ j ∈ e.occurrences, j ∈ S)
    (n k : NodeId) :
    ((e.deepSum i).run n).1.image f = (((e.image f).deepSum (f i)).run k).1.image id := by
  induction e generalizing n k with
  | undefined | access | literal | reduction => exact image_sum_of_uses hf hi he n k
  | unary m op a ih =>
    cases op with
    | neg =>
      have ha : ∀ j ∈ a.occurrences, j ∈ S := he
      rw [image, deepSum, deepSum, uses_image hf hi ha]
      split
      · exact congrArg (unary 0 .neg) (ih ha (n + 1) (k + 1))
      · exact image_image.symm
    | sqrt => exact image_sum_of_uses hf hi he n k
  | binary m op a b iha ihb =>
    obtain ⟨ha, hb⟩ := List.forall_mem_append.1 he
    rw [image, deepSum, deepSum, uses_image hf hi ha, uses_image hf hi hb]
    split
    · exact image_image.symm
    · exact congrArg₂ (binary 0 op) (iha ha (n + 1) (k + 1)) image_image.symm
    · exact congrArg₂ (binary 0 op) image_image.symm (ihb hb (n + 1) (k + 1))
    · exact image_sum n k

/-- Sums do not look at identities. -/
theorem image_deepSum_id (n k : NodeId) :
    ((e.deepSum i).run n).1.image id = (((e.image id).deepSum i).run k).1.image id :=
  image_deepSum (Set.injOn_id Set.univ) trivial (fun _ _ => trivial) n k

theorem Wrapped.mem_occurrences (h : Wrapped is e e') {v : IndexVar} (hv : v ∈ e'.occurrences) :
    v ∈ is ∨ v ∈ e.occurrences := by
  induction h with
  | nil => exact .inr hv
  | cons n i _ ih =>
    rcases List.mem_cons.1 hv with rfl | hv
    · exact .inl List.mem_cons_self
    · exact (ih hv).imp_left (List.mem_cons_of_mem i)

/-- Sums add occurrences of their variables only. -/
theorem Placed.mem_occurrences (h : Placed is e e') {v : IndexVar} (hv : v ∈ e'.occurrences) :
    v ∈ is ∨ v ∈ e.occurrences := by
  induction h with
  | term _ hwrap => exact hwrap.mem_occurrences hv
  | neg _ _ _ ih => exact ih hv
  | additive outer inner _ _ _ _ _ _ _ hwrap iha ihb =>
    rw [List.mem_append]
    rcases hwrap.mem_occurrences hv with hv | hv
    · exact .inl (.inl hv)
    · rcases List.mem_append.1 hv with hv | hv
      · exact (iha hv).imp (fun h => .inr (List.mem_filter.1 h).1) (List.mem_append_left _)
      · exact (ihb hv).imp (fun h => .inr (List.mem_filter.1 h).1) (List.mem_append_right _)

/-- **The image of sums** over variables that are used is sums over the image. -/
theorem image_deepSums (hf : S.InjOn f) (he : ∀ j ∈ e.occurrences, j ∈ S) (hnodup : is.Nodup)
    (huses : ∀ v ∈ is, v ∈ e.freeOccurrences) (n k : NodeId) :
    ((e.deepSums is).run n).1.image f =
      (((e.image f).deepSums (is.map f)).run k).1.image id := by
  induction is generalizing n k with
  | nil => exact image_image.symm
  | cons i is ih =>
    obtain ⟨-, hnodup⟩ := List.nodup_cons.1 hnodup
    obtain ⟨hused, huses⟩ := List.forall_mem_cons.1 huses
    have hi : i ∈ S := he i (occurrences_of_free hused)
    have hinner : ∀ j ∈ ((e.deepSums is).run n).1.occurrences, j ∈ S := by
      intro j hj
      rcases (placed_deepSums hnodup huses n).mem_occurrences hj with hj | hj
      · exact he j (occurrences_of_free (huses j hj))
      · exact he j hj
    rw [List.map_cons, deepSums, deepSums, List.foldrM_cons, List.foldrM_cons]
    -- Both add the last sum to expressions that are alike, by the induction hypothesis.
    calc (((e.deepSums is).run n).1.deepSum i |>.run ((e.deepSums is).run n).2).1.image f
      _ = ((((e.deepSums is).run n).1.image f).deepSum (f i) |>.run 0).1.image id :=
        image_deepSum hf hi hinner _ _
      _ = (((((e.image f).deepSums (is.map f)).run k).1.image id).deepSum (f i) |>.run 0).1.image
          id := by rw [ih hnodup huses n k]
      _ = ((((e.image f).deepSums (is.map f)).run k).1.deepSum (f i) |>.run
          (((e.image f).deepSums (is.map f)).run k).2).1.image id := (image_deepSum_id _ _).symm

end Expr

namespace Stmt

variable {s : Stmt} {target : Access} {value : Expr}

theorem summedVars_image (hf : S.InjOn f) (htarget : ∀ j ∈ target.indices, j ∈ S)
    (hvalue : ∀ j ∈ value.occurrences, j ∈ S) :
    summedVars (target.image f) (value.image f) = (summedVars target value).map f := by
  rw [summedVars, summedVars, Expr.freeVars_image hf hvalue, List.filter_map]
  congr 1
  refine List.filter_congr fun v hv => ?_
  have hv : v ∈ S := by
    rw [Expr.freeVars, List.mem_eraseDups] at hv
    exact hvalue v (Expr.occurrences_of_free hv)
  simp only [Function.comp_apply, Access.image, mem_map_of_injOn hf hv htarget]

theorem image_image : (s.image f).image id = s.image f :=
  Place.stmt.inj (Place.image_image (.stmt s))

/-- **The image of written out sums** is that of the image with its sums written out. -/
theorem image_explicitSums (hf : S.InjOn f) (hs : ∀ j ∈ s.occurrences, j ∈ S) (n k : NodeId) :
    (s.explicitSums.run n).1.image f = ((s.image f).explicitSums.run k).1.image id := by
  cases s with
  | assign m target value op =>
    cases op with
    | none =>
      obtain ⟨htarget, hvalue⟩ := List.forall_mem_append.1 hs
      rw [image, explicitSums, explicitSums, summedVars_image hf htarget hvalue]
      cases h : summedVars target value with
      | nil => exact image_image.symm
      | cons i is =>
        have hsums := Expr.image_deepSums hf hvalue (h ▸ nodup_summedVars)
          (fun v hv => (mem_summedVars.1 (h ▸ hv)).1) (n + 1) (k + 1)
        have htarget : target.image f = (target.image f).image id :=
          (Place.target.inj (Place.image_image (.target target))).symm
        exact congrArg₂ (assign 0 · · none) htarget hsums
    | some op => exact image_image.symm
  | undefined | forAll | staged | group => exact image_image.symm

theorem image_explicitSums_id (n k : NodeId) :
    (s.explicitSums.run n).1.image id = ((s.image id).explicitSums.run k).1.image id :=
  image_explicitSums (Set.injOn_id Set.univ) (fun _ _ => trivial) n k

end Stmt

end SparseTensor
