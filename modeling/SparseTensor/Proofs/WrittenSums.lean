import SparseTensor.Proofs.FirstOccurrences
import SparseTensor.Proofs.Soundness
import SparseTensor.Proofs.SumPlacement

/-!
# Assignments with their sums written out

Once its sums are written out, a plain assignment is complete: only the variables of its target are
free in it, and these are for the statements around it to bind.

**Theorem (`explicitSums_closes`).** In the value that comes out, exactly the variables of the
target are still free, as far as they were, and in the order that they were in. There is nothing
more to write out. And if the value was sound, any loops around the assignment that bind the
variables of its target make it a concrete statement.

All of it follows from where sums are placed (`Placed`). Sums take away the occurrences of their
variables and no others (`Placed.freeOccurrences_eq`). They are above operands that use their
variables, and change no operand of a reduction that was there (`Placed.isSound_eq`).
-/

namespace SparseTensor

namespace Expr

variable {is : List IndexVar} {e r : Expr}

/-! ## What sums keep -/

theorem Wrapped.freeOccurrences_eq (h : Wrapped is e r) :
    r.freeOccurrences = e.freeOccurrences.filter fun v => v ∉ is := by
  induction h with
  | nil e => simp
  | cons n i _ ih =>
    rw [freeOccurrences, ih, List.filter_filter]
    simp [not_or]

/-- **Sums take away the occurrences of their variables**, and nothing else. -/
theorem Placed.freeOccurrences_eq (h : Placed is e r) :
    r.freeOccurrences = e.freeOccurrences.filter fun v => v ∉ is := by
  induction h with
  | term _ hwrap => exact hwrap.freeOccurrences_eq
  | neg _ _ _ ih => exact ih
  | @additive outer inner op a a' b b' r n n' _ _ _ _ _ hwrap iha ihb =>
    -- An operand gets the inner sums that it uses, and the others take nothing from it.
    have hinner : ∀ e : Expr, e.freeOccurrences.filter (fun v => v ∉ inner.filter e.uses) =
        e.freeOccurrences.filter fun v => v ∉ inner := by
      intro e
      refine List.filter_congr fun v hv => ?_
      simp [uses_iff.2 hv]
    rw [hwrap.freeOccurrences_eq, freeOccurrences, iha, ihb, hinner, hinner, ← List.filter_append,
      List.filter_filter]
    simp [freeOccurrences]

theorem Wrapped.reads_eq (h : Wrapped is e r) : r.reads = e.reads := by
  induction h with
  | nil e => rfl
  | cons _ _ _ ih => exact ih

theorem Placed.reads_eq (h : Placed is e r) : r.reads = e.reads := by
  induction h with
  | term _ hwrap => exact hwrap.reads_eq
  | neg _ _ _ ih => exact ih
  | additive _ _ _ _ _ _ _ _ _ hwrap iha ihb =>
    rw [hwrap.reads_eq, reads, reads, iha, ihb]

theorem Wrapped.isSound_eq (h : Wrapped is e r) (hnodup : is.Nodup)
    (huses : ∀ v ∈ is, v ∈ e.freeOccurrences) : r.isSound = e.isSound := by
  induction h with
  | nil e => rfl
  | @cons is e r n i hwrap ih =>
    obtain ⟨hi, hnodup⟩ := List.nodup_cons.1 hnodup
    obtain ⟨hused, huses⟩ := List.forall_mem_cons.1 huses
    have hr : r.uses i = true := uses_iff.2 (hwrap.mem_freeOccurrences.2 ⟨hused, hi⟩)
    rw [isSound, hr, Bool.true_and, ih hnodup huses]

/-- **Sums keep a value sound.** -/
theorem Placed.isSound_eq (h : Placed is e r) (hnodup : is.Nodup)
    (huses : ∀ v ∈ is, v ∈ e.freeOccurrences) : r.isSound = e.isSound := by
  induction h with
  | term _ hwrap => exact hwrap.isSound_eq hnodup huses
  | neg _ _ _ ih => exact ih hnodup huses
  | @additive outer inner op a a' b b' r n n' _ _ _ ha hb hwrap iha ihb =>
    obtain ⟨houter, hinner, hdisjoint⟩ := List.nodup_append.1 hnodup
    have hused : ∀ v ∈ outer, v ∈ (binary n' op a' b').freeOccurrences := by
      intro v hv
      have hnot : v ∉ inner := fun h => hdisjoint v hv v h rfl
      have hab := huses v (List.mem_append_left inner hv)
      simp only [freeOccurrences, List.mem_append] at hab ⊢
      simpa [ha.mem_freeOccurrences, hb.mem_freeOccurrences, hnot] using hab
    rw [hwrap.isSound_eq houter hused, isSound, isSound,
      iha (hinner.filter _) (by simp), ihb (hinner.filter _) (by simp)]

end Expr

namespace Stmt

variable {target : Access} {value value' : Expr} {s : Stmt}

/-! ## Nothing is left to sum over -/

/-- An assignment without implicit sums is given back, and no identity is used up. -/
theorem explicitSums_of_nil (h : summedVars target value = []) (n k : NodeId) :
    (assign n target value none).explicitSums.run k = (assign n target value none, k) := by
  rw [explicitSums, h]
  rfl

theorem freeVars_of_placed (h : Expr.Placed (summedVars target value) value value') :
    value'.freeVars = value.freeVars.filter fun v => v ∈ target.indices := by
  rw [Expr.freeVars, h.freeOccurrences_eq, Expr.freeVars, ← eraseDups_filter]
  congr 1
  refine List.filter_congr fun v hv => ?_
  simp [mem_summedVars, hv]

theorem summedVars_of_placed (h : Expr.Placed (summedVars target value) value value') :
    summedVars target value' = [] := by
  rw [summedVars, freeVars_of_placed h, List.filter_filter]
  simp

/-! ## Loops -/

/-- The statement in loops over the variables, the first outermost. -/
def forAlls (loops : List (NodeId × IndexVar)) (body : Stmt) : Stmt :=
  loops.foldr (fun loop s => forAll loop.1 loop.2 s) body

variable {loops : List (NodeId × IndexVar)}

theorem isSound_forAlls : (forAlls loops s).isSound = s.isSound := by
  induction loops with
  | nil => rfl
  | cons _ _ ih => exact ih

theorem freeOccurrences_forAlls :
    (forAlls loops s).freeOccurrences =
      s.freeOccurrences.filter fun v => v ∉ loops.map Prod.snd := by
  induction loops with
  | nil => simp [forAlls]
  | cons loop loops ih =>
    rw [forAlls, List.foldr_cons, freeOccurrences, ← forAlls, ih, List.filter_filter]
    refine List.filter_congr fun v _ => ?_
    rw [Bool.eq_iff_iff]
    simp

/-- A sound statement is concrete in loops over all variables that are free in it. -/
theorem checkConcrete_forAlls (hs : s.isSound = true)
    (hloops : ∀ v ∈ s.freeOccurrences, v ∈ loops.map Prod.snd) :
    (forAlls loops s).checkConcrete = .ok () := by
  refine checkConcrete_iff.2 ⟨by rw [isSound_forAlls, hs], ?_⟩
  rw [freeOccurrences_forAlls, List.filter_eq_nil_iff]
  intro v hv
  simpa using hloops v hv

/-! ## The main result -/

/-- **Sums close a plain assignment.** Let nothing be undefined in its value, and every reduction
there be over a variable that its operand uses. When its sums are written out,

- the variables that are free in its value are those of the target that were, in the same order;
- writing out the sums again gives back the same node;
- loops over any variables, in any order, make the assignment concrete as long as the variables of
  the target are among them. -/
theorem explicitSums_closes (n k : NodeId) (target : Access) (value : Expr)
    (hvalue : value.isSound = true) :
    ∃ n' value' k', (assign n target value none).explicitSums.run k =
        (assign n' target value' none, k') ∧
      value'.freeVars = value.freeVars.filter (fun v => v ∈ target.indices) ∧
      (∀ j, (assign n' target value' none).explicitSums.run j =
        (assign n' target value' none, j)) ∧
      ∀ loops : List (NodeId × IndexVar), (∀ v ∈ target.indices, v ∈ loops.map Prod.snd) →
        (forAlls loops (assign n' target value' none)).checkConcrete = .ok () := by
  obtain ⟨n', value', k', hrun, hplaced, -⟩ := placed_explicitSums n k target value
  refine ⟨n', value', k', hrun, freeVars_of_placed hplaced,
    explicitSums_of_nil (summedVars_of_placed hplaced) n', fun loops hloops => ?_⟩
  have huses : ∀ v ∈ summedVars target value, v ∈ value.freeOccurrences :=
    fun v hv => (mem_summedVars.1 hv).1
  have hsound : value'.isSound = true := by
    rw [hplaced.isSound_eq nodup_summedVars huses, hvalue]
  refine checkConcrete_forAlls hsound fun v hv => hloops v ?_
  rw [freeOccurrences, List.mem_append] at hv
  rcases hv with hv | hv
  · exact hv
  · -- What is still free in the value is not summed over, so the target has it.
    obtain ⟨hfree, hsummed⟩ := hplaced.mem_freeOccurrences.1 hv
    by_contra htarget
    exact hsummed (mem_summedVars.2 ⟨hfree, htarget⟩)

/-- In `a(i) = B(i,j) + sum(j, c(j))`, where `j` is free in one operand and bound in the other. -/
theorem explicitSums_closes_bound :
    let i : IndexVar := ⟨0, "i"⟩
    let j : IndexVar := ⟨1, "j"⟩
    let tensor (k : Nat) (name : String) (order : Nat) : TensorVar :=
      ⟨k, name, ⟨.float .double, ⟨List.replicate order .unknown⟩⟩, .dense order⟩
    let target : Access := ⟨0, tensor 0 "a" 1, [i]⟩
    let value : Expr := .binary 4 .add (.access ⟨1, tensor 1 "B" 2, [i, j]⟩)
      (.reduction 3 .sum j (.access ⟨2, tensor 2 "c" 1, [j]⟩))
    value.isSound = true ∧ (∀ v ∈ target.indices, v ∈ [((8 : NodeId), j), (9, i)].map Prod.snd) ∧
      ∃ n' value' k', (assign 5 target value none).explicitSums.run 6 =
          (assign n' target value' none, k') ∧
        value'.freeVars = [i] ∧
        (forAlls [(8, j), (9, i)] (assign n' target value' none)).checkConcrete = .ok () := by
  intro i j tensor target value
  have hvalue : value.isSound = true := by decide +kernel
  have hloops : ∀ v ∈ target.indices, v ∈ [((8 : NodeId), j), (9, i)].map Prod.snd := by
    decide +kernel
  have hfree : value.freeVars.filter (fun v => v ∈ target.indices) = [i] := by decide +kernel
  obtain ⟨n', value', k', hrun, hvars, -, hconcrete⟩ := explicitSums_closes 5 6 target value hvalue
  exact ⟨hvalue, hloops, n', value', k', hrun, hvars.trans hfree, hconcrete _ hloops⟩

end Stmt

end SparseTensor
