import SparseTensor.Proofs.FreshNodes
import SparseTensor.Proofs.ImageAnalyses
import SparseTensor.Proofs.RenamedImages

/-!
# Injective renamings

A renaming that keeps the variables of a statement apart changes names and nothing else.

**Theorem (`inStmt_commutes`).** The free variables of the renamed statement are those of the
statement, renamed, in their order. It is concrete iff the statement is, and it has the same results
and inputs. Renaming the statement with its sums written out gives a tree like the renamed statement
with its sums written out. The renaming may well use old names for other variables, as a swap does,
because all variables are renamed at once.

The renamed statement is like the image under the renaming (`Renaming.exists_image`), and the
analyses have been seen to commute with images.
-/

namespace SparseTensor

open Place

variable {σ : Type}

theorem Stmt.precedes_explicitSums {s : Stmt} {n : NodeId} (h : (stmt s).Precedes n) :
    (stmt (s.explicitSums.run n).1).Precedes (s.explicitSums.run n).2 :=
  (precedes_stmt _).2 (Stmt.nodes_explicitSums ((precedes_stmt s).1 h))

theorem Stmt.isWhole_explicitSums {s : Stmt} (h : (stmt s).IsWhole) (k : NodeId) :
    (stmt (s.explicitSums.run k).1).IsWhole :=
  isWhole_iff_allLabels.2 (allLabels_explicitSums (fun _ => rfl) (isWhole_iff_allLabels.1 h) k)

/-! ## The main result -/

namespace Renaming

/-- **An injective renaming commutes with the analyses.** Let nothing be undefined in `s`, `n` be an
identity above those of its nodes, and `m` rename no two variables that occur in `s` to one. Then

- the free variables of the renamed statement are those of `s`, renamed, in the same order;
- it is concrete iff `s` is;
- it has the results and the inputs of `s`;
- writing out its sums gives the same tree as renaming what writing out the sums of `s` gives. -/
theorem inStmt_commutes (m : Renaming) (s : Stmt) (n : NodeId) (st : σ) (hs : (stmt s).IsWhole)
    (hn : (stmt s).Precedes n) (hm : Set.InjOn m.apply {i | i ∈ s.occurrences}) :
    ∃ r st' n', Yields (m.inStmt s) st n r st' n' ∧
      r.freeVars = s.freeVars.map m.apply ∧
      (r.checkConcrete = .ok () ↔ s.checkConcrete = .ok ()) ∧
      r.results = s.results ∧ r.inputs = s.inputs ∧
      ∃ t k u st'' k', s.explicitSums.run n = (t, k) ∧ Yields (m.inStmt t) st k u st'' k' ∧
        ∀ l, (r.explicitSums.run l).1.alike u = true := by
  have hocc : ∀ i ∈ s.occurrences, i ∈ {i | i ∈ s.occurrences} := fun _ h => h
  obtain ⟨r, st', n', hrun, himage⟩ := m.exists_image hs hn st
  obtain ⟨u, st'', k', hrun', himage'⟩ :=
    m.exists_image (Stmt.isWhole_explicitSums hs n) (Stmt.precedes_explicitSums hn) st
  refine ⟨r, st', n', hrun, ?_, ?_, ?_, ?_, _, _, u, st'', k', rfl, hrun', fun l => ?_⟩
  · rw [← Stmt.freeVars_image_id, himage, Stmt.freeVars_image hm hocc]
  · rw [← Stmt.checkConcrete_image_id, himage, Stmt.checkConcrete_image hm hocc]
  · rw [Stmt.results, ← Stmt.writes_image r, himage, Stmt.writes_image, Stmt.results]
  · rw [Stmt.inputs, ← Stmt.reads_image r, himage, Stmt.reads_image, Stmt.inputs]
  · rw [Stmt.alike_iff_image, himage', Stmt.image_explicitSums hm hocc n 0, ← himage]
    exact Stmt.image_explicitSums_id l 0

/-- In `y(i) = A(i,j) * x(j)` with `i` and `j` swapped, which gives `y(j) = A(j,i) * x(i)`. -/
theorem inStmt_commutes_swap :
    let i : IndexVar := ⟨0, "i"⟩
    let j : IndexVar := ⟨1, "j"⟩
    let tensor (k : Nat) (name : String) (order : Nat) : TensorVar :=
      ⟨k, name, ⟨.float .double, ⟨List.replicate order .unknown⟩⟩, .dense order⟩
    let product : Expr := .binary 3 .mul (.access ⟨1, tensor 1 "A" 2, [i, j]⟩)
      (.access ⟨2, tensor 2 "x" 1, [j]⟩)
    let s : Stmt := .assign 4 ⟨0, tensor 0 "y" 1, [i]⟩ product none
    let m := (empty.insert i j).insert j i
    (stmt s).IsWhole ∧ (stmt s).Precedes 5 ∧ Set.InjOn m.apply {v | v ∈ s.occurrences} ∧
      ∃ r st' n', Yields (m.inStmt s) () 5 r st' n' ∧ r.freeVars = [j, i] ∧
        r.checkConcrete ≠ .ok () ∧ r.results = [tensor 0 "y" 1] ∧
        r.inputs = [tensor 1 "A" 2, tensor 2 "x" 1] ∧
        ∃ t k u st'' k', s.explicitSums.run 5 = (t, k) ∧ Yields (m.inStmt t) () k u st'' k' ∧
          ∀ l, (r.explicitSums.run l).1.alike u = true := by
  intro i j tensor product s m
  have hn : (stmt s).Precedes 5 := (precedes_stmt s).2 (by decide +kernel)
  have hwhole : (stmt s).IsWhole := by
    rw [isWhole_iff_allLabels, allLabels_assign, allLabels_binary, allLabels_leaf rfl,
      allLabels_leaf rfl, allLabels_leaf rfl]
    exact ⟨rfl, rfl, rfl, rfl, rfl⟩
  have hm : ∀ v ∈ s.occurrences, ∀ w ∈ s.occurrences, m.apply v = m.apply w → v = w := by
    decide +kernel
  have hm : Set.InjOn m.apply {v | v ∈ s.occurrences} := fun v hv w hw => hm v hv w hw
  have hfree : s.freeVars.map m.apply = [j, i] := by decide +kernel
  have hopen : s.checkConcrete ≠ .ok () := by decide +kernel
  obtain ⟨r, st', n', hrun, hvars, hconcrete, hresults, hinputs, hsums⟩ :=
    inStmt_commutes m s 5 () hwhole hn hm
  refine ⟨hwhole, hn, hm, r, st', n', hrun, hvars.trans hfree, fun h => hopen (hconcrete.1 h),
    hresults.trans ?_, hinputs.trans ?_, hsums⟩
  · decide +kernel
  · decide +kernel

end Renaming

end SparseTensor
