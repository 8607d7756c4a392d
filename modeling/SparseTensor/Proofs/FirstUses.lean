import Mathlib.Data.List.Basic
import SparseTensor.Proofs.FirstOccurrences
import SparseTensor.Proofs.Parts

/-!
# First uses of variables

Where a variable occurs is told by an address: the numbers of the children on the way from the root
to a node, and at an access the number of the index. One occurrence is left of another if its
address is lexicographically smaller. The address of a node is smaller than all addresses below it,
so that a reduction's own variable comes before its operand.

**Theorem (`Part.listsFirst`).** Without repetitions, the list of all occurrences in an expression
names each variable that occurs in it once, in the order of first addresses; and so does the list of
the free occurrences in an expression or a statement, where no node on the way may bind the variable
(`Part.OccursAt`).

An induction on the tree finds the addresses for the list with its repetitions (`Part.exists_uses`):
they ascend. What is kept of an ascending list is the first address of each variable
(`pairwise_first`).
-/

namespace SparseTensor

namespace Part

/-! ## Where variables occur -/

/-- `i` occurs in the part at `address`: child numbers lead to an access, and the last number is
that of the index. A node on the way may bind `i`; if only free occurrences count, none does.
Otherwise binding a variable counts as well, at the address of the node that binds it. -/
inductive OccursAt (free : Bool) : Part → (address : List Nat) → IndexVar → Prop
  | index {p : Part} {k : Nat} {i : IndexVar} : p.indices[k]? = some i → OccursAt free p [k] i
  | binder {p : Part} {i : IndexVar} : free = false → i ∈ p.binder → OccursAt free p [] i
  | inner {p c : Part} {k : Nat} {address : List Nat} {i : IndexVar} :
      p.children[k]? = some c → OccursAt free c address i → (free = true → i ∉ p.binder) →
        OccursAt free p (k :: address) i

/-- Whether a node binds `i` and that is to be heeded. -/
def hides (free : Bool) (p : Part) (i : IndexVar) : Bool := free && decide (i ∈ p.binder)

/-- The occurrences at the node itself, with their addresses. -/
def own (free : Bool) (p : Part) : List (List Nat × IndexVar) :=
  (if free then [] else p.binder.map fun i => ([], i)) ++
    p.indices.zipIdx.map fun x => ([x.2], x.1)

/-- The occurrences below a node, from those of its children. -/
def below (uses : List (List (List Nat × IndexVar))) : List (List Nat × IndexVar) :=
  uses.zipIdx.flatMap fun x => x.1.map fun u => (x.2 :: u.1, u.2)

/-- The variables in the order of their occurrences. -/
def listed (free : Bool) : Part → List IndexVar
  | expr e => if free then e.freeOccurrences else e.occurrences
  | stmt s => s.freeOccurrences

variable {free : Bool} {p : Part} {address : List Nat} {i : IndexVar}
  {uses : List (List (List Nat × IndexVar))}

theorem mem_own : (address, i) ∈ own free p ↔
    free = false ∧ i ∈ p.binder ∧ address = [] ∨ ∃ k, p.indices[k]? = some i ∧ address = [k] := by
  rw [own, List.mem_append]
  apply or_congr
  · cases free <;> simp [eq_comm]
  · simp only [List.mem_map, Prod.exists, List.mk_mem_zipIdx_iff_getElem?, Prod.mk.injEq]
    constructor
    · rintro ⟨_, k, hk, rfl, rfl⟩
      exact ⟨k, hk, rfl⟩
    · rintro ⟨k, hk, rfl⟩
      exact ⟨i, k, hk, rfl, rfl⟩

/-- What occurs in a part occurs at the node itself, or in a child and is not hidden by the node. -/
theorem occursAt_iff : OccursAt free p address i ↔ (address, i) ∈ own free p ∨
    ∃ k c rest, p.children[k]? = some c ∧ OccursAt free c rest i ∧ hides free p i = false ∧
      address = k :: rest := by
  rw [mem_own, hides]
  constructor
  · intro h
    cases h with
    | index hk => exact .inl (.inr ⟨_, hk, rfl⟩)
    | binder hfree hi => exact .inl (.inl ⟨hfree, hi, rfl⟩)
    | inner hc hi hbinder =>
      refine .inr ⟨_, _, _, hc, hi, ?_, rfl⟩
      cases free <;> simp_all
  · rintro ((⟨hfree, hi, rfl⟩ | ⟨k, hk, rfl⟩) | ⟨k, c, rest, hc, hi, hvisible, rfl⟩)
    · exact .binder hfree hi
    · exact .index hk
    · refine .inner hc hi fun hfree => ?_
      simpa [hfree] using hvisible

theorem mem_below : (address, i) ∈ below uses ↔
    ∃ k us rest, uses[k]? = some us ∧ (rest, i) ∈ us ∧ address = k :: rest := by
  simp only [below, List.mem_flatMap, Prod.exists, List.mk_mem_zipIdx_iff_getElem?, List.mem_map,
    Prod.mk.injEq]
  constructor
  · rintro ⟨us, k, hk, rest, _, hu, rfl, rfl⟩
    exact ⟨k, us, rest, hk, hu, rfl⟩
  · rintro ⟨k, us, rest, hk, hu, rfl⟩
    exact ⟨us, k, hk, rest, i, hu, rfl, rfl⟩

theorem map_snd_below : (below uses).map Prod.snd = uses.flatMap (List.map Prod.snd) := by
  rw [below, List.map_flatMap]
  conv_rhs => rw [← List.zipIdx_map_fst 0 uses, List.flatMap_map]
  refine List.flatMap_congr fun x _ => ?_
  rw [List.map_map]
  rfl

theorem below_increasing (h : ∀ us ∈ uses, us.Pairwise fun u v => u.1 < v.1) :
    (below uses).Pairwise fun u v => u.1 < v.1 := by
  rw [below, List.pairwise_flatMap]
  constructor
  · intro x hx
    rw [List.pairwise_map]
    refine (h x.1 (List.fst_mem_of_mem_zipIdx hx)).imp fun huv => ?_
    exact List.cons_lt_cons_iff.2 (.inr ⟨rfl, huv⟩)
  · have hlt : (uses.zipIdx.map Prod.snd).Pairwise (· < ·) := by
      rw [List.zipIdx_map_snd]
      exact List.pairwise_lt_range'
    refine (List.pairwise_map.1 hlt).imp fun {x y} hxy u hu v hv => ?_
    obtain ⟨u, -, rfl⟩ := List.mem_map.1 hu
    obtain ⟨v, -, rfl⟩ := List.mem_map.1 hv
    exact List.cons_lt_cons_iff.2 (.inl hxy)

/-- A node with indices binds nothing and has no children, and no node binds two variables. -/
theorem own_cases (p : Part) :
    p.binder = [] ∧ p.children = [] ∨ p.indices = [] ∧ p.binder.length ≤ 1 := by
  cases p with
  | expr e => cases e <;> simp [indices, binder, children, Expr.children]
  | stmt s => cases s <;> simp [indices, binder, children, Stmt.children]

theorem own_increasing : (own free p).Pairwise fun u v => u.1 < v.1 := by
  rw [own]
  rcases p.own_cases with ⟨hbinder, -⟩ | ⟨hindices, hbinder⟩
  · have hlt : (p.indices.zipIdx.map Prod.snd).Pairwise (· < ·) := by
      rw [List.zipIdx_map_snd]
      exact List.pairwise_lt_range'
    rw [hbinder, List.map_nil, ite_self, List.nil_append, List.pairwise_map]
    exact (List.pairwise_map.1 hlt).imp fun hxy => List.cons_lt_cons_iff.2 (.inl hxy)
  · rw [hindices, List.zipIdx_nil, List.map_nil, List.append_nil]
    split
    · exact .nil
    · match p.binder, hbinder with
      | [], _ => exact .nil
      | [i], _ => exact List.pairwise_singleton _ _

theorem own_lt_below {u v : List Nat × IndexVar} (hu : u ∈ own free p)
    (hv : v ∈ below uses) (hlength : uses.length = p.children.length) : u.1 < v.1 := by
  obtain ⟨k, us, rest, hk, -, hv⟩ := mem_below.1 hv
  have hk : k < p.children.length := hlength ▸ (List.getElem?_eq_some_iff.1 hk).1
  rcases mem_own.1 hu with ⟨-, -, hu⟩ | ⟨j, hj, -⟩
  · rw [hu, hv]
    exact List.nil_lt_cons k rest
  · rcases p.own_cases with ⟨-, hchildren⟩ | ⟨hindices, -⟩
    · rw [hchildren] at hk
      exact absurd hk (Nat.not_lt_zero k)
    · rw [hindices] at hj
      cases hj

theorem allFreeOccurrences_eq (ss : List Stmt) :
    Stmt.allFreeOccurrences ss = ss.flatMap Stmt.freeOccurrences := by
  induction ss with
  | nil => rfl
  | cons s ss ih => rw [Stmt.allFreeOccurrences, ih, List.flatMap_cons]

theorem listed_node (h : free = true ∨ ∃ e, p = expr e) :
    listed free p = (own free p).map Prod.snd ++
      (p.children.flatMap (listed free)).filter (!hides free p ·) := by
  have hown : (own free p).map Prod.snd = (if free then [] else p.binder) ++ p.indices := by
    rw [own, List.map_append, List.map_map]
    congr 1
    · split
      · rfl
      · rw [List.map_map]
        exact List.map_id p.binder
    · exact List.zipIdx_map_fst 0 p.indices
  rw [hown]
  cases p with
  | expr e =>
    cases free <;> cases e <;>
      simp [listed, Expr.freeOccurrences, Expr.occurrences, indices, hides, binder, children,
        Expr.children]
  | stmt s =>
    obtain rfl | ⟨e, he⟩ := h
    · cases s <;>
        simp [listed, Stmt.freeOccurrences, Expr.freeOccurrences, allFreeOccurrences_eq, indices,
          hides, binder, children, Stmt.children, List.flatMap_map]
    · cases he

/-- The variables are listed in the order of the addresses at which they occur. -/
theorem exists_uses (h : free = true ∨ ∃ e, p = expr e) :
    ∃ uses : List (List Nat × IndexVar), uses.map Prod.snd = listed free p ∧
      (uses.Pairwise fun u v => u.1 < v.1) ∧
      ∀ address i, (address, i) ∈ uses ↔ OccursAt free p address i := by
  induction p using induction with
  | step p ih =>
    have hchild : ∀ c ∈ p.children, free = true ∨ ∃ e, c = expr e := by
      intro c hc
      refine h.imp_right ?_
      rintro ⟨e, rfl⟩
      obtain ⟨a, -, rfl⟩ := List.mem_map.1 hc
      exact ⟨a, rfl⟩
    choose! uses huses using fun c hc => ih c hc (hchild c hc)
    have hlength : (p.children.map uses).length = p.children.length := List.length_map _
    refine ⟨own free p ++ (below (p.children.map uses)).filter ((!hides free p ·) ∘ Prod.snd),
      ?_, ?_, fun address i => ?_⟩
    · rw [listed_node h, List.map_append, ← List.filter_map, map_snd_below, List.flatMap_map]
      congr 2
      exact List.flatMap_congr fun c hc => (huses c hc).1
    · refine List.pairwise_append.2 ⟨own_increasing, (below_increasing ?_).filter _, ?_⟩
      · exact List.forall_mem_map.2 fun c hc => (huses c hc).2.1
      · exact fun u hu v hv => own_lt_below hu (List.mem_filter.1 hv).1 hlength
    · rw [List.mem_append, occursAt_iff, List.mem_filter, mem_below]
      refine or_congr_right ⟨?_, ?_⟩
      · rintro ⟨⟨k, us, rest, hk, hu, rfl⟩, hvisible⟩
        rw [List.getElem?_map, Option.map_eq_some_iff] at hk
        obtain ⟨c, hc, rfl⟩ := hk
        have hi := ((huses c (List.mem_of_getElem? hc)).2.2 rest i).1 hu
        exact ⟨k, c, rest, hc, hi, by simpa using hvisible, rfl⟩
      · rintro ⟨k, c, rest, hc, hi, hvisible, rfl⟩
        refine ⟨⟨k, uses c, rest, ?_, ?_, rfl⟩, by simpa using hvisible⟩
        · rw [List.getElem?_map, hc, Option.map_some]
        · exact ((huses c (List.mem_of_getElem? hc)).2.2 rest i).2 hi

end Part

/-! ## First occurrences -/

/-- The list has all that occurs, each variable once, in the order of first occurrences. -/
structure ListsFirst (is : List IndexVar) (At : (address : List Nat) → IndexVar → Prop) : Prop where
  nodup : is.Nodup
  mem_iff : ∀ i, i ∈ is ↔ ∃ address, At address i
  ordered : is.Pairwise fun i j => ∃ address, At address i ∧ ∀ later, At later j → address < later

/-- Without repetitions, variables stand in the order of their first addresses. -/
theorem pairwise_first {uses : List (List Nat × IndexVar)}
    (h : uses.Pairwise fun u v => u.1 < v.1) :
    (uses.map Prod.snd).eraseDups.Pairwise fun i j =>
      ∃ address, (address, i) ∈ uses ∧ ∀ later, (later, j) ∈ uses → address < later := by
  induction hn : uses.length using Nat.strongRecOn generalizing uses with
  | ind n ih =>
    cases uses with
    | nil => exact .nil
    | cons u uses =>
      obtain ⟨hhead, htail⟩ := List.pairwise_cons.1 h
      -- What is left of the list comes from the uses of other variables.
      have hrest : (uses.map Prod.snd).filter (fun j => j ≠ u.2) =
          (uses.filter fun v => v.2 ≠ u.2).map Prod.snd := List.filter_map
      have hne : ∀ j ∈ ((uses.filter fun v => v.2 ≠ u.2).map Prod.snd).eraseDups, j ≠ u.2 := by
        intro j hj
        rw [← hrest, List.mem_eraseDups, List.mem_filter] at hj
        exact of_decide_eq_true hj.2
      have hmem : ∀ {j address}, j ≠ u.2 → (address, j) ∈ u :: uses →
          (address, j) ∈ uses.filter fun v => v.2 ≠ u.2 := by
        intro j address hj hv
        rcases List.mem_cons.1 hv with rfl | hv
        · exact absurd rfl hj
        · exact List.mem_filter.2 ⟨hv, decide_eq_true hj⟩
      rw [List.map_cons, eraseDups_cons_eq, hrest, List.pairwise_cons]
      constructor
      · intro j hj
        refine ⟨u.1, List.mem_cons_self, fun later hlater => hhead (later, j) ?_⟩
        exact (List.mem_filter.1 (hmem (hne j hj) hlater)).1
      · have hlength : (uses.filter fun v => v.2 ≠ u.2).length < n := by
          rw [← hn]
          exact Nat.lt_succ_of_le (List.length_filter_le _ uses)
        refine (ih _ hlength (htail.filter _) rfl).imp_of_mem fun {i j} _ hj hij => ?_
        obtain ⟨address, haddress, hlater⟩ := hij
        exact ⟨address, List.mem_cons_of_mem u (List.mem_filter.1 haddress).1,
          fun later hv => hlater later (hmem (hne j hj) hv)⟩

theorem Part.listsFirst (free : Bool) (p : Part) (h : free = true ∨ ∃ e, p = expr e) :
    ListsFirst (listed free p).eraseDups (OccursAt free p) := by
  obtain ⟨uses, huses, hincreasing, hoccurs⟩ := exists_uses h
  rw [← huses]
  refine ⟨nodup_eraseDups _, fun i => ?_, (pairwise_first hincreasing).imp ?_⟩
  · simp only [List.mem_eraseDups, List.mem_map, Prod.exists, exists_eq_right, hoccurs]
  · simp only [hoccurs, imp_self, implies_true]

/-! ## Assignments -/

namespace Stmt

open SparseTensor.Part

variable {s : Stmt} {i : IndexVar}

/-- A variable is free on either side of an assignment. -/
def UsedBy (i : IndexVar) : Stmt → Prop
  | assign _ target value _ => i ∈ target.indices ∨ i ∈ value.freeOccurrences
  | _ => False

theorem mem_freeOccurrences_node : i ∈ s.freeOccurrences ↔
    UsedBy i s ∨ ∃ c, .stmt c ∈ s.children ∧ i ∈ c.freeOccurrences ∧ i ∉ (Part.stmt s).binder := by
  cases s with
  | undefined | assign | staged | forAll | group =>
    simp [freeOccurrences, UsedBy, children, binder, mem_allFreeOccurrences]

theorem usedBy_iff : UsedBy i s ↔ ∃ n target value op, s = assign n target value op ∧
    (i ∈ target.indices ∨ i ∈ value.freeOccurrences) := by
  constructor
  · intro h
    cases s with
    | assign n target value op => exact ⟨n, target, value, op, rfl, h⟩
    | _ => cases h
  · rintro ⟨n, target, value, op, rfl, h⟩
    exact h

/-- A variable is free in a statement if it is free on either side of an assignment for which no
enclosing statement binds it. -/
theorem mem_freeOccurrences_assign :
    i ∈ s.freeOccurrences ↔ ∃ bound n target value op,
      (Part.stmt s).Contains bound (.stmt (.assign n target value op)) ∧
        (i ∈ target.indices ∨ i ∈ value.freeOccurrences) ∧ i ∉ bound := by
  have h : i ∈ s.freeOccurrences ↔
      ∃ bound r, (Part.stmt s).Contains bound (.stmt r) ∧ UsedBy i r ∧ i ∉ bound := by
    induction s using induction_children with
    | step s ih =>
      rw [mem_freeOccurrences_node, exists_contains_stmt]
      refine or_congr (by simp) (exists_congr fun c => and_congr_right fun hc => ?_)
      rw [ih c hc]
      constructor
      · rintro ⟨⟨bound, r, hr, hi, hbound⟩, hbinder⟩
        exact ⟨bound, r, hr, hi, by simp [hbound, hbinder]⟩
      · rintro ⟨bound, r, hr, hi, hbound⟩
        rw [List.mem_append, not_or] at hbound
        exact ⟨⟨bound, r, hr, hi, hbound.1⟩, hbound.2⟩
  rw [h]
  constructor
  · rintro ⟨bound, r, hr, hi, hbound⟩
    obtain ⟨n, target, value, op, rfl, hi⟩ := usedBy_iff.1 hi
    exact ⟨bound, n, target, value, op, hr, hi, hbound⟩
  · rintro ⟨bound, n, target, value, op, hr, hi, hbound⟩
    exact ⟨bound, _, hr, hi, hbound⟩

end Stmt

end SparseTensor
