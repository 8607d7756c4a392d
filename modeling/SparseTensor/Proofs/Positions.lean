import SparseTensor.Proofs.Checks
import SparseTensor.Proofs.Extent
import SparseTensor.Proofs.ModeOrdering
import SparseTensor.Storage.Entries

/-!
# Positions and what they stand for

A storage is read in two directions. The walk goes down from the top and multiplies or slices its
way to the leaves; a position says where it stands by going up: below a dense level of size `n`,
position `p` has coordinate `p % n` below position `p / n`, and below a sparse level its coordinate
is written at `p` and its parent is the position whose run of positions contains `p`.

**Theorem (`entries_decode`).** The walk of a storage never fails and lists the positions of the
last level in order, each exactly once, with the coordinates that going up from it gives.

The proof is an induction on the levels. Its invariant is that the walk from position `p` lists
the leaves from `firstLeaf p` up to `firstLeaf (p + 1)`. The runs of successive positions follow
one another, because those of one level do.
-/

namespace SparseTensor

/-- The entry with one more coordinate in front. -/
def Entry.under (c : Nat) (e : Entry) : Entry := { e with coords := c :: e.coords }

namespace Level

/-! ## Stacks that pass the checks -/

/-- The levels fit below one another, from `parents` positions above the first to `size` positions
of the last. -/
inductive Stacked : (parents : Nat) → List Level → (size : Nat) → Prop
  | nil (n : Nat) : Stacked n [] n
  | cons {mode parents n size : Nat} {kind : LevelKind} {l : Level} {levels : List Level} :
      l.extent mode parents kind = .ok n → Stacked n levels size →
        Stacked parents (l :: levels) size

theorem stacked_of_stackExtent {mode parents size : Nat} {kinds : List LevelKind}
    {levels : List Level} (hlen : kinds.length = levels.length)
    (h : stackExtent mode parents kinds levels = .ok size) : Stacked parents levels size := by
  induction levels generalizing mode parents kinds with
  | nil =>
    cases kinds with
    | nil => cases h; exact .nil _
    | cons => cases hlen
  | cons l levels ih =>
    cases kinds with
    | nil => cases hlen
    | cons kind kinds =>
      rw [stackExtent] at h
      cases hl : l.extent mode parents kind with
      | error e => rw [hl] at h; cases h
      | ok n =>
        rw [hl] at h
        exact .cons hl (ih (Nat.succ.inj hlen) h)

/-! ## Going up -/

/-- Position `p` of the level lies below position `q` of the level above, at coordinate `c`. -/
inductive Above : Level → (p q c : Nat) → Prop
  | dense {sizes : IndexArray} {n : Nat} (p : Nat) :
      (Level.dense sizes).size? = some n → Above (.dense sizes) p (p / n) (p % n)
  | sparse {positions coordinates : IndexArray} {p q : Nat} {first last c : Int} :
      positions.values[q]? = some first → positions.values[q + 1]? = some last →
      first ≤ p → p < last → coordinates.values[p]? = some c →
        Above (.sparse positions coordinates) p q c.toNat

theorem Above.dense_child {sizes : IndexArray} {n q c : Nat}
    (hn : (Level.dense sizes).size? = some n) (hc : c < n) :
    (Level.dense sizes).Above (q * n + c) q c := by
  have habove := Above.dense (q * n + c) hn
  rwa [Nat.mul_comm, Nat.mul_add_div (by omega), Nat.div_eq_of_lt hc, Nat.mul_add_mod,
    Nat.mod_eq_of_lt hc, Nat.add_zero, Nat.mul_comm] at habove

/-- Going up from position `p` of the last level leads to position `top` above the first, by the
coordinates `coords`. -/
inductive Climb : List Level → (p top : Nat) → (coords : List Nat) → Prop
  | leaf (p : Nat) : Climb [] p p []
  | level {l : Level} {levels : List Level} {p k q c : Nat} {coords : List Nat} :
      Climb levels p k coords → l.Above k q c → Climb (l :: levels) p q (c :: coords)

theorem Climb.length_coords {levels : List Level} {p top : Nat} {coords : List Nat}
    (h : Climb levels p top coords) : coords.length = levels.length := by
  induction h with
  | leaf => rfl
  | level _ _ ih => rw [List.length_cons, List.length_cons, ih]

/-- Runs of positions that never decrease do not overlap. -/
theorem parent_le_of_sorted {vs : List Int} (hs : vs.Pairwise (· ≤ ·)) {p q q' : Nat}
    {last first' : Int} (hlast : vs[q + 1]? = some last) (hp : (p : Int) < last)
    (hfirst' : vs[q']? = some first') (hp' : first' ≤ p) : q' ≤ q := by
  by_contra hlt
  obtain ⟨hq, rfl⟩ := List.getElem?_eq_some_iff.1 hlast
  obtain ⟨hq', rfl⟩ := List.getElem?_eq_some_iff.1 hfirst'
  have hle := hs.rel_get_of_le (a := ⟨q + 1, hq⟩) (b := ⟨q', hq'⟩)
    (Fin.mk_le_mk.2 (by omega))
  simp only [List.get_eq_getElem] at hle
  omega

/-- There is one way up. -/
theorem Above.unique {mode parents n : Nat} {kind : LevelKind} {l : Level}
    (hl : l.extent mode parents kind = .ok n) {p q c q' c' : Nat} (h : l.Above p q c)
    (h' : l.Above p q' c') : q' = q ∧ c' = c := by
  cases h with
  | dense p hm =>
    cases h' with
    | dense p hm' =>
      rw [hm, Option.some.injEq] at hm'
      subst hm'
      exact ⟨rfl, rfl⟩
  | sparse hfirst hlast hle hlt hc =>
    cases h' with
    | sparse hfirst' hlast' hle' hlt' hc' =>
      have hs := (extent_sparse_eq_ok.1 hl).2.sorted
      rw [hc, Option.some.injEq] at hc'
      subst hc'
      exact ⟨Nat.le_antisymm (parent_le_of_sorted hs hlast hlt hfirst' hle')
        (parent_le_of_sorted hs hlast' hlt' hfirst hle), rfl⟩

/-! ## Leaves -/

/-- The first position of the last level below position `p`. -/
def firstLeaf : List Level → Nat → Nat
  | [], p => p
  | l :: levels, p => firstLeaf levels (l.firstBelow p)

theorem Stacked.firstLeaf_zero {parents size : Nat} {levels : List Level}
    (h : Stacked parents levels size) : firstLeaf levels 0 = 0 := by
  induction h with
  | nil => rfl
  | cons hl _ ih => rw [firstLeaf, firstBelow_zero hl, ih]

theorem Stacked.firstLeaf_parents {parents size : Nat} {levels : List Level}
    (h : Stacked parents levels size) : firstLeaf levels parents = size := by
  induction h with
  | nil => rfl
  | cons hl _ ih => rw [firstLeaf, firstBelow_parents hl, ih]

theorem Stacked.firstLeaf_mono {parents size : Nat} {levels : List Level}
    (h : Stacked parents levels size) {p q : Nat} (hpq : p ≤ q) (hq : q ≤ parents) :
    firstLeaf levels p ≤ firstLeaf levels q := by
  induction h generalizing p q with
  | nil => exact hpq
  | cons hl _ ih =>
    exact ih (firstBelow_mono hl hpq hq) (firstBelow_le hl hq)

end Level

/-! ## The walk -/

namespace Storage

open Level

/-- The runs below the positions from `a` on, laid end to end, are one run. -/
theorem flatMap_range'_runs {g : Nat → Nat} (a n : Nat)
    (hg : ∀ p q, p ≤ q → q ≤ a + n → g p ≤ g q) :
    (List.range' a n).flatMap (fun k => List.range' (g k) (g (k + 1) - g k)) =
      List.range' (g a) (g (a + n) - g a) := by
  induction n generalizing a with
  | zero => simp
  | succ n ih =>
    obtain ⟨d, hd⟩ := Nat.exists_eq_add_of_le (hg a (a + 1) (by omega) (by omega))
    obtain ⟨e, he⟩ := Nat.exists_eq_add_of_le (hg (a + 1) (a + 1 + n) (by omega) (by omega))
    rw [List.range'_succ, List.flatMap_cons, ih (a + 1) fun p q hpq hq => hg p q hpq (by omega),
      show a + (n + 1) = a + 1 + n by omega, he, hd, Nat.add_sub_cancel_left,
      Nat.add_sub_cancel_left, List.range'_append_1]
    congr 1
    omega

/-- One level of the walk: the walks from the positions below `p`, one after another, each with
the coordinate of its position in front. -/
theorem walkFrom_cons_ok {R : Nat → List Entry → Prop} {values : List Value}
    {levels : List Level} {l : Level} {mode parents n p : Nat} {kind : LevelKind}
    (hl : l.extent mode parents kind = .ok n) (hp : p < parents)
    (hbelow : ∀ k < n, ∃ es, walkFrom values levels k = .ok es ∧ R k es) :
    ∃ ess, walkFrom values (l :: levels) p = .ok ess.flatten ∧
      List.Forall₂ (fun k es => ∃ c es', l.Above k p c ∧ R k es' ∧ es = es'.map (Entry.under c))
        (List.range' (l.firstBelow p) (l.firstBelow (p + 1) - l.firstBelow p)) ess := by
  have hlast : l.firstBelow (p + 1) ≤ n := firstBelow_le hl hp
  cases l with
  | dense sizes =>
    obtain ⟨-, m, hm, hn, -⟩ := extent_dense_eq_ok.1 hl
    rw [firstBelow, hm, Option.getD_some, Nat.succ_mul] at hlast
    have hrange : (List.range m).map (p * m + ·) =
        List.range' (p * m) ((p + 1) * m - p * m) := by
      rw [List.range'_eq_map_range, Nat.succ_mul, Nat.add_sub_cancel_left]
    simp only [firstBelow, hm, Option.getD_some]
    have hsteps : ∀ c ∈ List.range m, ∃ es,
        (do return (← walkFrom values levels (p * m + c)).map (Entry.under c)) = .ok es ∧
          ∃ c' es', (Level.dense sizes).Above (p * m + c) p c' ∧ R (p * m + c) es' ∧
            es = es'.map (Entry.under c') := by
      intro c hc
      rw [List.mem_range] at hc
      obtain ⟨es, hes, hR⟩ := hbelow (p * m + c) (by omega)
      exact ⟨_, by rw [hes]; rfl, c, es, .dense_child hm hc, hR, rfl⟩
    obtain ⟨ess, hess, hall⟩ := exists_mapM_ok hsteps
    refine ⟨ess, ?_, by rwa [← hrange, List.forall₂_map_left_iff]⟩
    rw [walkFrom, hm]
    exact congrArg (· >>= fun below => .ok below.flatten) hess
  | sparse positions coordinates =>
    obtain ⟨-, hfits⟩ := extent_sparse_eq_ok.1 hl
    have hlen := hfits.length_positions
    have hcoords := hfits.length_coordinates
    obtain ⟨first, hfirst⟩ : ∃ v, positions.values[p]? = some v :=
      ⟨_, List.getElem?_eq_getElem (by omega)⟩
    obtain ⟨last, hlast'⟩ : ∃ v, positions.values[p + 1]? = some v :=
      ⟨_, List.getElem?_eq_getElem (by omega)⟩
    simp only [firstBelow, List.getD_eq_getElem?_getD, hfirst, hlast', Option.getD_some] at hlast ⊢
    have hsteps : ∀ k ∈ List.range' first.toNat (last.toNat - first.toNat), ∃ es,
        (do
          let c ← coordinates.get k
          return (← walkFrom values levels k).map (Entry.under c.toNat)) = .ok es ∧
          ∃ c' es', (Level.sparse positions coordinates).Above k p c' ∧ R k es' ∧
            es = es'.map (Entry.under c') := by
      intro k hk
      rw [List.mem_range'_1] at hk
      obtain ⟨es, hes, hR⟩ := hbelow k (by omega)
      have hc : coordinates.values[k]? = some coordinates.values[k] :=
        List.getElem?_eq_getElem (by omega)
      have hget : coordinates.get k = .ok coordinates.values[k] := fetch_eq_ok.2 hc
      exact ⟨_, by rw [hget, hes]; rfl, _, es, .sparse hfirst hlast' (by omega) (by omega) hc,
        hR, rfl⟩
    obtain ⟨ess, hess, hall⟩ := exists_mapM_ok hsteps
    refine ⟨ess, ?_, hall⟩
    rw [walkFrom, show positions.get p = .ok first from fetch_eq_ok.2 hfirst,
      show positions.get (p + 1) = .ok last from fetch_eq_ok.2 hlast']
    exact congrArg (· >>= fun below => .ok below.flatten) hess

/-- The walk from position `p` lists the leaves below `p`, with the coordinates by which each of
them leads up to `p`. -/
theorem walkFrom_ok {values : List Value} {levels : List Level} {parents : Nat}
    (h : Stacked parents levels values.length) {p : Nat} (hp : p < parents) :
    ∃ es, walkFrom values levels p = .ok es ∧
      List.Forall₂ (fun q e => Climb levels q p e.coords ∧ values[q]? = some e.value)
        (List.range' (firstLeaf levels p) (firstLeaf levels (p + 1) - firstLeaf levels p)) es := by
  generalize hsize : values.length = size at h
  induction h generalizing p with
  | nil n =>
    have hv : values[p]? = some values[p] := List.getElem?_eq_getElem (by omega)
    refine ⟨[⟨[], values[p]⟩], ?_, ?_⟩
    · rw [walkFrom, show fetch values p = .ok values[p] from fetch_eq_ok.2 hv]
      rfl
    · simp only [firstLeaf, Nat.add_sub_cancel_left]
      exact .cons ⟨.leaf p, hv⟩ .nil
  | @cons mode parents n size kind l levels hl hstack ih =>
    obtain ⟨ess, hwalk, hall⟩ := walkFrom_cons_ok hl hp fun k hk => ih hk hsize
    refine ⟨ess.flatten, hwalk, ?_⟩
    have hbound : l.firstBelow (p + 1) ≤ n := firstBelow_le hl hp
    have hle : l.firstBelow p ≤ l.firstBelow (p + 1) := firstBelow_mono hl (Nat.le_succ p) hp
    have hruns := flatMap_range'_runs (g := firstLeaf levels) (l.firstBelow p)
      (l.firstBelow (p + 1) - l.firstBelow p) fun q r hqr hr => hstack.firstLeaf_mono hqr (by omega)
    rw [show l.firstBelow p + (l.firstBelow (p + 1) - l.firstBelow p) = l.firstBelow (p + 1) by
      omega] at hruns
    rw [firstLeaf, firstLeaf, ← hruns, List.flatMap_def]
    refine List.rel_flatten ?_
    rw [List.forall₂_map_left_iff]
    refine hall.imp ?_
    rintro k es ⟨c, es', habove, hes', rfl⟩
    rw [List.forall₂_map_right_iff]
    exact hes'.imp fun q e he => ⟨.level he.1 habove, he.2⟩

theorem stacked (s : Storage) : Stacked 1 s.index.levels s.values.length := by
  have hlen : s.index.format.kinds.length = s.index.levels.length := by
    rw [Format.kinds, List.length_map, s.index.length_levels, Format.order]
  rw [s.length_values]
  exact stacked_of_stackExtent hlen s.index.stacked

theorem walkFrom_top (s : Storage) :
    walkFrom s.values s.index.levels 0 = .ok s.levelEntries ∧
      List.Forall₂ (fun q e => Climb s.index.levels q 0 e.coords ∧ s.values[q]? = some e.value)
        (List.range s.index.size) s.levelEntries := by
  obtain ⟨es, hwalk, hall⟩ := walkFrom_ok s.stacked Nat.one_pos
  rw [s.stacked.firstLeaf_zero, s.stacked.firstLeaf_parents, Nat.sub_zero, s.length_values,
    ← List.range_eq_range'] at hall
  -- A storage without positions is not walked; the walk would find nothing.
  have hes : s.walk = .ok es := by
    rw [walk]
    split
    · next hsize =>
      rw [hsize, List.range_zero, List.forall₂_nil_left_iff] at hall
      rw [hall]
    · exact hwalk
  rw [levelEntries, hes]
  exact ⟨hwalk, hall⟩

/-! ## The positions that the walk computes -/

/-- Every position that the walk from `p` computes on its way to the leaves. -/
def walkPositions : List Level → Nat → List Nat
  | [], p => [p]
  | .dense sizes :: levels, p =>
    p :: (List.range ((Level.dense sizes).size?.getD 0)).flatMap fun c =>
      walkPositions levels (p * (Level.dense sizes).size?.getD 0 + c)
  | .sparse positions coordinates :: levels, p =>
    p :: (List.range' ((Level.sparse positions coordinates).firstBelow p)
      ((Level.sparse positions coordinates).firstBelow (p + 1)
        - (Level.sparse positions coordinates).firstBelow p)).flatMap (walkPositions levels)

theorem walkPositions_lt {levels : List Level} {parents size : Nat}
    (h : Stacked parents levels size) (hparents : parents ≤ positionLimit) {p : Nat}
    (hp : p < parents) : ∀ q ∈ walkPositions levels p, q < positionLimit := by
  induction h generalizing p with
  | nil n =>
    intro q hq
    rw [walkPositions, List.mem_singleton] at hq
    omega
  | @cons mode parents n size kind l levels hl hstack ih =>
    have hn := extent_lt_limit hl
    have hlast : l.firstBelow (p + 1) ≤ n := firstBelow_le hl hp
    intro q hq
    cases l with
    | dense sizes =>
      rw [firstBelow, Nat.succ_mul] at hlast
      rw [walkPositions, List.mem_cons, List.mem_flatMap] at hq
      rcases hq with rfl | ⟨c, hc, hq⟩
      · omega
      · rw [List.mem_range] at hc
        exact ih hn.le (by omega) q hq
    | sparse positions coordinates =>
      rw [walkPositions, List.mem_cons, List.mem_flatMap] at hq
      rcases hq with rfl | ⟨k, hk, hq⟩
      · omega
      · rw [List.mem_range'_1] at hk
        exact ih hn.le (by omega) q hq

/-! ## What a storage lists -/

theorem exists_extent_of_mem {parents size : Nat} {levels : List Level}
    (h : Stacked parents levels size) {l : Level} (hl : l ∈ levels) :
    ∃ mode parents n kind, l.extent mode parents kind = .ok n := by
  induction h with
  | nil => cases hl
  | @cons mode parents n _ kind _ _ hext _ ih =>
    rcases List.mem_cons.1 hl with rfl | hl
    · exact ⟨mode, parents, n, kind, hext⟩
    · exact ih hl

theorem exists_entry (s : Storage) {p : Nat} (hp : p < s.index.size) :
    ∃ e coords, s.entries[p]? = some e ∧ s.values[p]? = some e.value ∧
      Climb s.index.levels p 0 coords ∧ e.coords.length = s.format.order ∧
        ∀ k d : Nat, s.format.ordering[k]? = some d → e.coords[d]? = coords[k]? := by
  obtain ⟨-, hall⟩ := s.walkFrom_top
  have hlen : p < s.levelEntries.length := by rwa [← hall.length_eq, List.length_range]
  obtain ⟨hclimb, hvalue⟩ := hall.get (i := p) (by simpa using hp) hlen
  simp only [List.get_eq_getElem, List.getElem_range] at hclimb hvalue
  have hcoords : s.levelEntries[p].coords.length = s.format.order :=
    hclimb.length_coords.trans s.index.length_levels
  refine ⟨⟨s.format.toDimensionOrder s.levelEntries[p].coords, s.levelEntries[p].value⟩,
    s.levelEntries[p].coords, ?_, hvalue, hclimb, s.format.length_toDimensionOrder _,
    fun k d hd => s.format.getElem?_toDimensionOrder hcoords hd⟩
  rw [entries, List.getElem?_map, List.getElem?_eq_getElem hlen]
  rfl

/-- **Going down and going up agree.** The walk of a storage reads no array out of bounds and
computes no position beyond the limit. It lists as many entries as the index has positions. The
entry at `p` has the value at `p`, and the coordinates by which `p` leads up to position zero above
the first level, each at the dimension of its level. At every level there is one way up. -/
theorem entries_decode (s : Storage) :
    walkFrom s.values s.index.levels 0 = .ok s.levelEntries ∧
      (∀ q ∈ walkPositions s.index.levels 0, q < positionLimit) ∧
      s.entries.length = s.index.size ∧
      (∀ p < s.index.size, ∃ e coords, s.entries[p]? = some e ∧ s.values[p]? = some e.value ∧
        Climb s.index.levels p 0 coords ∧ e.coords.length = s.format.order ∧
        ∀ k d : Nat, s.format.ordering[k]? = some d → e.coords[d]? = coords[k]?) ∧
      ∀ l ∈ s.index.levels, ∀ p q c q' c', l.Above p q c → l.Above p q' c' → q' = q ∧ c' = c := by
  obtain ⟨hwalk, hall⟩ := s.walkFrom_top
  refine ⟨hwalk, walkPositions_lt s.stacked (by decide) Nat.one_pos, ?_,
    fun p hp => s.exists_entry hp, ?_⟩
  · rw [entries, List.length_map, ← hall.length_eq, List.length_range]
  · intro l hl p q c q' c' h h'
    obtain ⟨mode, parents, n, kind, hext⟩ := exists_extent_of_mem s.stacked hl
    exact h.unique hext h'

end Storage

end SparseTensor
