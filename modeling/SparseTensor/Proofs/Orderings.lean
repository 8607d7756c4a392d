import Mathlib.Data.List.Nodup
import SparseTensor.Proofs.Positions
import SparseTensor.Storage.Scatter

/-!
# Orderings and both ways through them

A format takes an ordering after one pass over it, which marks the dimensions it has seen. From then
on `Format.gather` reads coordinates in level order and `Format.scatterInto` writes them back, and
`Storage.collect` writes all entries of a storage through one buffer.

**Theorem (`withOrdering_inverts`).** The pass reads and writes within bounds and accepts exactly
the permutations of the dimensions. In every format it accepts, gathering and scattering undo each
other on coordinates of the format's order. Collecting a storage lists its entries, and gathering
their coordinates gives those by which the walk comes to them.

**Acceptance.** The pass looks for a number too great or seen before. That no dimension is missing
follows from the length of the ordering (`isOrdering_iff_perm`).

**The buffer.** The invariant of collecting is that, below a level, the buffer has changed at most
at the dimensions of this level and of those after it (`AgreeApart`). All of them are written again
on the way to the next entry, so what one entry leaves behind does not show in another
(`AgreeApart.scattered_eq`).
-/

namespace SparseTensor

/-! ## Which lists are orderings -/

/-- Every number below `n` once, and no more numbers than that. -/
theorem perm_range_iff_count {n : Nat} {ordering : List Nat} :
    ordering.Perm (List.range n) ↔ ordering.length = n ∧ ∀ d < n, ordering.count d = 1 := by
  constructor
  · intro h
    refine ⟨by rw [h.length_eq, List.length_range], fun d hd => ?_⟩
    rw [h.count_eq]
    exact List.count_eq_one_of_mem List.nodup_range (List.mem_range.2 hd)
  · rintro ⟨hlen, hcount⟩
    have hsub : List.range n ⊆ ordering := fun d hd =>
      List.count_pos_iff.1 (by rw [hcount d (List.mem_range.1 hd)]; exact Nat.one_pos)
    have hle : ordering.length ≤ (List.range n).length := by rw [hlen, List.length_range]
    exact ((List.nodup_range.subperm hsub).perm_of_length_le hle).symm

namespace Format

variable {kinds : List LevelKind} {ordering : List Nat}

theorem checkOrdering_perm (n : Nat) (ordering : List Nat) :
    checkOrdering n ordering = .ok (decide (ordering.Perm (List.range n))) := by
  rw [checkOrdering_eq, Except.ok.injEq, Bool.eq_iff_iff, isOrdering_iff_perm, decide_eq_true_eq]

theorem withOrdering_of_perm (h : ordering.Perm (List.range kinds.length)) :
    ∃ f, withOrdering kinds ordering = .ok f ∧ f.kinds = kinds ∧ f.ordering = ordering := by
  have hcheck : checkOrdering (kinds.map LevelFormat.ofKind).length ordering = .ok true := by
    rw [checkOrdering_perm, List.length_map, decide_eq_true h]
  dsimp only [withOrdering]
  split
  · next he => rw [hcheck] at he; cases he
  · next he => rw [hcheck] at he; cases he
  · exact ⟨_, rfl, by simp [Format.kinds, Function.comp_def], rfl⟩

theorem withOrdering_of_not_perm (h : ¬ordering.Perm (List.range kinds.length)) :
    withOrdering kinds ordering = .error (.invalidModeOrdering ordering) := by
  have hcheck : checkOrdering (kinds.map LevelFormat.ofKind).length ordering = .ok false := by
    rw [checkOrdering_perm, List.length_map, decide_eq_false h]
  dsimp only [withOrdering]
  split
  · next he => rw [hcheck] at he; cases he
  · rfl
  · next he => rw [hcheck] at he; cases he

theorem withOrdering_eq_ok {f : Format} (h : withOrdering kinds ordering = .ok f) :
    ordering.Perm (List.range kinds.length) ∧ f.kinds = kinds ∧ f.ordering = ordering := by
  by_cases hperm : ordering.Perm (List.range kinds.length)
  · obtain ⟨g, hg, hkinds, hordering⟩ := withOrdering_of_perm hperm
    rw [hg] at h
    cases h
    exact ⟨hperm, hkinds, hordering⟩
  · rw [withOrdering_of_not_perm hperm] at h
    cases h

end Format

/-! ## Writing into a buffer -/

/-- The buffer after the components `cs` are written at the dimensions `dims`. -/
def scattered (dims cs buffer : List Nat) : List Nat :=
  (dims.zip cs).foldl (fun out (p : Nat × Nat) => out.set p.1 p.2) buffer

/-- The buffers have one length, and are alike apart from the dimensions `dims`. -/
structure AgreeApart (dims a b : List Nat) : Prop where
  length_eq : a.length = b.length
  getElem?_eq : ∀ d, d ∉ dims → a[d]? = b[d]?

variable {dims cs a b c : List Nat}

theorem AgreeApart.refl (dims a : List Nat) : AgreeApart dims a a := ⟨rfl, fun _ _ => rfl⟩

theorem AgreeApart.cons {d : Nat} (h : AgreeApart dims a b) : AgreeApart (d :: dims) a b :=
  ⟨h.length_eq, fun e he => h.getElem?_eq e fun hmem => he (List.mem_cons_of_mem d hmem)⟩

theorem agreeApart_set {d : Nat} (x : Nat) : AgreeApart (d :: dims) a (a.set d x) := by
  refine ⟨(List.length_set ..).symm, fun e he => ?_⟩
  rw [List.getElem?_set_ne]
  rintro rfl
  exact he List.mem_cons_self

theorem AgreeApart.set {d : Nat} (h : AgreeApart (d :: dims) a b) (x : Nat) :
    AgreeApart dims (a.set d x) (b.set d x) := by
  refine ⟨by simp [h.length_eq], fun e he => ?_⟩
  by_cases hd : d = e
  · subst hd
    simp [List.getElem?_set, h.length_eq]
  · rw [List.getElem?_set_ne hd, List.getElem?_set_ne hd]
    exact h.getElem?_eq e (by simp [he, Ne.symm hd])

theorem AgreeApart.trans (h : AgreeApart dims a b) (h' : AgreeApart dims b c) :
    AgreeApart dims a c :=
  ⟨h.length_eq.trans h'.length_eq, fun d hd => (h.getElem?_eq d hd).trans (h'.getElem?_eq d hd)⟩

/-- What is written over does not matter. -/
theorem AgreeApart.scattered_eq (h : AgreeApart dims a b) (hlen : cs.length = dims.length) :
    scattered dims cs a = scattered dims cs b := by
  induction dims generalizing cs a b with
  | nil => exact List.ext_getElem? fun d => h.getElem?_eq d List.not_mem_nil
  | cons d dims ih =>
    obtain ⟨x, xs, rfl⟩ := List.exists_cons_of_length_eq_add_one hlen
    exact ih (h.set x) (Nat.succ.inj hlen)

namespace Format

variable (f : Format) {coords buffer : List Nat}

theorem toDimensionOrder_eq (coords : List Nat) :
    f.toDimensionOrder coords = scattered f.ordering coords (List.replicate f.order 0) :=
  rfl

/-- Every dimension is written to, whatever the buffer held. -/
theorem scattered_ordering (hlen : coords.length = f.order) (hbuffer : buffer.length = f.order) :
    scattered f.ordering coords buffer = f.toDimensionOrder coords := by
  have hagree : AgreeApart f.ordering buffer (List.replicate f.order 0) := by
    refine ⟨by rw [hbuffer, List.length_replicate], fun d hd => ?_⟩
    have hout : f.order ≤ d := by rwa [mem_ordering, Nat.not_lt] at hd
    rw [List.getElem?_eq_none (by rwa [hbuffer]), List.getElem?_eq_none (by simpa using hout)]
  rw [toDimensionOrder_eq]
  exact hagree.scattered_eq (hlen.trans f.length_ordering.symm)

/-! ## Loops over the levels -/

theorem gather_eq (hlen : coords.length = f.order) :
    f.gather coords = .ok (f.toLevelOrder coords) := by
  refine mapM_eq_map fun d hd => ?_
  have hlt : d < coords.length := by rw [hlen]; exact f.lt_order_of_mem hd
  rw [fetch_of_lt hlt, List.getD_eq_getElem?_getD, List.getElem?_eq_getElem hlt, Option.getD_some]

theorem foldlM_put {dims coords out : List Nat} {level : Nat}
    (hdims : ∀ d ∈ dims, d < out.length) (hlen : level + dims.length ≤ coords.length) :
    (dims.zipIdx level).foldlM (fun out (d, level) => do put out d (← fetch coords level)) out =
      Except.ok (scattered dims (coords.drop level) out) := by
  induction dims generalizing level out with
  | nil => rfl
  | cons d dims ih =>
    rw [List.forall_mem_cons] at hdims
    rw [List.length_cons] at hlen
    have hlt : level < coords.length := by omega
    have hstep : (do put out d (← fetch coords level)) = .ok (out.set d coords[level]) := by
      rw [fetch_of_lt hlt]
      exact put_of_lt hdims.1 _
    rw [List.zipIdx_cons, List.foldlM_cons, List.drop_eq_getElem_cons hlt]
    refine (congrArg (· >>= fun out => (dims.zipIdx (level + 1)).foldlM _ out) hstep).trans ?_
    exact ih (by simpa using hdims.2) (by omega)

theorem scatterInto_eq (hlen : coords.length = f.order) (hbuffer : buffer.length = f.order) :
    f.scatterInto buffer coords = .ok (f.toDimensionOrder coords) := by
  have hdims : ∀ d ∈ f.ordering, d < buffer.length := fun d hd => by
    rw [hbuffer]
    exact f.lt_order_of_mem hd
  have hlevels : 0 + f.ordering.length ≤ coords.length := by
    rw [Nat.zero_add, f.length_ordering, hlen]
  have hloop := foldlM_put hdims hlevels
  rw [List.drop_zero, f.scattered_ordering hlen hbuffer] at hloop
  exact hloop

theorem scatterInto_gather (hlen : coords.length = f.order) (hbuffer : buffer.length = f.order) :
    (do f.scatterInto buffer (← f.gather coords)) = .ok coords := by
  rw [f.gather_eq hlen]
  exact (f.scatterInto_eq (f.length_toLevelOrder coords) hbuffer).trans
    (congrArg Except.ok (f.toDimensionOrder_toLevelOrder hlen))

theorem gather_scatterInto (hlen : coords.length = f.order) (hbuffer : buffer.length = f.order) :
    (do f.gather (← f.scatterInto buffer coords)) = .ok coords := by
  rw [f.scatterInto_eq hlen hbuffer]
  exact (f.gather_eq (f.length_toDimensionOrder coords)).trans
    (congrArg Except.ok (f.toLevelOrder_toDimensionOrder hlen))

end Format

/-! ## Runs over one buffer -/

/-- A map that changes a state on the way has the results of one that does not, up to `k`, if each
of its steps does and keeps what is known of the state. -/
theorem mapM_run {σ α β γ : Type} {f : α → Except Fault β} {g : α → StateT σ (Except Fault) γ}
    {k : β → γ} {P : σ → Prop} {xs : List α} {ys : List β}
    (h : List.Forall₂ (fun x y => f x = .ok y) xs ys)
    (step : ∀ x y, f x = .ok y → ∀ s, P s → ∃ s', (g x).run s = .ok (k y, s') ∧ P s')
    {s : σ} (hs : P s) : ∃ s', (xs.mapM g).run s = .ok (ys.map k, s') ∧ P s' := by
  induction h generalizing s with
  | nil => exact ⟨s, by rw [List.mapM_nil]; rfl, hs⟩
  | @cons x y xs ys hxy _ ih =>
    obtain ⟨s₁, hrun, hs₁⟩ := step x y hxy s hs
    obtain ⟨s', hruns, hs'⟩ := ih hs₁
    refine ⟨s', ?_, hs'⟩
    rw [List.mapM_cons, StateT.run_bind, hrun]
    show (xs.mapM g >>= fun zs => pure (k y :: zs)).run s₁ = _
    rw [StateT.run_bind, hruns]
    rfl

/-! ## The walk with one buffer -/

namespace Storage

/-- The entry with its coordinates, which are in level order, written into a buffer. -/
def placed (dims buffer : List Nat) (e : Entry) : Entry :=
  { e with coords := scattered dims e.coords buffer }

theorem length_coords_of_walkFrom {values : List Value} {levels : List Level} {p : Nat}
    {es : List Entry} (h : walkFrom values levels p = .ok es) :
    ∀ e ∈ es, e.coords.length = levels.length := by
  induction levels generalizing p es with
  | nil =>
    obtain ⟨v, -, h⟩ := bind_eq_ok.1 h
    cases h
    simp
  | cons l levels ih =>
    -- The entries of each run below have one more coordinate in front.
    have hunder : ∀ {k c : Nat} {es' : List Entry},
        (do return (← walkFrom values levels k).map (Entry.under c)) = .ok es' →
          ∀ e ∈ es', e.coords.length = levels.length + 1 := by
      intro k c es' h'
      obtain ⟨es, hes, h'⟩ := bind_eq_ok.1 h'
      cases h'
      rw [List.forall_mem_map]
      exact fun e he => congrArg Nat.succ (ih hes e he)
    cases l with
    | dense sizes =>
      obtain ⟨ess, hess, h⟩ := bind_eq_ok.1 h
      cases h
      rw [List.forall_mem_flatten]
      exact forall_mem_of_forall₂ (forall₂_of_mapM hess) fun c _ _ hrun => hunder hrun
    | sparse positions coordinates =>
      obtain ⟨first, -, h⟩ := bind_eq_ok.1 h
      obtain ⟨last, -, h⟩ := bind_eq_ok.1 h
      obtain ⟨ess, hess, h⟩ := bind_eq_ok.1 h
      cases h
      rw [List.forall_mem_flatten]
      refine forall_mem_of_forall₂ (forall₂_of_mapM hess) fun k _ es' hrun => ?_
      obtain ⟨c, -, hrun⟩ := bind_eq_ok.1 hrun
      exact hunder hrun

theorem run_writeAt {d : Nat} {b : List Nat} (hd : d < b.length) (c : Nat) :
    (writeAt d c).run b = .ok ((), b.set d c) := by
  show (liftM (put b d c) >>= set : StateT (List Nat) (Except Fault) Unit).run b = _
  rw [put_of_lt hd]
  rfl

/-- From any buffer with a place for every dimension, collecting below a position gives the entries
of the walk, written into that buffer, and leaves the dimensions of the levels above alone. -/
def Collects (ordering : List Nat) (values : List Value) (levels : List Level) (level : Nat) :
    Prop :=
  ∀ (p : Nat) (es : List Entry) (b : List Nat), walkFrom values levels p = .ok es →
    (∀ d ∈ ordering, d < b.length) →
      ∃ b', (collectFrom ordering values levels level p).run b =
        .ok (es.map (placed (ordering.drop level) b), b') ∧
          AgreeApart (ordering.drop level) b b'

variable {ordering : List Nat} {values : List Value} {levels : List Level} {level : Nat}

/-- One coordinate of a level: what a run below wrote before does not matter. -/
theorem Collects.step (h : Collects ordering values levels (level + 1))
    (hlen : (ordering.drop (level + 1)).length = levels.length) {d : Nat}
    (hd : ordering[level]? = some d) {p c : Nat} {es : List Entry} {a b : List Nat}
    (hwalk : walkFrom values levels p = .ok es) (ha : ∀ d ∈ ordering, d < a.length)
    (hab : AgreeApart (ordering.drop level) a b) :
    ∃ b', (do writeAt d c; collectFrom ordering values levels (level + 1) p).run b =
        .ok ((es.map (Entry.under c)).map (placed (ordering.drop level) a), b') ∧
      AgreeApart (ordering.drop level) a b' := by
  have hdrop : ordering.drop level = d :: ordering.drop (level + 1) := by
    obtain ⟨hlt, rfl⟩ := List.getElem?_eq_some_iff.1 hd
    exact List.drop_eq_getElem_cons hlt
  have hb : ∀ e ∈ ordering, e < (b.set d c).length := fun e he => by
    rw [List.length_set, ← hab.length_eq]
    exact ha e he
  obtain ⟨b', hrun, hagree⟩ := h p es (b.set d c) hwalk hb
  rw [hdrop] at hab ⊢
  refine ⟨b', ?_, ?_⟩
  · rw [StateT.run_bind, run_writeAt (by simpa using hb d (List.mem_of_getElem? hd))]
    show (collectFrom ordering values levels (level + 1) p).run (b.set d c) = _
    rw [hrun, List.map_map]
    congr 2
    refine List.map_congr_left fun e he => ?_
    have hcoords := (length_coords_of_walkFrom hwalk e he).trans hlen.symm
    exact congrArg (Entry.mk · e.value) ((hab.set c).scattered_eq hcoords).symm
  · exact hab.trans ((agreeApart_set c).trans hagree.cons)

theorem run_flatten {dims b xs : List Nat} {f : Nat → Except Fault (List Entry)}
    {g : Nat → StateT (List Nat) (Except Fault) (List Entry)} {ess : List (List Entry)}
    (h : xs.mapM f = .ok ess)
    (step : ∀ x es, f x = .ok es → ∀ a, AgreeApart dims b a →
      ∃ b', (g x).run a = .ok (es.map (placed dims b), b') ∧ AgreeApart dims b b') :
    ∃ b', (do return (← xs.mapM g).flatten).run b = .ok (ess.flatten.map (placed dims b), b') ∧
      AgreeApart dims b b' := by
  obtain ⟨b', hrun, hagree⟩ := mapM_run (forall₂_of_mapM h) step (.refl dims b)
  refine ⟨b', ?_, hagree⟩
  rw [List.map_flatten]
  exact congrArg (· >>= fun q => .ok (q.1.flatten, q.2)) hrun

/-- **One buffer serves all entries.** -/
theorem collects (hlen : (ordering.drop level).length = levels.length) :
    Collects ordering values levels level := by
  induction levels generalizing level with
  | nil =>
    intro p es b hwalk _
    obtain ⟨v, hv, hwalk⟩ := bind_eq_ok.1 hwalk
    cases hwalk
    refine ⟨b, ?_, .refl _ _⟩
    rw [List.length_eq_zero_iff.1 hlen, collectFrom, hv]
    rfl
  | cons l levels ih =>
    intro p es b hwalk hb
    rw [List.length_drop, List.length_cons] at hlen
    have hlt : level < ordering.length := by omega
    have hd : ordering[level]? = some ordering[level] := List.getElem?_eq_getElem hlt
    have hrest : (ordering.drop (level + 1)).length = levels.length := by
      rw [List.length_drop]
      omega
    have hbelow : Collects ordering values levels (level + 1) := ih hrest
    cases l with
    | dense sizes =>
      obtain ⟨ess, hess, hwalk⟩ := bind_eq_ok.1 hwalk
      cases hwalk
      rw [collectFrom, fetch_of_lt hlt]
      refine run_flatten hess fun c es' hes' a ha => ?_
      obtain ⟨es, hes, hes'⟩ := bind_eq_ok.1 hes'
      cases hes'
      exact hbelow.step hrest hd hes hb ha
    | sparse positions coordinates =>
      obtain ⟨first, hfirst, hwalk⟩ := bind_eq_ok.1 hwalk
      obtain ⟨last, hlast, hwalk⟩ := bind_eq_ok.1 hwalk
      obtain ⟨ess, hess, hwalk⟩ := bind_eq_ok.1 hwalk
      cases hwalk
      rw [collectFrom, fetch_of_lt hlt, hfirst, hlast]
      refine run_flatten hess fun k es' hes' a ha => ?_
      obtain ⟨c, hc, hes'⟩ := bind_eq_ok.1 hes'
      obtain ⟨es, hes, hes'⟩ := bind_eq_ok.1 hes'
      cases hes'
      rw [hc]
      exact hbelow.step hrest hd hes hb ha

theorem collect_eq (s : Storage) : s.collect = .ok s.entries := by
  have hlen : (s.format.ordering.drop 0).length = s.index.levels.length := by
    rw [List.drop_zero, s.format.length_ordering, s.index.length_levels]
    rfl
  have hbuffer : ∀ d ∈ s.format.ordering, d < (List.replicate s.format.order 0).length :=
    fun d hd => by
      rw [List.length_replicate]
      exact s.format.lt_order_of_mem hd
  obtain ⟨b', hrun, -⟩ := collects hlen 0 s.levelEntries _ s.walkFrom_top.1 hbuffer
  rw [collect, hrun]
  rfl

theorem gather_entries (s : Storage) :
    s.entries.mapM (fun e => s.format.gather e.coords) =
      .ok (s.levelEntries.map Entry.coords) := by
  have hwalk := length_coords_of_walkFrom s.walkFrom_top.1
  rw [entries, mapM_eq_map (g := fun e => s.format.toLevelOrder e.coords), List.map_map]
  · refine congrArg Except.ok (List.map_congr_left fun e he => ?_)
    exact s.format.toLevelOrder_toDimensionOrder ((hwalk e he).trans s.index.length_levels)
  · rw [List.forall_mem_map]
    exact fun e _ => s.format.gather_eq (s.format.length_toDimensionOrder _)

end Storage

/-! ## What is accepted is inverted -/

namespace Format

/-- **Orderings are permutations, and are inverted.** The check of an ordering reads and writes
within bounds, and a format is made of exactly the orderings in which every dimension occurs once.
In such a format gathering a coordinate and scattering it undo each other, whatever is in the buffer
before, and so do collecting the entries of a storage and gathering them. -/
theorem withOrdering_inverts (kinds : List LevelKind) (ordering : List Nat) :
    checkOrdering kinds.length ordering =
        .ok (decide (ordering.Perm (List.range kinds.length))) ∧
      (ordering.Perm (List.range kinds.length) ↔
        ordering.length = kinds.length ∧ ∀ d < kinds.length, ordering.count d = 1) ∧
      ((∃ f, withOrdering kinds ordering = .ok f) ↔ ordering.Perm (List.range kinds.length)) ∧
      (¬ordering.Perm (List.range kinds.length) →
        withOrdering kinds ordering = .error (.invalidModeOrdering ordering)) ∧
      ∀ f, withOrdering kinds ordering = .ok f → f.kinds = kinds ∧ f.ordering = ordering ∧
        (∀ coords : List Nat, coords.length = kinds.length →
          f.gather coords = .ok (f.toLevelOrder coords) ∧
          f.scatter coords = .ok (f.toDimensionOrder coords) ∧
          ∀ buffer : List Nat, buffer.length = kinds.length →
            (do f.scatterInto buffer (← f.gather coords)) = .ok coords ∧
            (do f.gather (← f.scatterInto buffer coords)) = .ok coords) ∧
        ∀ s : Storage, s.format = f → s.collect = .ok s.entries ∧
          s.entries.mapM (fun e => f.gather e.coords) = .ok (s.levelEntries.map Entry.coords) := by
  refine ⟨checkOrdering_perm _ ordering, perm_range_iff_count, ⟨?_, ?_⟩,
    withOrdering_of_not_perm, fun f hf => ?_⟩
  · rintro ⟨f, hf⟩
    exact (withOrdering_eq_ok hf).1
  · intro hperm
    obtain ⟨f, hf, -⟩ := withOrdering_of_perm hperm
    exact ⟨f, hf⟩
  · obtain ⟨-, rfl, hordering⟩ := withOrdering_eq_ok hf
    refine ⟨rfl, hordering, fun coords hlen => ?_, ?_⟩
    · rw [kinds, List.length_map] at hlen ⊢
      refine ⟨f.gather_eq hlen, f.scatterInto_eq hlen (List.length_replicate ..),
        fun buffer hbuffer => ?_⟩
      exact ⟨f.scatterInto_gather hlen hbuffer, f.gather_scatterInto hlen hbuffer⟩
    · rintro s rfl
      exact ⟨s.collect_eq, s.gather_entries⟩

/-- An ordering of three dimensions that is not its own inverse. -/
theorem withOrdering_inverts_cycle :
    ∃ f, withOrdering [.dense, .sparse, .sparse] [1, 2, 0] = .ok f ∧
      f.gather [7, 8, 9] = .ok [8, 9, 7] ∧
      (do f.scatterInto [4, 5, 6] (← f.gather [7, 8, 9])) = .ok [7, 8, 9] := by
  obtain ⟨-, -, ⟨-, haccepts⟩, -, hinverts⟩ :=
    withOrdering_inverts [.dense, .sparse, .sparse] [1, 2, 0]
  obtain ⟨f, hf⟩ := haccepts (by decide)
  obtain ⟨-, hordering, hcoords, -⟩ := hinverts f hf
  obtain ⟨hgather, -, hboth⟩ := hcoords [7, 8, 9] rfl
  refine ⟨f, hf, ?_, (hboth [4, 5, 6] rfl).1⟩
  rw [hgather, Format.toLevelOrder, hordering]
  rfl

end Format

end SparseTensor
