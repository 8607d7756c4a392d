import SparseTensor.Proofs.Packing

/-!
# The stacks that make an index

An index takes a stack of levels and counts the positions of one level after another. This file says
without the checks what a level has to look like below a number of positions (`Level.WellFormed`),
and how many positions it then provides (`Level.provides`).

**Theorem (`Index.ofLevels_outcome`).** A stack makes an index iff there is one level per level of
the format and each is well formed below the positions of the one above it. The size of the index is
what the last level provides. Otherwise the first level that is not well formed is at fault. No
array is read out of bounds on the way.

One level is accepted iff it is well formed, and the fault of a level names it
(`Level.extent_eq_ok`, `Level.level?_of_extent`); the stack follows by induction. For the reads,
the check is written out once more with each read of an array checked, and this is the same check
(`Level.readExtent_eq`).
-/

namespace SparseTensor

/-- The level that a fault of an index array is about. -/
def Fault.level? : Fault → Option Nat
  | denseSizeArray mode _ | positionArrayLength mode _ _ | coordinateArrayLength mode _ _
  | invalidPositionArray mode _ | negativeCoordinate mode _ | indexSizeOverflow mode => some mode
  | _ => none

namespace Level

variable {mode parents n : Nat} {kind : LevelKind} {kinds : List LevelKind} {l : Level}
  {levels : List Level} {e : Fault}

/-! ## One level -/

/-- What a level has to look like below `parents` positions where one of the given kind is asked
for. -/
def WellFormed (parents : Nat) : LevelKind → Level → Prop
  | .dense, dense sizes =>
    ∃ size : Nat, sizes.values = [(size : Int)] ∧ size < positionLimit ∧
      parents * size < positionLimit
  | .sparse, sparse positions coordinates =>
    parents + 1 < positionLimit ∧ positions.values.length = parents + 1 ∧
      positions.values[0]? = some 0 ∧ positions.values.Pairwise (· ≤ ·) ∧
      positions.values[parents]? = some (coordinates.values.length : Int) ∧
      ∀ c ∈ coordinates.values, 0 ≤ c
  | _, _ => False

/-- How many positions a well-formed level has below `parents` positions. -/
def provides (parents : Nat) : Level → Nat
  | dense sizes => parents * (sizes.values.headD 0).toNat
  | sparse positions _ => (positions.values.getD parents 0).toNat

theorem size?_eq_some {sizes : IndexArray} {m : Nat} :
    (dense sizes).size? = some m ↔ sizes.values = [(m : Int)] ∧ m < positionLimit := by
  rw [size?]
  split
  · next v hv =>
    rw [position?_eq_some, hv, List.cons.injEq]
    simp
  · next hv =>
    simp only [reduceCtorEq, false_iff, not_and]
    exact fun h => absurd h (hv _)

/-- **A level is accepted iff it is well formed**, for as many positions as it provides. The last
position needs no bound of its own, because lanes have none beyond the positions. -/
theorem extent_eq_ok :
    l.extent mode parents kind = .ok n ↔ l.WellFormed parents kind ∧ n = l.provides parents := by
  cases l with
  | dense sizes =>
    rw [extent_dense_eq_ok]
    cases kind with
    | sparse => simp [WellFormed]
    | dense =>
      simp only [size?_eq_some, WellFormed, provides, true_and]
      constructor
      · rintro ⟨m, ⟨hm, hlimit⟩, rfl, hn⟩
        exact ⟨⟨m, hm, hlimit, hn⟩, by simp [hm]⟩
      · rintro ⟨⟨m, hm, hlimit, hn⟩, rfl⟩
        exact ⟨m, ⟨hm, hlimit⟩, by simp [hm], by simpa [hm] using hn⟩
  | sparse positions coordinates =>
    rw [extent_sparse_eq_ok]
    cases kind with
    | dense => simp [WellFormed]
    | sparse =>
      simp only [WellFormed, provides, true_and, List.getD_eq_getElem?_getD]
      constructor
      · intro h
        refine ⟨⟨h.room, h.length_positions, h.start, h.sorted, ?_, h.nonneg⟩, ?_⟩
        · rw [h.length_coordinates, h.last]
        · rw [h.last]
          rfl
      · rintro ⟨⟨hroom, hlength, hstart, hsorted, hlast, hnonneg⟩, rfl⟩
        rw [hlast, Option.getD_some, Int.toNat_natCast]
        exact {
          room := hroom
          length_positions := hlength
          start := hstart
          sorted := hsorted
          last := hlast
          limit := Lane.lt_positionLimit (positions.fits _ (List.mem_of_getElem? hlast))
          length_coordinates := rfl
          nonneg := hnonneg }

/-- A level that is refused is of another kind than the one asked for, or the fault names it. -/
theorem level?_of_extent (h : l.extent mode parents kind = .error e) :
    (l.kind ≠ kind ∧ e = .indexArrayCount kind kind.arrayCount l.arrays.length) ∨
      (l.kind = kind ∧ e.level? = some mode) := by
  unfold extent at h
  split at h
  · next sizes =>
    refine .inr ⟨rfl, ?_⟩
    unfold denseExtent at h
    repeat' split at h
    all_goals cases h <;> rfl
  · next positions coordinates =>
    refine .inr ⟨rfl, ?_⟩
    unfold sparseExtent at h
    repeat' split at h
    all_goals cases h <;> rfl
  · next hdense hsparse =>
    cases h
    refine .inl ⟨fun hkind => ?_, rfl⟩
    subst hkind
    cases l with
    | dense sizes => exact hdense sizes rfl rfl
    | sparse positions coordinates => exact hsparse positions coordinates rfl rfl

/-! ## Stacks -/

/-- How many positions are above level `k` of a stack below `parents` positions. -/
def positionsAbove (parents : Nat) (levels : List Level) (k : Nat) : Nat :=
  (levels.take k).foldl provides parents

/-- Level `k` of a stack below `parents` positions is there and well formed. -/
def WellFormedAt (parents : Nat) (kinds : List LevelKind) (levels : List Level) (k : Nat) : Prop :=
  ∃ kind l, kinds[k]? = some kind ∧ levels[k]? = some l ∧
    l.WellFormed (positionsAbove parents levels k) kind

/-- Level `k` is the first that is not well formed, and `e` says so: it names the level, unless the
level is of another kind than the one asked for. The first level has number `mode`. -/
structure FailsAt (mode parents : Nat) (kinds : List LevelKind) (levels : List Level) (k : Nat)
    (e : Fault) : Prop where
  inStack : k < levels.length
  wellFormed_of_lt : ∀ j < k, WellFormedAt parents kinds levels j
  not_wellFormed : ¬ WellFormedAt parents kinds levels k
  fault : e.level? = some (mode + k) ∨ ∃ kind l, kinds[k]? = some kind ∧ levels[k]? = some l ∧
    l.kind ≠ kind ∧ e = .indexArrayCount kind kind.arrayCount l.arrays.length

@[simp] theorem wellFormedAt_zero :
    WellFormedAt parents (kind :: kinds) (l :: levels) 0 ↔ l.WellFormed parents kind := by
  simp [WellFormedAt, positionsAbove]

@[simp] theorem wellFormedAt_succ {k : Nat} :
    WellFormedAt parents (kind :: kinds) (l :: levels) (k + 1) ↔
      WellFormedAt (l.provides parents) kinds levels k := Iff.rfl

/-- **A stack is accepted iff each of its levels is well formed** below the one above it. -/
theorem stackExtent_eq_ok (hlen : kinds.length = levels.length) :
    stackExtent mode parents kinds levels = .ok n ↔
      (∀ k < levels.length, WellFormedAt parents kinds levels k) ∧
        n = positionsAbove parents levels levels.length := by
  induction levels generalizing mode parents kinds with
  | nil => cases kinds <;> simp [stackExtent, positionsAbove, eq_comm]
  | cons l levels ih =>
    obtain ⟨kind, kinds, rfl⟩ := List.exists_cons_of_length_eq_add_one hlen
    have hsize : positionsAbove parents (l :: levels) (levels.length + 1) =
        positionsAbove (l.provides parents) levels levels.length := rfl
    rw [stackExtent, bind_eq_ok, List.length_cons, Nat.forall_lt_succ_left, hsize]
    simp only [extent_eq_ok, ih (Nat.succ.inj hlen), wellFormedAt_zero, wellFormedAt_succ]
    constructor
    · rintro ⟨_, ⟨hl, rfl⟩, hlevels⟩
      exact ⟨⟨hl, hlevels.1⟩, hlevels.2⟩
    · rintro ⟨⟨hl, hlevels⟩, hn⟩
      exact ⟨_, ⟨hl, rfl⟩, hlevels, hn⟩

/-- A stack is refused for the first level that is not well formed. -/
theorem failsAt_of_stackExtent (hlen : kinds.length = levels.length)
    (h : stackExtent mode parents kinds levels = .error e) :
    ∃ k, FailsAt mode parents kinds levels k e := by
  induction levels generalizing mode parents kinds with
  | nil => cases kinds <;> cases h
  | cons l levels ih =>
    obtain ⟨kind, kinds, rfl⟩ := List.exists_cons_of_length_eq_add_one hlen
    rw [stackExtent, bind_eq_error] at h
    rcases h with h | ⟨m, hm, h⟩
    · refine ⟨0, Nat.succ_pos _, fun j hj => absurd hj (Nat.not_lt_zero j), ?_, ?_⟩
      · rw [wellFormedAt_zero]
        intro hl
        have hok : l.extent mode parents kind = .ok (l.provides parents) :=
          extent_eq_ok.2 ⟨hl, rfl⟩
        rw [h] at hok
        cases hok
      · rcases level?_of_extent h with ⟨hkind, he⟩ | ⟨-, he⟩
        · exact .inr ⟨kind, l, rfl, rfl, hkind, he⟩
        · exact .inl he
    · obtain ⟨hl, rfl⟩ := extent_eq_ok.1 hm
      obtain ⟨k, hk⟩ := ih (Nat.succ.inj hlen) h
      refine ⟨k + 1, Nat.succ_lt_succ hk.inStack, ?_, hk.not_wellFormed, ?_⟩
      · intro j hj
        cases j with
        | zero => exact wellFormedAt_zero.2 hl
        | succ j => exact hk.wellFormed_of_lt j (Nat.lt_of_succ_lt_succ hj)
      · exact hk.fault.imp_left fun he => by rw [he]; congr 1; omega

/-! ## The reads of the check -/

/-- `denseExtent`, with the read of the size checked. -/
def readDenseExtent (mode parents : Nat) (sizes : IndexArray) : Except Fault Nat := do
  if sizes.length = 1 then
    match position? (← sizes.get 0) with
    | none => throw (.denseSizeArray mode sizes.length)
    | some n =>
      if parents * n < positionLimit then return parents * n else throw (.indexSizeOverflow mode)
  else throw (.denseSizeArray mode sizes.length)

/-- Refuses a position that is less than the one before it. -/
def readStep (mode : Nat) (positions : IndexArray) (k : Nat) : Except Fault Unit := do
  if (← positions.get k) < (← positions.get (k - 1)) then throw (.invalidPositionArray mode k)

/-- Refuses a coordinate that is negative. -/
def readCoordinate (mode : Nat) (coordinates : IndexArray) (k : Nat) : Except Fault Unit := do
  let c ← coordinates.get k
  if c < 0 then throw (.negativeCoordinate mode c)

/-- `sparseExtent`, with every read of a position and of a coordinate checked. -/
def readSparseExtent (mode parents : Nat) (positions coordinates : IndexArray) :
    Except Fault Nat :=
  if ¬ parents + 1 < positionLimit then .error (.indexSizeOverflow mode)
  else if positions.length ≠ parents + 1 then
    .error (.positionArrayLength mode (parents + 1) positions.length)
  else do
    if (← positions.get 0) ≠ 0 then throw (.invalidPositionArray mode 0)
    forM (List.range' 1 (positions.length - 1)) (readStep mode positions)
    match position? (← positions.get (positions.length - 1)) with
    | none => throw (.indexSizeOverflow mode)
    | some n =>
      if coordinates.length ≠ n then throw (.coordinateArrayLength mode n coordinates.length)
      forM (List.range' 0 coordinates.length) (readCoordinate mode coordinates)
      return n

/-- `extent`, with every read checked. -/
def readExtent (mode parents : Nat) (kind : LevelKind) (l : Level) : Except Fault Nat :=
  match kind, l with
  | .dense, dense sizes => readDenseExtent mode parents sizes
  | .sparse, sparse positions coordinates => readSparseExtent mode parents positions coordinates
  | kind, l => .error (.indexArrayCount kind kind.arrayCount l.arrays.length)

/-- `stackExtent`, with every read checked. -/
def readStackExtent : (mode parents : Nat) → List LevelKind → List Level → Except Fault Nat
  | mode, parents, kind :: kinds, l :: ls => do
    readStackExtent (mode + 1) (← l.readExtent mode parents kind) kinds ls
  | _, parents, _, _ => .ok parents

theorem readDenseExtent_eq (sizes : IndexArray) :
    readDenseExtent mode parents sizes = denseExtent mode parents sizes := by
  rw [readDenseExtent, denseExtent, size?]
  split
  · next hlen =>
    obtain ⟨v, hv⟩ := List.length_eq_one_iff.1 hlen
    have hget : sizes.get 0 = .ok v := fetch_eq_ok.2 (by rw [hv]; rfl)
    rw [hget]
    simp only [hv]
    rfl
  · next hlen =>
    split
    · rfl
    · next m hm =>
      split at hm
      · next v hv => exact absurd (congrArg List.length hv) hlen
      · cases hm

theorem forM_readStep {positions : IndexArray} {start : Nat} {v : Int} {vs : List Int} (mode : Nat)
    (h : positions.values.drop start = v :: vs) :
    forM (List.range' (start + 1) vs.length) (readStep mode positions) =
      match firstDecrease? v (start + 1) vs with
      | some k => .error (.invalidPositionArray mode k)
      | none => .ok () := by
  induction vs generalizing start v with
  | nil => rfl
  | cons w vs ih =>
    have hv : positions.get start = .ok v := fetch_eq_ok.2 (by rw [← List.head?_drop, h]; rfl)
    have hdrop : positions.values.drop (start + 1) = w :: vs := by
      rw [← List.tail_drop, h, List.tail_cons]
    have hw : positions.get (start + 1) = .ok w :=
      fetch_eq_ok.2 (by rw [← List.head?_drop, hdrop]; rfl)
    have hstep : readStep mode positions (start + 1) =
        if w < v then .error (.invalidPositionArray mode (start + 1)) else .ok () := by
      rw [readStep, hw, Nat.add_sub_cancel, hv]
      rfl
    rw [List.length_cons, List.range'_succ, List.forM_cons, hstep, firstDecrease?]
    by_cases hlt : w < v
    · rw [if_pos hlt, if_pos hlt]
      rfl
    · rw [if_neg hlt, if_neg hlt]
      exact ih hdrop

theorem forM_readCoordinate {coordinates : IndexArray} {start : Nat} {vs : List Int} (mode : Nat)
    (h : coordinates.values.drop start = vs) :
    forM (List.range' start vs.length) (readCoordinate mode coordinates) =
      match vs.find? (· < 0) with
      | some c => .error (.negativeCoordinate mode c)
      | none => .ok () := by
  induction vs generalizing start with
  | nil => rfl
  | cons c vs ih =>
    have hc : coordinates.get start = .ok c := fetch_eq_ok.2 (by rw [← List.head?_drop, h]; rfl)
    have hstep : readCoordinate mode coordinates start =
        if c < 0 then .error (.negativeCoordinate mode c) else .ok () := by
      rw [readCoordinate, hc]
      rfl
    rw [List.length_cons, List.range'_succ, List.forM_cons, hstep]
    by_cases hneg : c < 0
    · rw [if_pos hneg, List.find?_cons, decide_eq_true hneg]
      rfl
    · rw [if_neg hneg, List.find?_cons, decide_eq_false hneg]
      exact ih (by rw [← List.tail_drop, h, List.tail_cons])

theorem readSparseExtent_eq (positions coordinates : IndexArray) :
    readSparseExtent mode parents positions coordinates =
      sparseExtent mode parents positions coordinates := by
  rw [readSparseExtent, sparseExtent]
  split
  · rfl
  split
  · rfl
  next hlen =>
  rw [not_not] at hlen
  obtain ⟨v, vs, hvs⟩ := List.exists_cons_of_length_eq_add_one hlen
  have hfirst : positions.get 0 = .ok v := fetch_eq_ok.2 (by rw [hvs]; rfl)
  have hlast : positions.get (positions.length - 1) = .ok (positions.last?.getD 0) := by
    refine fetch_eq_ok.2 ?_
    rw [IndexArray.last?, List.getLast?_eq_getElem?, IndexArray.length,
      List.getElem?_eq_getElem (by rw [hvs]; simp), Option.getD_some]
  have hsteps : forM (List.range' 1 (positions.length - 1)) (readStep mode positions) =
      match firstDecrease? v 1 vs with
      | some k => .error (.invalidPositionArray mode k)
      | none => .ok () := by
    rw [IndexArray.length, hvs]
    exact forM_readStep mode (by rw [List.drop_zero, hvs])
  have hcoordinates : forM (List.range' 0 coordinates.length) (readCoordinate mode coordinates) =
      match coordinates.values.find? (· < 0) with
      | some c => .error (.negativeCoordinate mode c)
      | none => .ok () := forM_readCoordinate mode (List.drop_zero ..)
  rw [hfirst, hlast, hsteps, hcoordinates, hvs, firstBreak?]
  simp only [bind, Except.bind]
  by_cases hv : v = 0
  · rw [if_neg (not_not.2 hv), if_pos hv]
    cases firstDecrease? v 1 vs with
    | some k => rfl
    | none =>
      cases position? (positions.last?.getD 0) with
      | none => rfl
      | some n =>
        by_cases hcount : coordinates.length = n
        · simp only [if_neg (not_not.2 hcount)]
          cases coordinates.values.find? (· < 0) <;> rfl
        · simp only [if_pos hcount]
          rfl
  · rw [if_pos hv, if_neg hv]
    rfl

theorem readExtent_eq (l : Level) :
    l.readExtent mode parents kind = l.extent mode parents kind := by
  cases kind with
  | dense =>
    cases l with
    | dense sizes => exact readDenseExtent_eq sizes
    | sparse positions coordinates => rfl
  | sparse =>
    cases l with
    | dense sizes => rfl
    | sparse positions coordinates => exact readSparseExtent_eq positions coordinates

theorem readStackExtent_eq :
    readStackExtent mode parents kinds levels = stackExtent mode parents kinds levels := by
  induction levels generalizing mode parents kinds with
  | nil => cases kinds <;> rfl
  | cons l levels ih =>
    cases kinds with
    | nil => rfl
    | cons kind kinds =>
      rw [readStackExtent, stackExtent, readExtent_eq]
      exact congrArg _ (funext fun _ => ih)

end Level

namespace Index

variable {format : Format} {levels : List Level} {e : Fault}

/-! ## The outcome -/

/-- The size of the index that a stack makes, with every read of an array checked. -/
def readSize (format : Format) (levels : List Level) : Except Fault Nat :=
  if levels.length = format.order then Level.readStackExtent 0 1 format.kinds levels
  else .error (.orderMismatch format.order levels.length)

theorem length_kinds (h : levels.length = format.order) :
    format.kinds.length = levels.length := by
  rw [Format.kinds, List.length_map, h, Format.order]

theorem stackExtent_of_ofLevels_error (hlen : levels.length = format.order)
    (h : ofLevels format levels = .error e) :
    Level.stackExtent 0 1 format.kinds levels = .error e := by
  rw [ofLevels, dif_pos hlen] at h
  split at h
  · cases h
  · next hstack => cases h; exact hstack

theorem of_ofLevels_ok {i : Index} (h : ofLevels format levels = .ok i) :
    levels.length = format.order ∧
      (∀ k < format.order, Level.WellFormedAt 1 format.kinds levels k) ∧
      i.size = Level.positionsAbove 1 levels format.order := by
  obtain ⟨rfl, rfl⟩ := ofLevels_eq_ok.1 h
  have hstack := (Level.stackExtent_eq_ok (length_kinds i.length_levels)).1 i.stacked
  rw [i.length_levels] at hstack
  exact ⟨i.length_levels, hstack⟩

theorem of_ofLevels_error (h : ofLevels format levels = .error e) :
    levels.length ≠ format.order ∧ e = .orderMismatch format.order levels.length ∨
      levels.length = format.order ∧ ∃ k, Level.FailsAt 0 1 format.kinds levels k e := by
  by_cases hlen : levels.length = format.order
  · exact .inr ⟨hlen, Level.failsAt_of_stackExtent (length_kinds hlen)
      (stackExtent_of_ofLevels_error hlen h)⟩
  · rw [ofLevels, dif_neg hlen] at h
    cases h
    exact .inl ⟨hlen, rfl⟩

theorem readSize_eq (format : Format) (levels : List Level) :
    readSize format levels = (ofLevels format levels).map size := by
  rw [readSize, ofLevels]
  split
  · rw [Level.readStackExtent_eq]
    split <;> next hstack => exact hstack
  · rfl

/-- **What makes an index.** Levels make an index iff there is one for each level of the format and
each is well formed below as many positions as the levels above it provide. The size of the index is
what all of them provide. Otherwise the number of levels is at fault, or the first level that is not
well formed. Checking every read on the way changes nothing, and none is out of bounds. -/
theorem ofLevels_outcome (format : Format) (levels : List Level) :
    ((∃ i, ofLevels format levels = .ok i) ↔
      levels.length = format.order ∧
        ∀ k < format.order, Level.WellFormedAt 1 format.kinds levels k) ∧
      (∀ i, ofLevels format levels = .ok i → i.format = format ∧ i.levels = levels ∧
        i.size = Level.positionsAbove 1 levels format.order) ∧
      (∀ e, ofLevels format levels = .error e →
        levels.length ≠ format.order ∧ e = .orderMismatch format.order levels.length ∨
          levels.length = format.order ∧ ∃ k, Level.FailsAt 0 1 format.kinds levels k e) ∧
      readSize format levels = (ofLevels format levels).map size ∧
      ∀ length place, readSize format levels ≠ .error (.outOfBounds length place) := by
  refine ⟨⟨?_, ?_⟩, ?_, fun e => of_ofLevels_error, readSize_eq format levels, ?_⟩
  · rintro ⟨i, hi⟩
    obtain ⟨hlen, hlevels, -⟩ := of_ofLevels_ok hi
    exact ⟨hlen, hlevels⟩
  · rintro ⟨hlen, hlevels⟩
    cases h : ofLevels format levels with
    | ok i => exact ⟨i, rfl⟩
    | error e =>
      obtain ⟨hne, -⟩ | ⟨-, k, hk⟩ := of_ofLevels_error h
      · exact absurd hlen hne
      · exact absurd (hlevels k (hlen ▸ hk.inStack)) hk.not_wellFormed
  · intro i hi
    obtain ⟨hformat, hsame⟩ := ofLevels_eq_ok.1 hi
    exact ⟨hformat, hsame, (of_ofLevels_ok hi).2.2⟩
  · intro length place hread
    rw [readSize_eq] at hread
    cases h : ofLevels format levels with
    | ok i => rw [h] at hread; cases hread
    | error e =>
      rw [h] at hread
      cases hread
      obtain ⟨-, he⟩ | ⟨-, k, hk⟩ := of_ofLevels_error h
      · cases he
      · obtain he | ⟨_, _, -, -, -, he⟩ := hk.fault <;> cases he

/-- Compressed rows, two of them. The coordinates 2 and 0 of the first do not increase, which is not
asked for. -/
theorem ofLevels_outcome_csr :
    let lane : Lane := ⟨.uint .w8, rfl⟩
    let levels : List Level := [.dense ⟨.int32, [2], by decide⟩,
      .sparse ⟨lane, [0, 2, 3], by decide⟩ ⟨.int32, [2, 0, 2], by decide⟩]
    (∀ k < Format.csr.order, Level.WellFormedAt 1 Format.csr.kinds levels k) ∧
      ∃ i, ofLevels .csr levels = .ok i ∧ i.size = 3 := by
  intro lane levels
  have hlevels : ∀ k < Format.csr.order, Level.WellFormedAt 1 Format.csr.kinds levels k := by
    intro k hk
    match k, hk with
    | 0, _ => exact ⟨.dense, _, rfl, rfl, 2, rfl, by decide, by decide⟩
    | 1, _ => exact ⟨.sparse, _, rfl, rfl, by decide, rfl, rfl, by decide, rfl, by decide⟩
  obtain ⟨haccepted, hsize, -⟩ := ofLevels_outcome .csr levels
  obtain ⟨i, hi⟩ := haccepted.2 ⟨rfl, hlevels⟩
  exact ⟨hlevels, i, hi, (hsize i hi).2.2⟩

end Index

end SparseTensor
