import SparseTensor.Proofs.Packing

/-!
# What a level writes down

A level below some positions goes on at certain coordinates below each of them, its forks. A dense
level writes its size. A sparse level writes the forks one after another and where each of them
starts. `Level.Records` says that a level has done so, in the lanes of its format.

**Theorem (`pack_eq_ok`).** Packing a level gives the one that records the forks of the segments
above, and the segments of the children below it, and nothing else. It succeeds if and only if the
lanes have room for what is to be written (`Records.hasRoom`, `exists_records_of_hasRoom`).
Otherwise it is refused for an integer and a lane that has no room for it (`pack_eq_error`).
-/

namespace SparseTensor

variable {α : Type}

/-! ## Lanes and arrays -/

/-- A lane with room for a natural number has room for all before it. -/
theorem Lane.holds_of_le {lane : Lane} {m n : Nat} (h : lane.holds n = true) (hmn : m ≤ n) :
    lane.holds m = true := by
  obtain ⟨type, hlane⟩ := lane
  cases type with
  | uint w | int w =>
    simp only [holds, DataType.holds, Bool.and_eq_true, decide_eq_true_eq] at h ⊢
    omega
  | _ => cases hlane

namespace IndexArray

variable {a b : IndexArray} {v : Int} {e : Fault}

theorem ext (hlane : a.lane = b.lane) (hvalues : a.values = b.values) : a = b := by
  cases a
  cases b
  simp only at hlane hvalues
  subst hlane hvalues
  rfl

theorem push_of_holds (h : a.lane.holds v = true) :
    ∃ b, a.push v = .ok b ∧ b.lane = a.lane ∧ b.values = a.values ++ [v] := by
  rw [push, dif_pos h]
  exact ⟨_, rfl, rfl, rfl⟩

theorem push_eq_error (h : a.push v = .error e) :
    e = .valueOutOfRange v a.lane.type ∧ a.lane.holds v = false := by
  rw [push] at h
  split at h
  · cases h
  · next hv =>
    cases h
    exact ⟨rfl, Bool.eq_false_iff.2 hv⟩

theorem lane_of_foldlM_push {f : α → Int} {xs : List α}
    (h : xs.foldlM (fun a x => a.push (f x)) a = .ok b) : b.lane = a.lane :=
  foldlM_induction (P := fun _ (c : IndexArray) => c.lane = a.lane)
    (fun _ _ _ _ hc hpush => (push_eq_ok.1 hpush).2.1.trans hc) [] h rfl

theorem exists_foldlM_push {f : α → Int} {xs : List α}
    (h : ∀ x ∈ xs, a.lane.holds (f x) = true) :
    ∃ b, xs.foldlM (fun a x => a.push (f x)) a = .ok b := by
  have hfold := exists_foldlM_ok (f := fun a x => a.push (f x)) (b := a)
    (P := fun _ (c : IndexArray) => c.lane = a.lane) [] xs rfl fun before x after c hxs hc => by
      have hx : x ∈ xs := by
        rw [List.nil_append] at hxs
        rw [← hxs]
        simp
      obtain ⟨c', hpush, hlane, -⟩ := push_of_holds (a := c) (v := f x) (by rw [hc]; exact h x hx)
      exact ⟨c', hpush, hlane.trans hc⟩
  obtain ⟨b, hb, -⟩ := hfold
  exact ⟨b, hb⟩

theorem foldlM_push_eq_error {f : α → Int} {xs : List α}
    (h : xs.foldlM (fun a x => a.push (f x)) a = .error e) :
    ∃ v, e = .valueOutOfRange v a.lane.type ∧ a.lane.holds v = false := by
  obtain ⟨before, x, c, hbefore, hpush⟩ := foldlM_eq_error h
  obtain ⟨he, hv⟩ := push_eq_error hpush
  rw [lane_of_foldlM_push hbefore] at he hv
  exact ⟨_, he, hv⟩

end IndexArray

/-! ## Records -/

/-- Where the forks below position `p` start. -/
def forkStart (forks : List (List Nat)) (p : Nat) : Nat := (forks.take p).flatten.length

theorem forkStart_le (forks : List (List Nat)) (p : Nat) :
    forkStart forks p ≤ forks.flatten.length := by
  conv_rhs => rw [← List.take_append_drop p forks, List.flatten_append, List.length_append]
  exact Nat.le_add_right _ _

theorem forkStart_mono {forks : List (List Nat)} {p q : Nat} (h : p ≤ q) :
    forkStart forks p ≤ forkStart forks q := by
  have htake : forkStart forks p = forkStart (forks.take q) p := by
    rw [forkStart, forkStart, List.take_take, Nat.min_eq_left h]
  rw [htake]
  exact forkStart_le _ _

theorem forkStart_map (g : α → List Nat) (xs : List α) (p : Nat) :
    forkStart (xs.map g) p = blockStart g xs p := by
  rw [forkStart, blockStart, ← List.map_take, List.flatMap_def]

theorem forkStart_length (forks : List (List Nat)) :
    forkStart forks forks.length = forks.flatten.length := by
  rw [forkStart, List.take_length]

namespace Level

/-- The level of the format and the size writes down the forks below the positions above it. -/
inductive Records : LevelFormat → (size : Nat) → (forks : List (List Nat)) → Level → Prop
  | dense {lane : Lane} {size : Nat} {forks : List (List Nat)} {sizes : IndexArray} :
      sizes.lane = lane → sizes.values = [(size : Int)] →
        Records (.dense lane) size forks (.dense sizes)
  | sparse {ps cs : Lane} {size : Nat} {forks : List (List Nat)}
      {positions coordinates : IndexArray} :
      positions.lane = ps → coordinates.lane = cs →
      positions.values = (List.range (forks.length + 1)).map (fun p => (forkStart forks p : Int)) →
      coordinates.values = forks.flatten.map (fun c : Nat => (c : Int)) →
        Records (.sparse ps cs) size forks (.sparse positions coordinates)

/-- The lanes of the format have room for what the level writes down. -/
def HasRoom (size : Nat) (forks : List (List Nat)) : LevelFormat → Prop
  | .dense lane => lane.holds size = true
  | .sparse ps cs =>
    ps.holds forks.flatten.length = true ∧ ∀ c ∈ forks.flatten, cs.holds c = true

variable {f : LevelFormat} {size : Nat} {forks : List (List Nat)} {l l' : Level}

theorem Records.unique (h : Records f size forks l) (h' : Records f size forks l') : l = l' := by
  cases h with
  | dense hlane hvalues =>
    cases h' with
    | dense hlane' hvalues' =>
      rw [IndexArray.ext (hlane.trans hlane'.symm) (hvalues.trans hvalues'.symm)]
  | sparse hps hcs hpositions hcoordinates =>
    cases h' with
    | sparse hps' hcs' hpositions' hcoordinates' =>
      rw [IndexArray.ext (hps.trans hps'.symm) (hpositions.trans hpositions'.symm),
        IndexArray.ext (hcs.trans hcs'.symm) (hcoordinates.trans hcoordinates'.symm)]

theorem Records.hasRoom (h : Records f size forks l) : HasRoom size forks f := by
  cases h with
  | @dense lane _ _ sizes hlane hvalues =>
    rw [HasRoom, ← hlane]
    apply sizes.fits
    rw [hvalues]
    exact List.mem_singleton_self _
  | @sparse ps cs _ _ positions coordinates hps hcs hpositions hcoordinates =>
    rw [HasRoom, ← hps, ← hcs]
    constructor
    · apply positions.fits
      rw [hpositions, ← forkStart_length]
      exact List.mem_map.2 ⟨forks.length, List.self_mem_range_succ, rfl⟩
    · intro c hc
      apply coordinates.fits
      rw [hcoordinates]
      exact List.mem_map_of_mem hc

theorem exists_records_of_hasRoom (h : HasRoom size forks f) : ∃ l, Records f size forks l := by
  cases f with
  | dense lane =>
    obtain ⟨sizes, -, hlane, hvalues⟩ := IndexArray.push_of_holds (a := .empty lane) h
    exact ⟨_, .dense hlane hvalues⟩
  | sparse ps cs =>
    obtain ⟨hps, hcs⟩ := h
    have hstarts : ∀ v ∈ (List.range (forks.length + 1)).map (fun p => (forkStart forks p : Int)),
        ps.holds v = true := by
      simp only [List.forall_mem_map]
      intro p _
      exact Lane.holds_of_le hps (forkStart_le forks p)
    have hforks : ∀ v ∈ forks.flatten.map (fun c : Nat => (c : Int)), cs.holds v = true :=
      List.forall_mem_map.2 hcs
    exact ⟨.sparse ⟨ps, _, hstarts⟩ ⟨cs, _, hforks⟩, .sparse rfl rfl rfl rfl⟩

/-! ## Packing a level -/

open Segment

variable {level : Nat} {segs below : List Segment} {e : Fault}

/-- The coordinates at which a level goes on below the positions of the segments. -/
def forksOf (level : Nat) (f : LevelFormat) (size : Nat) (segs : List Segment) : List (List Nat) :=
  segs.map fun seg => (children level f size seg).map Prod.fst

theorem flatten_forksOf : (forksOf level f size segs).flatten =
    (segs.flatMap (children level f size)).map Prod.fst := by
  rw [forksOf, List.map_flatMap, List.flatMap_def]

theorem forkStart_forksOf (p : Nat) :
    forkStart (forksOf level f size segs) p = blockStart (children level f size) segs p := by
  rw [forksOf, forkStart_map, blockStart, blockStart, ← List.map_flatMap, List.length_map]

/-! ### Sparse levels -/

theorem lanes_of_add {b b' : SparseBuild} {seg : Segment} (h : b.add level seg = .ok b') :
    b'.positions.lane = b.positions.lane ∧ b'.coordinates.lane = b.coordinates.lane := by
  simp only [SparseBuild.add, bind_eq_ok] at h
  obtain ⟨coordinates, hcoordinates, positions, hpositions, hb'⟩ := h
  cases hb'
  exact ⟨(IndexArray.push_eq_ok.1 hpositions).2.1, IndexArray.lane_of_foldlM_push hcoordinates⟩

theorem lanes_of_foldlM_add {b b' : SparseBuild} {segs : List Segment}
    (h : segs.foldlM (SparseBuild.add level) b = .ok b') :
    b'.positions.lane = b.positions.lane ∧ b'.coordinates.lane = b.coordinates.lane := by
  refine foldlM_induction (P := fun _ (c : SparseBuild) =>
    c.positions.lane = b.positions.lane ∧ c.coordinates.lane = b.coordinates.lane) ?_ [] h
    ⟨rfl, rfl⟩
  intro _ c _ c' hc hadd
  obtain ⟨hpositions, hcoordinates⟩ := lanes_of_add hadd
  exact ⟨hpositions.trans hc.1, hcoordinates.trans hc.2⟩

theorem exists_add_ok {b : SparseBuild} {seg : Segment}
    (hcoordinates : ∀ r ∈ seg.runs level, b.coordinates.lane.holds r.1 = true)
    (hpositions : b.positions.lane.holds (b.below.length + (seg.runs level).length : Nat) = true) :
    ∃ b', b.add level seg = .ok b' := by
  obtain ⟨coordinates, hcoordinates⟩ := IndexArray.exists_foldlM_push
    (f := fun r : Nat × Segment => (r.1 : Int)) hcoordinates
  obtain ⟨positions, hpositions, -⟩ := IndexArray.push_of_holds hpositions
  have hlength : (b.below ++ (seg.runs level).map (·.2)).length =
      b.below.length + (seg.runs level).length := by
    rw [List.length_append, List.length_map]
  rw [← hlength] at hpositions
  refine ⟨⟨positions, coordinates, b.below ++ (seg.runs level).map (·.2)⟩, ?_⟩
  simp only [SparseBuild.add, bind_eq_ok]
  exact ⟨coordinates, hcoordinates, positions, hpositions, rfl⟩

theorem add_eq_error {b : SparseBuild} {seg : Segment} (h : b.add level seg = .error e) :
    ∃ v, ∃ lane ∈ [b.positions.lane, b.coordinates.lane],
      e = .valueOutOfRange v lane.type ∧ lane.holds v = false := by
  simp only [SparseBuild.add, bind_eq_error] at h
  rcases h with h | ⟨coordinates, -, h | ⟨positions, -, h⟩⟩
  · obtain ⟨v, he, hv⟩ := IndexArray.foldlM_push_eq_error h
    exact ⟨v, b.coordinates.lane, by simp, he, hv⟩
  · obtain ⟨he, hv⟩ := IndexArray.push_eq_error h
    exact ⟨_, b.positions.lane, by simp, he, hv⟩
  · cases h

/-- Before any parent, a sparse level has written a single zero. -/
theorem holds_start {start : IndexArray} {ps cs : Lane}
    (h : (IndexArray.empty ps).push 0 = .ok start) :
    SparseBuild.Holds level [] ⟨start, .empty cs, []⟩ := by
  refine ⟨?_, rfl, rfl⟩
  rw [(IndexArray.push_eq_ok.1 h).2.2]
  rfl

theorem exists_packSparse_ok {ps cs : Lane}
    (h : HasRoom size (forksOf level (.sparse ps cs) size segs) (.sparse ps cs)) :
    ∃ r, packSparse level ps cs segs = .ok r := by
  obtain ⟨hps, hcs⟩ := h
  rw [flatten_forksOf] at hps hcs
  obtain ⟨start, hstart, hlane, -⟩ :=
    IndexArray.push_of_holds (a := .empty ps) (v := 0) (Lane.holds_of_le hps (Nat.zero_le _))
  have hfold := exists_foldlM_ok (f := SparseBuild.add level)
    (b := ⟨start, .empty cs, []⟩) (P := fun done b =>
      b.Holds level done ∧ b.positions.lane = ps ∧ b.coordinates.lane = cs) [] segs
    ⟨holds_start hstart, hlane, rfl⟩ ?_
  · obtain ⟨b, hb, -⟩ := hfold
    refine ⟨(.sparse b.positions b.coordinates, b.below), ?_⟩
    simp only [packSparse, bind_eq_ok]
    exact ⟨start, hstart, b, hb, rfl⟩
  · rintro before seg after b hsegs ⟨hholds, hbps, hbcs⟩
    rw [List.nil_append] at hsegs
    have hflat : segs.flatMap (children level (.sparse ps cs) size) =
        before.flatMap (runs level) ++ (runs level seg ++ after.flatMap (runs level)) := by
      rw [← hsegs, List.flatMap_append, List.flatMap_cons]
      rfl
    rw [hflat] at hps hcs
    have hcoordinates : ∀ r ∈ runs level seg, b.coordinates.lane.holds r.1 = true := by
      intro r hr
      rw [hbcs]
      apply hcs
      simp only [List.map_append, List.mem_append]
      exact .inr (.inl (List.mem_map_of_mem hr))
    have hpositions :
        b.positions.lane.holds (b.below.length + (runs level seg).length : Nat) = true := by
      rw [hbps]
      apply Lane.holds_of_le hps
      rw [hholds.below]
      simp only [List.length_map, List.length_append]
      omega
    obtain ⟨b', hadd⟩ := exists_add_ok hcoordinates hpositions
    obtain ⟨hps', hcs'⟩ := lanes_of_add hadd
    exact ⟨b', hadd, hholds.add hadd, hps'.trans hbps, hcs'.trans hbcs⟩

/-! ### Either kind of level -/

theorem records_of_pack (h : pack level size f segs = .ok (l, below)) :
    Records f size (forksOf level f size segs) l := by
  cases f with
  | dense lane =>
    simp only [pack, packDense, bind_eq_ok] at h
    obtain ⟨sizes, hsizes, hl⟩ := h
    cases hl
    obtain ⟨-, hlane, hvalues⟩ := IndexArray.push_eq_ok.1 hsizes
    exact .dense hlane hvalues
  | sparse ps cs =>
    simp only [pack, packSparse, bind_eq_ok] at h
    obtain ⟨start, hstart, b, hb, hl⟩ := h
    cases hl
    have hholds : b.Holds level segs :=
      foldlM_induction (fun _ _ _ _ hb hadd => hb.add hadd) [] hb (holds_start hstart)
    obtain ⟨hps, hcs⟩ := lanes_of_foldlM_add hb
    refine .sparse (hps.trans (IndexArray.push_eq_ok.1 hstart).2.1) hcs ?_ ?_
    · rw [hholds.positions]
      simp only [forkStart_forksOf]
      rw [forksOf, List.length_map]
      rfl
    · rw [hholds.coordinates, flatten_forksOf, List.map_map]
      rfl

theorem exists_pack_ok (h : HasRoom size (forksOf level f size segs) f) :
    ∃ r, pack level size f segs = .ok r := by
  cases f with
  | dense lane =>
    obtain ⟨sizes, hsizes, -⟩ := IndexArray.push_of_holds (a := .empty lane) h
    refine ⟨(.dense sizes, segs.flatMap (fan level 0 size)), ?_⟩
    rw [pack, packDense, bind_eq_ok]
    exact ⟨sizes, hsizes, rfl⟩
  | sparse ps cs => exact exists_packSparse_ok h

/-- **Packing a level** gives what records the forks of the segments above, and the segments of
their children, in order. -/
theorem pack_eq_ok :
    pack level size f segs = .ok (l, below) ↔
      Records f size (forksOf level f size segs) l ∧
        below = (segs.flatMap (children level f size)).map Prod.snd := by
  constructor
  · intro h
    exact ⟨records_of_pack h, below_of_pack h⟩
  · rintro ⟨hl, rfl⟩
    obtain ⟨⟨l', below'⟩, h⟩ := exists_pack_ok hl.hasRoom
    rw [h, hl.unique (records_of_pack h), below_of_pack h]

/-- Packing a level fails for an integer for which one of the lanes of its format has no room. -/
theorem pack_eq_error (h : pack level size f segs = .error e) :
    ∃ v, ∃ lane ∈ f.lanes, e = .valueOutOfRange v lane.type ∧ lane.holds v = false := by
  cases f with
  | dense lane =>
    simp only [pack, packDense, bind_eq_error] at h
    rcases h with h | ⟨sizes, -, h⟩
    · obtain ⟨he, hv⟩ := IndexArray.push_eq_error h
      exact ⟨_, lane, List.mem_singleton_self _, he, hv⟩
    · cases h
  | sparse ps cs =>
    simp only [pack, packSparse, bind_eq_error] at h
    rcases h with h | ⟨start, hstart, h | ⟨b, -, h⟩⟩
    · obtain ⟨he, hv⟩ := IndexArray.push_eq_error h
      exact ⟨_, ps, List.mem_cons_self, he, hv⟩
    · obtain ⟨before, seg, b, hbefore, hadd⟩ := foldlM_eq_error h
      obtain ⟨v, lane, hlane, he, hv⟩ := add_eq_error hadd
      obtain ⟨hps, hcs⟩ := lanes_of_foldlM_add hbefore
      refine ⟨v, lane, ?_, he, hv⟩
      rwa [hps, hcs, (IndexArray.push_eq_ok.1 hstart).2.1] at hlane
    · cases h

end Level

end SparseTensor
