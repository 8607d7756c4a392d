import SparseTensor.Proofs.Packing

/-!
# Ranges of entries

While sorted entries are packed, the segment of a position is a range of them. At each level the
ranges follow one another, and the entries of one have the same coordinates at all levels before.

**Theorem (`split_ranges`).** One level splits each range into ranges for coordinates at the level.
They are in the order of these coordinates, follow one another from the start of the range to its
end, and have exactly the entries with their coordinate. Below a dense level there is one for each
coordinate below the size, and below a sparse level one for each coordinate that occurs; these are
written after what the coordinate array holds, and their running numbers after what the position
array holds.

Neither kind of level loses or moves an entry, so that the children of a segment can be laid out
over its range (`childRanges`). Their coordinates ascend in a range because sorted entries that
agree before a level are sorted from there on (`Segment.ascends_of_agree`).

**Theorem (`packStack_ranges`).** Packing goes from ranges to ranges, down to the leaves. The
entries of a range below agree at one more level, and these ranges follow one another again, so that
the next level can split them (`Splittable.below`).
-/

namespace SparseTensor

/-- The numbers from `lo` on and before `hi`. -/
structure Range where
  lo : Nat
  hi : Nat

namespace Range

/-- The entries with the numbers of the range. -/
def entries (es : List Entry) (r : Range) : Segment := (es.take r.hi).drop r.lo

/-- Each range ends where the next one starts. -/
inductive Tiles : (lo : Nat) → List Range → (hi : Nat) → Prop
  | nil (lo : Nat) : Tiles lo [] lo
  | cons {lo mid hi : Nat} {rs : List Range} :
      lo ≤ mid → Tiles mid rs hi → Tiles lo (⟨lo, mid⟩ :: rs) hi

/-- The segments of ranges. Coordinates go along. -/
def segments (es : List Entry) (kids : List (Nat × Range)) : List (Nat × Segment) :=
  kids.map fun k => (k.1, k.2.entries es)

/-- The ranges of segments one after another, of which the first starts at `lo`. -/
def layOut : (lo : Nat) → List (Nat × Segment) → List (Nat × Range)
  | _, [] => []
  | lo, (c, seg) :: segs => (c, ⟨lo, lo + seg.length⟩) :: layOut (lo + seg.length) segs

variable {es : List Entry} {r : Range} {rs ss : List Range} {lo mid hi : Nat}
  {segs : List (Nat × Segment)}

/-! ## Ranges one after another -/

theorem Tiles.le (h : Tiles lo rs hi) : lo ≤ hi := by
  induction h with
  | nil lo => exact Nat.le_refl lo
  | cons hle _ ih => exact Nat.le_trans hle ih

theorem Tiles.bounds (h : Tiles lo rs hi) : ∀ r ∈ rs, r.lo ≤ r.hi ∧ r.hi ≤ hi := by
  induction h with
  | nil => simp
  | cons hle hrest ih =>
    rw [List.forall_mem_cons]
    exact ⟨⟨hle, hrest.le⟩, ih⟩

theorem Tiles.append (h : Tiles lo rs mid) (h' : Tiles mid ss hi) : Tiles lo (rs ++ ss) hi := by
  induction h with
  | nil => exact h'
  | cons hle _ ih => exact .cons hle (ih h')

theorem Tiles.flatMap {kids : Range → List Range} (h : Tiles lo rs hi)
    (hkids : ∀ r ∈ rs, Tiles r.lo (kids r) r.hi) : Tiles lo (rs.flatMap kids) hi := by
  induction h with
  | nil lo => exact .nil lo
  | cons _ _ ih =>
    rw [List.forall_mem_cons] at hkids
    exact hkids.1.append (ih hkids.2)

theorem length_entries (hhi : r.hi ≤ es.length) : (r.entries es).length = r.hi - r.lo := by
  rw [entries, List.length_drop, List.length_take, Nat.min_eq_left hhi]

theorem lt_of_entries_ne_nil (h : r.entries es ≠ []) : r.lo < r.hi := by
  by_contra hle
  apply h
  rw [entries, List.drop_eq_nil_iff, List.length_take]
  omega

theorem entries_sublist (es : List Entry) (r : Range) : (r.entries es).Sublist es :=
  (List.drop_sublist _ _).trans (List.take_sublist _ _)

/-! ## Laying out -/

theorem map_fst_segments (es : List Entry) (kids : List (Nat × Range)) :
    (segments es kids).map Prod.fst = kids.map Prod.fst := List.map_map

theorem map_snd_segments (es : List Entry) (kids : List (Nat × Range)) :
    (segments es kids).map Prod.snd = kids.map fun k => k.2.entries es := List.map_map

theorem tiles_layOut (lo : Nat) (segs : List (Nat × Segment)) :
    Tiles lo ((layOut lo segs).map Prod.snd) (lo + (segs.map Prod.snd).flatten.length) := by
  induction segs generalizing lo with
  | nil => exact .nil lo
  | cons s segs ih =>
    rw [layOut, List.map_cons, List.map_cons, List.flatten_cons, List.length_append,
      ← Nat.add_assoc]
    exact .cons (Nat.le_add_right lo _) (ih _)

/-- Laid out over entries that begin with them, segments are found again. -/
theorem segments_layOut (rest : List Entry)
    (h : es.drop lo = (segs.map Prod.snd).flatten ++ rest) :
    segments es (layOut lo segs) = segs := by
  induction segs generalizing lo with
  | nil => rfl
  | cons s segs ih =>
    obtain ⟨c, seg⟩ := s
    rw [List.map_cons, List.flatten_cons, List.append_assoc] at h
    have hseg : Range.entries es ⟨lo, lo + seg.length⟩ = seg := by
      rw [entries, List.drop_take, h, Nat.add_sub_cancel_left, List.take_left]
    have hrest : es.drop (lo + seg.length) = (segs.map Prod.snd).flatten ++ rest := by
      rw [← List.drop_drop, h, List.drop_left]
    rw [segments, layOut, List.map_cons, hseg]
    exact congrArg _ (ih hrest)

end Range

/-! ## One range -/

namespace Segment

variable {level size : Nat} {seg : Segment} {f : LevelFormat}

/-- The entries have the same first `n` coordinates. -/
def Agree (n : Nat) (seg : Segment) : Prop :=
  ∀ a ∈ seg, ∀ b ∈ seg, a.coords.take n = b.coords.take n

theorem ascends_of_agree (hincreasing : Increasing seg) (hagree : Agree level seg)
    (hreach : ∀ e ∈ seg, level < e.coords.length) : Ascends level seg := by
  refine hincreasing.imp_of_mem fun {a b} ha hb hab => ?_
  have hlt := coordsLt_drop hab (hagree a ha b hb)
  rw [drop_eq_at_cons_of_lt (hreach a ha), drop_eq_at_cons_of_lt (hreach b hb),
    coordsLt_cons] at hlt
  omega

theorem Agree.part (hagree : Agree level seg) (hreach : ∀ e ∈ seg, level < e.coords.length)
    (c : Nat) : Agree (level + 1) (part level seg c) := by
  intro a ha b hb
  obtain ⟨ha, hac⟩ := mem_part.1 ha
  obtain ⟨hb, hbc⟩ := mem_part.1 hb
  rw [List.take_add_one, List.take_add_one, hagree a ha b hb, getElem?_at (hreach a ha),
    getElem?_at (hreach b hb), hac, hbc]

/-- No entry is lost or moved. Below a dense level this takes all coordinates to be below the
size. -/
theorem flatten_children (hs : Ascends level seg)
    (hsize : ∀ lane, f = .dense lane → ∀ e ∈ seg, e.at level < size) :
    ((children level f size seg).map Prod.snd).flatten = seg := by
  cases f with
  | dense lane =>
    rw [children, List.map_snd_zip (by simp)]
    refine flatten_fan size hs (fun e _ => Nat.zero_le _) fun e he => ?_
    rw [Nat.zero_add]
    exact hsize lane rfl e he
  | sparse positions coordinates => exact flatten_runs level seg

end Segment

namespace Range

open Segment

/-- The ranges `kids`, each with a coordinate at the level, split the range `r` by these. -/
structure Splits (level : Nat) (es : List Entry) (r : Range) (kids : List (Nat × Range)) :
    Prop where
  tiles : Tiles r.lo (kids.map Prod.snd) r.hi
  increasing : (kids.map Prod.fst).Pairwise (· < ·)
  entries_eq : ∀ k ∈ kids, k.2.entries es = part level (r.entries es) k.1
  agree : ∀ k ∈ kids, Agree (level + 1) (k.2.entries es)

/-- Ranges of sorted entries, from number `lo` to number `hi`, that can be split at a level: they
follow one another, and the entries of each agree before the level. -/
structure Splittable (level : Nat) (es : List Entry) (lo : Nat) (rs : List Range) (hi : Nat) :
    Prop where
  increasing : Increasing es
  consecutive : Tiles lo rs hi
  within : hi ≤ es.length
  agree : ∀ r ∈ rs, Agree level (r.entries es)

/-- The ranges of the children of the segment of a range, each with its coordinate. The first starts
where the range does. -/
def childRanges (level : Nat) (f : LevelFormat) (size : Nat) (es : List Entry) (r : Range) :
    List (Nat × Range) :=
  layOut r.lo (children level f size (r.entries es))

variable {level size lo hi : Nat} {es : List Entry} {r : Range} {rs : List Range} {f : LevelFormat}

/-- The children of the segment of a range can be laid out over the range. -/
theorem segments_childRanges (hle : r.lo ≤ r.hi)
    (hflatten : ((children level f size (r.entries es)).map Prod.snd).flatten = r.entries es) :
    segments es (childRanges level f size es r) = children level f size (r.entries es) := by
  apply segments_layOut (es.drop r.hi)
  rw [hflatten, entries, List.drop_take]
  conv_lhs => rw [← List.take_append_drop (r.hi - r.lo) (es.drop r.lo), List.drop_drop,
    Nat.add_sub_cancel' hle]

theorem splits_of_segments {kids : List (Nat × Range)} (hs : Ascends level (r.entries es))
    (hagree : Agree level (r.entries es)) (hreach : ∀ e ∈ r.entries es, level < e.coords.length)
    (htiles : Tiles r.lo (kids.map Prod.snd) r.hi)
    (hkids : segments es kids = children level f size (r.entries es)) :
    Splits level es r kids := by
  have hpart : ∀ k ∈ kids, k.2.entries es = part level (r.entries es) k.1 := by
    intro k hk
    have hchild : (k.1, k.2.entries es) ∈ segments es kids := List.mem_map_of_mem hk
    rw [hkids] at hchild
    exact eq_part_of_mem_children hs hchild
  refine ⟨htiles, ?_, hpart, fun k hk => ?_⟩
  · rw [← map_fst_segments es, hkids]
    exact children_increasing hs
  · rw [hpart k hk]
    exact hagree.part hreach k.1

/-! ## One level -/

namespace Splittable

theorem ascends (h : Splittable level es lo rs hi) (hreach : ∀ e ∈ es, level < e.coords.length)
    (hr : r ∈ rs) : Ascends level (r.entries es) :=
  ascends_of_agree (h.increasing.sublist (entries_sublist es r)) (h.agree r hr) fun e he =>
    hreach e ((entries_sublist es r).subset he)

/-- The children of each segment are the segments of ranges that split its range. -/
theorem splits_childRanges (h : Splittable level es lo rs hi)
    (hreach : ∀ e ∈ es, level < e.coords.length)
    (hsize : ∀ lane, f = .dense lane → ∀ r ∈ rs, ∀ e ∈ r.entries es, e.at level < size)
    (hr : r ∈ rs) : Splits level es r (childRanges level f size es r) ∧
      segments es (childRanges level f size es r) = children level f size (r.entries es) := by
  obtain ⟨hle, hhi⟩ := h.consecutive.bounds r hr
  have hs := h.ascends hreach hr
  have hflatten := flatten_children hs fun lane hf => hsize lane hf r hr
  have htiles := tiles_layOut r.lo (children level f size (r.entries es))
  rw [hflatten, length_entries (hhi.trans h.within), Nat.add_sub_cancel' hle] at htiles
  have hkids := segments_childRanges hle hflatten
  refine ⟨splits_of_segments hs (h.agree r hr) (fun e he => ?_) htiles hkids, hkids⟩
  exact hreach e ((entries_sublist es r).subset he)

/-- What is below can be split at the next level. -/
theorem below {kids : Range → List (Nat × Range)} (h : Splittable level es lo rs hi)
    (hkids : ∀ r ∈ rs, Splits level es r (kids r)) :
    Splittable (level + 1) es lo ((rs.flatMap kids).map Prod.snd) hi := by
  refine ⟨h.increasing, ?_, h.within, List.forall_mem_map.2 fun k hk => ?_⟩
  · rw [List.map_flatMap]
    exact h.consecutive.flatMap fun r hr => (hkids r hr).tiles
  · obtain ⟨r, hr, hk⟩ := List.mem_flatMap.1 hk
    exact (hkids r hr).agree k hk

end Splittable

theorem segments_flatMap {kids : Range → List (Nat × Range)}
    (hkids : ∀ r ∈ rs, segments es (kids r) = children level f size (r.entries es)) :
    segments es (rs.flatMap kids) = (rs.map (entries es)).flatMap (children level f size) := by
  rw [segments, List.map_flatMap, List.flatMap_map]
  exact List.flatMap_congr hkids

/-- **One level splits ranges** into the ranges of their children, laid out one after another: below
a dense level, one per coordinate below the size, and below a sparse level, which does not look at
the size, one per coordinate that occurs. -/
theorem split_ranges (h : Splittable level es lo rs hi)
    (hreach : ∀ e ∈ es, level < e.coords.length) :
    (∀ lane size, (∀ r ∈ rs, ∀ e ∈ r.entries es, e.at level < size) →
      let kids := childRanges level (.dense lane) size es
      (rs.map (entries es)).flatMap (fan level 0 size) =
          (rs.flatMap kids).map (fun k => k.2.entries es) ∧
        ∀ r ∈ rs, Splits level es r (kids r) ∧ (kids r).map Prod.fst = List.range size) ∧
    ∀ size positions coordinates b,
      SparseBuild.run level positions coordinates (rs.map (entries es)) = .ok b →
      let kids := childRanges level (.sparse positions.lane coordinates.lane) size es
      b.below = (rs.flatMap kids).map (fun k => k.2.entries es) ∧
        b.coordinates.values =
          coordinates.values ++ (rs.flatMap kids).map (fun k => (k.1 : Int)) ∧
        b.positions.values = positions.values ++
          (List.range (rs.length + 1)).map (fun p => (((rs.take p).flatMap kids).length : Int)) ∧
        ∀ r ∈ rs, Splits level es r (kids r) ∧ (∀ k ∈ kids r, k.2.lo < k.2.hi) ∧
          ∀ c, c ∈ (kids r).map Prod.fst ↔ ∃ e ∈ r.entries es, e.at level = c := by
  constructor
  · intro lane size hsize kids
    have hkids : ∀ r ∈ rs, Splits level es r (kids r) ∧
        segments es (kids r) = children level (.dense lane) size (r.entries es) :=
      fun r hr => h.splits_childRanges hreach (fun _ _ => hsize) hr
    have hbelow := segments_flatMap fun r hr => (hkids r hr).2
    refine ⟨?_, fun r hr => ⟨(hkids r hr).1, ?_⟩⟩
    · rw [← map_snd_segments, hbelow, List.map_flatMap]
      refine List.flatMap_congr fun seg _ => ?_
      rw [children, List.map_snd_zip (by simp)]
    · rw [← map_fst_segments es, (hkids r hr).2, children, List.map_fst_zip (by simp)]
  · intro size positions coordinates b hb kids
    have hextends := SparseBuild.extends_of_run hb
    let f : LevelFormat := .sparse positions.lane coordinates.lane
    have hkids : ∀ r ∈ rs, Splits level es r (kids r) ∧
        segments es (kids r) = children level f size (r.entries es) :=
      fun r hr => h.splits_childRanges hreach (fun _ hf => by cases hf) hr
    have hbelow : ∀ p, segments es ((rs.take p).flatMap kids) =
        ((rs.take p).map (entries es)).flatMap (runs level) := fun p =>
      segments_flatMap fun r hr => (hkids r (List.mem_of_mem_take hr)).2
    have hall := hbelow rs.length
    rw [List.take_length] at hall
    refine ⟨?_, ?_, ?_, fun r hr => ⟨(hkids r hr).1, fun k hk => ?_, fun c => ?_⟩⟩
    · rw [hextends.below, ← hall, map_snd_segments]
    · rw [hextends.coordinates, ← hall, segments, List.map_map]
      rfl
    · rw [hextends.positions, List.length_map]
      congr 1
      refine List.map_congr_left fun p _ => ?_
      rw [blockStart, ← List.map_take, ← hbelow, segments, List.length_map]
    · have hruns := runs_spec (h.ascends hreach hr)
      have hchild : (k.1, k.2.entries es) ∈ segments es (kids r) := List.mem_map_of_mem hk
      rw [(hkids r hr).2] at hchild
      exact lt_of_entries_ne_nil (hruns.nonempty _ hchild)
    · rw [← map_fst_segments es, (hkids r hr).2]
      exact (runs_spec (h.ascends hreach hr)).mem_iff

/-- The columns of three rows, of which the second is empty. -/
theorem split_ranges_rows :
    let es : List Entry := [⟨[0, 0], .bool true⟩, ⟨[0, 2], .bool false⟩, ⟨[2, 1], .bool true⟩]
    let rs : List Range := [⟨0, 2⟩, ⟨2, 2⟩, ⟨2, 3⟩]
    let all := childRanges 1 (.dense .int32) 3 es
    let stored := childRanges 1 (.sparse .int32 .int32) 3 es
    Splittable 1 es 0 rs 3 ∧
      (∀ r ∈ rs, Splits 1 es r (all r) ∧ (all r).map Prod.fst = [0, 1, 2]) ∧
      ∃ b : SparseBuild,
        SparseBuild.run 1 (.empty .int32) (.empty .int32) (rs.map (entries es)) = .ok b ∧
        b.positions.values = [0, 2, 2, 3] ∧ b.coordinates.values = [0, 2, 1] ∧
        b.below = (rs.flatMap stored).map (fun k => k.2.entries es) ∧
        rs.flatMap stored = [(0, ⟨0, 1⟩), (2, ⟨1, 2⟩), (1, ⟨2, 3⟩)] ∧
        ∀ r ∈ rs, Splits 1 es r (stored r) := by
  intro es rs all stored
  have htiles : Tiles 0 rs 3 := .cons (by decide) (.cons (by decide) (.cons (by decide) (.nil 3)))
  have hincreasing : Increasing es := by simp [es, Increasing, coordsLt, coordsLe]
  have hagree : ∀ r ∈ rs, Agree 1 (r.entries es) := by
    unfold Agree
    decide
  have hsplittable : Splittable 1 es 0 rs 3 := ⟨hincreasing, htiles, by decide, hagree⟩
  obtain ⟨hdense, hsparse⟩ := split_ranges hsplittable (by decide)
  have hrun : (SparseBuild.run 1 (.empty .int32) (.empty .int32) (rs.map (entries es))).map
      (fun b => (b.positions.values, b.coordinates.values)) = .ok ([0, 2, 2, 3], [0, 2, 1]) := by
    decide
  cases hb : SparseBuild.run 1 (.empty .int32) (.empty .int32) (rs.map (entries es)) with
  | error e =>
    rw [hb] at hrun
    cases hrun
  | ok b =>
    rw [hb] at hrun
    obtain ⟨hpositions, hcoordinates⟩ := Prod.mk.inj (Except.ok.inj hrun)
    obtain ⟨hbelow, -, -, hkids⟩ := hsparse 3 (.empty .int32) (.empty .int32) b hb
    exact ⟨hsplittable, (hdense .int32 3 (by decide)).2, b, rfl, hpositions, hcoordinates, hbelow,
      rfl, fun r hr => (hkids r hr).1⟩

/-! ## All levels -/

/-- Packing a stack of levels below ranges ends with ranges, in each of which the entries agree at
all levels of the stack. -/
theorem packStack_ranges {stack : List (LevelFormat × Nat)} {levels : List Level}
    {leaves : List Segment} (h : Splittable level es lo rs hi)
    (hbounded : ∀ e ∈ es, List.Forall₂ (· < ·) (e.coords.drop level) (stack.map Prod.snd))
    (hpack : Level.packStack level stack (rs.map (entries es)) = .ok (levels, leaves)) :
    ∃ ss, leaves = ss.map (entries es) ∧ Splittable (level + stack.length) es lo ss hi := by
  induction stack generalizing level rs levels with
  | nil =>
    cases hpack
    exact ⟨rs, rfl, h⟩
  | cons f stack ih =>
    obtain ⟨f, size⟩ := f
    simp only [Level.packStack, bind_eq_ok] at hpack
    obtain ⟨⟨l, below⟩, hlevel, ⟨ls, leaves⟩, hrest, hl⟩ := hpack
    cases hl
    have hcons : ∀ e ∈ es, e.at level < size ∧
        List.Forall₂ (· < ·) (e.coords.drop (level + 1)) (stack.map Prod.snd) := by
      intro e he
      have hb := hbounded e he
      rw [List.map_cons, drop_eq_at_cons hb, List.forall₂_cons] at hb
      exact hb
    let kids := childRanges level f size es
    have hkids : ∀ r ∈ rs, Splits level es r (kids r) ∧
        segments es (kids r) = children level f size (r.entries es) := fun r hr =>
      h.splits_childRanges (fun e he => lt_length_of_bounded (hbounded e he))
        (fun _ _ r _ e he => (hcons e ((entries_sublist es r).subset he)).1) hr
    have hbelow : below = ((rs.flatMap kids).map Prod.snd).map (entries es) := by
      rw [Level.below_of_pack hlevel, ← segments_flatMap fun r hr => (hkids r hr).2,
        map_snd_segments, List.map_map]
      rfl
    rw [hbelow] at hrest
    obtain ⟨ss, hss, hsplittable⟩ :=
      ih (h.below fun r hr => (hkids r hr).1) (fun e he => (hcons e he).2) hrest
    refine ⟨ss, hss, ?_⟩
    rwa [List.length_cons, Nat.add_comm stack.length, ← Nat.add_assoc]

end Range

end SparseTensor
