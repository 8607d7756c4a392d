import Mathlib.Data.List.Pairwise
import SparseTensor.Storage.Segment

/-!
# How a level splits a segment

Both kinds of levels split a segment by the coordinate at the level. The dense fan and the sparse
runs are written as scans; on a segment whose coordinates ascend they are filters. Each child is
the part of the segment with one coordinate (`Segment.part`): the fan has a part for every
coordinate below the size, the runs have one for every coordinate that occurs.

`Segment.children` stands for either, so what follows about packing is said once for both kinds.
-/

namespace SparseTensor

/-! ## Scans that are filters -/

section Scans

variable {α : Type} {p : α → Bool} {xs : List α}

/-- If only the first members have a property, taking members while they have it takes all that
have it. -/
theorem takeWhile_eq_filter (h : xs.Pairwise fun a b => p b = true → p a = true) :
    xs.takeWhile p = xs.filter p := by
  induction xs with
  | nil => rfl
  | cons x xs ih =>
    obtain ⟨hhead, htail⟩ := List.pairwise_cons.1 h
    by_cases hx : p x = true
    · rw [List.takeWhile_cons_of_pos hx, List.filter_cons_of_pos hx, ih htail]
    · rw [List.takeWhile_cons_of_neg hx, eq_comm, List.filter_eq_nil_iff]
      intro y hy hpy
      rcases List.mem_cons.1 hy with rfl | hy
      · exact hx hpy
      · exact hx (hhead y hy hpy)

theorem dropWhile_eq_filter (h : xs.Pairwise fun a b => p b = true → p a = true) :
    xs.dropWhile p = xs.filter fun x => !p x := by
  induction xs with
  | nil => rfl
  | cons x xs ih =>
    obtain ⟨hhead, htail⟩ := List.pairwise_cons.1 h
    by_cases hx : p x = true
    · rw [List.dropWhile_cons_of_pos hx, List.filter_cons_of_neg (by simp [hx]), ih htail]
    · rw [List.dropWhile_cons_of_neg hx, eq_comm, List.filter_eq_self]
      intro y hy
      rw [Bool.not_eq_true']
      rcases List.mem_cons.1 hy with rfl | hy
      · exact Bool.eq_false_iff.2 hx
      · exact Bool.eq_false_iff.2 fun hpy => hx (hhead y hy hpy)

end Scans

namespace Segment

variable {level : Nat}

/-- The entries with coordinate `c` at the level. -/
def part (level : Nat) (seg : Segment) (c : Nat) : Segment := seg.filter fun e => e.at level == c

theorem mem_part {seg : Segment} {c : Nat} {e : Entry} :
    e ∈ part level seg c ↔ e ∈ seg ∧ e.at level = c := by
  rw [part, List.mem_filter, beq_iff_eq]

/-- The coordinates at the level do not decrease. -/
def Ascends (level : Nat) (seg : Segment) : Prop :=
  seg.Pairwise fun a b => a.at level ≤ b.at level

/-! ## Fans -/

theorem part_eq_nil {seg : Segment} {c : Nat} (h : ∀ e ∈ seg, c < e.at level) :
    part level seg c = [] := by
  rw [part, List.filter_eq_nil_iff]
  intro e he
  have := h e he
  simp only [beq_iff_eq]
  omega

/-- Of a segment from `c` on, the entries with coordinate `c` come first. -/
theorem Ascends.initial {seg : Segment} {c : Nat} (hs : Ascends level seg)
    (hc : ∀ e ∈ seg, c ≤ e.at level) :
    seg.Pairwise fun a b => (b.at level == c) = true → (a.at level == c) = true := by
  refine List.Pairwise.imp_of_mem (fun {a b} ha _ hab h => ?_) hs
  rw [beq_iff_eq] at h ⊢
  exact Nat.le_antisymm (h ▸ hab) (hc a ha)

theorem fan_eq {seg : Segment} {first : Nat} (count : Nat) (hs : Ascends level seg)
    (hfirst : ∀ e ∈ seg, first ≤ e.at level) :
    fan level first count seg = (List.range' first count).map (part level seg) := by
  induction count generalizing first seg with
  | zero => rfl
  | succ count ih =>
    rw [fan, takeWhile_eq_filter (hs.initial hfirst), dropWhile_eq_filter (hs.initial hfirst),
      List.range'_succ, List.map_cons]
    congr 1
    rw [ih (hs.filter _)]
    · refine List.map_congr_left fun c hc => ?_
      rw [List.mem_range'_1] at hc
      rw [part, part, List.filter_filter]
      refine List.filter_congr fun e _ => ?_
      by_cases he : e.at level = c
      · have hne : c ≠ first := by omega
        simp [he, hne]
      · simp [he]
    · intro e he
      rw [List.mem_filter, Bool.not_eq_true', beq_eq_false_iff_ne] at he
      have := hfirst e he.1
      omega

theorem flatten_fan {seg : Segment} {first : Nat} (count : Nat) (hs : Ascends level seg)
    (hfirst : ∀ e ∈ seg, first ≤ e.at level) (hlast : ∀ e ∈ seg, e.at level < first + count) :
    (fan level first count seg).flatten = seg := by
  induction count generalizing first seg with
  | zero =>
    symm
    refine List.eq_nil_iff_forall_not_mem.2 fun e he => ?_
    have := hfirst e he
    have := hlast e he
    omega
  | succ count ih =>
    rw [fan, List.flatten_cons, ih, List.takeWhile_append_dropWhile]
    · exact hs.sublist (List.dropWhile_sublist _)
    · intro e he
      rw [dropWhile_eq_filter (hs.initial hfirst), List.mem_filter, Bool.not_eq_true',
        beq_eq_false_iff_ne] at he
      have := hfirst e he.1
      omega
    · intro e he
      have := hlast e ((List.dropWhile_sublist _).subset he)
      omega

@[simp] theorem length_fan (first count : Nat) (seg : Segment) :
    (fan level first count seg).length = count := by
  induction count generalizing first seg with
  | zero => rfl
  | succ count ih => rw [fan, List.length_cons, ih]

/-! ## Runs -/

theorem part_cons_self {seg : Segment} {e : Entry} {c : Nat} (he : e.at level = c) :
    part level (e :: seg) c = e :: part level seg c :=
  List.filter_cons_of_pos (by simpa using he)

theorem part_cons_of_ne {seg : Segment} {e : Entry} {c : Nat} (he : e.at level ≠ c) :
    part level (e :: seg) c = part level seg c :=
  List.filter_cons_of_neg (by simpa using he)

/-- The runs of a segment: one for each coordinate that occurs, in increasing order, with the part
of that coordinate. -/
structure AreRuns (level : Nat) (seg : Segment) (runs : List (Nat × Segment)) : Prop where
  increasing : (runs.map Prod.fst).Pairwise (· < ·)
  parts : ∀ r ∈ runs, r.2 = part level seg r.1
  nonempty : ∀ r ∈ runs, r.2 ≠ []
  complete : ∀ e ∈ seg, e.at level ∈ runs.map Prod.fst

/-- A segment with a smaller coordinate in front has one more run, in front. -/
theorem AreRuns.cons_new {seg : Segment} {runs : List (Nat × Segment)} {e : Entry}
    (h : AreRuns level seg runs) (hlt : ∀ r ∈ runs, e.at level < r.1) :
    AreRuns level (e :: seg) ((e.at level, [e]) :: runs) := by
  have hseg : ∀ x ∈ seg, e.at level < x.at level := by
    intro x hx
    obtain ⟨r, hr, hrx⟩ := List.mem_map.1 (h.complete x hx)
    exact hrx ▸ hlt r hr
  refine ⟨?_, ?_, ?_, ?_⟩
  · rw [List.map_cons, List.pairwise_cons]
    exact ⟨List.forall_mem_map.2 hlt, h.increasing⟩
  · intro r hr
    rcases List.mem_cons.1 hr with rfl | hr
    · rw [part_cons_self rfl, part_eq_nil hseg]
    · rw [part_cons_of_ne (by have := hlt r hr; omega), h.parts r hr]
  · intro r hr
    rcases List.mem_cons.1 hr with rfl | hr
    · exact List.cons_ne_nil e []
    · exact h.nonempty r hr
  · intro x hx
    rcases List.mem_cons.1 hx with rfl | hx
    · exact List.mem_cons_self
    · exact List.mem_cons_of_mem _ (h.complete x hx)

theorem AreRuns.mem_iff {seg : Segment} {runs : List (Nat × Segment)} {c : Nat}
    (h : AreRuns level seg runs) : c ∈ runs.map Prod.fst ↔ ∃ e ∈ seg, e.at level = c := by
  constructor
  · intro hc
    obtain ⟨r, hr, rfl⟩ := List.mem_map.1 hc
    obtain ⟨e, he⟩ := List.exists_mem_of_ne_nil r.2 (h.nonempty r hr)
    rw [h.parts r hr, mem_part] at he
    exact ⟨e, he⟩
  · rintro ⟨e, he, rfl⟩
    exact h.complete e he

/-- An entry with the first coordinate joins the first run. -/
theorem AreRuns.cons_same {seg run : Segment} {rest : List (Nat × Segment)} {e : Entry}
    (h : AreRuns level seg ((e.at level, run) :: rest)) :
    AreRuns level (e :: seg) ((e.at level, e :: run) :: rest) := by
  obtain ⟨hlt, -⟩ := List.pairwise_cons.1 h.increasing
  refine ⟨h.increasing, ?_, ?_, ?_⟩
  · intro r hr
    rcases List.mem_cons.1 hr with rfl | hr
    · rw [part_cons_self rfl, ← h.parts (e.at level, run) List.mem_cons_self]
    · have hne : e.at level ≠ r.1 := Nat.ne_of_lt (hlt r.1 (List.mem_map_of_mem hr))
      rw [part_cons_of_ne hne, h.parts r (List.mem_cons_of_mem _ hr)]
  · intro r hr
    rcases List.mem_cons.1 hr with rfl | hr
    · exact List.cons_ne_nil e run
    · exact h.nonempty r (List.mem_cons_of_mem _ hr)
  · intro x hx
    rcases List.mem_cons.1 hx with rfl | hx
    · exact List.mem_cons_self
    · exact h.complete x hx

theorem runs_spec {seg : Segment} (hs : Ascends level seg) :
    AreRuns level seg (runs level seg) := by
  induction seg with
  | nil => exact ⟨.nil, by simp [runs], by simp [runs], by simp⟩
  | cons e seg ih =>
    obtain ⟨hhead, htail⟩ := List.pairwise_cons.1 hs
    have h := ih htail
    -- Every run has a member, and no member has a smaller coordinate than `e`.
    have hle : ∀ r ∈ runs level seg, e.at level ≤ r.1 := by
      intro r hr
      obtain ⟨x, hx⟩ := List.exists_mem_of_ne_nil r.2 (h.nonempty r hr)
      rw [h.parts r hr, mem_part] at hx
      exact hx.2 ▸ hhead x hx.1
    rw [runs]
    split
    · next hnil =>
      rw [hnil] at h
      exact h.cons_new (by simp)
    · next c run rest hruns =>
      rw [hruns] at h hle
      split
      · next hc => subst hc; exact h.cons_same
      · next hc =>
        refine h.cons_new fun r hr => ?_
        have hec := hle (c, run) List.mem_cons_self
        rcases List.mem_cons.1 hr with rfl | hr
        · omega
        · have := (List.pairwise_cons.1 h.increasing).1 r.1 (List.mem_map_of_mem hr)
          omega

/-! ## The children of a segment -/

/-- What a level makes of a segment: coordinates, each with the segment below it. -/
def children (level : Nat) (f : LevelFormat) (size : Nat) (seg : Segment) : List (Nat × Segment) :=
  match f with
  | .dense _ => (List.range size).zip (fan level 0 size seg)
  | .sparse _ _ => runs level seg

variable {f : LevelFormat} {size : Nat} {seg : Segment}

theorem children_dense (hs : Ascends level seg) (lane : Lane) :
    children level (.dense lane) size seg =
      (List.range size).map fun c => (c, part level seg c) := by
  rw [children, fan_eq size hs fun e _ => Nat.zero_le _, ← List.range_eq_range']
  have h := List.zip_map' (f := id) (g := part level seg) (l := List.range size)
  rwa [List.map_id] at h

theorem children_increasing (hs : Ascends level seg) :
    ((children level f size seg).map Prod.fst).Pairwise (· < ·) := by
  cases f with
  | dense lane =>
    rw [children_dense hs, List.map_map]
    exact List.pairwise_lt_range.map _ fun _ _ h => h
  | sparse positions coordinates => exact (runs_spec hs).increasing

theorem eq_part_of_mem_children (hs : Ascends level seg) {r : Nat × Segment}
    (hr : r ∈ children level f size seg) : r.2 = part level seg r.1 := by
  cases f with
  | dense lane =>
    rw [children_dense hs, List.mem_map] at hr
    obtain ⟨c, -, rfl⟩ := hr
    rfl
  | sparse positions coordinates => exact (runs_spec hs).parts r hr

theorem lt_size_of_mem_children (hs : Ascends level seg) (hsize : ∀ e ∈ seg, e.at level < size)
    {r : Nat × Segment} (hr : r ∈ children level f size seg) : r.1 < size := by
  cases f with
  | dense lane =>
    rw [children_dense hs, List.mem_map] at hr
    obtain ⟨c, hc, rfl⟩ := hr
    exact List.mem_range.1 hc
  | sparse positions coordinates =>
    obtain ⟨e, he, hec⟩ := (runs_spec hs).mem_iff.1 (List.mem_map_of_mem hr)
    exact hec ▸ hsize e he

theorem part_mem_children (hs : Ascends level seg) (hsize : ∀ e ∈ seg, e.at level < size)
    {e : Entry} (he : e ∈ seg) :
    (e.at level, part level seg (e.at level)) ∈ children level f size seg := by
  cases f with
  | dense lane =>
    rw [children_dense hs, List.mem_map]
    exact ⟨e.at level, List.mem_range.2 (hsize e he), rfl⟩
  | sparse positions coordinates =>
    have h := runs_spec hs
    obtain ⟨r, hr, hre⟩ := List.mem_map.1 (h.complete e he)
    have hpart := h.parts r hr
    rw [← hre, ← hpart]
    exact hr

end Segment

end SparseTensor
