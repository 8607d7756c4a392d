import SparseTensor.Shape
import SparseTensor.Storage.IndexArray

/-!
# Storage formats

A format lays a tensor out level by level. It says how each level is stored, in which lanes, and
which dimension the level stands for. The dimensions in level order are the mode ordering, in which
every dimension occurs exactly once.

A coordinate is moved between the two orders by `toLevelOrder` and `toDimensionOrder`.
-/

namespace SparseTensor

/-- How one level is stored: its kind, and the lane of each of its index arrays. -/
inductive LevelFormat where
  | dense (size : Lane)
  | sparse (positions coordinates : Lane)
  deriving DecidableEq

namespace LevelFormat

def kind : LevelFormat → LevelKind
  | dense _ => .dense
  | sparse _ _ => .sparse

def lanes : LevelFormat → List Lane
  | dense size => [size]
  | sparse positions coordinates => [positions, coordinates]

/-- A level of the kind, in the lanes about which nothing is said. -/
def ofKind : LevelKind → LevelFormat
  | .dense => dense .int32
  | .sparse => sparse .int32 .int32

/-- The level with arrays of the given types. There is one type per array, and the first that is no
lane type is at fault. -/
def withLanes (f : LevelFormat) (types : List DataType) : Except Fault LevelFormat :=
  match f, types with
  | dense _, [size] => return dense (← Lane.ofType size)
  | sparse _ _, [positions, coordinates] =>
    return sparse (← Lane.ofType positions) (← Lane.ofType coordinates)
  | f, types => .error (.indexArrayCount f.kind f.kind.arrayCount types.length)

@[simp] theorem kind_ofKind (k : LevelKind) : (ofKind k).kind = k := by cases k <;> rfl

end LevelFormat

/-- Whether every number below `order` occurs exactly once. Enough numbers, none too great and none
twice leave no other choice. -/
def isOrdering (order : Nat) (ordering : List Nat) : Bool :=
  ordering.length == order && ordering.all (fun d => decide (d < order)) && decide ordering.Nodup

theorem isOrdering_range (n : Nat) : isOrdering n (List.range n) = true := by
  simp [isOrdering, List.nodup_range]

/-- Marks the numbers of an ordering one after another. `seen` has a place for every number below
the order. Each number must have a place, and no mark there yet. -/
def markEach (order : Nat) : (seen : List Bool) → (ordering : List Nat) → Except Fault Bool
  | _, [] => return true
  | seen, d :: ds => do
    if order ≤ d then return false
    if ← fetch seen d then return false
    markEach order (← put seen d true) ds

/-- The check of an ordering. -/
def checkOrdering (order : Nat) (ordering : List Nat) : Except Fault Bool :=
  if ordering.length = order then markEach order (List.replicate order false) ordering
  else return false

theorem unmarked_set {seen : List Bool} {d : Nat} (hd : d < seen.length) (e : Nat) :
    (seen.set d true)[e]? = some false ↔ d ≠ e ∧ seen[e]? = some false := by
  by_cases he : d = e
  · rw [← he, List.getElem?_set_self hd]
    simp
  · rw [List.getElem?_set_ne he]
    simp [he]

/-- Marking reads and writes only where there are places. It tells whether no number comes twice and
each has a place without a mark at the start. -/
theorem markEach_eq {order : Nat} {seen : List Bool} {ordering : List Nat}
    (h : seen.length = order) :
    markEach order seen ordering =
      .ok (decide (ordering.Nodup ∧ ∀ d ∈ ordering, seen[d]? = some false)) := by
  induction ordering generalizing seen with
  | nil => simp [markEach, pure, Except.pure]
  | cons d ds ih =>
    rw [markEach]
    by_cases hd : order ≤ d
    · have hout : seen[d]? ≠ some false := by simp [List.getElem?_eq_none (h ▸ hd)]
      simp [hd, hout, pure, Except.pure]
    · have hlt : d < seen.length := by omega
      rw [if_neg hd, fetch_of_lt hlt, put_of_lt hlt]
      have hseen : seen[d]? = some seen[d] := List.getElem?_eq_getElem hlt
      show (if seen[d] = true then _ else _) = _
      cases hmark : seen[d] with
      | true => simp [hseen, hmark, pure, Except.pure]
      | false =>
        -- The rest is unmarked after this mark iff it was before and `d` does not come again.
        have hlen : (seen.set d true).length = order := by rw [List.length_set, h]
        have hrest := ih hlen
        simp only [unmarked_set hlt] at hrest
        rw [if_neg Bool.false_ne_true]
        refine hrest.trans (congrArg Except.ok (decide_eq_decide.2 ?_))
        rw [List.nodup_cons, List.forall_mem_cons, hseen, hmark]
        constructor
        · rintro ⟨hnodup, hall⟩
          exact ⟨⟨fun hmem => (hall d hmem).1 rfl, hnodup⟩, rfl, fun e he => (hall e he).2⟩
        · rintro ⟨⟨hnot, hnodup⟩, -, hall⟩
          exact ⟨hnodup, fun e he => ⟨fun heq => hnot (heq ▸ he), hall e he⟩⟩

theorem checkOrdering_eq (order : Nat) (ordering : List Nat) :
    checkOrdering order ordering = .ok (isOrdering order ordering) := by
  unfold checkOrdering isOrdering
  split
  · next h =>
    rw [markEach_eq (List.length_replicate ..)]
    refine congrArg Except.ok (Bool.eq_iff_iff.2 ?_)
    simp [h, List.getElem?_replicate, and_comm]
  · next h => simp [h, pure, Except.pure]

structure Format where
  levels : List LevelFormat
  /-- The dimension at each level. -/
  ordering : List Nat
  isOrdering : isOrdering levels.length ordering = true
  deriving DecidableEq

namespace Format

def order (f : Format) : Nat := f.levels.length

def kinds (f : Format) : List LevelKind := f.levels.map LevelFormat.kind

/-- The format that keeps the dimensions in their order. -/
def ofLevels (levels : List LevelFormat) : Format :=
  ⟨levels, List.range levels.length, isOrdering_range _⟩

def ofKinds (kinds : List LevelKind) : Format := ofLevels (kinds.map .ofKind)

/-- The format with the dimensions in the given order. -/
def withOrdering (kinds : List LevelKind) (ordering : List Nat) : Except Fault Format :=
  let levels := kinds.map LevelFormat.ofKind
  match h : checkOrdering levels.length ordering with
  | .error e => .error e
  | .ok false => .error (.invalidModeOrdering ordering)
  | .ok true => .ok ⟨levels, ordering, by rwa [checkOrdering_eq, Except.ok.injEq] at h⟩

def dense (order : Nat) : Format := ofKinds (List.replicate order .dense)

def sparse (order : Nat) : Format := ofKinds (List.replicate order .sparse)

/-- Compressed rows: dense rows, sparse columns. -/
def csr : Format := ofKinds [.dense, .sparse]

/-- Compressed columns: dense columns, sparse rows. -/
def csc : Format := ⟨[.ofKind .dense, .ofKind .sparse], [1, 0], by decide⟩

/-- Doubly compressed rows: both levels sparse. -/
def dcsr : Format := sparse 2

/-- The levels with arrays of the given types. A level beyond the types keeps its lanes. -/
def relane : (levels : List LevelFormat) → (types : List (List DataType)) →
    Except Fault { new : List LevelFormat // new.length = levels.length }
  | f :: fs, ts :: rest => do
    let g ← f.withLanes ts
    let gs ← relane fs rest
    return ⟨g :: gs.1, by simp [gs.2]⟩
  | fs, _ => .ok ⟨fs, rfl⟩

/-- The format with arrays of the given types, level by level. -/
def withLanes (f : Format) (types : List (List DataType)) : Except Fault Format :=
  if types.length = f.order then do
    let levels ← relane f.levels types
    return ⟨levels.1, f.ordering, by rw [levels.2]; exact f.isOrdering⟩
  else .error (.orderMismatch f.order types.length)

/-- The types of the index arrays of a level. -/
def laneTypes (f : Format) (level : Nat) : Except Fault (List DataType) := do
  return (← fetch f.levels level).lanes.map Lane.type

/-- A format lays out shapes of its own order. -/
def checkShape (f : Format) (s : Shape) : Except Fault Unit :=
  if f.order = s.order then .ok () else .error (.orderMismatch f.order s.order)

/-- A coordinate in dimension order, read off in level order. -/
def toLevelOrder (f : Format) (coords : List Nat) : List Nat :=
  f.ordering.map fun d => coords.getD d 0

/-- A coordinate in level order, with each component put at the dimension of its level. -/
def toDimensionOrder (f : Format) (coords : List Nat) : List Nat :=
  (f.ordering.zip coords).foldl (fun out (d, c) => out.set d c) (List.replicate f.order 0)

def text (f : Format) : String :=
  "(" ++ ",".intercalate (f.kinds.map LevelKind.text) ++ "; "
    ++ ",".intercalate (f.ordering.map fun d => s!"{d}") ++ ")"

end Format

end SparseTensor
