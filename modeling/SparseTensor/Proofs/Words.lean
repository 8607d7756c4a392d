import Mathlib.Data.List.TakeWhile
import SparseTensor.Proofs.Checks
import SparseTensor.Storage.WordArray

/-!
# Integers kept as words

An array of words keeps eight kinds of integers, with and without a sign and of four widths. An
integer is written as the bits of its lane and read back from them. A write that did not look at the
range would lose the upper bits of some integers, and one that took the word for another lane would
read back another integer.

**Theorem (`pushes_faithful`).** Written to an empty array one after another, an integer is accepted
if and only if it is in the range of the lane. Afterwards the array keeps exactly the accepted ones,
in their order and whichever way it is read, and one that is refused leaves it as it was. An array
made of a whole list is refused for the first integer that is out of range.

All of it rests on one fact about single integers: in range, widening undoes narrowing
(`Lane.widen_ofInt`). What an array keeps is then what was written to it (`integers_written`), and a
run writes what it accepts (`run_pushes`). An `IndexArray` is an array of words seen through its
integers (`WordArray.array`), and goes along with it call by call (`push_array`).
-/

namespace SparseTensor

/-! ## The range of a lane -/

namespace Lane

/-- The least integer of the lane. -/
def least (lane : Lane) : Int :=
  if lane.type.isInt then -(Nat.pow 2 (lane.type.bits - 1) : Nat) else 0

/-- The greatest integer of the lane. -/
def greatest (lane : Lane) : Int :=
  if lane.type.isInt then (Nat.pow 2 (lane.type.bits - 1) : Nat) - 1
  else (Nat.pow 2 lane.type.bits : Nat) - 1

/-- The integer is one of the lane. -/
def InRange (lane : Lane) (v : Int) : Prop := lane.least ≤ v ∧ v ≤ lane.greatest

instance (lane : Lane) (v : Int) : Decidable (lane.InRange v) :=
  inferInstanceAs (Decidable (_ ∧ _))

variable {lane : Lane} {v : Int} {vs : List Int}

theorem holds_uint {w : Width} : DataType.holds (.uint w) v = true ↔ 0 ≤ v ∧ v < w.count := by
  rw [DataType.holds, Bool.and_eq_true, decide_eq_true_eq, decide_eq_true_eq]

theorem holds_int {w : Width} :
    DataType.holds (.int w) v = true ↔ -w.count ≤ 2 * v ∧ 2 * v < w.count := by
  rw [DataType.holds, Bool.and_eq_true, decide_eq_true_eq, decide_eq_true_eq]

theorem holds_iff_inRange : lane.holds v = true ↔ lane.InRange v := by
  obtain ⟨type, hlane⟩ := lane
  cases type with
  | uint w =>
    show _ ↔ 0 ≤ v ∧ v ≤ (w.count : Int) - 1
    rw [holds, holds_uint]
    omega
  | int w =>
    have hcount : w.count = 2 * Nat.pow 2 (w.bits - 1) := by cases w <;> rfl
    show _ ↔ -(Nat.pow 2 (w.bits - 1) : Nat) ≤ v ∧ v ≤ (Nat.pow 2 (w.bits - 1) : Nat) - 1
    rw [holds, holds_int, hcount]
    omega
  | _ => cases hlane

/-- In range, the word of an integer stands for it. -/
theorem widen_ofInt (h : lane.holds v = true) : lane.widen (BitVec.ofInt _ v) = v := by
  obtain ⟨type, hlane⟩ := lane
  cases type with
  | uint w =>
    obtain ⟨hleast, hgreatest⟩ := holds_uint.1 h
    show ((BitVec.ofInt w.bits v).toNat : Int) = v
    rw [BitVec.toNat_ofInt]
    show ((v % w.count).toNat : Int) = v
    rw [Int.emod_eq_of_lt hleast hgreatest, Int.toNat_of_nonneg hleast]
  | int w =>
    obtain ⟨hleast, hgreatest⟩ := holds_int.1 h
    rw [Int.mul_comm] at hleast hgreatest
    show (BitVec.ofInt w.bits v).toInt = v
    rw [BitVec.toInt_ofInt]
    exact Int.bmod_eq_of_le_mul_two hleast hgreatest
  | _ => cases hlane

theorem holds_widen (w : lane.Word) : lane.holds (lane.widen w) = true := by
  obtain ⟨type, hlane⟩ := lane
  cases type with
  | uint width => exact holds_uint.2 ⟨Int.natCast_nonneg _, Int.ofNat_lt.2 w.isLt⟩
  | int width =>
    have hleast : ∀ x : BitVec width.bits, -width.count ≤ 2 * x.toInt := fun x => by
      have h := x.le_two_mul_toInt
      cases width <;> exact h
    have hgreatest : ∀ x : BitVec width.bits, 2 * x.toInt < width.count := fun x => by
      have h := x.two_mul_toInt_lt
      cases width <;> exact h
    exact holds_int.2 ⟨hleast w, hgreatest w⟩
  | _ => cases hlane

theorem ofInt_widen (w : lane.Word) : BitVec.ofInt _ (lane.widen w) = w := by
  obtain ⟨type, hlane⟩ := lane
  cases type with
  | uint width =>
    have hword : ∀ x : BitVec width.bits, BitVec.ofInt _ (x.toNat : Int) = x := fun x => by
      rw [BitVec.ofInt_natCast, BitVec.ofNat_toNat, BitVec.setWidth_eq]
    exact hword w
  | int width => exact BitVec.ofInt_toInt
  | _ => cases hlane

/-- What becomes of a write of `v`. -/
def check (lane : Lane) (v : Int) : Except Fault Unit :=
  if lane.InRange v then .ok () else .error (.valueOutOfRange v lane.type)

/-- What becomes of writes that end with the first that is refused. -/
def checkAll (lane : Lane) (vs : List Int) : Except Fault Unit := vs.forM lane.check

theorem checkAll_cons (lane : Lane) (v : Int) (vs : List Int) :
    lane.checkAll (v :: vs) =
      if lane.InRange v then lane.checkAll vs else .error (.valueOutOfRange v lane.type) := by
  show (lane.check v >>= fun _ => lane.checkAll vs) = _
  rw [check]
  split <;> rfl

theorem checkAll_eq_ok : lane.checkAll vs = .ok () ↔ ∀ v ∈ vs, lane.InRange v := by
  induction vs with
  | nil => simp [checkAll, pure, Except.pure]
  | cons v vs ih =>
    rw [checkAll_cons, List.forall_mem_cons]
    split <;> simp [*]

theorem checkAll_eq_error
    (h : (vs.find? fun v => !decide (lane.InRange v)) = some v) :
    lane.checkAll vs = .error (.valueOutOfRange v lane.type) := by
  induction vs with
  | nil => cases h
  | cons u us ih =>
    rw [checkAll_cons]
    by_cases hu : lane.InRange u
    · rw [List.find?_cons_of_neg (by simpa using hu)] at h
      rw [if_pos hu, ih h]
    · rw [List.find?_cons_of_pos (by simpa using hu)] at h
      cases h
      rw [if_neg hu]

end Lane

/-- The array after a write of each integer. A write that is refused is passed over. -/
def IndexArray.pushAll (a : IndexArray) (vs : List Int) : IndexArray :=
  vs.foldl (fun a v => (a.push v).toOption.getD a) a

namespace WordArray

variable {a : WordArray} {v : Int} {vs : List Int}

/-! ## What an array keeps -/

/-- The integers of the words. -/
def integers (a : WordArray) : List Int := a.words.map a.lane.widen

/-- The array with the words of further integers. -/
def written (a : WordArray) (vs : List Int) : WordArray :=
  ⟨a.lane, a.words ++ vs.map (BitVec.ofInt _)⟩

/-- The array keeps integers `xs` of the lane, and every way to read it gives those. -/
structure Keeps (a : WordArray) (lane : Lane) (xs : List Int) : Prop where
  lane_eq : a.lane = lane
  toList_eq : a.toList = .ok xs
  get_eq : ∀ i, a.get i = fetch xs i
  laneValue_eq : ∀ i, (a.laneValue i).map LaneValue.val = fetch xs i
  lane_laneValue : ∀ i x, a.laneValue i = .ok x → x.lane = lane

theorem written_nil (a : WordArray) : a.written [] = a := by
  rw [written, List.map_nil, List.append_nil]

theorem written_cons (a : WordArray) (v : Int) (vs : List Int) :
    a.written (v :: vs) = (a.written [v]).written vs :=
  congrArg (WordArray.mk a.lane) (List.append_cons a.words (BitVec.ofInt _ v) _)

/-- What was written is read back. -/
theorem integers_written (h : ∀ v ∈ vs, a.lane.holds v = true) :
    (a.written vs).integers = a.integers ++ vs := by
  have hback : ∀ v ∈ vs, a.lane.widen (BitVec.ofInt _ v) = v :=
    fun v hv => Lane.widen_ofInt (h v hv)
  show (a.words ++ vs.map (BitVec.ofInt _)).map a.lane.widen = _
  rw [List.map_append, List.map_map, integers]
  exact congrArg _ ((List.map_congr_left hback).trans (List.map_id vs))

theorem get_eq (a : WordArray) (i : Nat) : a.get i = fetch a.integers i := by
  rw [get, fetch, fetch, integers, List.getElem?_map, List.length_map]
  cases a.words[i]? <;> rfl

theorem laneValue_eq (a : WordArray) (i : Nat) :
    a.laneValue i = (fetch a.words i).map (LaneValue.mk a.lane) := by
  rw [laneValue]
  cases fetch a.words i <;> rfl

theorem keeps (a : WordArray) : a.Keeps a.lane a.integers where
  lane_eq := rfl
  toList_eq := by
    have hread : ∀ i w, a.words[i]? = some w → a.get (0 + i) = .ok (a.lane.widen w) := by
      intro i w hw
      rw [Nat.zero_add, get_eq, fetch_eq_ok, integers, List.getElem?_map, hw]
      rfl
    rw [toList, List.range_eq_range']
    exact mapM_range'_ok 0 a.words hread
  get_eq := a.get_eq
  laneValue_eq i := by
    rw [laneValue_eq, ← get_eq, get]
    cases fetch a.words i <;> rfl
  lane_laneValue i x h := by
    rw [laneValue_eq] at h
    cases hw : fetch a.words i with
    | error e => rw [hw] at h; cases h
    | ok w => rw [hw] at h; cases h; rfl

theorem integers_written_empty {lane : Lane} (h : ∀ v ∈ vs, lane.InRange v) :
    ((empty lane).written vs).integers = vs :=
  integers_written fun v hv => Lane.holds_iff_inRange.2 (h v hv)

theorem keeps_written {lane : Lane} (h : ∀ v ∈ vs, lane.InRange v) :
    ((empty lane).written vs).Keeps lane vs := by
  have hkeeps := ((empty lane).written vs).keeps
  rwa [integers_written_empty h] at hkeeps

/-! ## Runs -/

theorem run_store (a : WordArray) (w : a.lane.Word) :
    (store ⟨a.lane, w⟩).run a = some ((), ⟨a.lane, a.words ++ [w]⟩) :=
  dif_pos rfl

/-- The word that is stored is one of the lane, so a call always has an outcome. -/
theorem run_push (a : WordArray) (v : Int) :
    (push v).run.run a =
      some (a.lane.check v, if a.lane.InRange v then a.written [v] else a) := by
  show (ExceptT.run (do
    store (← MonadExcept.ofExcept (LaneValue.ofInt a.lane v)) :
      ExceptT Fault (StateT WordArray Option) Unit)).run a = _
  by_cases hv : a.lane.InRange v
  · rw [LaneValue.ofInt, if_pos (Lane.holds_iff_inRange.2 hv), Lane.check, if_pos hv, if_pos hv]
    show ((store ⟨a.lane, BitVec.ofInt _ v⟩).run a >>= fun p => some (Except.ok p.1, p.2)) = _
    rw [run_store]
    rfl
  · rw [LaneValue.ofInt, if_neg (mt Lane.holds_iff_inRange.1 hv), Lane.check, if_neg hv, if_neg hv]
    rfl

theorem run_push_of_not_inRange (h : ¬a.lane.InRange v) :
    (push v).run.run a = some (.error (.valueOutOfRange v a.lane.type), a) := by
  rw [run_push, Lane.check, if_neg h, if_neg h]

theorem run_pushes_cons (a : WordArray) (v : Int) (vs : List Int) :
    (pushes (v :: vs)).run a = do
      let (outcome, b) ← (push v).run.run a
      let (outcomes, c) ← (pushes vs).run b
      return (outcome :: outcomes, c) := by
  rw [pushes, List.mapM_cons]
  rfl

theorem run_pushes (a : WordArray) (vs : List Int) :
    (pushes vs).run a =
      some (vs.map a.lane.check, a.written (vs.filter fun v => a.lane.InRange v)) := by
  induction vs generalizing a with
  | nil => rw [List.map_nil, List.filter_nil, written_nil]; rfl
  | cons v vs ih =>
    rw [run_pushes_cons, run_push, List.map_cons]
    by_cases hv : a.lane.InRange v
    · rw [if_pos hv, List.filter_cons_of_pos (by simpa using hv), written_cons a v (vs.filter _)]
      show ((pushes vs).run (a.written [v]) >>= fun p => some (a.lane.check v :: p.1, p.2)) = _
      rw [ih]
      rfl
    · rw [if_neg hv, List.filter_cons_of_neg (by simpa using hv)]
      show ((pushes vs).run a >>= fun p => some (a.lane.check v :: p.1, p.2)) = _
      rw [ih]
      rfl

/-! ## Whole lists -/

theorem new_type (lane : Lane) : new lane.type = .ok (empty lane) := by
  rw [new, Lane.ofType, dif_pos lane.isLane]
  rfl

theorem run_forM_push (a : WordArray) (vs : List Int) :
    (vs.forM push).run.run a =
      some (a.lane.checkAll vs, a.written (vs.takeWhile fun v => a.lane.InRange v)) := by
  induction vs generalizing a with
  | nil => rw [List.takeWhile_nil, written_nil]; rfl
  | cons v vs ih =>
    show ((push v >>= fun _ => vs.forM push).run).run a = _
    rw [ExceptT.run_bind, StateT.run_bind, run_push, Lane.check, Lane.checkAll_cons]
    by_cases hv : a.lane.InRange v
    · rw [if_pos hv, if_pos hv, if_pos hv, List.takeWhile_cons_of_pos (by simpa using hv),
        written_cons a v (vs.takeWhile _)]
      exact ih (a.written [v])
    · rw [if_neg hv, if_neg hv, if_neg hv, List.takeWhile_cons_of_neg (by simpa using hv),
        written_nil]
      rfl

theorem ofList_type (lane : Lane) (vs : List Int) :
    ofList lane.type vs = some ((lane.checkAll vs).map fun _ => (empty lane).written vs) := by
  rw [ofList, new_type]
  show ((vs.forM push).run.run (empty lane) >>= fun p => some (p.1.map fun _ => p.2)) = _
  rw [run_forM_push]
  show some ((lane.checkAll vs).map _) = _
  cases hall : lane.checkAll vs with
  | error e => rfl
  | ok _ =>
    have hwhole : vs.takeWhile (fun v => lane.InRange v) = vs :=
      List.takeWhile_eq_self_iff.2 (by simpa using Lane.checkAll_eq_ok.1 hall)
    show some (Except.ok ((empty lane).written (vs.takeWhile fun v => lane.InRange v))) = _
    rw [hwhole]
    rfl

theorem ofList_eq_ok {lane : Lane} {b : WordArray} (h : ofList lane.type vs = some (.ok b)) :
    (∀ v ∈ vs, lane.InRange v) ∧ b = (empty lane).written vs := by
  rw [ofList_type, Option.some.injEq] at h
  cases hall : lane.checkAll vs with
  | error e => rw [hall] at h; cases h
  | ok _ => rw [hall] at h; cases h; exact ⟨Lane.checkAll_eq_ok.1 hall, rfl⟩

theorem exists_ofList_iff {lane : Lane} :
    (∃ b, ofList lane.type vs = some (.ok b)) ↔ ∀ v ∈ vs, lane.InRange v := by
  constructor
  · rintro ⟨b, hb⟩
    exact (ofList_eq_ok hb).1
  · intro h
    exact ⟨_, by rw [ofList_type, Lane.checkAll_eq_ok.2 h]; rfl⟩

theorem ofList_eq_error {lane : Lane}
    (h : (vs.find? fun v => !decide (lane.InRange v)) = some v) :
    ofList lane.type vs = some (.error (.valueOutOfRange v lane.type)) := by
  rw [ofList_type, Lane.checkAll_eq_error h]
  rfl

/-! ## Integers without words -/

/-- The array as a value. -/
def array (a : WordArray) : IndexArray :=
  ⟨a.lane, a.integers, List.forall_mem_map.2 fun w _ => Lane.holds_widen w⟩

theorem push_array (a : WordArray) (v : Int) :
    a.array.push v = (a.lane.check v).map fun _ => (a.written [v]).array := by
  by_cases hv : a.lane.InRange v
  · have hholds : a.lane.holds v = true := Lane.holds_iff_inRange.2 hv
    rw [Lane.check, if_pos hv]
    refine IndexArray.push_eq_ok.2 ⟨hholds, rfl, integers_written ?_⟩
    exact List.forall_mem_singleton.2 hholds
  · have hholds : ¬a.array.lane.holds v = true := mt Lane.holds_iff_inRange.1 hv
    rw [Lane.check, if_neg hv, IndexArray.push, dif_neg hholds]
    rfl

theorem get_array (a : WordArray) (i : Nat) : a.array.get i = a.get i := (a.get_eq i).symm

theorem laneValue_array (a : WordArray) (i : Nat) : a.array.laneValue i = a.laneValue i := by
  rw [IndexArray.laneValue, get_array, get, laneValue_eq]
  cases fetch a.words i with
  | error e => rfl
  | ok w =>
    show LaneValue.ofInt a.lane (a.lane.widen w) = .ok ⟨a.lane, w⟩
    rw [LaneValue.ofInt, if_pos (Lane.holds_widen w), Lane.ofInt_widen]

theorem pushAll_array (a : WordArray) (vs : List Int) :
    a.array.pushAll vs = (a.written (vs.filter fun v => a.lane.InRange v)).array := by
  induction vs generalizing a with
  | nil => rw [List.filter_nil, written_nil]; rfl
  | cons v vs ih =>
    rw [IndexArray.pushAll, List.foldl_cons, push_array, Lane.check]
    by_cases hv : a.lane.InRange v
    · rw [if_pos hv, List.filter_cons_of_pos (by simpa using hv), written_cons a v (vs.filter _)]
      exact ih (a.written [v])
    · rw [if_neg hv, List.filter_cons_of_neg (by simpa using hv)]
      exact ih a

theorem map_push_array (a : WordArray) (v : Int) :
    (a.array.push v).map (fun _ => ()) = a.lane.check v := by
  rw [push_array]
  cases a.lane.check v <;> rfl

/-- A list is refused for the same integer, or kept alike. -/
theorem ofList_array (lane : Lane) (vs : List Int) :
    some (IndexArray.ofList lane vs) = (ofList lane.type vs).map (Except.map array) := by
  have hfold : ∀ a : WordArray, vs.foldlM IndexArray.push a.array =
      (a.lane.checkAll vs).map fun _ => (a.written vs).array := by
    induction vs with
    | nil => exact fun a => by rw [written_nil]; rfl
    | cons v vs ih =>
      intro a
      rw [List.foldlM_cons, push_array, Lane.check, Lane.checkAll_cons]
      by_cases hv : a.lane.InRange v
      · rw [if_pos hv, if_pos hv, written_cons a v vs]
        exact ih (a.written [v])
      · rw [if_neg hv, if_neg hv]
        rfl
  rw [ofList_type]
  refine (congrArg some (hfold (empty lane))).trans ?_
  show some ((lane.checkAll vs).map _) = some (((lane.checkAll vs).map _).map _)
  cases lane.checkAll vs <;> rfl

/-- **Nothing is truncated.** Integers that are written to an empty array one after another are
accepted iff they are in the range of the lane. The array then keeps the accepted ones in their
order, by all ways to read it, and one that is refused leaves it alone. An array of a whole list is
made iff all its integers are in range, and keeps them; otherwise the first that is not is at fault.
An array that is a value has the same outcomes, holds the same integers and is read alike. -/
theorem pushes_faithful (lane : Lane) (vs : List Int) :
    new lane.type = .ok (empty lane) ∧ ∃ a,
      (pushes vs).run (empty lane) = some (vs.map lane.check, a) ∧
      a.Keeps lane (vs.filter fun v => lane.InRange v) ∧
      (∀ v, ¬lane.InRange v →
        (push v).run.run a = some (.error (.valueOutOfRange v lane.type), a)) ∧
      ((∃ b, ofList lane.type vs = some (.ok b)) ↔ ∀ v ∈ vs, lane.InRange v) ∧
      (∀ b, ofList lane.type vs = some (.ok b) → b.Keeps lane vs) ∧
      (∀ v, (vs.find? fun v => !decide (lane.InRange v)) = some v →
        ofList lane.type vs = some (.error (.valueOutOfRange v lane.type))) ∧
      (IndexArray.empty lane).pushAll vs = a.array ∧
      a.array.values = (vs.filter fun v => lane.InRange v) ∧
      (∀ v, (a.array.push v).map (fun _ => ()) = lane.check v) ∧
      (∀ i, a.array.get i = a.get i ∧ a.array.laneValue i = a.laneValue i) ∧
      some (IndexArray.ofList lane vs) = (ofList lane.type vs).map (Except.map array) := by
  have haccepted : ∀ v ∈ vs.filter fun v => lane.InRange v, lane.InRange v := fun v hv =>
    of_decide_eq_true (List.mem_filter.1 hv).2
  refine ⟨new_type lane, _, run_pushes (empty lane) vs, keeps_written haccepted,
    fun v hv => run_push_of_not_inRange hv, exists_ofList_iff, fun b hb => ?_,
    fun v hv => ofList_eq_error hv, pushAll_array (empty lane) vs, integers_written_empty haccepted,
    map_push_array _, fun i => ⟨get_array _ i, laneValue_array _ i⟩, ofList_array lane vs⟩
  obtain ⟨h, rfl⟩ := ofList_eq_ok hb
  exact keeps_written h

/-- Of three integers around the ends of a signed byte, the one beyond is refused. -/
theorem pushes_faithful_byte :
    ∃ a, (pushes [-128, 128, 127]).run (empty ⟨.int .w8, rfl⟩) =
        some ([.ok (), .error (.valueOutOfRange 128 (.int .w8)), .ok ()], a) ∧
      a.toList = .ok [-128, 127] := by
  obtain ⟨-, a, hrun, hkeeps, -⟩ := pushes_faithful ⟨.int .w8, rfl⟩ [-128, 128, 127]
  exact ⟨a, hrun, hkeeps.toList_eq⟩

end WordArray

end SparseTensor
