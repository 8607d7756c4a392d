import SparseTensor.Fault

/-!
# Index arrays

Positions, coordinates and dense sizes are kept in arrays of integers of one lane type, an integer
type of at most 64 bits. Every write is checked against the range of the lane, so an array holds
exactly the integers that were written.
-/

namespace SparseTensor

/-- Whether an index array may be made of such integers. -/
def DataType.isLane : DataType → Bool
  | uint w | int w => decide (w.bits ≤ 64)
  | _ => false

/-- The type of the integers of an index array. -/
structure Lane where
  type : DataType
  isLane : type.isLane = true
  deriving DecidableEq

namespace Lane

def ofType (type : DataType) : Except Fault Lane :=
  if h : type.isLane = true then .ok ⟨type, h⟩ else .error (.invalidIndexArrayType type)

/-- The lane of arrays about which nothing is said. -/
def int32 : Lane := ⟨.int .w32, rfl⟩

/-- Whether the lane has room for `v`. -/
def holds (lane : Lane) (v : Int) : Bool := lane.type.holds v

/-- What is kept of one integer: as many bits as the type has. -/
abbrev Word (lane : Lane) : Type := BitVec lane.type.bits

/-- The integer that a word stands for. Where the type has a sign, the highest bit counts
negatively. -/
def widen (lane : Lane) (w : lane.Word) : Int := if lane.type.isInt then w.toInt else w.toNat

end Lane

/-- One integer of a lane, as it is kept. -/
structure LaneValue where
  lane : Lane
  word : lane.Word
  deriving DecidableEq

namespace LaneValue

/-- The word of the integer `v`, if the lane has room for it. -/
def ofInt (lane : Lane) (v : Int) : Except Fault LaneValue :=
  if lane.holds v then .ok ⟨lane, BitVec.ofInt _ v⟩ else .error (.valueOutOfRange v lane.type)

/-- The integer of the word. -/
def val (x : LaneValue) : Int := x.lane.widen x.word

end LaneValue

structure IndexArray where
  lane : Lane
  values : List Int
  fits : ∀ v ∈ values, lane.holds v = true
  deriving DecidableEq

namespace IndexArray

def empty (lane : Lane) : IndexArray := ⟨lane, [], by simp⟩

/-- The array with `v` after its last integer, if `v` fits the lane. -/
def push (a : IndexArray) (v : Int) : Except Fault IndexArray :=
  if h : a.lane.holds v = true then
    .ok ⟨a.lane, a.values ++ [v], by
      intro x hx
      rcases List.mem_append.1 hx with hx | hx
      · exact a.fits x hx
      · rwa [List.mem_singleton.1 hx]⟩
  else .error (.valueOutOfRange v a.lane.type)

/-- The array of the integers `vs`. The first that does not fit is at fault. -/
def ofList (lane : Lane) (vs : List Int) : Except Fault IndexArray := vs.foldlM push (empty lane)

def length (a : IndexArray) : Nat := a.values.length

/-- The integer at `i`. -/
def get (a : IndexArray) (i : Nat) : Except Fault Int := fetch a.values i

/-- The integer at `i`, with its lane. -/
def laneValue (a : IndexArray) (i : Nat) : Except Fault LaneValue := do
  LaneValue.ofInt a.lane (← a.get i)

def last? (a : IndexArray) : Option Int := a.values.getLast?

def text (a : IndexArray) : String := Text.bracketed ", " (a.values.map fun v => s!"{v}")

@[simp] theorem values_empty (lane : Lane) : (empty lane).values = [] := rfl

@[simp] theorem lane_empty (lane : Lane) : (empty lane).lane = lane := rfl

theorem push_eq_ok {a b : IndexArray} {v : Int} :
    a.push v = .ok b ↔
      a.lane.holds v = true ∧ b.lane = a.lane ∧ b.values = a.values ++ [v] := by
  unfold push
  split
  · next h =>
    constructor
    · intro hb; cases hb; exact ⟨h, rfl, rfl⟩
    · rintro ⟨-, hl, hv⟩
      cases b; simp only at hl hv; subst hl hv; rfl
  · next h => simp [h]

end IndexArray

end SparseTensor
