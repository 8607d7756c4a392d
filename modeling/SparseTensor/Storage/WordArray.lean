import SparseTensor.Storage.IndexArray

/-!
# Arrays of words

An `IndexArray` is a value and holds integers. A `WordArray` is what memory keeps of one: a word for
each integer, of as many bits as the lane has. It is changed in place. A write first narrows the
integer to a word of the lane and then puts the word at the end; a read widens the word again.

Only a word of its own lane has a place in an array. A run that puts another one there has no
outcome at all, which is `none`.
-/

namespace SparseTensor

/-- The words of integers of one lane. -/
structure WordArray where
  lane : Lane
  words : List lane.Word

namespace WordArray

def empty (lane : Lane) : WordArray := ⟨lane, []⟩

/-- The array without integers whose lane has the given type. -/
def new (type : DataType) : Except Fault WordArray := return empty (← Lane.ofType type)

/-- The integer at `i`. -/
def get (a : WordArray) (i : Nat) : Except Fault Int := return a.lane.widen (← fetch a.words i)

/-- The integer at `i`, with its lane. -/
def laneValue (a : WordArray) (i : Nat) : Except Fault LaneValue :=
  return ⟨a.lane, ← fetch a.words i⟩

/-- All integers, read one after another. -/
def toList (a : WordArray) : Except Fault (List Int) := (List.range a.words.length).mapM a.get

/-- Puts a word after the last. -/
def store (x : LaneValue) : StateT WordArray Option Unit := fun a =>
  if h : x.lane = a.lane then some ((), ⟨a.lane, a.words ++ [h ▸ x.word]⟩) else none

/-- Writes `v` after the last integer, if it fits the lane. -/
def push (v : Int) : ExceptT Fault (StateT WordArray Option) Unit := do
  let a ← getThe WordArray
  store (← MonadExcept.ofExcept (LaneValue.ofInt a.lane v))

/-- Writes one integer after another, whatever becomes of those before. -/
def pushes (vs : List Int) : StateT WordArray Option (List (Except Fault Unit)) :=
  vs.mapM fun v => (push v).run

/-- The array of the integers `vs`. The first that does not fit is at fault. -/
def ofList (type : DataType) (vs : List Int) : Option (Except Fault WordArray) :=
  match new type with
  | .error e => some (.error e)
  | .ok a => do
    let (outcome, b) ← (vs.forM push).run.run a
    return outcome.map fun _ => b

end WordArray

end SparseTensor
