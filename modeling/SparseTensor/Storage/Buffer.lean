import SparseTensor.Storage.Builder

/-!
# Insertions in place

A `Builder` is a value, and an insertion gives another one. A `Buffer` is changed by the calls that
it gets: it keeps the coordinates and the values of its insertions in two lists, of which each grows
by a step of its own. An insertion that fails ends where it fails, and what it has done by then is
not taken back.
-/

namespace SparseTensor

/-- The state of a builder that is changed in place. -/
structure Buffer where
  type : TensorType
  format : Format
  duplicates : Duplicates
  /-- The coordinates of the insertions, in dimension order. -/
  coords : List (List Nat)
  /-- The values of the insertions. -/
  values : List Value

namespace Buffer

/-- The buffer without insertions. -/
def new (type : TensorType) (format : Format) : Except Fault Buffer := do
  format.checkShape type.shape
  return ⟨type, format, .keepFirst, [], []⟩

/-- The number of insertions, repeated ones included. -/
def len (b : Buffer) : Nat := b.values.length

/-- The builder of the insertions. The lists are gone through side by side. -/
def builder (b : Buffer) : Builder :=
  ⟨b.type, b.format, b.duplicates, List.zipWith Entry.mk b.coords b.values⟩

/-- Checks what is to be inserted. -/
def check (b : Buffer) (coords : List Nat) (value : Value) : Except Fault Unit := do
  b.type.shape.checkCoordinate coords
  if value.type ≠ b.type.component then
    .error (.domainMismatch b.type.component value.type)

/-- Takes one more insertion. -/
def insert (coords : List Nat) (value : Value) : ExceptT Fault (StateM Buffer) Unit := do
  MonadExcept.ofExcept ((← get).check coords value)
  modify fun b => { b with coords := b.coords ++ [coords] }
  modify fun b => { b with values := b.values ++ [value] }

/-- What a buffer can be asked. -/
inductive Call where
  | insert (coords : List Nat) (value : Value)
  | policy (duplicates : Duplicates)
  | len
  | pack

inductive Answer where
  | inserted (outcome : Except Fault Unit)
  | changed
  | counted (insertions : Nat)
  /-- The storage or why there is none, and the log. -/
  | packed (outcome : Except Fault Storage × List PackEvent)

/-- Carries out a call. -/
def call : Call → StateM Buffer Answer
  | .insert coords value => .inserted <$> (insert coords value).run
  | .policy duplicates => do
    modify fun b => { b with duplicates }
    return .changed
  | .len => return .counted (← get).len
  | .pack => return .packed (← get).builder.packLogged

/-- Carries out one call after another. -/
def calls (cs : List Call) : StateM Buffer (List Answer) := cs.mapM call

end Buffer

end SparseTensor
