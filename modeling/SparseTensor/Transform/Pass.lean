import SparseTensor.Notation.Concrete
import SparseTensor.Notation.Summation
import SparseTensor.Transform.Event
import SparseTensor.Transform.Traversal

/-!
# Passes

A pass turns a statement into another one, and gives back the statement itself if it has nothing
to change. A pipeline runs passes one after another and can check after each that the statement is
concrete.

A pass may refuse a statement, and so may the check; a traversal inside a pass may fail. Either ends
the run, and the log tells how far it came.
-/

namespace SparseTensor

/-- Why a run ended early. -/
inductive PassFailure where
  /-- A pass or the check after it refused the statement. -/
  | refused (cause : Fault)
  /-- A traversal could not be carried out. -/
  | failed (cause : Fault)
  deriving DecidableEq

/-- A run of passes, with its log and a supply of identities. -/
abbrev PassM := ExceptT PassFailure (StateT (List TransformEvent) Fresh)

namespace PassM

/-- A traversal as a step of a run. -/
def ofTransform {α : Type} (x : TransformM (List TransformEvent) α) : PassM α :=
  ExceptT.mk do
    match ← x.run with
    | .ok a => return .ok a
    | .error cause => return .error (.failed cause)

/-- A verdict as a step of a run. -/
def ofVerdict {α : Type} : Except Fault α → PassM α
  | .ok a => return a
  | .error cause => throw (.refused cause)

def log (event : TransformEvent) : PassM Unit := modify (· ++ [event])

end PassM

structure Pass where
  name : String
  run : Stmt → PassM Stmt

/-- Writes out the implicit sums of every plain assignment. -/
def summationTraversal {σ : Type} : Traversal σ where
  assign self _ _ _ := self.explicitSums

/-- The pass that writes out implicit sums. -/
def Pass.summation : Pass where
  name := "reduction-notation"
  run s := PassM.ofTransform (summationTraversal.stmt s)

structure Pipeline where
  passes : List Pass
  /-- Whether the statement is checked after every pass. -/
  checks : Bool

namespace Pipeline

/-- One pass and the check after it. -/
def step (checks : Bool) (s : Stmt) (pass : Pass) : PassM Stmt := do
  PassM.log (.passStarted pass.name)
  let new ← pass.run s
  PassM.log (if new.same s then .passKept pass.name else .passChanged pass.name new)
  if checks then PassM.ofVerdict new.checkConcrete
  return new

/-- The passes in order. -/
def run (p : Pipeline) (s : Stmt) : PassM Stmt := p.passes.foldlM (step p.checks) s

end Pipeline

end SparseTensor
