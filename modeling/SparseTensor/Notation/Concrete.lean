import SparseTensor.Notation.Occurrences

/-!
# Concrete statements

A statement is concrete if it can be run as it stands: nothing in it is undefined, something binds
every index variable where it is used, every reduction runs over a variable that its operand uses,
and a consumer reads every tensor that its producer computes. `Stmt.checkConcrete` finds the first
reason why a statement is not.
-/

namespace SparseTensor

/-- Checks an expression where the variables `bound` are bound. -/
def Expr.check (bound : List IndexVar) : Expr → Except Fault Unit
  | undefined => .error .undefinedNode
  | access a =>
    match a.indices.find? fun i => i ∉ bound with
    | some i => .error (.unboundIndexVar i.name)
    | none => .ok ()
  | literal _ _ => .ok ()
  | unary _ _ a => a.check bound
  | binary _ _ a b => do
    a.check bound
    b.check bound
  | reduction _ _ i a =>
    if a.uses i then a.check (i :: bound) else .error (.unusedReductionVar i.name)

namespace Stmt

/-- Checks that the consumer reads what the producer computes. -/
def checkStaged (consumer producer : Stmt) : Except Fault Unit :=
  match producer.results.find? fun t => t ∉ consumer.inputs with
  | some t => .error (.unusedTemporary t.name)
  | none => .ok ()

mutual

/-- Checks a statement where the variables `bound` are bound. -/
def check (bound : List IndexVar) : Stmt → Except Fault Unit
  | undefined => .error .undefinedNode
  | assign _ target value _ => do
    (Expr.access target).check bound
    value.check bound
  | forAll _ i body => body.check (i :: bound)
  | staged _ consumer producer => do
    consumer.check bound
    producer.check bound
    checkStaged consumer producer
  | group _ _ members => checkAll bound members

def checkAll (bound : List IndexVar) : List Stmt → Except Fault Unit
  | [] => .ok ()
  | s :: ss => do
    s.check bound
    checkAll bound ss

end

/-- Checks that a statement is concrete. -/
def checkConcrete (s : Stmt) : Except Fault Unit := s.check []

end Stmt

end SparseTensor
