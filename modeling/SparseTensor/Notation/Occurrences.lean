import SparseTensor.DataType.Promotion
import SparseTensor.Notation.Stmt

/-!
# What occurs in index notation

A reduction binds its variable in its operand, and a statement for all values of a variable binds
it in its body. The occurrences that nothing binds are free. Each list of variables or tensors
names everything once, in the order of first occurrences from left to right: the variable of a
reduction before its operand, a target before its value, a consumer before its producer.
-/

namespace SparseTensor

namespace Expr

/-- The type of an expression's value. A square root is a real or complex number. -/
def type : Expr → DataType
  | undefined => .undefined
  | access a => a.tensor.type.component
  | literal _ v => v.type
  | unary _ .neg a => a.type
  | unary _ .sqrt a => if a.type.isFloat || a.type.isComplex then a.type else .float .double
  | binary _ _ a b => a.type.promote b.type
  | reduction _ _ _ a => a.type

/-- The free occurrences of index variables, from left to right. -/
def freeOccurrences : Expr → List IndexVar
  | undefined | literal _ _ => []
  | access a => a.indices
  | unary _ _ a => a.freeOccurrences
  | binary _ _ a b => a.freeOccurrences ++ b.freeOccurrences
  | reduction _ _ i a => a.freeOccurrences.filter fun j => j ≠ i

/-- All occurrences of index variables, from left to right, binders included. -/
def occurrences : Expr → List IndexVar
  | undefined | literal _ _ => []
  | access a => a.indices
  | unary _ _ a => a.occurrences
  | binary _ _ a b => a.occurrences ++ b.occurrences
  | reduction _ _ i a => i :: a.occurrences

/-- The reads of tensors, from left to right. -/
def reads : Expr → List TensorVar
  | undefined | literal _ _ => []
  | access a => [a.tensor]
  | unary _ _ a | reduction _ _ _ a => a.reads
  | binary _ _ a b => a.reads ++ b.reads

def freeVars (e : Expr) : List IndexVar := e.freeOccurrences.eraseDups

def indexVars (e : Expr) : List IndexVar := e.occurrences.eraseDups

/-- Whether the variable occurs free. -/
def uses (e : Expr) (i : IndexVar) : Bool := decide (i ∈ e.freeOccurrences)

end Expr

namespace Stmt

mutual

/-- The free occurrences of index variables, from left to right. -/
def freeOccurrences : Stmt → List IndexVar
  | undefined => []
  | assign _ target value _ => target.indices ++ value.freeOccurrences
  | forAll _ i body => body.freeOccurrences.filter fun j => j ≠ i
  | staged _ consumer producer => consumer.freeOccurrences ++ producer.freeOccurrences
  | group _ _ members => allFreeOccurrences members

def allFreeOccurrences : List Stmt → List IndexVar
  | [] => []
  | s :: ss => s.freeOccurrences ++ allFreeOccurrences ss

end

mutual

/-- The assignments to tensors that are seen from outside. What a producer writes is for its
consumer only. -/
def writes : Stmt → List TensorVar
  | undefined => []
  | assign _ target _ _ => [target.tensor]
  | forAll _ _ body => body.writes
  | staged _ consumer _ => consumer.writes
  | group _ _ members => allWrites members

def allWrites : List Stmt → List TensorVar
  | [] => []
  | s :: ss => s.writes ++ allWrites ss

end

mutual

/-- The reads of tensors, from left to right. A target is not read. -/
def reads : Stmt → List TensorVar
  | undefined => []
  | assign _ _ value _ => value.reads
  | forAll _ _ body => body.reads
  | staged _ consumer producer => consumer.reads ++ producer.reads
  | group _ _ members => allReads members

def allReads : List Stmt → List TensorVar
  | [] => []
  | s :: ss => s.reads ++ allReads ss

end

def freeVars (s : Stmt) : List IndexVar := s.freeOccurrences.eraseDups

/-- The tensors that the statement computes for its surroundings. -/
def results (s : Stmt) : List TensorVar := s.writes.eraseDups

/-- The tensors that the statement reads. -/
def inputs (s : Stmt) : List TensorVar := s.reads.eraseDups

end Stmt

end SparseTensor
