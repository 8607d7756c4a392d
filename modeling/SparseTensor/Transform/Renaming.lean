import SparseTensor.Transform.Traversal

/-!
# Renaming

A renaming puts index variables in the place of others, wherever these occur: in accesses, at
reductions and at statements that bind them. All variables are renamed at once, and binders are
not avoided.
-/

namespace SparseTensor

/-- Variables and what replaces them. An earlier pair hides the later ones with its key. -/
structure Renaming where
  pairs : List (IndexVar × IndexVar)

namespace Renaming

def empty : Renaming := ⟨[]⟩

def isEmpty (m : Renaming) : Bool := m.pairs.isEmpty

/-- The renaming that puts `new` in the place of `key`, whatever it put there so far. -/
def insert (m : Renaming) (key new : IndexVar) : Renaming := ⟨(key, new) :: m.pairs⟩

def find? (m : Renaming) (i : IndexVar) : Option IndexVar := m.pairs.lookup i

/-- The variable in the place of `i`, which is `i` itself unless it is renamed. -/
def apply (m : Renaming) (i : IndexVar) : IndexVar := (m.find? i).getD i

variable {σ : Type}

/-- A node that mentions a renamed variable is built anew. -/
def traversal (m : Renaming) : Traversal σ where
  access a :=
    if a.indices.any fun i => (m.find? i).isSome then
      return .access ⟨← fresh, a.tensor, a.indices.map m.apply⟩
    else return .access a
  reduction self reducer i a := do
    match m.find? i with
    | some j =>
      let new ← a.visit
      return .reduction (← fresh) reducer j new
    | none => Walk.reduction self reducer i a
  forAll self i body := do
    match m.find? i with
    | some j =>
      let new ← body.visit
      return .forAll (← fresh) j new
    | none => Walk.forAll self i body

/-- The expression with its variables renamed. -/
def inExpr (m : Renaming) (e : Expr) : TransformM σ Expr :=
  if m.isEmpty then return e else m.traversal.expr e

/-- The statement with its variables renamed. -/
def inStmt (m : Renaming) (s : Stmt) : TransformM σ Stmt :=
  if m.isEmpty then return s else m.traversal.stmt s

end Renaming

end SparseTensor
