/-!
# Kinds of levels

A level of a storage is dense or sparse. A dense level stands for every coordinate below its size;
a sparse level lists the coordinates that occur.
-/

namespace SparseTensor

inductive LevelKind where
  | dense
  | sparse
  deriving DecidableEq

namespace LevelKind

/-- Index arrays of such a level: its size, or its positions and its coordinates. -/
def arrayCount : LevelKind → Nat
  | dense => 1
  | sparse => 2

def text : LevelKind → String
  | dense => "dense"
  | sparse => "sparse"

end LevelKind

end SparseTensor
