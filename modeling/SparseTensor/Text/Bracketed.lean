/-!
# Bracketed lists

Lists in texts stand in square brackets with a separator between neighbours.
-/

namespace SparseTensor.Text

/-- The items in square brackets, with `sep` between neighbours. -/
def bracketed (sep : String) (items : List String) : String :=
  "[" ++ sep.intercalate items ++ "]"

/-- A list of numbers as it stands in a message. -/
def numberList (ns : List Nat) : String := bracketed ", " (ns.map fun n => s!"{n}")

end SparseTensor.Text
