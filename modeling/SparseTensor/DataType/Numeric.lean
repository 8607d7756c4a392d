import SparseTensor.Fault

/-!
# Numeric types by family and width

A family has a member for some widths only. The width of a complex type counts both parts.
-/

namespace SparseTensor.Family

/-- The member of the family with that many bits, if there is one. -/
def member? (family : Family) (bits : Nat) : Option DataType :=
  match family with
  | uint => (Width.ofBits? bits).map .uint
  | int => (Width.ofBits? bits).map .int
  | float => (Precision.ofBits? bits).map .float
  | complex => if bits % 2 = 0 then (Precision.ofBits? (bits / 2)).map .complex else none

/-- The member of the family with that many bits. -/
def member (family : Family) (bits : Nat) : Except Fault DataType :=
  match family.member? bits with
  | some type => .ok type
  | none => .error (.unsupportedBitWidth family bits)

theorem bits_of_member? {family : Family} {bits : Nat} {type : DataType}
    (h : family.member? bits = some type) : type.bits = bits := by
  cases family <;> simp only [member?] at h
  case uint | int =>
    obtain ⟨w, hw, rfl⟩ := Option.map_eq_some_iff.1 h
    exact Width.bits_of_ofBits? hw
  case float =>
    obtain ⟨p, hp, rfl⟩ := Option.map_eq_some_iff.1 h
    exact Precision.bits_of_ofBits? hp
  case complex =>
    split at h
    · obtain ⟨p, hp, rfl⟩ := Option.map_eq_some_iff.1 h
      have := Precision.bits_of_ofBits? hp
      simp only [DataType.bits]
      omega
    · simp at h

end SparseTensor.Family
