/-!
# Lexicographic order

Coordinates are ordered component by component from the first. The order is total, transitive and
antisymmetric, so sorting by it brings equal coordinates together.
-/

namespace SparseTensor

/-- Whether the first coordinate comes before the second, or is the same. -/
def coordsLe : List Nat → List Nat → Bool
  | [], _ => true
  | _ :: _, [] => false
  | c :: cs, d :: ds => decide (c < d) || (c == d && coordsLe cs ds)

theorem coordsLe_cons {c d : Nat} {cs ds : List Nat} :
    coordsLe (c :: cs) (d :: ds) = true ↔ c < d ∨ c = d ∧ coordsLe cs ds = true := by
  simp [coordsLe]

theorem coordsLe_total (a b : List Nat) : coordsLe a b = true ∨ coordsLe b a = true := by
  induction a generalizing b with
  | nil => exact .inl rfl
  | cons c cs ih =>
    cases b with
    | nil => exact .inr rfl
    | cons d ds =>
      rw [coordsLe_cons, coordsLe_cons]
      rcases Nat.lt_trichotomy c d with h | rfl | h
      · exact .inl (.inl h)
      · exact (ih ds).imp (fun h => .inr ⟨rfl, h⟩) fun h => .inr ⟨rfl, h⟩
      · exact .inr (.inl h)

theorem coordsLe_trans {a b c : List Nat} (hab : coordsLe a b = true) (hbc : coordsLe b c = true) :
    coordsLe a c = true := by
  induction a generalizing b c with
  | nil => rfl
  | cons x xs ih =>
    cases b with
    | nil => cases hab
    | cons y ys =>
      cases c with
      | nil => cases hbc
      | cons z zs =>
        rw [coordsLe_cons] at hab hbc ⊢
        rcases hab with hab | ⟨rfl, hab⟩
        · exact .inl (by omega)
        · exact hbc.imp id fun h => ⟨h.1, ih hab h.2⟩

theorem coordsLe_antisymm {a b : List Nat} (hab : coordsLe a b = true)
    (hba : coordsLe b a = true) : a = b := by
  induction a generalizing b with
  | nil =>
    cases b with
    | nil => rfl
    | cons => cases hba
  | cons x xs ih =>
    cases b with
    | nil => cases hab
    | cons y ys =>
      rw [coordsLe_cons] at hab hba
      rcases hab with hab | ⟨rfl, hab⟩
      · omega
      · rcases hba with hba | ⟨-, hba⟩
        · omega
        · rw [ih hab hba]

end SparseTensor
