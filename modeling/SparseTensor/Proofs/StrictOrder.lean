import Mathlib.Data.List.Nodup
import SparseTensor.Storage.Entries

/-!
# The strict lexicographic order

Coordinates that increase strictly are sorted and repeat nothing, so a list in this order is
determined by its members (`eq_of_increasing`).
-/

namespace SparseTensor

/-- Whether the first coordinate comes before the second. -/
def coordsLt (a b : List Nat) : Prop := coordsLe a b = true ∧ a ≠ b

theorem coordsLt_cons {c d : Nat} {cs ds : List Nat} :
    coordsLt (c :: cs) (d :: ds) ↔ c < d ∨ c = d ∧ coordsLt cs ds := by
  rw [coordsLt, coordsLe_cons, coordsLt, Ne, List.cons.injEq, not_and]
  constructor
  · rintro ⟨hlt | ⟨rfl, hle⟩, hne⟩
    · exact .inl hlt
    · exact .inr ⟨rfl, hle, hne rfl⟩
  · rintro (hlt | ⟨rfl, hle, hne⟩)
    · exact ⟨.inl hlt, fun h => by omega⟩
    · exact ⟨.inr ⟨rfl, hle⟩, fun _ => hne⟩

theorem coordsLt_irrefl (a : List Nat) : ¬ coordsLt a a := fun h => h.2 rfl

theorem coordsLt_asymm {a b : List Nat} (hab : coordsLt a b) : ¬ coordsLt b a := fun hba =>
  hab.2 (coordsLe_antisymm hab.1 hba.1)

/-- Coordinates that begin alike are in order from there on. -/
theorem coordsLt_drop {n : Nat} {a b : List Nat} (h : coordsLt a b) (hn : a.take n = b.take n) :
    coordsLt (a.drop n) (b.drop n) := by
  induction n generalizing a b with
  | zero => exact h
  | succ n ih =>
    cases a with
    | nil =>
      cases b with
      | nil => exact h
      | cons d ds => cases hn
    | cons c cs =>
      cases b with
      | nil => cases hn
      | cons d ds =>
        rw [List.take_succ_cons, List.take_succ_cons, List.cons.injEq] at hn
        rw [coordsLt_cons] at h
        rcases h with hlt | ⟨-, h⟩
        · omega
        · exact ih h hn.2

/-- Entries whose coordinates increase. -/
def Increasing (es : List Entry) : Prop := es.Pairwise fun a b => coordsLt a.coords b.coords

theorem Increasing.nodup {es : List Entry} (h : Increasing es) :
    (es.map Entry.coords).Nodup := by
  rw [List.Nodup, List.pairwise_map]
  exact h.imp fun hlt => hlt.2

/-- No two lists in increasing order have the same members. -/
theorem eq_of_increasing {es fs : List Entry} (hes : Increasing es) (hfs : Increasing fs)
    (h : ∀ e, e ∈ es ↔ e ∈ fs) : es = fs := by
  have hperm : es.Perm fs := by
    refine (List.perm_ext_iff_of_nodup ?_ ?_).2 h
    · exact List.Nodup.of_map Entry.coords hes.nodup
    · exact List.Nodup.of_map Entry.coords hfs.nodup
  exact hperm.eq_of_pairwise (fun a b _ _ hab hba => absurd hba (coordsLt_asymm hab)) hes hfs

end SparseTensor
