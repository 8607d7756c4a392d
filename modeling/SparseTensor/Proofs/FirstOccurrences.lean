import Mathlib.Data.Set.Function

/-!
# First occurrences

`List.eraseDups` keeps the first occurrence of everything in a list. It commutes with leaving out
elements (`eraseDups_filter`), and with a map that does not identify any two of them
(`eraseDups_map`). Both are proved along `eraseDups_induction`, which takes the head of a list away
together with all that is equal to it.
-/

namespace SparseTensor

variable {α β : Type} [DecidableEq α] [DecidableEq β]

/-- What holds of a list if it holds of the rest without the head holds of all lists. -/
theorem eraseDups_induction {P : List α → Prop} (nil : P [])
    (cons : ∀ x xs, P (xs.filter fun y => y ≠ x) → P (x :: xs)) (xs : List α) : P xs := by
  induction hn : xs.length using Nat.strongRecOn generalizing xs with
  | ind n ih =>
    cases xs with
    | nil => exact nil
    | cons x xs =>
      refine cons x xs (ih _ ?_ _ rfl)
      rw [← hn]
      exact Nat.lt_succ_of_le (List.length_filter_le _ xs)

theorem eraseDups_cons_eq (x : α) (xs : List α) :
    (x :: xs).eraseDups = x :: (xs.filter fun y => y ≠ x).eraseDups := by
  rw [List.eraseDups_cons]
  congr 3
  funext y
  rw [Bool.eq_iff_iff]
  simp

theorem nodup_eraseDups (xs : List α) : xs.eraseDups.Nodup := by
  induction xs using eraseDups_induction with
  | nil => exact .nil
  | cons x xs ih =>
    rw [eraseDups_cons_eq, List.nodup_cons]
    exact ⟨by simp, ih⟩

theorem eraseDups_filter (p : α → Bool) (xs : List α) :
    (xs.filter p).eraseDups = xs.eraseDups.filter p := by
  induction xs using eraseDups_induction with
  | nil => rfl
  | cons x xs ih =>
    rw [eraseDups_cons_eq]
    by_cases hx : p x = true
    · rw [List.filter_cons_of_pos hx, List.filter_cons_of_pos hx, eraseDups_cons_eq, ← ih,
        List.filter_filter, List.filter_filter]
      simp only [Bool.and_comm]
    · rw [List.filter_cons_of_neg hx, List.filter_cons_of_neg hx, ← ih, List.filter_filter]
      -- What passes the test differs from the head, which does not.
      congr 1
      refine List.filter_congr fun y _ => ?_
      by_cases hy : p y = true
      · have hne : y ≠ x := fun h => hx (h ▸ hy)
        simp [hy, hne]
      · simp [hy]

/-- Taking one element out commutes with a map that keeps it apart from the others. -/
theorem filter_ne_map {f : α → β} {S : Set α} (hf : S.InjOn f) {x : α} (hx : x ∈ S) {xs : List α}
    (hxs : ∀ y ∈ xs, y ∈ S) :
    (xs.map f).filter (fun y => y ≠ f x) = (xs.filter fun y => y ≠ x).map f := by
  rw [List.filter_map]
  congr 1
  refine List.filter_congr fun y hy => ?_
  simp [hf.eq_iff (hxs y hy) hx]

theorem eraseDups_map {f : α → β} {S : Set α} (hf : S.InjOn f) {xs : List α}
    (hxs : ∀ y ∈ xs, y ∈ S) : (xs.map f).eraseDups = xs.eraseDups.map f := by
  induction xs using eraseDups_induction with
  | nil => rfl
  | cons x xs ih =>
    obtain ⟨hx, hxs⟩ := List.forall_mem_cons.1 hxs
    rw [List.map_cons, eraseDups_cons_eq, eraseDups_cons_eq, List.map_cons,
      filter_ne_map hf hx hxs, ih fun y hy => hxs y (List.mem_filter.1 hy).1]

end SparseTensor
