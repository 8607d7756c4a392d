import Mathlib.Data.List.Forall2
import SparseTensor.Fault

/-!
# Sequences of checked steps

A step that may be refused is run along a list, either on each member alone or on a result that
grows from member to member. These lemmas turn such a run into facts about its members.
-/

namespace SparseTensor

variable {α β : Type}

theorem bind_eq_ok {x : Except Fault α} {f : α → Except Fault β} {b : β} :
    x >>= f = .ok b ↔ ∃ a, x = .ok a ∧ f a = .ok b := by
  cases x with
  | error e => simp [bind, Except.bind]
  | ok a => simp [bind, Except.bind]

theorem bind_unit_eq_ok {x : Except Fault Unit} {f : Unit → Except Fault β} {b : β} :
    x >>= f = .ok b ↔ x = .ok () ∧ f () = .ok b := by
  rw [bind_eq_ok]
  constructor
  · rintro ⟨⟨⟩, hx, hf⟩
    exact ⟨hx, hf⟩
  · rintro ⟨hx, hf⟩
    exact ⟨(), hx, hf⟩

theorem bind_eq_error {x : Except Fault α} {f : α → Except Fault β} {e : Fault} :
    x >>= f = .error e ↔ x = .error e ∨ ∃ a, x = .ok a ∧ f a = .error e := by
  cases x with
  | error e => simp [bind, Except.bind]
  | ok a => simp [bind, Except.bind]

theorem exists_eq_ok {x : Except Fault α} (h : x.isOk = true) : ∃ a, x = .ok a := by
  cases x with
  | error e => cases h
  | ok a => exact ⟨a, rfl⟩

/-- What one step of a checked fold preserves, the fold preserves. The property may speak of the
members that are done. -/
theorem foldlM_induction {f : β → α → Except Fault β} {P : List α → β → Prop}
    (step : ∀ done b x b', P done b → f b x = .ok b' → P (done ++ [x]) b') {xs : List α}
    {b b' : β} (done : List α) (h : xs.foldlM f b = .ok b') (hb : P done b) :
    P (done ++ xs) b' := by
  induction xs generalizing b done with
  | nil =>
    cases h
    rwa [List.append_nil]
  | cons x xs ih =>
    rw [List.foldlM_cons, bind_eq_ok] at h
    obtain ⟨b₁, hstep, hrest⟩ := h
    rw [List.append_cons]
    exact ih (done ++ [x]) hrest (step done b x b₁ hb hstep)

/-- A checked fold succeeds if every step does that starts from what the steps before it
preserve. -/
theorem exists_foldlM_ok {f : β → α → Except Fault β} {P : List α → β → Prop} {b : β}
    (done xs : List α) (hb : P done b)
    (step : ∀ before x after b, before ++ x :: after = done ++ xs → P before b →
      ∃ b', f b x = .ok b' ∧ P (before ++ [x]) b') :
    ∃ b', xs.foldlM f b = .ok b' ∧ P (done ++ xs) b' := by
  induction xs generalizing b done with
  | nil => exact ⟨b, rfl, by rwa [List.append_nil]⟩
  | cons x xs ih =>
    obtain ⟨b₁, hstep, hb₁⟩ := step done x xs b rfl hb
    rw [List.append_cons] at step
    obtain ⟨b', hrest, hb'⟩ := ih (done ++ [x]) hb₁ step
    refine ⟨b', ?_, by rwa [List.append_cons]⟩
    rw [List.foldlM_cons, bind_eq_ok]
    exact ⟨b₁, hstep, hrest⟩

/-- A checked fold that fails does so at one of its steps, after others that succeed. -/
theorem foldlM_eq_error {f : β → α → Except Fault β} {xs : List α} {b : β} {e : Fault}
    (h : xs.foldlM f b = .error e) :
    ∃ (before : List α) (x : α) (b' : β), before.foldlM f b = .ok b' ∧ f b' x = .error e := by
  induction xs generalizing b with
  | nil => cases h
  | cons x xs ih =>
    rw [List.foldlM_cons, bind_eq_error] at h
    rcases h with h | ⟨b₁, hstep, h⟩
    · exact ⟨[], x, b, rfl, h⟩
    · obtain ⟨before, y, b', hbefore, hy⟩ := ih h
      refine ⟨x :: before, y, b', ?_, hy⟩
      rw [List.foldlM_cons, bind_eq_ok]
      exact ⟨b₁, hstep, hbefore⟩

theorem exists_mapM_ok {f : α → Except Fault β} {R : α → β → Prop} {xs : List α}
    (h : ∀ x ∈ xs, ∃ y, f x = .ok y ∧ R x y) : ∃ ys, xs.mapM f = .ok ys ∧ List.Forall₂ R xs ys := by
  induction xs with
  | nil => exact ⟨[], by rw [List.mapM_nil]; rfl, .nil⟩
  | cons x xs ih =>
    obtain ⟨y, hy, hR⟩ := h x List.mem_cons_self
    obtain ⟨ys, hys, hRs⟩ := ih fun z hz => h z (List.mem_cons_of_mem x hz)
    exact ⟨y :: ys, by rw [List.mapM_cons, hy, hys]; rfl, .cons hR hRs⟩

theorem mapM_eq_map {f : α → Except Fault β} {g : α → β} {xs : List α}
    (h : ∀ x ∈ xs, f x = .ok (g x)) : xs.mapM f = .ok (xs.map g) := by
  induction xs with
  | nil => rw [List.mapM_nil]; rfl
  | cons x xs ih =>
    rw [List.forall_mem_cons] at h
    rw [List.mapM_cons, h.1, ih h.2]
    rfl

theorem forall₂_of_mapM {f : α → Except Fault β} {xs : List α} {ys : List β}
    (h : xs.mapM f = .ok ys) : List.Forall₂ (fun x y => f x = .ok y) xs ys := by
  induction xs generalizing ys with
  | nil =>
    rw [List.mapM_nil] at h
    cases h
    exact .nil
  | cons x xs ih =>
    rw [List.mapM_cons, bind_eq_ok] at h
    obtain ⟨y, hy, h⟩ := h
    obtain ⟨ys', hys, h⟩ := bind_eq_ok.1 h
    cases h
    exact .cons hy (ih hys)

theorem forall_mem_of_forall₂ {R : α → β → Prop} {P : β → Prop} {xs : List α} {ys : List β}
    (h : List.Forall₂ R xs ys) (hR : ∀ x ∈ xs, ∀ y, R x y → P y) : ∀ y ∈ ys, P y := by
  induction h with
  | nil => simp
  | cons hxy _ ih =>
    rw [List.forall_mem_cons] at hR ⊢
    exact ⟨hR.1 _ hxy, ih hR.2⟩

/-- A checked map over consecutive numbers does at each place what is done to the member there. -/
theorem mapM_range'_ok {f : Nat → Except Fault β} {g : α → β} (first : Nat) (xs : List α)
    (h : ∀ i x, xs[i]? = some x → f (first + i) = .ok (g x)) :
    (List.range' first xs.length).mapM f = .ok (xs.map g) := by
  induction xs generalizing first with
  | nil => rw [List.length_nil, List.range'_zero, List.mapM_nil]; rfl
  | cons x xs ih =>
    have hx : f first = .ok (g x) := h 0 x rfl
    have hxs : (List.range' (first + 1) xs.length).mapM f = .ok (xs.map g) := by
      apply ih (first + 1)
      intro i y hy
      rw [Nat.add_assoc, Nat.add_comm 1]
      exact h (i + 1) y hy
    rw [List.length_cons, List.range'_succ, List.mapM_cons, hx, hxs]
    rfl

end SparseTensor
