import SparseTensor.Notation.Stmt

/-!
# Comparing trees that share parts

A tree may hold one part many times over: twenty sums of an expression with itself make a million
leaves out of one. Two such trees mostly have their parts in common. So `isAlike` looks first, at
every step down, whether both are one and the same object, and walks only those that are not.

**Theorem (`isAlike_eq`).** `isAlike` answers what `alike` answers. Looking at objects cannot change
the answer, because a tree is alike to itself; each comparison below carries this with it.
-/

namespace SparseTensor

/-- What `walk` answers, which is not asked if `a` and `b` are one object. -/
@[inline] def unlessShared {α : Type} {like : α → α → Bool} (refl : ∀ a, like a a = true) (a b : α)
    (walk : Unit → { r : Bool // r = like a b }) : { r : Bool // r = like a b } :=
  ⟨withPtrEq a b (fun _ => (walk ()).1) fun h => by rw [(walk ()).2, h, refl], (walk ()).2⟩

namespace Expr

/-- The answer of `alike`, found without walking what the two have in common. -/
def comparison (a b : Expr) : { r : Bool // r = a.alike b } :=
  unlessShared alike_refl a b fun _ =>
    match a, b with
    | unary _ f a, unary _ g b =>
      ⟨decide (f = g) && (comparison a b).1, by rw [(comparison a b).2, alike]⟩
    | binary _ f a b, binary _ g c d =>
      ⟨decide (f = g) && (comparison a c).1 && (comparison b d).1, by
        rw [(comparison a c).2, (comparison b d).2, alike]⟩
    | reduction _ r i a, reduction _ s j b =>
      ⟨decide (r = s) && decide (i = j) && (comparison a b).1, by rw [(comparison a b).2, alike]⟩
    | a, b => ⟨a.alike b, rfl⟩

/-- Whether both are the same tree up to the identities of nodes, told by `comparison`. -/
def isAlike (a b : Expr) : Bool := (comparison a b).1

@[simp] theorem isAlike_eq (a b : Expr) : a.isAlike b = a.alike b := (comparison a b).2

end Expr

namespace Stmt

mutual

/-- The answer of `alike`, found without walking what the two have in common. -/
def comparison (s t : Stmt) : { r : Bool // r = s.alike t } :=
  unlessShared alike_refl s t fun _ =>
    match s, t with
    | assign _ x v f, assign _ y w g =>
      ⟨x.alike y && decide (f = g) && v.isAlike w, by
        rw [Expr.isAlike_eq, alike, Bool.and_right_comm]⟩
    | forAll _ i s, forAll _ j t =>
      ⟨decide (i = j) && (comparison s t).1, by rw [(comparison s t).2, alike]⟩
    | staged _ c p, staged _ d q =>
      ⟨(comparison c d).1 && (comparison p q).1, by
        rw [(comparison c d).2, (comparison p q).2, alike]⟩
    | group _ g ss, group _ h ts =>
      ⟨decide (g = h) && (comparisons ss ts).1, by rw [(comparisons ss ts).2, alike]⟩
    | s, t => ⟨s.alike t, rfl⟩

/-- The answer of `allAlike`, found without walking what the members have in common. -/
def comparisons (ss ts : List Stmt) : { r : Bool // r = allAlike ss ts } :=
  match ss, ts with
  | s :: ss, t :: ts =>
    ⟨(comparison s t).1 && (comparisons ss ts).1, by
      rw [(comparison s t).2, (comparisons ss ts).2, allAlike]⟩
  | ss, ts => ⟨allAlike ss ts, rfl⟩

end

/-- Whether both are the same tree up to the identities of nodes, told by `comparison`. -/
def isAlike (s t : Stmt) : Bool := (comparison s t).1

@[simp] theorem isAlike_eq (s t : Stmt) : s.isAlike t = s.alike t := (comparison s t).2

end Stmt

end SparseTensor
