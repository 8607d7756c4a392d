/-!
# Shortest decimals

A binary number stands for every real that rounds to it. Among those reals the ones with the
fewest decimal digits are looked for on coarser and finer grids of the multiples of a power of
ten: the first grid with a point among the reals wins. At most two of its points matter, the
neighbours of the value itself; of two, the nearer is taken, and the greater if both are equally
near.

All comparisons are between natural numbers over one denominator, so nothing is rounded.
-/

namespace SparseTensor.Decimal

/-- The reals around a positive value, as numerators over one denominator. The ends belong to
them or not. -/
structure Around where
  low : Nat
  value : Nat
  high : Nat
  den : Nat
  closed : Bool

namespace Around

/-- The same reals in units of `10 ^ k`. -/
def inUnits (r : Around) : Int → Around
  | .ofNat k => { r with den := r.den * Nat.pow 10 k }
  | .negSucc k =>
    let scale := Nat.pow 10 (k + 1)
    { r with low := r.low * scale, value := r.value * scale, high := r.high * scale }

/-- Whether the natural number `n` is one of the reals. -/
def contains (r : Around) (n : Nat) : Bool :=
  if r.closed then decide (r.low ≤ n * r.den) && decide (n * r.den ≤ r.high)
  else decide (r.low < n * r.den) && decide (n * r.den < r.high)

/-- The natural number closest to the value, if a neighbour of the value is among the reals. -/
def natural? (r : Around) : Option Nat :=
  let below := r.value / r.den
  let above := below + 1
  match r.contains below, r.contains above with
  | true, true =>
    if r.value - below * r.den < above * r.den - r.value then some below else some above
  | true, false => some below
  | false, true => some above
  | false, false => none

/-- Decimal digits before the point. -/
def integerDigits (n : Nat) : Nat := if n = 0 then 0 else (Nat.toDigits 10 n).length

/-- The exponent of the power of ten above the leading digit of the value. -/
def magnitude (r : Around) : Int :=
  if r.den ≤ r.value then integerDigits (r.value / r.den)
  else 1 - (integerDigits ((r.den - 1) / r.value) : Int)

/-- The first hit on the grids from `10 ^ k` downwards. -/
def search (r : Around) : (grids : Nat) → (k : Int) → Nat × Int
  | 0, k => ((r.inUnits k).value / (r.inUnits k).den, k)
  | grids + 1, k =>
    match (r.inUnits k).natural? with
    | some n => (n, k)
    | none => r.search grids (k - 1)

/-- The shortest decimal `n * 10 ^ k` among the reals. Seventeen digits tell any two numbers of
double precision apart. -/
def shortest (r : Around) : Nat × Int := r.search 18 r.magnitude

end Around

/-- The decimal `n * 10 ^ k` without an exponent. -/
def positional (n : Nat) : Int → String
  | .ofNat k => s!"{n}" ++ String.ofList (List.replicate k '0')
  | .negSucc k =>
    let places := k + 1
    let digits := Nat.toDigits 10 n
    let padded := List.replicate (places + 1 - digits.length) '0' ++ digits
    let whole := padded.take (padded.length - places)
    let fraction := padded.drop (padded.length - places)
    String.ofList whole ++ "." ++ String.ofList fraction

end SparseTensor.Decimal
