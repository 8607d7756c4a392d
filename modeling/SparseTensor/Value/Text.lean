import SparseTensor.Decimal.Shortest
import SparseTensor.Value

/-!
# Texts of component values

Integers are written in decimal. A floating point number is written with the fewest digits that
read back to it, without an exponent and without a fraction when it is whole. A complex number is
written as both parts with a sign between them and a final `i`.
-/

namespace SparseTensor

namespace Precision

/-- Bits of the fraction field. -/
def fractionBits : Precision → Nat
  | single => 23
  | double => 52

/-- The bit above the fraction, which normal numbers leave out. -/
def leadingBit (p : Precision) : Nat := Nat.pow 2 p.fractionBits

/-- Exponent of the least significant bit of a subnormal number. -/
def leastExponent : Precision → Int
  | single => -149
  | double => -1074

/-- The value of the exponent field of infinities and NaNs. -/
def specialField : Precision → Nat
  | single => 255
  | double => 2047

end Precision

/-- What the bits of a floating point number stand for. -/
inductive FloatDatum where
  | nan
  | infinite (negative : Bool)
  /-- The number `significand * 2 ^ exponent`, negated if `negative`. -/
  | finite (negative : Bool) (significand : Nat) (exponent : Int)

namespace FloatDatum

def ofBits {p : Precision} (x : BitVec p.bits) : FloatDatum :=
  let fraction := x.toNat % p.leadingBit
  let field := x.toNat / p.leadingBit % (p.specialField + 1)
  let negative := x.msb
  if field = p.specialField then
    if fraction = 0 then infinite negative else nan
  else if field = 0 then finite negative fraction p.leastExponent
  else finite negative (p.leadingBit + fraction) (p.leastExponent + (field - 1 : Nat))

/-- Whether the number is less than zero. Neither a zero nor a NaN is. -/
def isNegative : FloatDatum → Bool
  | nan => false
  | infinite negative => negative
  | finite negative m _ => negative && m != 0

/-- The reals that round to `m * 2 ^ e` in precision `p`. The gap below the least significand of a
binade is half as wide as the gap above it. -/
def around (p : Precision) (m : Nat) (e : Int) : Decimal.Around :=
  let below := if m = p.leadingBit ∧ p.leastExponent < e then 1 else 2
  let scale := Nat.pow 2 (e - 2).toNat
  { low := (4 * m - below) * scale, value := 4 * m * scale, high := (4 * m + 2) * scale,
    den := Nat.pow 2 (2 - e).toNat, closed := m % 2 == 0 }

/-- The text of a number that is not negative. -/
def magnitudeText (p : Precision) : FloatDatum → String
  | nan => "NaN"
  | infinite _ => "inf"
  | finite _ 0 _ => "0"
  | finite _ m e => let (n, k) := (around p m e).shortest; Decimal.positional n k

/-- A sign is written for a negative zero too, and never for a NaN. -/
def text (p : Precision) (x : FloatDatum) : String :=
  match x with
  | nan => "NaN"
  | infinite true | finite true _ _ => "-" ++ x.magnitudeText p
  | infinite false | finite false _ _ => x.magnitudeText p

/-- The number with its sign dropped if it is less than zero. A negative zero keeps its sign. -/
def absText (p : Precision) (x : FloatDatum) : String :=
  if x.isNegative then x.magnitudeText p else x.text p

/-- A complex number with real part `re` and imaginary part `im`. -/
def complexText (p : Precision) (re im : FloatDatum) : String :=
  (if re.isNegative then "-" else "") ++ re.absText p ++ (if im.isNegative then "-" else "+")
    ++ im.absText p ++ "i"

end FloatDatum

def Value.text : Value → String
  | bool b => if b then "true" else "false"
  | uint _ n => s!"{n.toNat}"
  | int _ n => s!"{n.toInt}"
  | float p x => (FloatDatum.ofBits x).text p
  | complex p re im => FloatDatum.complexText p (.ofBits re) (.ofBits im)

end SparseTensor
