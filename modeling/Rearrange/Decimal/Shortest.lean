namespace Rearrange.Decimal

/-- A positive binary number: a whole number times a power of two. The reals that round to it reach
down by the given number of eighths of that power, and up by four eighths. -/
structure Binary where
  significand : Nat
  exponent : Int
  reach : Nat

/-- The bit above those of the fraction, which is set in the whole number but not written. -/
def hiddenBit : Nat := 0x10000000000000

/-- The bits of infinity. Those of a magnitude that is no number are more. -/
def infinityBits : Nat := 0x7ff0000000000000

/-- The bit that is set in a negative number. -/
def signBit : Nat := 0x8000000000000000

/-- The magnitude of a finite number by its bits. -/
def Binary.ofBits (bits : Nat) : Binary :=
  let fraction := bits % hiddenBit
  let biased : Nat := bits / hiddenBit % 0x800
  if biased = 0 then ⟨fraction, -1074, 4⟩
  else ⟨hiddenBit + fraction, (biased : Int) - 1075, if fraction = 0 ∧ 1 < biased then 2 else 4⟩

/-- A decimal number: zero point the digits, times a power of ten. -/
structure Digits where
  digits : List Nat
  point : Int
deriving DecidableEq, Repr

/-- The decimal digits of a number, the most significant first. -/
def digitsOf (n : Nat) : List Nat :=
  (Nat.toDigits 10 n).map (·.toNat - 48)

namespace Binary

/-- The number as a fraction, in units of the given power of ten. -/
def ratio (b : Binary) (unit : Int) : Nat × Nat :=
  (b.significand * Nat.pow 2 b.exponent.toNat * Nat.pow 10 (-unit).toNat,
    Nat.pow 2 (-b.exponent).toNat * Nat.pow 10 unit.toNat)

/-- The power of ten that is the least one above the number. -/
def pointOf (b : Binary) : Int :=
  let (num, den) := b.ratio 0
  if den ≤ num then (digitsOf (num / den)).length
  else
    let shift := (List.range 400).find? fun k => den ≤ num * Nat.pow 10 k
    1 - (shift.getD 0 : Int)

/-- Whether a whole number of units rounds to the number. -/
def admits (b : Binary) (unit : Int) (n : Nat) : Bool :=
  let scaled := Nat.pow 2 b.exponent.toNat * Nat.pow 10 (-unit).toNat
  let value := 8 * n * (Nat.pow 2 (-b.exponent).toNat * Nat.pow 10 unit.toNat)
  let low := (8 * b.significand - b.reach) * scaled
  let high := (8 * b.significand + 4) * scaled
  if b.significand % 2 = 0 then low ≤ value && value ≤ high else low < value && value < high

/-- The nearest number of units that rounds to the number, if either of the two around it does. Of
two at the same distance the even one counts as nearest. -/
def nearest? (b : Binary) (unit : Int) : Option Nat :=
  let (num, den) := b.ratio unit
  let below := num / den
  let above := below + 1
  match b.admits unit below, b.admits unit above with
  | true, false => some below
  | false, true => some above
  | false, false => none
  | true, true =>
    let twice := 2 * (num % den)
    some (if twice < den then below
      else if den < twice then above
      else if below % 2 = 0 then below
      else above)

/-- The shortest decimal that rounds to the number. -/
def shortest (b : Binary) : Digits :=
  let point := b.pointOf
  let found := (List.range 17).findSome? fun (k : Nat) =>
    (b.nearest? (point - (k + 1 : Nat))).map fun n => (k + 1, digitsOf n)
  match found with
  | some (count, digits) =>
    let kept := (digits.reverse.dropWhile (· == 0)).reverse
    ⟨kept, point + (digits.length - count : Int)⟩
  | none => ⟨[], point⟩

end Binary

/-- How a number is written: positional while the power of ten lies within the bounds, and with an
exponent of at least the given number of digits otherwise. A number written without an exponent
keeps one place after the point. -/
structure Layout where
  leastPoint : Int
  greatestPoint : Int
  exponentDigits : Nat

/-- The digits as text. -/
def digitText (digits : List Nat) : List Char :=
  digits.map Nat.digitChar

/-- A whole number with leading zeros up to a width. -/
def padded (width n : Nat) : List Char :=
  let text := Nat.toDigits 10 n
  List.replicate (width - text.length) '0' ++ text

/-- The text of a decimal. -/
def Layout.write (layout : Layout) (d : Digits) : List Char :=
  if layout.leastPoint ≤ d.point ∧ d.point ≤ layout.greatestPoint then
    if d.point ≤ 0 then
      "0.".toList ++ List.replicate (-d.point).toNat '0' ++ digitText d.digits
    else
      let whole := d.point.toNat
      let before := d.digits.take whole
      let after := d.digits.drop whole
      digitText before ++ List.replicate (whole - before.length) '0' ++ ['.'] ++
        (if after.isEmpty then ['0'] else digitText after)
  else
    let exponent := d.point - 1
    let sign := if exponent < 0 then '-' else '+'
    digitText (d.digits.take 1) ++
      (if d.digits.length ≤ 1 then [] else '.' :: digitText (d.digits.drop 1)) ++
      ['e', sign] ++ padded layout.exponentDigits exponent.natAbs

/-- The text of a floating-point number. -/
def Layout.writeFloat (layout : Layout) (x : Float) : List Char :=
  let bits := x.toBits.toNat
  let magnitude := bits % signBit
  if infinityBits < magnitude then "nan".toList
  else
    let body :=
      if magnitude = infinityBits then "inf".toList
      else if magnitude = 0 then "0.0".toList
      else layout.write (Binary.ofBits magnitude).shortest
    if signBit ≤ bits then '-' :: body else body

end Rearrange.Decimal
