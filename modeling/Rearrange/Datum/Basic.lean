import Rearrange.Decimal.Shortest

namespace Rearrange

/-- A value of a data file. Text consists of characters, to which halves of surrogate pairs do not
belong. -/
inductive Datum where
  | null
  | bool (b : Bool)
  | integer (n : Int)
  | real (x : Float)
  | text (s : String)
  | array (items : List Datum)
  | object (fields : List (String × Datum))

namespace Datum

instance : Inhabited Datum := ⟨null⟩

/-- Whether an integer and a floating-point number have the same value. -/
def sameNumber (n : Int) (x : Float) : Bool :=
  let bits := x.toBits.toNat
  let magnitude := bits % Decimal.signBit
  if Decimal.infinityBits ≤ magnitude then false
  else
    let b := Decimal.Binary.ofBits magnitude
    n.natAbs * Nat.pow 2 (-b.exponent).toNat == b.significand * Nat.pow 2 b.exponent.toNat &&
      (n == 0 || (n < 0) == (Decimal.signBit ≤ bits : Bool))

/-- The whole number that a truth value counts as. -/
def ofBit (b : Bool) : Int :=
  if b then 1 else 0

mutual
/-- Whether two data are the same. Truth values count as the numbers one and zero, numbers are
compared by value, and the order of fields does not matter. -/
def same : Datum → Datum → Bool
  | null, null => true
  | bool a, bool b => a == b
  | bool a, integer n => ofBit a == n
  | integer n, bool b => n == ofBit b
  | integer m, integer n => m == n
  | bool a, real x => sameNumber (ofBit a) x
  | real x, bool b => sameNumber (ofBit b) x
  | integer n, real x => sameNumber n x
  | real x, integer n => sameNumber n x
  | real x, real y => x == y
  | text s, text t => s == t
  | array as, array bs => sameItems as bs
  | object fs, object gs => fs.length == gs.length && sameFields fs gs
  | _, _ => false

/-- Whether two lists hold the same data in the same order. -/
def sameItems : List Datum → List Datum → Bool
  | [], [] => true
  | a :: as, b :: bs => a.same b && sameItems as bs
  | _, _ => false

/-- Whether each field of the first object has a field of the same name and datum in the second. -/
def sameFields : List (String × Datum) → List (String × Datum) → Bool
  | [], _ => true
  | (k, v) :: fs, gs =>
    (match gs.lookup k with
      | some w => v.same w
      | none => false) && sameFields fs gs
end

/-- The field of an object with a given name. -/
def field? (name : String) : Datum → Option Datum
  | object fields => fields.lookup name
  | _ => none

/-- Numbers are positional from a ten-thousandth up to seventeen digits before the point, and have
an exponent of at least two digits beyond. -/
def realLayout : Decimal.Layout := ⟨-3, 16, 2⟩

end Datum

/-- What a display puts on a node to find it again. -/
abbrev Handle := Datum

end Rearrange
