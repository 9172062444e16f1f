import Rearrange.Text.Blank

namespace Rearrange.Text

/-- The zeros of the decimal digits of Unicode 14; the nine digits after each follow it. -/
def digitZeros : Array Nat := #[
  48, 1632, 1776, 1984, 2406, 2534, 2662, 2790, 2918, 3046, 3174, 3302, 3430, 3558, 3664, 3792,
  3872, 4160, 4240, 6112, 6160, 6470, 6608, 6784, 6800, 6992, 7088, 7232, 7248, 42528, 43216,
  43264, 43472, 43504, 43600, 44016, 65296, 66720, 68912, 69734, 69872, 69942, 70096, 70384,
  70736, 70864, 71248, 71360, 71472, 71904, 72016, 72784, 73040, 73120, 92768, 92864, 93008,
  120782, 120792, 120802, 120812, 120822, 123200, 123632, 125264, 130032]

/-- The value of a decimal digit of any script. -/
def digit? (c : Char) : Option Nat :=
  (digitZeros.find? fun z => z ≤ c.toNat && c.toNat < z + 10).map (c.toNat - ·)

/-- White space around a numeral: all blanks but the information separators. -/
def isNumeralSpace (c : Char) : Bool :=
  isBlank c && !(0x1c ≤ c.toNat && c.toNat ≤ 0x1f)

/-- Reads the digits after a digit, given the value so far. -/
def digitsFrom? (value : Nat) : List Char → Option Nat
  | [] => some value
  | c :: rest =>
    match digit? c with
    | some d => digitsFrom? (10 * value + d) rest
    | none =>
      if c = '_' then
        match rest with
        | [] => none
        | c' :: rest' =>
          match digit? c' with
          | some d => digitsFrom? (10 * value + d) rest'
          | none => none
      else none

/-- Reads a numeral without a sign. -/
def natural? : List Char → Option Nat
  | [] => none
  | c :: rest =>
    match digit? c with
    | some d => digitsFrom? d rest
    | none => none

/-- Reads an integer, which may have any number of digits. -/
def integer? (text : List Char) : Option Int :=
  match trim isNumeralSpace text with
  | '-' :: rest => (natural? rest).map fun n => -(n : Int)
  | '+' :: rest => (natural? rest).map Int.ofNat
  | rest => (natural? rest).map Int.ofNat

example : integer? " -1_0 ".toList = some (-10) := by decide +kernel

example : integer? "1__0".toList = none := by decide +kernel

end Rearrange.Text
