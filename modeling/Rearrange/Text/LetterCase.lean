import Rearrange.Text.LetterCase.Table

namespace Rearrange.Text

open LetterCase

/-- The counterpart of a letter under the runs of a table, or the letter itself. -/
def mapped (runs : Array Run) (c : Char) : Char :=
  match runs.findSome? (·.image? c.toNat) with
  | some n => Char.ofNat n
  | none => c

/-- The upper-case form of a character. -/
def upperChar (c : Char) : List Char :=
  match upperSequences.find? (·.1 == c.toNat) with
  | some (_, codes) => codes.map Char.ofNat
  | none => [mapped upperRuns c]

/-- The upper-case form of a text. -/
def upper (text : List Char) : List Char :=
  text.flatMap upperChar

/-- Whether the nearest character that the search does not pass over is a letter with case. -/
def meetsLetter (text : List Char) : Bool :=
  match text.dropWhile (within ignorableBoundaries) with
  | [] => false
  | c :: _ => within casedBoundaries c

/-- The lower-case form of a character, given the text before it, nearest first, and after it. -/
def lowerChar (before : List Char) (c : Char) (after : List Char) : List Char :=
  if c = 'Σ' then
    [if meetsLetter before && !meetsLetter after then 'ς' else 'σ']
  else if c = 'İ' then ['i', '\u0307']
  else [mapped lowerRuns c]

/-- The lower-case form of what follows the given text, whose nearest character comes first. -/
def lowerAfter (before : List Char) : List Char → List Char
  | [] => []
  | c :: rest => lowerChar before c rest ++ lowerAfter (c :: before) rest

/-- The lower-case form of a text. -/
def lower (text : List Char) : List Char :=
  lowerAfter [] text

end Rearrange.Text
