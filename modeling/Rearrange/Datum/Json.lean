import Rearrange.Datum.Basic
import Rearrange.Text.Quoted

namespace Rearrange.Datum

/-- The escape of a UTF-16 unit. -/
def unitEscape (unit : Nat) : List Char :=
  '\\' :: 'u' :: Text.hexDigits 4 unit

/-- A character inside a JSON string. -/
def jsonChar (c : Char) : List Char :=
  let n := c.toNat
  if c = '"' ∨ c = '\\' then ['\\', c]
  else if 0x20 ≤ n ∧ n < 0x7f then [c]
  else if c = '\n' then ['\\', 'n']
  else if c = '\r' then ['\\', 'r']
  else if c = '\t' then ['\\', 't']
  else if n = 0x08 then ['\\', 'b']
  else if n = 0x0c then ['\\', 'f']
  else if n < 0x10000 then unitEscape n
  else unitEscape (0xd800 + (n - 0x10000) / 0x400) ++ unitEscape (0xdc00 + (n - 0x10000) % 0x400)

/-- Text as a JSON string. -/
def jsonText (s : String) : String :=
  "\"" ++ String.ofList (s.toList.flatMap jsonChar) ++ "\""

/-- The lines of a bracketed list, each item indented by the given number of blanks. -/
def bracketed (opening closing : String) (indent : Nat) (items : List String) : String :=
  if items.isEmpty then opening ++ closing
  else
    let margin := "\n" ++ String.ofList (List.replicate indent ' ')
    opening ++ margin ++ "  " ++ (("," ++ margin ++ "  ").intercalate items) ++ margin ++ closing

mutual
/-- A datum on one line. -/
def compact : Datum → String
  | null => "null"
  | bool b => if b then "true" else "false"
  | integer n => toString n
  | real x => String.ofList (realLayout.writeFloat x)
  | text s => jsonText s
  | array items => "[" ++ ",".intercalate (compactItems items) ++ "]"
  | object fields => "\x7b" ++ ",".intercalate (compactFields fields) ++ "\x7d"

/-- Each of several data on one line. -/
def compactItems : List Datum → List String
  | [] => []
  | d :: ds => d.compact :: compactItems ds

/-- Each of several fields on one line. -/
def compactFields : List (String × Datum) → List String
  | [] => []
  | (k, v) :: fields => (jsonText k ++ ":" ++ v.compact) :: compactFields fields
end

mutual
/-- A datum with each item and field on a line of its own, set in by two blanks. The first line is
not set in; those below it start at the given column. -/
def pretty (indent : Nat) : Datum → String
  | array items => bracketed "[" "]" indent (prettyItems (indent + 2) items)
  | object fields => bracketed "\x7b" "\x7d" indent (prettyFields (indent + 2) fields)
  | d => d.compact

/-- Each of several data with items and fields on lines of their own. -/
def prettyItems (indent : Nat) : List Datum → List String
  | [] => []
  | d :: ds => d.pretty indent :: prettyItems indent ds

/-- Each of several fields with items and fields on lines of their own. -/
def prettyFields (indent : Nat) : List (String × Datum) → List String
  | [] => []
  | (k, v) :: fields => (jsonText k ++ ": " ++ v.pretty indent) :: prettyFields indent fields
end

end Rearrange.Datum
