namespace Rearrange.Markup

/-- A character that may follow the opening bracket of a tag. -/
def opensTag (c : Char) : Bool :=
  ('a' ≤ c && c ≤ 'z') || c == '#' || c == '/' || c == '@'

/-- The text up to the first bracket, if that is a closing one. -/
def untilClose? : List Char → Option (List Char)
  | [] => none
  | c :: rest =>
    if c = ']' then some []
    else if c = '[' then none
    else (untilClose? rest).map (c :: ·)

/-- The inside of the tag whose opening bracket stands before a text, if there is such a tag. -/
def tag? : List Char → Option (List Char)
  | [] => none
  | c :: rest => if opensTag c then (untilClose? rest).map (c :: ·) else none

/-- A text that follows some backslashes, together with these, with its tags escaped. The
backslashes before a tag are doubled, and one more makes it plain text. -/
def escapeAfter (backslashes : Nat) : List Char → List Char
  | [] => List.replicate backslashes '\\'
  | c :: rest =>
    if c = '\\' then escapeAfter (backslashes + 1) rest
    else
      let isTag := c = '[' ∧ (tag? rest).isSome
      List.replicate (if isTag then 2 * backslashes + 1 else backslashes) '\\' ++
        c :: escapeAfter 0 rest

/-- Whether a text ends with a single backslash. -/
def endsWithOneBackslash (text : List Char) : Bool :=
  match text.reverse with
  | '\\' :: c :: _ => c != '\\'
  | ['\\'] => true
  | _ => false

/-- The text with its tags escaped. A single backslash at the end is doubled, lest it escape what
comes after. -/
def escape (text : List Char) : List Char :=
  let escaped := escapeAfter 0 text
  if endsWithOneBackslash escaped then escaped ++ ['\\'] else escaped

example : escape "a[red]\\[b]\\".toList = "a\\[red]\\\\\\[b]\\\\".toList := by decide

example : escape "[1] [ [] [a".toList = "[1] [ [] [a".toList := by decide

/-- What a console reads in a text with tags. -/
inductive Piece where
  | char (c : Char)
  | tag (inside : List Char)
deriving DecidableEq

/-- The pieces of a text that follows some backslashes, together with these. Inside a tag, which
is a piece already, the text is passed over. -/
def piecesAfter (backslashes : Nat) (insideTag : Bool) : List Char → List Piece
  | [] => List.replicate backslashes (.char '\\')
  | c :: rest =>
    if insideTag then piecesAfter 0 (c != ']') rest
    else if c = '\\' then piecesAfter (backslashes + 1) false rest
    else
      match if c = '[' then tag? rest else none with
      | none => List.replicate backslashes (.char '\\') ++ .char c :: piecesAfter 0 false rest
      | some inside =>
        List.replicate (backslashes / 2) (.char '\\') ++
          if backslashes % 2 = 0 then .tag inside :: piecesAfter 0 true rest
          else .char c :: piecesAfter 0 false rest

/-- The pieces of a text. -/
def pieces (text : List Char) : List Piece :=
  piecesAfter 0 false text

/-- The tags of a text. -/
def tags (text : List Char) : List (List Char) :=
  (pieces text).filterMap fun
    | .tag inside => some inside
    | .char _ => none

/-- The characters that a text shows. -/
def plain (text : List Char) : List Char :=
  (pieces text).filterMap fun
    | .char c => some c
    | .tag _ => none

example : tags "[red]a[/red] \\[b] \\\\[i]".toList = ["red".toList, "/red".toList, ['i']] := by
  decide

example : plain "[red]a[/red] \\[b] \\\\[i]".toList = "a [b] \\".toList := by decide

/-- Text between a tag and the tag that ends it. -/
def styled (style : String) (text : List Char) : List Char :=
  '[' :: style.toList ++ ']' :: text ++ '[' :: '/' :: style.toList ++ [']']

end Rearrange.Markup
