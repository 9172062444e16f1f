namespace Rearrange.Text

/-- The text with each carriage return, alone or before a newline, turned into a newline. -/
def unifyNewlines : List Char → List Char
  | '\r' :: '\n' :: rest => '\n' :: unifyNewlines rest
  | '\r' :: rest => '\n' :: unifyNewlines rest
  | c :: rest => c :: unifyNewlines rest
  | [] => []

/-- A character that ends a line, once newlines are unified. -/
def endsLine (c : Char) : Bool :=
  let n := c.toNat
  (0x0a ≤ n && n ≤ 0x0d) || (0x1c ≤ n && n ≤ 0x1e) || n == 0x85 || n == 0x2028 || n == 0x2029

/-- The lines of a text with unified newlines, without the characters that end them. -/
def splitLines : List Char → List (List Char)
  | [] => []
  | c :: rest =>
    if endsLine c then [] :: splitLines rest
    else
      match splitLines rest with
      | [] => [[c]]
      | line :: lines => (c :: line) :: lines

example : splitLines "a\n\nb\x0c".toList = [['a'], [], ['b']] := by decide

/-- The lines of a file, or nothing if its bytes are no UTF-8. -/
def fileLines? (bytes : ByteArray) : Option (List (List Char)) :=
  (String.fromUTF8? bytes).map fun text => splitLines (unifyNewlines text.toList)

end Rearrange.Text
