namespace Rearrange.Text

/-- A character that separates and means nothing else. -/
def isBlank (c : Char) : Bool :=
  let n := c.toNat
  (0x09 ≤ n && n ≤ 0x0d) || (0x1c ≤ n && n ≤ 0x20) || n == 0x85 || n == 0xa0 || n == 0x1680 ||
    (0x2000 ≤ n && n ≤ 0x200a) || n == 0x2028 || n == 0x2029 || n == 0x202f || n == 0x205f ||
    n == 0x3000

/-- The text without any of its blanks. -/
def squeeze (text : List Char) : List Char :=
  text.filter (!isBlank ·)

/-- The text without the characters at either end that satisfy the predicate. -/
def trim (p : Char → Bool) (text : List Char) : List Char :=
  ((text.dropWhile p).reverse.dropWhile p).reverse

/-- The text without the blanks at its ends. -/
def strip (text : List Char) : List Char :=
  trim isBlank text

end Rearrange.Text
