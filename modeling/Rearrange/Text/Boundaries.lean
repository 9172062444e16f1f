namespace Rearrange.Text

/-- The property holds for a character when an odd number of boundaries lies at or below it. -/
def within (boundaries : Array Nat) (c : Char) : Bool :=
  (boundaries.findIdx? (c.toNat < ·)).getD boundaries.size % 2 == 1

end Rearrange.Text
