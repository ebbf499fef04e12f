/-! # Ranges of code points

A character class is given as a list of closed ranges of code points. The large tables are written
as gaps: how far behind the range before it a range begins, and how many code points it has.
-/

namespace TagLang.Text

abbrev Ranges := List (Nat × Nat)

def Ranges.ofGaps (start : Nat) : List Nat → Ranges
  | gap :: size :: more => (start + gap, start + gap + size - 1) :: ofGaps (start + gap + size) more
  | _ => []

def Ranges.holds (rs : Ranges) (c : Char) : Bool :=
  rs.any fun r => r.1 ≤ c.toNat && c.toNat ≤ r.2

end TagLang.Text
