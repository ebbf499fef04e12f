/-! # Integers of a width -/

namespace TagLang

def twoPow (width : Nat) : Nat := Nat.pow 2 width

def leastSigned (width : Nat) : Int := -(twoPow (width - 1) : Int)

def fitsSigned (width : Nat) (n : Int) : Bool := leastSigned width ≤ n && n < twoPow (width - 1)

/-- The negation in two's complement; the least integer has none and stays as it is. -/
def negateSigned (width : Nat) (n : Int) : Int := if n = leastSigned width then n else -n

end TagLang
