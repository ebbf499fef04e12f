/-! # Readers -/

namespace TagLang.Text

abbrev Reader (α : Type) := List Char → Option (α × List Char)

def digitValue? (c : Char) : Option Nat :=
  if '0' ≤ c && c ≤ '9' then some (c.toNat - '0'.toNat)
  else if 'a' ≤ c && c ≤ 'f' then some (c.toNat - 'a'.toNat + 10)
  else if 'A' ≤ c && c ≤ 'F' then some (c.toNat - 'A'.toNat + 10)
  else none

def isDigitOf (base : Nat) (c : Char) : Bool := (digitValue? c).any (· < base)

def digitsValue (base : Nat) (digits : List Char) : Nat :=
  digits.foldl (fun n c => n * base + (digitValue? c).getD 0) 0

def digits : Reader (List Char) := fun cs =>
  match cs.span Char.isDigit with
  | ([], _) => none
  | found => some found

def digitsOf (base count : Nat) : Reader Nat := fun cs =>
  let found := cs.take count
  if found.length = count && found.all (isDigitOf base) then some (digitsValue base found, cs.drop count)
  else none

def word {α : Type} (text : String) (value : α) : Reader α := fun cs =>
  if text.toList.isPrefixOf cs then some (value, cs.drop text.length) else none

def charOfNat? (n : Nat) : Option Char := if h : n.isValidChar then some (Char.ofNatAux n h) else none

end TagLang.Text
