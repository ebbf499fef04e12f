import TagLang.Text.LowerCase

/-! # Edit distance and similar names -/

namespace TagLang

namespace EditDistance

/-- The entries of a row behind `left`: `above` holds the entries of the row before, from the one
over `left` on. -/
def rowFrom (c : Char) (left : Nat) : List Char → List Nat → List Nat
  | b :: bs, diag :: above :: rest =>
    let entry := min (min (above + 1) (left + 1)) (diag + if c = b then 0 else 1)
    entry :: rowFrom c entry bs (above :: rest)
  | _, _ => []

def nextRow (bs : List Char) (row : List Nat) (c : Char) : List Nat :=
  match row with
  | [] => []
  | first :: rest => (first + 1) :: rowFrom c (first + 1) bs (first :: rest)

def firstRow (bs : List Char) : List Nat := List.range (bs.length + 1)

end EditDistance

def editDistance (a b : String) : Nat :=
  let bs := b.toList
  (a.toList.foldl (EditDistance.nextRow bs) (EditDistance.firstRow bs)).getLastD 0

def sameButCase? (name : String) (candidates : List String) : Option String :=
  candidates.find? fun c => Text.toLower c = Text.toLower name && c ≠ name

def nearest? (name : String) (limit : Nat) (candidates : List String) : Option String :=
  let near := candidates.filterMap fun c =>
    let d := editDistance name c
    if c ≠ name && 0 < d && d ≤ limit then some (d, c) else none
  near.foldl (fun best? (d, c) =>
    match best? with
    | some (b, _) => if d < b then some (d, c) else best?
    | none => some (d, c)) none |>.map (·.2)

/-- The name that a misspelled one most likely means. A difference in case alone wins; otherwise
longer names may differ in more places. -/
def similarName? (name : String) (candidates : List String) : Option String :=
  match sameButCase? name candidates with
  | some c => some c
  | none =>
    let limit := if name.length ≤ 2 then 1 else if name.length ≤ 5 then 2 else 3
    nearest? name limit candidates

end TagLang
