/-! # Cutting texts at a separator -/

namespace TagLang.Text

/-- The pieces between the separators; there is one piece more than separators. -/
def splitChars (sep : Char) : List Char → List (List Char)
  | [] => [[]]
  | c :: cs =>
    if c = sep then [] :: splitChars sep cs
    else match splitChars sep cs with
      | [] => [[c]]
      | piece :: pieces => (c :: piece) :: pieces

def split (sep : Char) (s : String) : List String := (splitChars sep s.toList).map String.ofList

def cutLast? (sep : Char) (s : String) : Option (String × String) :=
  match (splitChars sep s.toList).reverse with
  | last :: piece :: pieces =>
    some (String.ofList ([sep].intercalate (piece :: pieces).reverse), String.ofList last)
  | _ => none

def cutFirst? (sep : Char) (s : String) : Option (String × String) :=
  match s.toList.span (· ≠ sep) with
  | (_, []) => none
  | (before, _ :: behind) => some (String.ofList before, String.ofList behind)

end TagLang.Text
