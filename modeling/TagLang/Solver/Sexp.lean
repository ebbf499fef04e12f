import TagLang.Text.Blank

/-! # S-expressions

What follows an unmatched opening parenthesis is dropped, and an unmatched closing one is skipped.
-/

namespace TagLang

inductive Sexp
  | atom (text : String)
  | list (items : List Sexp)
deriving Repr, Inhabited

namespace Sexp

inductive Mark
  | opening
  | closing
  | atom (text : String)
deriving DecidableEq, Repr, Inhabited

def isDelimiter (c : Char) : Bool := c = '(' || c = ')' || Text.isBlank c

/-- The first mark of a text that starts with the given character, and the number of further
characters that it takes. An atom that starts with a bar ends with the next one. -/
def markOf (c : Char) (cs : List Char) : Option Mark × Nat :=
  if c = '(' then (some .opening, 0)
  else if c = ')' then (some .closing, 0)
  else if Text.isBlank c then (none, 0)
  else if c = '|' then
    let inner := cs.takeWhile (· ≠ '|')
    let closed := (cs.drop inner.length).take 1
    (some (.atom (String.ofList (c :: (inner ++ closed)))), inner.length + closed.length)
  else
    let more := cs.takeWhile (!isDelimiter ·)
    (some (.atom (String.ofList (c :: more))), more.length)

def marks : List Char → List Mark
  | [] => []
  | c :: cs =>
    let (mark, more) := markOf c cs
    mark.toList ++ marks (cs.drop more)
termination_by cs => cs.length
decreasing_by
  simp only [List.length_drop, List.length_cons]
  omega

/-- The lists that are open, the innermost first, each with its latest item first. -/
structure Stack where
  top : List Sexp := []
  below : List (List Sexp) := []
deriving Repr, Inhabited

def Stack.push (s : Stack) : Mark → Stack
  | .atom text => { s with top := .atom text :: s.top }
  | .opening => ⟨[], s.top :: s.below⟩
  | .closing =>
    match s.below with
    | [] => s
    | parent :: below => ⟨.list s.top.reverse :: parent, below⟩

def Stack.items (s : Stack) : List Sexp := (s.below.getLastD s.top).reverse

def readAll (text : String) : List Sexp := ((marks text.toList).foldl Stack.push {}).items

end Sexp

end TagLang
