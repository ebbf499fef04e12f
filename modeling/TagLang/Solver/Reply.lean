import TagLang.Solver
import TagLang.Solver.Sexp
import TagLang.Text.Reader
import TagLang.Text.Split

/-! # Replies of an external solver

The first line of a reply is the answer. Definitions of arrays and functions are skipped.
-/

namespace TagLang.Reply

/-! ## Numbers -/

def number? (base limit : Nat) (cs : List Char) : Option Nat :=
  let cs := if cs.head? = some '+' then cs.drop 1 else cs
  let n := Text.digitsValue base cs
  if !cs.isEmpty && cs.all (Text.isDigitOf base) && n < limit then some n else none

/-! ## Models -/

def atomValue? (text : String) : Option BitValue :=
  match text.toList with
  | '#' :: 'x' :: cs => do return .ofBits (.ofNat (← number? 16 (twoPow 64) cs)) (4 * cs.length)
  | '#' :: 'b' :: cs => do return .ofBits (.ofNat (← number? 2 (twoPow 64) cs)) cs.length
  | _ => if text = "true" then some (.bool true) else if text = "false" then some (.bool false) else none

def value? : Sexp → Option BitValue
  | .atom text => atomValue? text
  | .list [.atom "_", .atom v, .atom w] =>
    match v.toList with
    | 'b' :: 'v' :: cs => do
      let word ← number? 10 (twoPow 64) cs
      let width ← number? 10 (twoPow 32) w.toList
      return .ofBits (.ofNat word) width
    | _ => none
  | .list _ => none

def unquote (name : String) : String :=
  String.ofList (((name.toList.dropWhile (· = '|')).reverse.dropWhile (· = '|')).reverse)

def definition? : List Sexp → Option (String × BitValue)
  | [.atom "define-fun", .atom name, .list [], _, v] => do return (unquote name, ← value? v)
  | _ => none

mutual

def definitions : Sexp → List (String × BitValue)
  | .atom _ => []
  | .list items =>
    match definition? items with
    | some d => [d]
    | none => definitionsIn items

def definitionsIn : List Sexp → List (String × BitValue)
  | [] => []
  | e :: es => definitions e ++ definitionsIn es

end

/-- The model behind the first line. Of several definitions of one name the first counts. -/
def model? (text : String) : Option SolverModel :=
  match Text.cutFirst? '\n' text with
  | none => none
  | some (_, body) =>
    let model := Table.ofList (definitionsIn (Sexp.readAll body)).reverse
    if model.isEmpty then none else some model

/-! ## Answers -/

def result (text : String) : SolverResult :=
  let line := Text.trimChars (text.toList.takeWhile (· ≠ '\n'))
  let line := String.ofList line
  if line = "sat" then .sat
  else if line = "unsat" then .unsat
  else if line = "unknown" then .unknown "z3 returned unknown"
  else if line = "timeout" then .timeout
  else if line.startsWith "(error" then .error line
  else .error s!"unexpected z3 output: {line}"

def answer (text : String) : Answer :=
  { result := result text
    model := if (result text).isSat then model? text else none }

def solver (text : String) : Solver Id := fun q => (answer text).toQuery q

end TagLang.Reply
