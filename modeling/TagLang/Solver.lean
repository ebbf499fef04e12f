import TagLang.Logic.Eval
import TagLang.Table

/-! # Solvers

A solver answers in a monad of its own, so that it may keep an account of the queries.
-/

namespace TagLang

inductive SolverResult
  | sat
  | unsat
  | unknown (reason : String)
  | timeout
  | error (text : String)
deriving DecidableEq, Repr, Inhabited

namespace SolverResult

def render : SolverResult → String
  | .sat => "sat"
  | .unsat => "unsat"
  | .unknown reason => s!"unknown ({reason})"
  | .timeout => "timeout"
  | .error text => s!"error: {text}"

def isSat (r : SolverResult) : Bool := r = .sat

def isUnsat (r : SolverResult) : Bool := r = .unsat

end SolverResult

abbrev SolverModel := Table BitValue

structure Answer where
  result : SolverResult
  model : Option SolverModel := none
deriving Repr, Inhabited

structure Query where
  assertions : List Formula
  wantsModel : Bool
deriving Repr, Inhabited

abbrev Solver (m : Type → Type) := Query → m Answer

def Answer.toQuery (a : Answer) (q : Query) : Answer :=
  if q.wantsModel then a else { a with model := none }

inductive SolverChoice
  | auto
  | z3
  | builtin
deriving DecidableEq, Repr, Inhabited

namespace SolverChoice

def label : SolverChoice → String
  | .auto => "auto"
  | .z3 => "z3"
  | .builtin => "builtin"

def ofLabel? (s : String) : Option SolverChoice := [auto, z3, builtin].find? (·.label = s)

end SolverChoice

end TagLang
