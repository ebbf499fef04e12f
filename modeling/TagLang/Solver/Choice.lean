import TagLang.Solver.Reply
import TagLang.Solver.Search

/-! # The choice of a solver -/

namespace TagLang

def availableSolvers (reply : Option String) : List String :=
  if reply.isSome then ["builtin", "z3"] else ["builtin"]

namespace SolverChoice

def external? (choice : SolverChoice) (reply : Option String) : Option String :=
  if choice = .builtin then none else reply

def picked (choice : SolverChoice) (reply : Option String) : String :=
  if (choice.external? reply).isSome then "z3" else "builtin"

def solver (choice : SolverChoice) (reply : Option String) : Solver Id :=
  match choice.external? reply with
  | some text => Reply.solver text
  | none => Search.solver Search.defaultBudget

end SolverChoice

end TagLang
