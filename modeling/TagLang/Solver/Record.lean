import TagLang.Solver

/-! # Solvers that keep an account

The queries of a verification with their answers, in order. -/

namespace TagLang

abbrev SolverLog := List (Query × Answer)

def recording (answer : Nat → Query → Answer) : Solver (StateM SolverLog) := fun q => do
  let log ← get
  let a := answer log.length q
  set (log ++ [(q, a)])
  return a

def prepared (answers : List Answer) (n : Nat) (q : Query) : Answer :=
  (answers[n]?.getD (answers.getLastD ⟨.unknown "", none⟩)).toQuery q

end TagLang
