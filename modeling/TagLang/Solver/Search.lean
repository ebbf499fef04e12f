import TagLang.Solver

/-! # Search for a model

Combinations of values are tried one after the other, within a budget of evaluations. That there is
no model is taken as known if the budget is no less than the number of combinations of all values,
which is counted in 64 bits.
-/

namespace TagLang.Search

def defaultBudget : UInt64 := 1048576

/-- The product, or the largest number of 64 bits if the product is larger. -/
def saturatingMul (m n : Nat) : Nat := min (m * n) (UInt64.size - 1)

def neighbours (width : Nat) (constants : List Int) : List UInt64 :=
  constants.flatMap fun c => [c - 1, c, c + 1].map (Bits.ofInt · &&& Bits.mask width)

def candidates (constants : List Int) (sort : VarSort) : List BitValue × Bool :=
  match sort.domain? with
  | some values => (values, true)
  | none =>
    let width := sort.width?.getD 64
    let words := (Bits.boundary width ++ neighbours width constants).eraseDups
    (words.map (BitValue.ofBits · width), false)

/-- Where a search stands: over with an answer, or on with the evaluations that are left. -/
inductive Progress
  | found (env : Assignment)
  | failed (e : EvalError)
  | running (left : Nat) (undecided : Bool)
deriving Repr, Inhabited

def tryOne (f : Formula) (env : Assignment) (left : Nat) (undecided : Bool) : Progress :=
  match (f.eval env).bind BitValue.asBool with
  | .ok true => .found env
  | .ok false => .running (left - 1) undecided
  | .error .undecided => .running (left - 1) true
  | .error e => .failed e

def tryEach (step : BitValue → Nat → Bool → Progress) (left : Nat) (undecided : Bool) :
    List BitValue → Progress
  | [] => .running left undecided
  | v :: vs =>
    if left = 0 then .running 0 undecided
    else match step v left undecided with
      | .running left undecided => tryEach step left undecided vs
      | done => done

def tryAll (f : Formula) : List (String × List BitValue) → Assignment → Nat → Bool → Progress
  | [], env, left, undecided => tryOne f env left undecided
  | (name, values) :: rest, env, left, undecided =>
    tryEach (fun v left undecided => tryAll f rest ((name, v) :: env) left undecided)
      left undecided values

/-- Answers whether the assertions can hold together, after at most `budget` evaluations and at
least one. -/
def solve (budget : UInt64) (assertions : List Formula) : Answer :=
  let f := Formula.conjunction assertions
  let vars := f.freeVars
  if f.hasArray || vars.any (·.2.isArray) then
    { result := .unknown "arrays are not supported by the builtin solver" }
  else
    let budget := max budget.toNat 1
    let constants := f.constants
    let domains := vars.map fun (name, sort) => (name, candidates constants sort)
    let space := domains.foldl (fun n (_, values, _) => saturatingMul n values.length) 1
    let complete := domains.all (fun (_, _, full) => full) && space ≤ budget
    match tryAll f (domains.map fun (name, values, _) => (name, values)) [] budget false with
    | .found env => { result := .sat, model := some (.ofList env) }
    | .failed e => { result := .error e.message }
    | .running _ undecided =>
      if complete && !undecided then { result := .unsat }
      else { result := .unknown "no model within the search bound" }

def solver (budget : UInt64) : Solver Id := fun q => (solve budget q.assertions).toQuery q

end TagLang.Search
