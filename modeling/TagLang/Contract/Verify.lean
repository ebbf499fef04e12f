import TagLang.Contract.Summary
import TagLang.Solver

/-! # Verification of contracts

A postcondition holds if the preconditions and its negation cannot hold together, where `result`
stands for the summary of the body. A model of them is a counterexample.
-/

namespace TagLang.Contract

structure Counterexample where
  values : List (String × String) := []
deriving DecidableEq, Repr, Inhabited

namespace Counterexample

def get? (c : Counterexample) (name : String) : Option String := c.values.lookup name

def render (c : Counterexample) : String :=
  if c.values.isEmpty then "any input"
  else ", ".intercalate (c.values.map fun (name, value) => s!"{name} = {value}")

end Counterexample

inductive Outcome
  | proven
  | refuted (c : Counterexample)
  | unknown (reason : String)
deriving DecidableEq, Repr, Inhabited

/-- The outcome of a postcondition; the postconditions of a function are counted from 1. -/
structure Result where
  function : String
  index : Nat
  outcome : Outcome
  span : Span
deriving DecidableEq, Repr, Inhabited

inductive Fault
  | refuted (function : String) (index : Nat) (c : Counterexample)
  | contradictory (function : String)
  | undecided (function : String) (index : Nat) (reason : String)
  | unencodable (function : String) (cause : EncodeError)
deriving DecidableEq, Repr, Inhabited

structure Error where
  fault : Fault
  span : Span
deriving DecidableEq, Repr, Inhabited

def Error.message (e : Error) : String :=
  match e.fault with
  | .refuted function index c =>
    s!"postcondition {index} of '{function}' does not hold; counterexample: {c.render}"
  | .contradictory function => s!"preconditions of '{function}' can never be satisfied together"
  | .undecided function index reason =>
    s!"postcondition {index} of '{function}' could not be decided: {reason}"
  | .unencodable function cause => s!"contract of '{function}' was not verified: {cause.message}"

structure Report where
  results : List Result := []
  errors : List Error := []
deriving DecidableEq, Repr, Inhabited

namespace Report

def append (a b : Report) : Report := ⟨a.results ++ b.results, a.errors ++ b.errors⟩

def proven (r : Report) : Nat := r.results.countP (·.outcome = .proven)

def refuted (r : Report) : Nat := r.results.countP fun x =>
  match x.outcome with
  | .refuted _ => true
  | _ => false

def ofFunction (r : Report) (id : String) : List Result := r.results.filter (·.function = id)

end Report

/-! ## Counterexamples -/

def renderValue (v : BitValue) (ty : TermType) : String :=
  match v, ty with
  | .bool b, _ => if b then "true" else "false"
  | .bits word width, .int _ signed => toString (if signed then Bits.toSigned word width else word.toNat)
  | .bits word width, .bool => s!"Bits \x7b bits: {word.toNat}, width: {width} \x7d"

def counterexample (params : List (String × TermType)) (model : SolverModel) (result : Option Term) :
    Counterexample :=
  let inputs := params.filterMap fun (name, ty) => (model.get? name).map fun v => (name, renderValue v ty)
  let output := match result with
    | none => []
    | some t =>
      match t.formula.eval model.entries with
      | .ok v => [("result", renderValue v t.ty)]
      | .error _ => []
  ⟨inputs ++ output⟩

/-! ## Functions -/

def declareParams (symbols : SymbolTable) : List SymbolId → StateM Context (List (String × TermType))
  | [] => return []
  | id :: ids => do
    let name := symbols.name id
    match (← get).declare? name (symbols.ty id) with
    | none => declareParams symbols ids
    | some c =>
      set c
      let found := match c.lookup? name with
        | some t => [(name, t.ty)]
        | none => []
      return found ++ (← declareParams symbols ids)

def preconditions (symbols : SymbolTable) :
    List Bound.Expr → StateM Context (List Formula × List EncodeError)
  | [] => return ([], [])
  | e :: es => do
    let r ← (Encode.condition symbols e).run
    let (formulas, errors) ← preconditions symbols es
    match r with
    | .ok f => return (f :: formulas, errors)
    | .error e => return (formulas, e :: errors)

def unencodable (f : Bound.Function) (e : EncodeError) : Error := ⟨.unencodable f.name e, e.span⟩

def judge (f : Bound.Function) (index : Nat) (span : Span) (params : List (String × TermType))
    (result : Option Term) (answer : Answer) : Outcome × List Error :=
  let undecided (reason : String) := (.unknown reason, [⟨.undecided f.name index reason, span⟩])
  match answer.result with
  | .unsat => (.proven, [])
  | .sat =>
    let c := match answer.model with
      | some model => counterexample params model result
      | none => {}
    (.refuted c, [⟨.refuted f.name index c, span⟩])
  | .timeout => undecided "solver timed out"
  | .unknown reason => undecided reason
  | .error text => undecided s!"solver error: {text}"

structure Setting where
  function : Bound.Function
  params : List (String × TermType)
  pres : List Formula
  usable : Bool
  summary : Except SummaryError Term

variable {m : Type → Type} [Monad m]

def postcondition (symbols : SymbolTable) (solver : Solver m) (s : Setting) (index : Nat)
    (post : Bound.Expr) : StateT Context m (Outcome × List Error) := do
  if !s.usable then return (.unknown "a precondition could not be translated", [])
  let c ← get
  let (encoded, c) := (Encode.condition symbols post).run.run c
  set c
  match encoded with
  | .ok p =>
    let answer ← solver ⟨s.pres ++ [.negation p], true⟩
    return judge s.function index post.span s.params s.summary.toOption answer
  | .error ⟨.unknownVariable "result", span⟩ =>
    let reason := match s.summary with
      | .error e => e.message
      | .ok _ => ""
    return (.unknown reason, [⟨.undecided s.function.name index reason, span⟩])
  | .error e => return (.unknown e.message, [unencodable s.function e])

def postconditions (symbols : SymbolTable) (solver : Solver m) (s : Setting) :
    Nat → List Bound.Expr → StateT Context m Report
  | _, [] => return {}
  | index, post :: posts => do
    let (outcome, errors) ← postcondition symbols solver s index post
    let rest ← postconditions symbols solver s (index + 1) posts
    return Report.append ⟨[⟨s.function.id, index, outcome, post.span⟩], errors⟩ rest

def checkPreconditions (solver : Solver m) (f : Bound.Function) (pres : List Formula) :
    m (List Error) := do
  if pres.isEmpty then return []
  let answer ← solver ⟨pres, false⟩
  return if answer.result.isUnsat then [⟨.contradictory f.name, f.span⟩] else []

def verifyFunction (symbols : SymbolTable) (solver : Solver m) (f : Bound.Function) : m Report := do
  let (params, c) := (declareParams symbols f.params).run {}
  let ((pres, failures), c) := (preconditions symbols f.preconditions).run c
  let contradictions ← if failures.isEmpty then checkPreconditions solver f pres else pure []
  let errors := failures.map (unencodable f) ++ contradictions
  if f.postconditions.isEmpty then return ⟨[], errors⟩
  let (summary, c) := (Summary.ofFunction symbols f).run c
  let c := match summary with
    | .ok t => c.bind "result" t
    | .error _ => c
  let setting : Setting := { function := f, params, pres, usable := failures.isEmpty, summary }
  let (report, _) ← (postconditions symbols solver setting 1 f.postconditions).run c
  return Report.append ⟨[], errors⟩ report

def verifyFunctions (symbols : SymbolTable) (solver : Solver m) : List Bound.Function → m Report
  | [] => return {}
  | f :: fs => do
    let report ← verifyFunction symbols solver f
    return report.append (← verifyFunctions symbols solver fs)

end TagLang.Contract

namespace TagLang

def verifyContracts {m : Type → Type} [Monad m] (module : Bound.Module) (solver : Solver m) :
    m Contract.Report :=
  Contract.verifyFunctions module.symbols solver module.functions

end TagLang
