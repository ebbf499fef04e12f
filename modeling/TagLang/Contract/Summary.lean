import TagLang.Contract.Encode

/-! # Summaries of bodies

The returned value of a body as one term. What follows a branch is taken into each of its arms.
-/

namespace TagLang.Contract

inductive SummaryError
  | noValue
  | unsupportedReturn (type : String)
  | notStraightLine
  | unencodable (e : EncodeError)
deriving DecidableEq, Repr, Inhabited

def SummaryError.message : SummaryError → String
  | .noValue => "function returns no value"
  | .unsupportedReturn type => s!"return type {type} cannot be verified"
  | .notStraightLine => "function body is not straight-line"
  | .unencodable e => s!"function body could not be translated: {e.message}"

namespace Summary

variable (symbols : SymbolTable) (ret : TermType)

def bindSymbol (symbol : SymbolId) (t : Term) (span : Span) : Encoder Unit := do
  let t ← match TermType.ofTy? (symbols.ty symbol) with
    | some target => if target = t.ty then pure t else ofExcept (t.coerce target span)
    | none => pure t
  modify (·.bind (symbols.name symbol) t)

def choose (test : Formula) (yes no : Term) : Term :=
  { formula := .ite test yes.formula no.formula, ty := ret }

mutual

/-- The value of a sequence of statements that `rest` follows, or nothing if a path does not end in
a return. -/
def stmts (rest : Encoder (Option Term)) : List Bound.Stmt → Encoder (Option Term)
  | [] => rest
  | .bind symbol value span :: more => do
    let t ← Encode.expr symbols value
    bindSymbol symbols symbol t span
    stmts rest more
  | .ret (some value) span :: _ => do
    let t ← Encode.expr symbols value
    return some (← ofExcept (t.coerce ret span))
  | .branch test body others otherwise _ :: more => do
    let rest := stmts rest more
    let some acc ← arms rest (nested (otherwiseBody rest otherwise)) others | return none
    let c ← Encode.condition symbols test
    let some yes ← nested (stmts rest body) | return none
    return some (choose ret c yes acc)
  | _ :: _ => return none

def otherwiseBody (rest : Encoder (Option Term)) : Option (List Bound.Stmt) → Encoder (Option Term)
  | none => rest
  | some body => stmts rest body

/-- The value of the arms behind the first one, from the last to the first. -/
def arms (rest fallback : Encoder (Option Term)) : List Bound.ElseIf → Encoder (Option Term)
  | [] => fallback
  | .mk test body :: more => do
    let some acc ← arms rest fallback more | return none
    let c ← Encode.condition symbols test
    let some yes ← nested (stmts rest body) | return none
    return some (choose ret c yes acc)

end

def ofFunction (f : Bound.Function) : StateM Context (Except SummaryError Term) := do
  if f.result.isNone then return .error .noValue
  match TermType.ofTy? f.returnType with
  | none => return .error (.unsupportedReturn f.returnType.render)
  | some ret =>
    match ← (nested (stmts symbols ret (pure none) f.body)).run with
    | .ok (some t) => return .ok t
    | .ok none => return .error .notStraightLine
    | .error e => return .error (.unencodable e)

end Summary

end TagLang.Contract
