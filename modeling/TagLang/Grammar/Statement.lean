import TagLang.Grammar.Target

/-! # Statements

The rule for blocks, and the knot that ties expressions and blocks together: `rules n` parses
everything inside a stream with fewer than `n` tokens left.
-/

namespace TagLang.Grammar

variable [Fallback]

def bindingName (field : String) : Bool × String :=
  match field.toList with
  | '~' :: cs => (true, String.ofList cs)
  | _ => (false, field)

def bindStmt (r : Rules) : Parser Stmt := do
  let start := (← take).span
  let attrs ← takeAttrs
  let value ← r.exprOrError
  let span := start.merge value.span
  let named (ty : Option TypeRef) (field : String) (attrs : Token) : Parser Stmt := do
    let (isMutable, name) := bindingName field
    if name.isEmpty then
      missingAttr "B" "name" attrs.span
      return .error span
    else return .bind name isMutable ty value span
  match attrs with
  | some ([field], attrs) => named none field attrs
  | some (type :: field :: _, attrs) => named (some (← typeRef type attrs.span)) field attrs
  | _ =>
    missingAttr "B" "name" start
    return .error span

def assignStmt (r : Rules) : Parser Stmt := do
  let start := (← take).span
  let target ← match ← takeAttrs with
    | some (fields, attrs) =>
      let text := ":".intercalate fields
      match target? text attrs.span with
      | some e => pure e
      | none =>
        reportAt attrs.span (.invalidAttribute "SET" "assignment target" text)
        pure (.error attrs.span)
    | none => r.exprOrError
  let value ← r.exprOrError
  return .assign target value (start.merge value.span)

def elseIfs (r : Rules) : Parser (List ElseIf) :=
  many do
    if (← peek) = .tag "EI" then
      let span := (← take).span
      let test ← r.exprOrError
      skipArrow
      return .found ⟨test, ← r.block, span⟩
    else return .done

def clauseBlock (r : Rules) (tag : String) (mayPoint : Bool) : Parser (Option (List Stmt)) := do
  if (← peek) = .tag tag then
    let _ ← take
    if mayPoint then skipArrow
    return some (← r.block)
  else return none

def branchStmt (r : Rules) : Parser Stmt := do
  let start := (← take).span
  let (fields, head) ← structuralAttrs "IF" start
  let id := fields.headD ""
  let test ← r.exprOrError
  skipArrow
  withOpen "IF" do
    let body ← r.block
    let elseIfs ← elseIfs r
    let otherwise ← clauseBlock r "EL" true
    let stop ← expectClose "IF" "if" id head
    return .branch id test body elseIfs otherwise (head.merge stop)

def countStmt (r : Rules) : Parser Stmt := do
  let start := (← take).span
  let (fields, head) ← structuralAttrs "L" start
  let id := fields.headD ""
  let var ← requiredField fields 1 "L" "variable" head
  let first ← r.exprOrError
  let last ← r.exprOrError
  let step ← if startsPlainExpr (← peek) then some <$> r.exprOrError else pure none
  withOpen "L" do
    let body ← r.block
    let stop ← expectClose "L" "loop" id head
    return .count id var first last step body (head.merge stop)

def eachStmt (r : Rules) : Parser Stmt := do
  let start := (← take).span
  let (fields, head) ← structuralAttrs "EACH" start
  let id := fields.headD ""
  let var ← requiredField fields 1 "EACH" "variable" head
  let source ← r.exprOrError
  withOpen "EACH" do
    let body ← r.block
    let stop ← expectClose "EACH" "foreach" id head
    return .each id var source body (head.merge stop)

def loopStmt (r : Rules) : Parser Stmt := do
  let start := (← take).span
  let (fields, head) ← structuralAttrs "WH" start
  let id := fields.headD ""
  let test ← r.exprOrError
  withOpen "WH" do
    let body ← r.block
    let stop ← expectClose "WH" "while" id head
    return .loop id test body (head.merge stop)

def catches (r : Rules) : Parser (List Catch) :=
  many do
    if (← peek) = .tag "CA" then
      let span := (← take).span
      let (exceptionType, var) ← match ← takeAttrs with
        | some (type :: fields, attrs) => do
          let ty ← typeRef type attrs.span
          pure (some ty, fields.head?.filter (!·.isEmpty))
        | _ => pure (none, none)
      return .found ⟨exceptionType, var, ← r.block, span⟩
    else return .done

def attemptStmt (r : Rules) : Parser Stmt := do
  let start := (← take).span
  let (fields, head) ← structuralAttrs "TR" start
  let id := fields.headD ""
  withOpen "TR" do
    let body ← r.block
    let catches ← catches r
    let finish ← clauseBlock r "FI" false
    let stop ← expectClose "TR" "try" id head
    return .attempt id body catches finish (head.merge stop)

def retStmt (r : Rules) : Parser Stmt := do
  let start := (← take).span
  if startsExpr (← peek) then
    let value ← r.exprOrError
    return .ret (some value) (start.merge value.span)
  else return .ret none start

def raiseStmt (r : Rules) : Parser Stmt := do
  let start := (← take).span
  let value ← r.exprOrError
  return .raise value (start.merge value.span)

def strayStmt : Parser Stmt := do
  let span ← here
  reportUnexpected "statement"
  recover
  return .error span

def stmt (r : Rules) (tag : String) : Parser Stmt :=
  match tag with
  | "B" => bindStmt r
  | "SET" => assignStmt r
  | "IF" => branchStmt r
  | "L" => countStmt r
  | "EACH" => eachStmt r
  | "WH" => loopStmt r
  | "W" => .matching <$> matching r false
  | "TR" => attemptStmt r
  | "R" => retStmt r
  | "TH" => raiseStmt r
  | "C" => do
    let (target, args, span) ← call r
    return .call target args span
  | _ => strayStmt

def blockRule (r : Rules) : Parser (List Stmt) :=
  many do
    let s ← get
    match s.kind with
    | .eof => return .done
    | .closeTag name =>
      if s.isOpen name then return .done
      else
        skipStrayClose
        return .skip
    | .tag name => if s.isOpenClause name then return .done else return .found (← stmt r name)
    | _ => return .found (← strayStmt)

def rules : Nat → Rules
  | 0 => { expr := Fallback.expr, block := Fallback.block }
  | n + 1 =>
    let inner := rules n
    { expr := exprRule inner, block := blockRule inner }

def currentRules : Parser Rules := do return rules ((← get).rest.length + 1)

def expr : TryParser Expr := do (← currentRules).expr

end TagLang.Grammar
