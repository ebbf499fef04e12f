import TagLang.Binding.Name
import TagLang.Binding.Pattern

/-! # Expressions and statements

Parts are bound in the order in which they are written.
-/

namespace TagLang.Binding

def checkReturn (value : Option Bound.Expr) (span : Span) : Binder Unit := do
  let expected ← returnType
  match value, expected with
  | some v, .void => unless v.ty = .error do mismatch "return value" .void v.ty v.span
  | some v, t => expect "return value" t v
  | none, .void => return
  | none, .unknown => return
  | none, t => mismatch "return value" t .void span

def checkMutable (target : Bound.Expr) : Binder Unit := do
  match target.kind with
  | .var id =>
    match (← get).symbols.get? id with
    | some s => if s.isConstant then report (.immutable s.name) target.span
    | none => return
  | _ => return

def condition (context : String) (e : Binder Bound.Expr) : Binder Bound.Expr := do
  let e ← e
  expectBool context e
  return e

def armsType (arms : List Bound.Arm) : Ty :=
  (arms.findSome? fun a =>
    match a.body with
    | .value e => if e.ty.isIndeterminate then none else some e.ty
    | .block _ => none).getD .unknown

def quantified : List (String × TypeRef) → Binder (List SymbolId)
  | [] => return []
  | (name, t) :: rest => return (← declareVar name t.ty t.span) :: (← quantified rest)

def params : List Param → Binder (List SymbolId)
  | [] => return []
  | p :: ps => return (← declareParam p) :: (← params ps)

mutual

def expr : Expr → Binder Bound.Expr
  | .int n span => return .mk (.int n) (.ofLiteral n) span
  | .float f span => return .mk (.float f) (.float 64) span
  | .str s span => return .mk (.str s) .str span
  | .bool b span => return .mk (.bool b) .bool span
  | .null span => return .mk .null .null span
  | .ident name span => ident name span
  | .field base name span => do
    match ← qualified? base name span with
    | some e => return e
    | none => member (← expr base) name span
  | .index base place span => do
    let base ← expr base
    let place ← expr place
    expectInteger "index" place
    return .mk (.index base place) base.ty.element span
  | .binary left op right span => do
    let left ← expr left
    let right ← expr right
    if op.isLogical then
      expectBool s!"operand of '{op.sign}'" left
      expectBool s!"operand of '{op.sign}'" right
    return .mk (.binary left op right) (op.resultType left.ty right.ty) span
  | .unary op operand span => do
    let operand ← expr operand
    if op = .not then expectBool "operand of '!'" operand
    return .mk (.unary op operand) (if op = .not then .bool else operand.ty) span
  | .conditional test yes no span => do
    let test ← condition "conditional" (expr test)
    let yes ← expr yes
    let no ← expr no
    let ty := if yes.ty.isIndeterminate || yes.ty = .null then no.ty else yes.ty
    return .mk (.conditional test yes no) ty span
  | .call target args span => do
    call target (← exprs args) span
  | .create ty args span => do
    let args ← exprs args
    let classes := (← registry).classes
    let className := match ty.ty with
      | .named name _ => if classes.contains name then some name else none
      | _ => none
    return .mk (.create ty.ty className args) ty.ty span
  | .someOf value span => do
    let value ← expr value
    return .mk (.someOf value) (.option value.ty) span
  | .noneOf span => return .mk .noneOf (.option .unknown) span
  | .okOf value span => do
    let value ← expr value
    return .mk (.okOf value) (.result value.ty .unknown) span
  | .errOf value span => do
    let value ← expr value
    return .mk (.errOf value) (.result .unknown value.ty) span
  | .await value span => do
    let value ← expr value
    return .mk (.await value) value.ty span
  | .lambda _ ps body span => do
    let (ids, body) ← inScope do
      let ids ← params ps
      let body ← returning .unknown (stmts body)
      return (ids, body)
    return .mk (.lambda ids body) (.function (ps.map (·.ty.ty)) .unknown) span
  | .matching m => do
    let m ← matching m
    return .mk (.matching m) (armsType m.arms) m.span
  | .quantifier kind vars body span => do
    let (ids, body) ← inScope do
      let ids ← quantified vars
      let body ← condition "quantifier body" (expr body)
      return (ids, body)
    return .mk (.quantifier kind ids body) .bool span
  | .error span => return .mk .error .error span
termination_by structural e => e

def exprs : List Expr → Binder (List Bound.Expr)
  | [] => return []
  | e :: es => return (← expr e) :: (← exprs es)

def expr? : Option Expr → Binder (Option Bound.Expr)
  | none => return none
  | some e => return some (← expr e)

def matching : Match → Binder Bound.Match
  | .mk id target arms isExpression span => do
    let target ← expr target
    return .mk id target (← matchArms target.ty arms) isExpression span

def matchArms (target : Ty) : List Arm → Binder (List Bound.Arm)
  | [] => return []
  | a :: as => return (← arm target a) :: (← matchArms target as)

def arm (target : Ty) : Arm → Binder Bound.Arm
  | .mk p guard body span => inScope do
    let p ← pattern p target
    let guard ← guardOf guard
    return .mk p guard (← armBody body) span

def guardOf : Option Expr → Binder (Option Bound.Expr)
  | none => return none
  | some e => return some (← condition "match guard" (expr e))

def armBody : ArmBody → Binder Bound.ArmBody
  | .block body => return .block (← stmts body)
  | .value e => return .value (← expr e)

def stmt : Stmt → Binder (Option Bound.Stmt)
  | .bind name isMutable ty value span => do
    let value ← expr value
    if let some declared := ty then expect s!"binding of '{name}'" declared.ty value
    let ty := (ty.map (·.ty)).getD value.ty
    let symbol ← declare name (.var ty isMutable false) span
    return some (.bind symbol value span)
  | .assign target value span => do
    let target ← expr target
    let value ← expr value
    checkMutable target
    expect "assignment" target.ty value
    return some (.assign target value span)
  | .branch _ test body others otherwise span => do
    let test ← condition "if condition" (expr test)
    let body ← inScope (stmts body)
    let others ← elseIfs others
    return some (.branch test body others (← block? otherwise) span)
  | .count _ var start stop step body span => do
    let start ← expr start
    let stop ← expr stop
    let step ← expr? step
    expectInteger "loop bound" start
    expectInteger "loop bound" stop
    if let some step := step then expectInteger "loop bound" step
    let (id, body) ← inScope do
      let id ← declareVar var (if start.ty.isInteger then start.ty else .i32) span
      return (id, ← stmts body)
    return some (.count id start stop step body span)
  | .each _ var source body span => do
    let source ← expr source
    let (id, body) ← inScope do
      let id ← declareVar var source.ty.element span
      return (id, ← stmts body)
    return some (.each id source body span)
  | .loop _ test body span => do
    let test ← condition "while condition" (expr test)
    return some (.loop test (← inScope (stmts body)) span)
  | .matching m => return some (.matching (← matching m))
  | .attempt _ body clauses finish span => do
    let body ← inScope (stmts body)
    let clauses ← catches clauses
    return some (.attempt body clauses (← block? finish) span)
  | .ret value span => do
    let value ← expr? value
    checkReturn value span
    return some (.ret value span)
  | .raise value span => return some (.raise (← expr value) span)
  | .call target args span => do
    let args ← exprs args
    return some (.call (← call target args span) span)
  | .error _ => return none

def stmts : List Stmt → Binder (List Bound.Stmt)
  | [] => return []
  | s :: ss => do
    let bound ← stmt s
    return bound.toList ++ (← stmts ss)

def block? : Option (List Stmt) → Binder (Option (List Bound.Stmt))
  | none => return none
  | some body => return some (← inScope (stmts body))

def elseIfs : List ElseIf → Binder (List Bound.ElseIf)
  | [] => return []
  | .mk test body _ :: rest => do
    let test ← condition "elseif condition" (expr test)
    let body ← inScope (stmts body)
    return .mk test body :: (← elseIfs rest)

def catches : List Catch → Binder (List Bound.Catch)
  | [] => return []
  | .mk exceptionType var body span :: rest => do
    let clause ← inScope do
      let ty := exceptionType.map (·.ty)
      let id ← match var with
        | none => pure none
        | some name => some <$> declareVar name (ty.getD .object) span
      return .mk ty id (← stmts body)
    return clause :: (← catches rest)

end

end TagLang.Binding
