import TagLang.Bound

/-! # The matches of a body -/

namespace TagLang.Matches

mutual

def expr : Bound.Expr → List Bound.Match
  | .mk kind _ _ => exprKind kind

def exprKind : Bound.ExprKind → List Bound.Match
  | .int _ => []
  | .float _ => []
  | .str _ => []
  | .bool _ => []
  | .null => []
  | .var _ => []
  | .variant _ _ => []
  | .static _ => []
  | .field base _ => expr base
  | .index base place => expr base ++ expr place
  | .binary left _ right => expr left ++ expr right
  | .unary _ operand => expr operand
  | .conditional test yes no => expr test ++ expr yes ++ expr no
  | .call _ _ receiver args => expr? receiver ++ exprs args
  | .create _ _ args => exprs args
  | .someOf value => expr value
  | .noneOf => []
  | .okOf value => expr value
  | .errOf value => expr value
  | .await value => expr value
  | .lambda _ body => stmts body
  | .matching m => matching m
  | .quantifier _ _ body => expr body
  | .error => []

def exprs : List Bound.Expr → List Bound.Match
  | [] => []
  | e :: es => expr e ++ exprs es

def expr? : Option Bound.Expr → List Bound.Match
  | none => []
  | some e => expr e

def matching : Bound.Match → List Bound.Match
  | .mk id target arms isExpression span =>
    .mk id target arms isExpression span :: (expr target ++ matchArms arms)

def matchArms : List Bound.Arm → List Bound.Match
  | [] => []
  | .mk _ guard body _ :: arms => expr? guard ++ armBody body ++ matchArms arms

def armBody : Bound.ArmBody → List Bound.Match
  | .block body => stmts body
  | .value e => expr e

def stmt : Bound.Stmt → List Bound.Match
  | .bind _ value _ => expr value
  | .assign target value _ => expr target ++ expr value
  | .branch test body others otherwise _ => expr test ++ stmts body ++ elseIfs others ++ stmts? otherwise
  | .count _ start stop step body _ => expr start ++ expr stop ++ expr? step ++ stmts body
  | .each _ source body _ => expr source ++ stmts body
  | .loop test body _ => expr test ++ stmts body
  | .matching m => matching m
  | .attempt body clauses finish _ => stmts body ++ catches clauses ++ stmts? finish
  | .ret value _ => expr? value
  | .raise value _ => expr value
  | .call e _ => expr e

def stmts : List Bound.Stmt → List Bound.Match
  | [] => []
  | s :: ss => stmt s ++ stmts ss

def stmts? : Option (List Bound.Stmt) → List Bound.Match
  | none => []
  | some body => stmts body

def elseIfs : List Bound.ElseIf → List Bound.Match
  | [] => []
  | .mk test body :: rest => expr test ++ stmts body ++ elseIfs rest

def catches : List Bound.Catch → List Bound.Match
  | [] => []
  | .mk _ _ body :: rest => stmts body ++ catches rest

end

end TagLang.Matches
