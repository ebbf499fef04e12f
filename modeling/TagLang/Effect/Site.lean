import TagLang.Bound
import TagLang.Effect.Catalog

/-! # Where effects come from

The places of a body that contribute effects. A lambda counts where it is written, and a call of a
variable's value contributes nothing.
-/

namespace TagLang

/-- What a place contributes: effects that are known to come from a source, or those of a function
of the module. -/
inductive Cause
  | effects (set : EffectSet) (source : String)
  | call (id target : String)
deriving DecidableEq, Repr, Inhabited

structure Site where
  cause : Cause
  span : Span
deriving DecidableEq, Repr, Inhabited

namespace Site

def ofEffect (e : Effect) (span : Span) : Site := ⟨.effects (.known [e]) "", span⟩

def ofSignature (catalog : Catalog) (signature : String) (span : Span) : Site :=
  ⟨.effects ((catalog.lookup signature).getD .unknown) signature, span⟩

def ofStatic (catalog : Catalog) (path : String) (span : Span) : List Site :=
  match Text.cutLast? '.' path with
  | none => []
  | some (receiver, property) =>
    match catalog.lookupCall receiver ("get_" ++ property) [] with
    | some set => [⟨.effects set path, span⟩]
    | none => []

def ofCall (catalog : Catalog) (target : String) (callee : Bound.Callee) (args : List Ty)
    (span : Span) : List Site :=
  match callee with
  | .function _ id => [⟨.call id target, span⟩]
  | .method _ id => [⟨.call id target, span⟩]
  | .external receiver method => [ofSignature catalog (Signature.ofCall receiver method args) span]
  | .value _ => []
  | .unresolved => [⟨.effects .unknown target, span⟩]

def ofCreation (catalog : Catalog) (ty : Ty) (className : Option String) (span : Span) : List Site :=
  match className with
  | some _ => []
  | none => [ofSignature catalog (Signature.ofCreation ty) span]

def ofAssignment (target : Bound.Expr) (span : Span) : List Site :=
  match target.kind with
  | .field _ _ => [ofEffect .heapWrite span]
  | .index _ _ => [ofEffect .heapWrite span]
  | _ => []

end Site

namespace Sites

variable (catalog : Catalog)

mutual

def expr : Bound.Expr → List Site
  | .mk kind _ span => exprKind span kind

def exprKind (span : Span) : Bound.ExprKind → List Site
  | .int _ => []
  | .float _ => []
  | .str _ => []
  | .bool _ => []
  | .null => []
  | .var _ => []
  | .variant _ _ => []
  | .static path => Site.ofStatic catalog path span
  | .field base _ => expr base
  | .index base place => expr base ++ expr place
  | .binary left _ right => expr left ++ expr right
  | .unary _ operand => expr operand
  | .conditional test yes no => expr test ++ expr yes ++ expr no
  | .call target callee receiver args =>
    expr? receiver ++ exprs args ++ Site.ofCall catalog target callee (args.map (·.ty)) span
  | .create ty className args => exprs args ++ Site.ofCreation catalog ty className span
  | .someOf value => expr value
  | .noneOf => []
  | .okOf value => expr value
  | .errOf value => expr value
  | .await value => expr value
  | .lambda _ body => stmts body
  | .matching m => matching m
  | .quantifier _ _ body => expr body
  | .error => []

def exprs : List Bound.Expr → List Site
  | [] => []
  | e :: es => expr e ++ exprs es

def expr? : Option Bound.Expr → List Site
  | none => []
  | some e => expr e

def matching : Bound.Match → List Site
  | .mk _ target arms _ _ => expr target ++ matchArms arms

def matchArms : List Bound.Arm → List Site
  | [] => []
  | .mk _ guard body _ :: arms => expr? guard ++ armBody body ++ matchArms arms

def armBody : Bound.ArmBody → List Site
  | .block body => stmts body
  | .value e => expr e

def stmt : Bound.Stmt → List Site
  | .bind _ value _ => expr value
  | .assign target value span => Site.ofAssignment target span ++ expr target ++ expr value
  | .branch test body others otherwise _ => expr test ++ stmts body ++ elseIfs others ++ stmts? otherwise
  | .count _ start stop step body _ => expr start ++ expr stop ++ expr? step ++ stmts body
  | .each _ source body _ => expr source ++ stmts body
  | .loop test body _ => expr test ++ stmts body
  | .matching m => matching m
  | .attempt body clauses finish _ => stmts body ++ catches clauses ++ stmts? finish
  | .ret value _ => expr? value
  | .raise value span => expr value ++ [Site.ofEffect .throwing span]
  | .call e _ => expr e

def stmts : List Bound.Stmt → List Site
  | [] => []
  | s :: ss => stmt s ++ stmts ss

def stmts? : Option (List Bound.Stmt) → List Site
  | none => []
  | some body => stmts body

def elseIfs : List Bound.ElseIf → List Site
  | [] => []
  | .mk test body :: rest => expr test ++ stmts body ++ elseIfs rest

def catches : List Bound.Catch → List Site
  | [] => []
  | .mk _ _ body :: rest => stmts body ++ catches rest

end

end Sites

end TagLang
