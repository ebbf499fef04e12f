import TagLang.Bound.Registry
import TagLang.Symbol
import TagLang.Tree

/-! # Bound modules

The tree of a module after its names are resolved: names are symbols, every expression has a type,
and a call has a callee.
-/

namespace TagLang.Bound

/-- A pattern. The owner of a variant is the sum type that declares it, if that is known. -/
inductive Pattern
  | wildcard (span : Span)
  | binding (symbol : SymbolId) (span : Span)
  | literal (value : Literal) (span : Span)
  | someOf (inner : Pattern) (span : Span)
  | noneOf (span : Span)
  | okOf (inner : Pattern) (span : Span)
  | errOf (inner : Pattern) (span : Span)
  | variant (owner : Option String) (name : String) (args : List Pattern) (span : Span)
deriving Repr, Inhabited

def Pattern.span : Pattern → Span
  | .wildcard s => s
  | .binding _ s => s
  | .literal _ s => s
  | .someOf _ s => s
  | .noneOf s => s
  | .okOf _ s => s
  | .errOf _ s => s
  | .variant _ _ _ s => s

inductive Callee
  | function (symbol : SymbolId) (id : String)
  | method (className id : String)
  | external (receiver method : String)
  | value (symbol : SymbolId)
  | unresolved
deriving DecidableEq, Repr, Inhabited

mutual

inductive Expr
  | mk (kind : ExprKind) (ty : Ty) (span : Span)

inductive ExprKind
  | int (value : Int)
  | float (value : Binary64)
  | str (value : String)
  | bool (value : Bool)
  | null
  | var (symbol : SymbolId)
  | variant (owner name : String)
  | static (path : String)
  | field (base : Expr) (name : String)
  | index (base place : Expr)
  | binary (left : Expr) (op : BinOp) (right : Expr)
  | unary (op : UnaryOp) (operand : Expr)
  | conditional (test yes no : Expr)
  /-- A call that goes through a variable has the variable's value as its receiver. -/
  | call (target : String) (callee : Callee) (receiver : Option Expr) (args : List Expr)
  | create (ty : Ty) (className : Option String) (args : List Expr)
  | someOf (value : Expr)
  | noneOf
  | okOf (value : Expr)
  | errOf (value : Expr)
  | await (value : Expr)
  | lambda (params : List SymbolId) (body : List Stmt)
  | matching (m : Match)
  | quantifier (kind : QuantifierKind) (vars : List SymbolId) (body : Expr)
  | error

inductive Match
  | mk (id : String) (target : Expr) (arms : List Arm) (isExpression : Bool) (span : Span)

inductive Arm
  | mk (pattern : Pattern) (guard : Option Expr) (body : ArmBody) (span : Span)

inductive ArmBody
  | block (body : List Stmt)
  | value (value : Expr)

inductive Stmt
  | bind (symbol : SymbolId) (value : Expr) (span : Span)
  | assign (target value : Expr) (span : Span)
  | branch (test : Expr) (body : List Stmt) (elseIfs : List ElseIf) (otherwise : Option (List Stmt))
      (span : Span)
  | count (var : SymbolId) (start stop : Expr) (step : Option Expr) (body : List Stmt) (span : Span)
  | each (var : SymbolId) (source : Expr) (body : List Stmt) (span : Span)
  | loop (test : Expr) (body : List Stmt) (span : Span)
  | matching (m : Match)
  | attempt (body : List Stmt) (catches : List Catch) (finish : Option (List Stmt)) (span : Span)
  | ret (value : Option Expr) (span : Span)
  | raise (value : Expr) (span : Span)
  | call (call : Expr) (span : Span)

inductive ElseIf
  | mk (test : Expr) (body : List Stmt)

inductive Catch
  | mk (exceptionType : Option Ty) (var : Option SymbolId) (body : List Stmt)

end

instance : Inhabited Expr := ⟨.mk .error .error .nowhere⟩
instance : Inhabited Stmt := ⟨.ret none .nowhere⟩

namespace Expr

def kind : Expr → ExprKind
  | .mk kind _ _ => kind

def ty : Expr → Ty
  | .mk _ ty _ => ty

def span : Expr → Span
  | .mk _ _ span => span

end Expr

namespace Match

def target : Match → Expr
  | .mk _ target _ _ _ => target

def arms : Match → List Arm
  | .mk _ _ arms _ _ => arms

def isExpression : Match → Bool
  | .mk _ _ _ isExpression _ => isExpression

def span : Match → Span
  | .mk _ _ _ _ span => span

end Match

namespace Arm

def pattern : Arm → Pattern
  | .mk pattern _ _ _ => pattern

def guard : Arm → Option Expr
  | .mk _ guard _ _ => guard

def body : Arm → ArmBody
  | .mk _ _ body _ => body

end Arm

def Stmt.span : Stmt → Span
  | .bind _ _ s => s
  | .assign _ _ s => s
  | .branch _ _ _ _ s => s
  | .count _ _ _ _ _ s => s
  | .each _ _ _ s => s
  | .loop _ _ s => s
  | .matching m => m.span
  | .attempt _ _ _ s => s
  | .ret _ s => s
  | .raise _ s => s
  | .call _ s => s

structure Function where
  id : String
  name : String
  owner : Option String
  visibility : Visibility
  params : List SymbolId
  returnType : Ty
  declaredEffects : Option (List (String × Span))
  preconditions : List Expr
  postconditions : List Expr
  result : Option SymbolId
  body : List Stmt
  span : Span
deriving Inhabited

structure Module where
  id : String
  name : String
  usings : List String
  functions : List Function
  registry : Registry
  symbols : SymbolTable
deriving Inhabited

def Module.function? (m : Module) (id : String) : Option Function := m.functions.find? (·.id = id)

end TagLang.Bound
