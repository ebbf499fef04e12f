import TagLang.Number.Binary64
import TagLang.Source.Span
import TagLang.Tree.Operator
import TagLang.Ty

/-! # The tree of a module

What a source text says, with the place of every part. Recovery from errors leaves placeholders.
-/

namespace TagLang

inductive Visibility
  | isPublic
  | isPrivate
  | isInternal
  | isProtected
deriving DecidableEq, Repr, Inhabited

namespace Visibility

def keyword : Visibility → String
  | .isPublic => "pub"
  | .isPrivate => "pri"
  | .isInternal => "int"
  | .isProtected => "pro"

def ofKeyword? (s : String) : Option Visibility :=
  [isPublic, isPrivate, isInternal, isProtected].find? (·.keyword = s)

end Visibility

structure TypeRef where
  text : String
  ty : Ty
  span : Span
deriving DecidableEq, Repr, Inhabited

structure Param where
  name : String
  ty : TypeRef
  span : Span
deriving DecidableEq, Repr, Inhabited

/-! ## Patterns -/

inductive Literal
  | int (value : Int)
  | str (value : String)
  | bool (value : Bool)
  | null
deriving DecidableEq, Repr, Inhabited

def Literal.render : Literal → String
  | .int value => toString value
  | .str value => "\"" ++ value ++ "\""
  | .bool value => if value then "true" else "false"
  | .null => "null"

/-- A bare name binds the matched value, unless it turns out to be a variant of the matched type. -/
inductive Pattern
  | wildcard (span : Span)
  | binding (name : String) (span : Span)
  | literal (value : Literal) (span : Span)
  | someOf (inner : Pattern) (span : Span)
  | noneOf (span : Span)
  | okOf (inner : Pattern) (span : Span)
  | errOf (inner : Pattern) (span : Span)
  | variant (owner : Option String) (name : String) (args : List Pattern) (span : Span)
deriving Repr, Inhabited

def Pattern.span : Pattern → Span
  | .wildcard s => s
  | .binding _ s => s
  | .literal _ s => s
  | .someOf _ s => s
  | .noneOf s => s
  | .okOf _ s => s
  | .errOf _ s => s
  | .variant _ _ _ s => s

/-! ## Expressions and statements -/

mutual

inductive Expr
  | int (value : Int) (span : Span)
  | float (value : Binary64) (span : Span)
  | str (value : String) (span : Span)
  | bool (value : Bool) (span : Span)
  | null (span : Span)
  | ident (name : String) (span : Span)
  | field (base : Expr) (name : String) (span : Span)
  | index (base place : Expr) (span : Span)
  | binary (left : Expr) (op : BinOp) (right : Expr) (span : Span)
  | unary (op : UnaryOp) (operand : Expr) (span : Span)
  | conditional (test yes no : Expr) (span : Span)
  | call (target : String) (args : List Expr) (span : Span)
  | create (ty : TypeRef) (args : List Expr) (span : Span)
  | someOf (value : Expr) (span : Span)
  | noneOf (span : Span)
  | okOf (value : Expr) (span : Span)
  | errOf (value : Expr) (span : Span)
  | lambda (id : String) (params : List Param) (body : List Stmt) (span : Span)
  | await (value : Expr) (span : Span)
  | matching (m : Match)
  | quantifier (kind : QuantifierKind) (vars : List (String × TypeRef)) (body : Expr) (span : Span)
  | error (span : Span)

/-- A match stands in a statement, where arms are blocks, or in an expression, where they have
values. -/
inductive Match
  | mk (id : String) (target : Expr) (arms : List Arm) (isExpression : Bool) (span : Span)

inductive Arm
  | mk (pattern : Pattern) (guard : Option Expr) (body : ArmBody) (span : Span)

inductive ArmBody
  | block (body : List Stmt)
  | value (value : Expr)

inductive Stmt
  | bind (name : String) (isMutable : Bool) (ty : Option TypeRef) (value : Expr) (span : Span)
  | assign (target value : Expr) (span : Span)
  | branch (id : String) (test : Expr) (body : List Stmt) (elseIfs : List ElseIf)
      (otherwise : Option (List Stmt)) (span : Span)
  | count (id var : String) (start stop : Expr) (step : Option Expr) (body : List Stmt) (span : Span)
  | each (id var : String) (source : Expr) (body : List Stmt) (span : Span)
  | loop (id : String) (test : Expr) (body : List Stmt) (span : Span)
  | matching (m : Match)
  | attempt (id : String) (body : List Stmt) (catches : List Catch) (finish : Option (List Stmt))
      (span : Span)
  | ret (value : Option Expr) (span : Span)
  | raise (value : Expr) (span : Span)
  | call (target : String) (args : List Expr) (span : Span)
  | error (span : Span)

inductive ElseIf
  | mk (test : Expr) (body : List Stmt) (span : Span)

inductive Catch
  | mk (exceptionType : Option TypeRef) (var : Option String) (body : List Stmt) (span : Span)

end

instance : Inhabited Expr := ⟨.error .nowhere⟩
instance : Inhabited Stmt := ⟨.error .nowhere⟩

def Match.span : Match → Span
  | .mk _ _ _ _ s => s

def Expr.span : Expr → Span
  | .int _ s => s
  | .float _ s => s
  | .str _ s => s
  | .bool _ s => s
  | .null s => s
  | .ident _ s => s
  | .field _ _ s => s
  | .index _ _ s => s
  | .binary _ _ _ s => s
  | .unary _ _ s => s
  | .conditional _ _ _ s => s
  | .call _ _ s => s
  | .create _ _ s => s
  | .someOf _ s => s
  | .noneOf s => s
  | .okOf _ s => s
  | .errOf _ s => s
  | .lambda _ _ _ s => s
  | .await _ s => s
  | .matching m => m.span
  | .quantifier _ _ _ s => s
  | .error s => s

def Stmt.span : Stmt → Span
  | .bind _ _ _ _ s => s
  | .assign _ _ s => s
  | .branch _ _ _ _ _ s => s
  | .count _ _ _ _ _ _ s => s
  | .each _ _ _ _ s => s
  | .loop _ _ _ s => s
  | .matching m => m.span
  | .attempt _ _ _ _ s => s
  | .ret _ s => s
  | .raise _ s => s
  | .call _ _ s => s
  | .error s => s

/-! ## Items -/

structure EffectDecl where
  codes : List (String × Span)
  span : Span
deriving DecidableEq, Repr, Inhabited

structure BreakingMarker where
  reason : Option String
  span : Span
deriving DecidableEq, Repr, Inhabited

/-- A function or method. A declaration of no effects differs from no declaration. -/
structure FunctionDef where
  id : String
  name : String
  visibility : Visibility
  isAsync : Bool
  params : List Param
  returnType : Option TypeRef
  effects : Option EffectDecl
  preconditions : List Expr
  postconditions : List Expr
  breaking : Option BreakingMarker
  body : List Stmt
  span : Span
deriving Inhabited

def FunctionDef.isPublic (f : FunctionDef) : Bool := f.visibility = .isPublic

structure MemberDef where
  name : String
  ty : TypeRef
  visibility : Visibility
  span : Span
deriving DecidableEq, Repr, Inhabited

structure ClassDef where
  id : String
  name : String
  visibility : Visibility
  fields : List MemberDef
  properties : List MemberDef
  methods : List FunctionDef
  span : Span
deriving Inhabited

structure InterfaceDef where
  id : String
  name : String
  visibility : Visibility
  methods : List FunctionDef
  span : Span
deriving Inhabited

structure VariantDef where
  name : String
  payload : Option TypeRef
  span : Span
deriving DecidableEq, Repr, Inhabited

structure SumDef where
  id : String
  name : String
  visibility : Visibility
  variants : List VariantDef
  span : Span
deriving DecidableEq, Repr, Inhabited

inductive Item
  | function (f : FunctionDef)
  | classDef (c : ClassDef)
  | interface (i : InterfaceDef)
  | enumeration (e : SumDef)
  | union (u : SumDef)
deriving Inhabited

namespace Item

def span : Item → Span
  | .function f => f.span
  | .classDef c => c.span
  | .interface i => i.span
  | .enumeration e => e.span
  | .union u => u.span

def id : Item → String
  | .function f => f.id
  | .classDef c => c.id
  | .interface i => i.id
  | .enumeration e => e.id
  | .union u => u.id

def function? : Item → Option FunctionDef
  | .function f => some f
  | _ => none

def class? : Item → Option ClassDef
  | .classDef c => some c
  | _ => none

end Item

structure Module where
  id : String
  name : String
  usings : List String
  items : List Item
  span : Span
deriving Inhabited

namespace Module

def functions (m : Module) : List FunctionDef := m.items.filterMap Item.function?

def classes (m : Module) : List ClassDef := m.items.filterMap Item.class?

def allFunctions (m : Module) : List FunctionDef := m.functions ++ m.classes.flatMap (·.methods)

end Module

end TagLang
