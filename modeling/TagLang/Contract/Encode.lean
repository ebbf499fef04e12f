import TagLang.Bound
import TagLang.Contract.Context

/-! # From expressions to terms

Quantified variables get fresh names, so that no formula captures a variable.
-/

namespace TagLang.Contract

abbrev Encoder := ExceptT EncodeError (StateM Context)

def fail {α : Type} (fault : EncodeFault) (span : Span) : Encoder α := throw ⟨fault, span⟩

def unsupported {α : Type} (construct : String) (span : Span) : Encoder α :=
  fail (.unsupported construct) span

def nested {α : Type} (action : Encoder α) : Encoder α := ExceptT.mk do
  modify Context.push
  let r ← action.run
  modify Context.pop
  return r

def orFail {α : Type} (fault : EncodeFault) (span : Span) : Option α → Encoder α
  | some a => return a
  | none => fail fault span

def toBool (t : Term) (span : Span) : Encoder Formula :=
  match t.ty with
  | .bool => return t.formula
  | .int _ _ => unsupported "non-boolean condition" span

namespace Encode

variable (symbols : SymbolTable)

def ident (id : SymbolId) (ty : Ty) (span : Span) : Encoder Term := do
  let name := symbols.name id
  match (← get).lookup? name with
  | some t => return t
  | none =>
    if (TermType.ofTy? ty).isSome then fail (.unknownVariable name) span
    else fail (.unsupportedType name ty.render) span

def arrayOf (base : Bound.Expr) (span : Span) : Encoder (String × TermType) := do
  match base.kind with
  | .var id =>
    let name := symbols.name id
    match (← get).find? name with
    | some (.array element) => return (name, element)
    | _ => fail (.unsupportedType name base.ty.render) span
  | _ => unsupported "indexing a computed value" span

def element (name : String) (base : Bound.Expr) (ty : TermType) (index : Term) (span : Span) :
    Encoder Term := do
  if index.width?.isNone then fail (.sortMismatch "[]") span
  modify (·.useArray name)
  match ty with
  | .int width _ =>
    let array := Formula.var name (.array Context.indexWidth width)
    return { formula := .select array (index.extendTo Context.indexWidth), ty }
  | .bool => fail (.unsupportedType name base.ty.render) span

def quantified (span : Span) : List SymbolId → Encoder (List (String × VarSort))
  | [] => return []
  | id :: ids => do
    let name := symbols.name id
    let ty := symbols.ty id
    match TermType.ofTy? ty with
    | none => fail (.unsupportedType name ty.render) span
    | some t =>
      let c ← get
      let fresh := c.freshName name
      set { c.bind name (.var fresh t) with fresh := c.fresh + 1 }
      return (fresh, t.sort) :: (← quantified span ids)

mutual

def expr : Bound.Expr → Encoder Term
  | .mk kind ty span => exprKind ty span kind

def exprKind (ty : Ty) (span : Span) : Bound.ExprKind → Encoder Term
  | .int n => return .ofLiteral n
  | .bool b => return { formula := .bool b, ty := .bool }
  | .float _ => unsupported "floating-point literal" span
  | .str _ => unsupported "string literal" span
  | .null => unsupported "null" span
  | .var id => ident symbols id ty span
  | .index base place => do
    let (name, elementType) ← arrayOf symbols base span
    element name base elementType (← expr place) span
  | .binary left op right => do
    if op = .coalesce then unsupported "'??'" span
    let a ← expr left
    let b ← expr right
    orFail (.sortMismatch op.sign) span (Term.binary? op a b)
  | .unary op operand => do
    let t ← expr operand
    orFail (.sortMismatch op.sign) span (Term.unary? op t)
  | .conditional test yes no => do
    let c ← toBool (← expr test) test.span
    let a ← expr yes
    let b ← expr no
    orFail (.sortMismatch "?") span (Term.choose? c a b)
  | .quantifier kind vars body => do
    let (bound, f) ← nested do
      let bound ← quantified symbols span vars
      return (bound, ← toBool (← expr body) body.span)
    return { formula := .quantifier kind bound f, ty := .bool }
  | .call target .unresolved _ _ => unsupported s!"unresolved call to '{target}'" span
  | .call target _ _ _ => unsupported s!"call to '{target}'" span
  | .field _ name => unsupported s!"member access '.{name}'" span
  | .static path => unsupported s!"'{path}'" span
  | .variant owner name => unsupported s!"'{owner}.{name}'" span
  | .create _ _ _ => unsupported "object construction" span
  | .someOf _ => unsupported "option value" span
  | .noneOf => unsupported "option value" span
  | .okOf _ => unsupported "result value" span
  | .errOf _ => unsupported "result value" span
  | .await _ => unsupported "await" span
  | .lambda _ _ => unsupported "lambda" span
  | .matching _ => unsupported "match expression" span
  | .error => unsupported "erroneous expression" span

end

def condition (e : Bound.Expr) : Encoder Formula := do toBool (← expr symbols e) e.span

end Encode

end TagLang.Contract
