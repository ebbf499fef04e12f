import TagLang.Binding.Error
import TagLang.Binding.Typing
import TagLang.Edit.Distance
import TagLang.Scope

/-! # The state of binding

Binding declares symbols in nested scopes and never stops at an error: every error is recorded, and
what is erroneous gets the erroneous type, which goes with every other type.
-/

namespace TagLang.Binding

structure State where
  symbols : SymbolTable := {}
  scopes : Scopes := {}
  registry : Registry := {}
  errors : List BindError := []
  returnTypes : List Ty := []
  className : Option String := none
  fault : Option ScopeError := none
deriving Inhabited

abbrev Binder := StateM State

def report (fault : BindFault) (span : Span) : Binder Unit :=
  modify fun s => { s with errors := ⟨fault, span⟩ :: s.errors }

/-! ## Scopes -/

def enter : Binder ScopeId := modifyGet fun s =>
  let scopes := s.scopes.enter
  (scopes.current, { s with scopes })

def leave (scope : ScopeId) : Binder Unit := modify fun s =>
  match s.scopes.exit scope with
  | .ok scopes => { s with scopes }
  | .error e => { s with fault := s.fault <|> some e }

def inScope {α : Type} (action : Binder α) : Binder α := do
  let scope ← enter
  let a ← action
  leave scope
  return a

def returning {α : Type} (ty : Ty) (action : Binder α) : Binder α := do
  modify fun s => { s with returnTypes := ty :: s.returnTypes }
  let a ← action
  modify fun s => { s with returnTypes := s.returnTypes.drop 1 }
  return a

def returnType : Binder Ty := do return (← get).returnTypes.head?.getD .unknown

/-! ## Symbols -/

def addSymbol (symbol : Symbol) : Binder SymbolId := modifyGet fun s =>
  (s.symbols.size, { s with symbols := s.symbols.add symbol })

def declare (name : String) (kind : SymbolKind) (span : Span) : Binder SymbolId := do
  let id ← addSymbol ⟨name, kind, span⟩
  let s ← get
  match s.scopes.declare name id with
  | .ok scopes => set { s with scopes }
  | .error previous => report (.duplicate name (((s.symbols.get? previous).map (·.span)).getD span)) span
  return id

def declareVar (name : String) (ty : Ty) (span : Span) : Binder SymbolId :=
  declare name (.var ty false false) span

def declareParam (p : Param) : Binder SymbolId := declare p.name (.var p.ty.ty false true) p.span

def lookup (name : String) : Binder (Option SymbolId) := do return (← get).scopes.lookup name

def symbolType (id : SymbolId) : Binder Ty := do return (← get).symbols.ty id

def registry : Binder Registry := do return (← get).registry

/-! ## Checks -/

def mismatch (context : String) (expected found : Ty) (span : Span) : Binder Unit :=
  report (.mismatch context expected.render found.render) span

def expect (context : String) (expected : Ty) (value : Bound.Expr) : Binder Unit :=
  unless value.fits expected do mismatch context expected value.ty value.span

def expectBool (context : String) (value : Bound.Expr) : Binder Unit :=
  unless Ty.bool.accepts value.ty do mismatch context .bool value.ty value.span

def expectInteger (context : String) (value : Bound.Expr) : Binder Unit :=
  unless value.ty.isInteger || value.ty.isIndeterminate do mismatch context .i32 value.ty value.span

def expectArgsFrom (name : String) : Nat → List Ty → List Bound.Expr → Binder Unit
  | n, ty :: tys, arg :: args => do
    expect s!"argument {n} of '{name}'" ty arg
    expectArgsFrom name (n + 1) tys args
  | _, _, _ => return

def expectArgs (name : String) (params : List Ty) (args : List Bound.Expr) (span : Span) :
    Binder Unit := do
  if params.length = args.length then expectArgsFrom name 1 params args
  else
    report (.mismatch s!"call to '{name}'" s!"{params.length} argument(s)"
      s!"{args.length} argument(s)") span

end TagLang.Binding
