import TagLang.Binding.Body

/-! # Binding a module

All items are declared before any body is bound, so their order does not matter to the bodies. Free
functions are bound first, then the methods of the classes, each class in a scope with its members.
-/

namespace TagLang

def FunctionDef.resultType (f : FunctionDef) : Ty := (f.returnType.map (·.ty)).getD .void

def FunctionDef.paramTypes (f : FunctionDef) : List Ty := f.params.map (·.ty.ty)

def ClassDef.members (c : ClassDef) : List MemberDef := c.fields ++ c.properties

def ClassDef.info (c : ClassDef) : ClassInfo where
  members := .ofList (c.members.map fun m => (m.name, m.ty.ty))
  methods := .ofList (c.methods.map fun m => (m.name, ⟨m.id, m.paramTypes, m.resultType⟩))

namespace Binding

/-! ## Declarations -/

def variants (owner : String) (earlier : List VariantDef) : List VariantDef → Binder (List VariantInfo)
  | [] => return []
  | v :: vs =>
    match earlier.find? (·.name = v.name) with
    | some previous => do
      report (.duplicate s!"{owner}.{v.name}" previous.span) v.span
      variants owner (earlier ++ [v]) vs
    | none => return ⟨v.name, v.payload.map (·.ty)⟩ :: (← variants owner (earlier ++ [v]) vs)

def declareType (name : String) (span : Span) : Binder Unit := do
  discard (declare name (.type (.named name [])) span)

def declareSum (d : SumDef) : Binder Unit := do
  declareType d.name d.span
  let infos ← variants d.name [] d.variants
  modify fun s => { s with
    registry := { s.registry with sumTypes := s.registry.sumTypes.insert d.name infos } }

def declareItem : Item → Binder Unit
  | .function f => do
    let params := f.params.map fun p => (p.name, p.ty.ty)
    discard (declare f.name (.function f.id params f.resultType) f.span)
  | .classDef c => do
    declareType c.name c.span
    modify fun s => { s with
      registry := { s.registry with classes := s.registry.classes.insert c.name c.info } }
  | .interface i => do
    declareType i.name i.span
    modify fun s => { s with
      registry := { s.registry with interfaces := s.registry.interfaces.insert i.name () } }
  | .enumeration d => declareSum d
  | .union d => declareSum d

def declareMembers : List MemberDef → Binder Unit
  | [] => return
  | m :: ms => do
    discard (declare m.name (.var m.ty.ty true false) m.span)
    declareMembers ms

/-! ## Functions -/

def conditions (context : String) : List Expr → Binder (List Bound.Expr)
  | [] => return []
  | e :: es => return (← condition context (expr e)) :: (← conditions context es)

/-- The name of the returned value and the postconditions, which are in its scope. -/
def postconditions (f : FunctionDef) : Binder (Option SymbolId × List Bound.Expr) := inScope do
  let result ← if f.resultType = .void then pure none
    else some <$> declareVar "result" f.resultType f.span
  return (result, ← conditions "postcondition" f.postconditions)

def function (owner : Option String) (f : FunctionDef) : Binder Bound.Function := inScope do
  let ids ← params f.params
  let before ← conditions "precondition" f.preconditions
  let (result, after) ← postconditions f
  let body ← returning f.resultType (stmts f.body)
  return {
    id := f.id
    name := f.name
    owner
    visibility := f.visibility
    params := ids
    returnType := f.resultType
    declaredEffects := f.effects.map (·.codes)
    preconditions := before
    postconditions := after
    result
    body
    span := f.span }

def classMethods (c : ClassDef) : Binder (List Bound.Function) := do
  let methods ← inScope do
    discard (declareVar "this" (.named c.name []) c.span)
    declareMembers c.members
    modify fun s => { s with className := some c.name }
    c.methods.mapM (function (some c.name))
  modify fun s => { s with className := none }
  return methods

def functions (m : Module) : Binder (List Bound.Function) := do
  m.items.forM declareItem
  let free ← m.functions.mapM (function none)
  let methods ← m.classes.mapM classMethods
  return free ++ methods.flatten

end Binding

structure BindOutput where
  module : Bound.Module
  errors : List BindError
deriving Inhabited

def bind (m : Module) : Except ScopeError BindOutput :=
  let (functions, s) := (Binding.functions m).run {}
  match s.fault with
  | some e => .error e
  | none => .ok {
      module := ⟨m.id, m.name, m.usings, functions, s.registry, s.symbols⟩
      errors := s.errors.reverse }

end TagLang
