import TagLang.Binding.State
import TagLang.Text.Split

/-! # Names, members and callees

A dotted name is tried as a variable and its members first, then as a variant of a sum type; a name
whose root means nothing in the module stands for something outside it.
-/

namespace TagLang

def Expr.root? : Expr → Option String
  | .ident name _ => some name
  | .field base _ _ => base.root?
  | _ => none

def Expr.path? : Expr → Option String
  | .ident name _ => some name
  | .field base name _ => base.path?.map (· ++ "." ++ name)
  | _ => none

namespace Binding

def undefinedName (name : String) (span : Span) : Binder Bound.Expr := do
  let suggestion := similarName? name (← get).scopes.visibleNames
  report (.undefinedName name suggestion) span
  let id ← addSymbol ⟨name, .error, span⟩
  return .mk (.var id) .error span

def ident (name : String) (span : Span) : Binder Bound.Expr := do
  match ← lookup name with
  | some id => return .mk (.var id) (← symbolType id) span
  | none =>
    match (← registry).uniqueOwner? name with
    | some owner => return .mk (.variant owner name) (.named owner []) span
    | none => undefinedName name span

/-- The type of a member. Only the members of the classes of the module are known to be all. -/
def memberType (ty : Ty) (member : String) (span : Span) : Binder Ty := do
  match ty with
  | .named name _ =>
    match (← registry).classes.get? name with
    | none => return .unknown
    | some info =>
      match info.members.get? member with
      | some t => return t
      | none =>
        report (.undefinedName s!"{name}.{member}" (similarName? member info.members.keys)) span
        return .error
  | .array _ => return if member = "Length" || member = "Count" then .i32 else .unknown
  | .str => return if member = "Length" || member = "Count" then .i32 else .unknown
  | _ => return .unknown

/-- What a dotted name means whose root is no variable: a variant, or something outside the module.
A name whose root is a variant has a meaning of its own, which is not found here. -/
def qualified? (base : Expr) (name : String) (span : Span) : Binder (Option Bound.Expr) := do
  match base.root?, base.path? with
  | some root, some path =>
    if (← lookup root).isSome then return none
    let r ← registry
    if r.sumTypes.contains path then
      if (r.variant? path name).isSome then
        return some (.mk (.variant path name) (.named path []) span)
      return some (← undefinedName s!"{path}.{name}" span)
    if (r.uniqueOwner? root).isSome then return none
    return some (.mk (.static s!"{path}.{name}") .unknown span)
  | _, _ => return none

def member (base : Bound.Expr) (name : String) (span : Span) : Binder Bound.Expr := do
  return .mk (.field base name) (← memberType base.ty name span) span

/-! ## Calls -/

def path (id : SymbolId) (members : List String) (span : Span) : Binder Bound.Expr := do
  let start := Bound.Expr.mk (.var id) (← symbolType id) span
  members.foldlM (fun base name => member base name span) start

def callable? (name : String) (args : List Bound.Expr) (span : Span) :
    Binder (Option (Bound.Callee × Ty)) := do
  match ← lookup name with
  | none => return none
  | some id =>
    match (← get).symbols.get? id with
    | some ⟨_, .function fid params returnType, _⟩ =>
      expectArgs name (params.map (·.2)) args span
      return some (.function id fid, returnType)
    | some ⟨_, .var (.function _ ret) _ _, _⟩ => return some (.value id, ret)
    | some ⟨_, .var ty _ _, _⟩ =>
      return if ty.isIndeterminate then some (.value id, .unknown) else none
    | _ => return none

def unresolved (name : String) (suggestion : Option String) (span : Span) :
    Binder (Bound.Callee × Ty) := do
  report (.undefinedFunction name suggestion) span
  return (.unresolved, .error)

def method (className name : String) (m : MethodInfo) (args : List Bound.Expr) (span : Span) :
    Binder (Bound.Callee × Ty) := do
  expectArgs name m.params args span
  return (.method className m.id, m.returnType)

def freeCallee (name : String) (args : List Bound.Expr) (span : Span) : Binder (Bound.Callee × Ty) := do
  match ← callable? name args span with
  | some found => return found
  | none =>
    let s ← get
    match s.className with
    | some className =>
      match s.registry.method? className name with
      | some m => method className name m args span
      | none => unresolved name (similarName? name s.symbols.functionNames) span
    | none => unresolved name (similarName? name s.symbols.functionNames) span

/-- A call on a receiver means a method of the receiver's class, a method of the class that the
receiver names, or something outside the module. -/
def memberCallee (receiver name : String) (args : List Bound.Expr) (span : Span) :
    Binder (Bound.Callee × Option Bound.Expr × Ty) := do
  let names := Text.split '.' receiver
  match ← lookup (names.headD receiver) with
  | some id =>
    let value ← path id (names.drop 1) span
    let outside := (Bound.Callee.external value.ty.receiverName name, some value, Ty.unknown)
    match value.ty with
    | .named className _ =>
      match (← registry).classes.get? className with
      | none => return outside
      | some info =>
        let (callee, ty) ← match info.methods.get? name with
          | some m => method className name m args span
          | none => unresolved s!"{className}.{name}" none span
        return (callee, some value, ty)
    | _ => return outside
  | none =>
    match (← registry).classes.get? receiver with
    | some info =>
      let (callee, ty) ← match info.methods.get? name with
        | some m => method receiver name m args span
        | none => unresolved s!"{receiver}.{name}" (similarName? name info.methods.keys) span
      return (callee, none, ty)
    | none => return (.external receiver name, none, .unknown)

def call (target : String) (args : List Bound.Expr) (span : Span) : Binder Bound.Expr := do
  match Text.cutLast? '.' target with
  | none =>
    let (callee, ty) ← freeCallee target args span
    return .mk (.call target callee none args) ty span
  | some (receiver, name) =>
    let (callee, value, ty) ← memberCallee receiver name args span
    return .mk (.call target callee value args) ty span

end Binding

end TagLang
