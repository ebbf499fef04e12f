import TagLang.Binding.Module

/-! # Comparison of public interfaces

The public interface of a module is its public functions and the public methods of its public
classes, each known by its identifier.
-/

namespace TagLang

inductive ApiFault
  | undeclaredBreaking (id name : String) (changes : List String)
  | removed (id name : String)
  | declaredBreaking (id name : String) (changes : List String)
deriving DecidableEq, Repr, Inhabited

structure ApiError where
  fault : ApiFault
  span : Span
deriving DecidableEq, Repr, Inhabited

def ApiError.message (e : ApiError) : String :=
  match e.fault with
  | .undeclaredBreaking _ name changes =>
    s!"breaking change to public function '{name}' without a §BREAKING marker: " ++
      "; ".intercalate changes
  | .removed id name => s!"public function '{name}' ({id}) was removed"
  | .declaredBreaking _ name changes =>
    s!"declared breaking change to '{name}': " ++ "; ".intercalate changes

structure ApiReport where
  breaking : List String := []
  added : List String := []
  removed : List String := []
deriving DecidableEq, Repr, Inhabited

def ApiReport.hasBreaking (r : ApiReport) : Bool := !r.breaking.isEmpty || !r.removed.isEmpty

structure ApiComparison where
  report : ApiReport
  errors : List ApiError
deriving Repr, Inhabited

namespace Api

/-- A function with its effective visibility: a method is only as visible as its class. -/
structure Entry where
  function : FunctionDef
  isPublic : Bool
deriving Inhabited

namespace Entry

def id (e : Entry) : String := e.function.id

def label (e : Entry) : String := s!"{e.function.id} ({e.function.name})"

end Entry

def surface (m : Module) : List Entry :=
  m.functions.map (fun f => ⟨f, f.isPublic⟩) ++
    m.classes.flatMap fun c => c.methods.map fun f => ⟨f, c.visibility = .isPublic && f.isPublic⟩

def publicSurface (m : Module) : List Entry := (surface m).filter (·.isPublic)

def find? (entries : List Entry) (id : String) : Option Entry := entries.reverse.find? (·.id = id)

/-! ## Changes of one function -/

def visibilityChanges (new : Entry) : List String :=
  if new.isPublic then []
  else if new.function.isPublic then ["no longer public: declaring class is not public"]
  else [s!"visibility narrowed from pub to {new.function.visibility.keyword}"]

def paramChanges : Nat → List Param → List Param → List String
  | n, a :: as, b :: bs =>
    (if a.ty.ty = b.ty.ty then []
      else [s!"parameter {n} type changed from {a.ty.ty.render} to {b.ty.ty.render}"]) ++
    (if a.name = b.name then [] else [s!"parameter {n} renamed from {a.name} to {b.name}"]) ++
    paramChanges (n + 1) as bs
  | _, _, _ => []

def changes (old : FunctionDef) (new : Entry) : List String :=
  let f := new.function
  visibilityChanges new ++
  (if old.params.length = f.params.length then []
    else [s!"parameter count changed from {old.params.length} to {f.params.length}"]) ++
  paramChanges 1 old.params f.params ++
  (if old.resultType = f.resultType then []
    else [s!"return type changed from {old.resultType.render} to {f.resultType.render}"]) ++
  if f.preconditions.length ≤ old.preconditions.length then []
  else [s!"preconditions increased from {old.preconditions.length} to {f.preconditions.length}"]

def breakingError (f : FunctionDef) (changes : List String) : ApiError :=
  ⟨if f.breaking.isSome then .declaredBreaking f.id f.name changes
    else .undeclaredBreaking f.id f.name changes, f.span⟩

def changed (old new : Module) : List (Entry × List String) :=
  (surface new).filterMap fun e =>
    match find? (publicSurface old) e.id with
    | some before =>
      let found := changes before.function e
      if found.isEmpty then none else some (e, found)
    | none => none

def added (old new : Module) : List Entry :=
  (publicSurface new).filter fun e => (find? (publicSurface old) e.id).isNone

def removed (old new : Module) : List Entry :=
  (publicSurface old).filter fun e => (find? (surface new) e.id).isNone

end Api

def compareApis (old new : Module) : ApiComparison :=
  let changed := Api.changed old new
  let removed := Api.removed old new
  { report := {
      breaking := changed.flatMap fun (e, changes) => changes.map fun c => s!"{e.label}: {c}"
      added := (Api.added old new).map (·.label)
      removed := removed.map (·.label) }
    errors := changed.map (fun (e, changes) => Api.breakingError e.function changes) ++
      removed.map fun e => ⟨.removed e.function.id e.function.name, e.function.span⟩ }

end TagLang
