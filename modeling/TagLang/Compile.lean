import TagLang.Diagnostic.Stage
import TagLang.Effect.Builtin
import TagLang.Solver.Choice

/-! # Compilation

All stages in order. Contracts are verified only if the stages before effects found no errors.
-/

namespace TagLang

structure Options where
  catalog : Catalog := Catalog.builtin
  catalogErrors : List CatalogError := []
  effects : Bool := true
  coverage : Bool := true
  verify : Bool := true
  solver : SolverChoice := .auto
  timeout : Nat := 5000
deriving Inhabited

structure Compilation where
  module : Option Bound.Module := none
  effects : Table EffectSet := {}
  diagnostics : Bag
  verification : Option Contract.Report := none

def frontDiagnostics (options : Options) (out : ParseOutput) : List Diagnostic :=
  options.catalogErrors.map (fun e => (EffectError.ofCatalog e).diagnostic) ++
    out.lexErrors.map (·.diagnostic) ++ out.errors.map (·.diagnostic)

variable {m : Type → Type} [Monad m]

def analyze (options : Options) (solver : Option (Solver m)) (bag : Bag) (module : Bound.Module) :
    m Compilation := do
  let effects := if options.effects then analyzeEffects module options.catalog else {}
  let patterns := if options.coverage then checkMatches module else []
  let verification ← match solver with
    | some solver => if bag.hasErrors then pure none else some <$> verifyContracts module solver
    | none => pure none
  let contractErrors := (verification.map (·.errors)).getD []
  let found := effects.errors.map (·.diagnostic) ++ patterns.map (·.diagnostic) ++
    contractErrors.map (·.diagnostic)
  return {
    module := some module
    effects := effects.effects
    diagnostics := (bag.extend found).sort
    verification := verification }

def compileWith (source : String) (file : Option String) (options : Options)
    (solver : Option (Solver m)) : m (Except ScopeError Compilation) := do
  let out := parse source
  let bag := Bag.extend { file } (frontDiagnostics options out)
  match out.module with
  | none => return .ok { diagnostics := bag.sort }
  | some module =>
    match bind module with
    | .error e => return .error e
    | .ok bound =>
      let bag := bag.extend (bound.errors.map (·.diagnostic))
      return .ok (← analyze options solver bag bound.module)

def compile (source : String) (file : Option String) (options : Options) (reply : Option String) :
    Except ScopeError Compilation :=
  let solver := if options.verify then some (options.solver.solver reply) else none
  Id.run (compileWith source file options solver)

/-! ## Comparison of two versions -/

structure ApiCheck where
  report : ApiReport
  diagnostics : Bag

def checkApis (old new : String) (file : Option String) : ApiCheck :=
  let old := parse old
  let new := parse new
  let front := [old, new].flatMap fun out =>
    out.lexErrors.map (·.diagnostic) ++ out.errors.map (·.diagnostic)
  let bag := Bag.extend { file } front
  match old.module, new.module with
  | some a, some b =>
    let comparison := compareApis a b
    { report := comparison.report, diagnostics := bag.extend (comparison.errors.map (·.diagnostic)) }
  | _, _ => { report := {}, diagnostics := bag }

end TagLang
