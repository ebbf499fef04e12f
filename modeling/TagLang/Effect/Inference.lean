import TagLang.Effect.Site

/-! # Inference of effects

A call to a function of the module contributes what the function declares, or else what its body
does. The call graph is followed depth first: a function that is already being followed contributes
nothing again, and a result that was found without meeting such a function is kept for later calls.
-/

namespace TagLang

structure EffectNode where
  id : String
  declared : Option EffectSet
  sites : List Site
deriving DecidableEq, Repr, Inhabited

abbrev EffectGraph := List EffectNode

namespace EffectNode

def ofFunction (catalog : Catalog) (f : Bound.Function) : EffectNode where
  id := f.id
  declared := f.declaredEffects.map fun codes => .ofCodes (codes.map (·.1))
  sites := Sites.stmts catalog f.body

end EffectNode

/-- The effects found in a body, each with the first place that has it, and the sources of unknown
effects, each with its first place. The latest are last. -/
structure Findings where
  effects : List (Effect × Span) := []
  unknown : List (String × Span) := []
deriving Repr, Inhabited

namespace Findings

def addEffect (f : Findings) (span : Span) (e : Effect) : Findings :=
  if f.effects.any (·.1 = e) then f else { f with effects := f.effects ++ [(e, span)] }

def add (f : Findings) (set : EffectSet) (source : String) (span : Span) : Findings :=
  match set with
  | .known es => es.foldl (fun f e => f.addEffect span e) f
  | .unknown =>
    if f.unknown.any (·.1 = source) then f else { f with unknown := f.unknown ++ [(source, span)] }

def toSet (f : Findings) : EffectSet :=
  if f.unknown.isEmpty then .ofEffects (f.effects.map (·.1)) else .unknown

def spanOf? (f : Findings) (e : Effect) : Option Span := (f.effects.find? (·.1 = e)).map (·.2)

end Findings

namespace Inference

/-- `metCycle` tells that a function was met that is being followed, so that the results of those on
the way to it are partial. -/
structure State where
  memo : Table EffectSet := {}
  metCycle : Bool := false
deriving Repr, Inhabited

abbrev Infer := StateM State

def collect (callee : String → Infer EffectSet) : List Site → Findings → Infer Findings
  | [], f => return f
  | s :: rest, f =>
    match s.cause with
    | .effects set source => collect callee rest (f.add set source s.span)
    | .call id target => do
      let set ← callee id
      collect callee rest (f.add set target s.span)

def remember (id : String) (metCycle : Bool) (set : EffectSet) : Infer Unit := modify fun s =>
  { memo := if s.metCycle then s.memo else s.memo.insert id set, metCycle := s.metCycle || metCycle }

/-- The effects of a call to a function, while the functions `active` are being followed. No
function is followed twice at once, so the number of functions bounds the depth. -/
def callee (graph : EffectGraph) : Nat → List String → String → Infer EffectSet
  | 0, _, _ => return .unknown
  | depth + 1, active, id => do
    match graph.find? (·.id = id) with
    | none => return .unknown
    | some node =>
      match node.declared with
      | some set => return set
      | none =>
        match (← get).memo.get? id with
        | some set => return set
        | none =>
          if active.contains id then
            modify fun s => { s with metCycle := true }
            return .empty
          else
            let outer := (← get).metCycle
            modify fun s => { s with metCycle := false }
            let found ← collect (callee graph depth (id :: active)) node.sites {}
            remember id outer found.toSet
            return found.toSet

def ofNode (graph : EffectGraph) (node : EffectNode) : Infer Findings := do
  let found ← collect (callee graph (graph.length + 1) [node.id]) node.sites {}
  modify fun s => { s with metCycle := false }
  return found

end Inference

namespace EffectGraph

def ofModule (catalog : Catalog) (m : Bound.Module) : EffectGraph :=
  m.functions.map (EffectNode.ofFunction catalog)

def findings (graph : EffectGraph) : List Findings :=
  ((graph.mapM (Inference.ofNode graph)).run {}).1

end EffectGraph

/-! ## Declarations -/

inductive EffectFault
  | undeclared (function code : String)
  | unused (function code : String)
  | unknownEffects (function : String) (sources : List String)
  | unknownCode (function code : String)
  | catalog (e : CatalogError)
deriving DecidableEq, Repr, Inhabited

structure EffectError where
  fault : EffectFault
  span : Span
deriving DecidableEq, Repr, Inhabited

namespace EffectError

def ofCatalog (e : CatalogError) : EffectError := ⟨.catalog e, .nowhere⟩

def message (e : EffectError) : String :=
  match e.fault with
  | .undeclared function code => s!"'{function}' has undeclared effect '{code}'"
  | .unused function code => s!"'{function}' declares effect '{code}' but never performs it"
  | .unknownEffects function sources =>
    let list := ", ".intercalate sources
    s!"effects of '{function}' are unknown: unresolved {list}"
  | .unknownCode function code => s!"unknown effect code '{code}' declared on '{function}'"
  | .catalog e => "effect catalog: " ++ e.message

end EffectError

namespace Effect

def declarations (f : Bound.Function) : List (String × Span) := f.declaredEffects.getD []

/-- The errors of a function whose effects are known: those it does not declare, in the order of
effects, then those it declares in vain. -/
def knownErrors (f : Bound.Function) (found : Findings) : List EffectError :=
  let declared := EffectSet.ofCodes ((declarations f).map (·.1))
  let undeclared := (found.toSet.except declared).toList.map fun e =>
    ⟨.undeclared f.name e.render, (found.spanOf? e).getD f.span⟩
  let unused := (declarations f).filterMap fun (code, span) =>
    match ofCode? code with
    | some e => if found.toSet.contains e then none else some ⟨.unused f.name code, span⟩
    | none => none
  undeclared ++ unused

def unknownError (f : Bound.Function) (found : Findings) : EffectError :=
  ⟨.unknownEffects f.name (found.unknown.map (·.1)), (found.unknown.head?.map (·.2)).getD f.span⟩

def errors (f : Bound.Function) (found : Findings) : List EffectError :=
  let unknownCodes := (declarations f).filterMap fun (code, span) =>
    if (ofCode? code).isSome then none else some ⟨.unknownCode f.name code, span⟩
  unknownCodes ++
    if found.toSet.isUnknown then [unknownError f found] else knownErrors f found

end Effect

structure EffectAnalysis where
  effects : Table EffectSet := {}
  errors : List EffectError := []
deriving Repr, Inhabited

def analyzeEffects (m : Bound.Module) (catalog : Catalog) : EffectAnalysis :=
  let found := m.functions.zip (EffectGraph.ofModule catalog m).findings
  { effects := .ofList (found.map fun (f, g) => (f.id, g.toSet))
    errors := found.flatMap fun (f, g) => Effect.errors f g }

end TagLang
