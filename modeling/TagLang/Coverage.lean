import TagLang.Coverage.Matches

/-! # Coverage of matches

Which arms of a match can never be taken, and which values no arm takes. Only arms without a guard
count, and values are told apart by their outermost constructor.
-/

namespace TagLang

inductive PatternFault
  | nonExhaustive (missing : List String) (inExpression : Bool)
  | unreachable (coveredBy : Span)
  | duplicate (pattern : String) (first : Span)
deriving DecidableEq, Repr, Inhabited

structure PatternError where
  fault : PatternFault
  span : Span
deriving DecidableEq, Repr, Inhabited

def PatternError.message (e : PatternError) : String :=
  match e.fault with
  | .nonExhaustive missing _ => "non-exhaustive match: missing " ++ ", ".intercalate missing
  | .unreachable _ => "unreachable match arm: an earlier arm already matches everything"
  | .duplicate pattern _ => s!"duplicate match arm '{pattern}'"

namespace Bound.Pattern

def isCatchAll : Pattern → Bool
  | .wildcard _ => true
  | .binding _ _ => true
  | _ => false

def constant? : Pattern → Option String
  | .literal value _ => some value.render
  | .noneOf _ => some "None"
  | .variant (some owner) name [] _ => some (owner ++ "." ++ name)
  | .variant none name [] _ => some name
  | _ => none

def isSome : Pattern → Bool
  | .someOf _ _ => true
  | _ => false

def isNone : Pattern → Bool
  | .noneOf _ => true
  | _ => false

def isOk : Pattern → Bool
  | .okOf _ _ => true
  | _ => false

def isErr : Pattern → Bool
  | .errOf _ _ => true
  | _ => false

def isBool (value : Bool) : Pattern → Bool
  | .literal (.bool b) _ => b == value
  | _ => false

def isVariant (owner name : String) : Pattern → Bool
  | .variant (some o) n _ _ => n = name && o = owner
  | .variant none n _ _ => n = name
  | _ => false

end Bound.Pattern

namespace Coverage

/-- Reports the patterns that can never be taken. `seen` holds the constants before them, and
`catchAll` the place of a catch-all before them. -/
def deadArms (catchAll : Option Span) (seen : List (String × Span)) :
    List Bound.Pattern → List PatternError
  | [] => []
  | p :: ps =>
    match catchAll with
    | some coveredBy => ⟨.unreachable coveredBy, p.span⟩ :: deadArms catchAll seen ps
    | none =>
      if p.isCatchAll then deadArms (some p.span) seen ps
      else match p.constant? with
        | none => deadArms none seen ps
        | some key =>
          match seen.lookup key with
          | some first => ⟨.duplicate key first, p.span⟩ :: deadArms none seen ps
          | none => deadArms none ((key, p.span) :: seen) ps

/-- A constructor of the values of a type: how it is written, and which patterns take it. -/
structure Case where
  text : String
  taken : Bound.Pattern → Bool

def variantCase (owner : String) (v : VariantInfo) : Case :=
  ⟨if v.payload.isSome then v.name ++ "(_)" else v.name, Bound.Pattern.isVariant owner v.name⟩

def cases (registry : Registry) : Ty → List Case
  | .option _ => [⟨"Some(_)", Bound.Pattern.isSome⟩, ⟨"None", Bound.Pattern.isNone⟩]
  | .result _ _ => [⟨"Ok(_)", Bound.Pattern.isOk⟩, ⟨"Err(_)", Bound.Pattern.isErr⟩]
  | .bool => [⟨"true", Bound.Pattern.isBool true⟩, ⟨"false", Bound.Pattern.isBool false⟩]
  | .named owner _ => ((registry.sumTypes.get? owner).getD []).map (variantCase owner)
  | _ => []

def missing (registry : Registry) (ty : Ty) (patterns : List Bound.Pattern) : List String :=
  ((cases registry ty).filter fun c => !patterns.any c.taken).map (·.text)

def unguarded (m : Bound.Match) : List Bound.Pattern :=
  (m.arms.filter (·.guard.isNone)).map (·.pattern)

def ofMatch (registry : Registry) (m : Bound.Match) : List PatternError :=
  let patterns := unguarded m
  let lacking := if patterns.any Bound.Pattern.isCatchAll then []
    else missing registry m.target.ty patterns
  deadArms none [] patterns ++
    if lacking.isEmpty then [] else [⟨.nonExhaustive lacking m.isExpression, m.span⟩]

end Coverage

def checkMatches (m : Bound.Module) : List PatternError :=
  (m.functions.flatMap fun f => Matches.stmts f.body).flatMap (Coverage.ofMatch m.registry)

end TagLang
