import TagLang.Binding.State

/-! # Patterns

A pattern is bound against the type of the value that it matches. A bare name that is a variant of
that type means the variant; any other bare name is a new variable.
-/

namespace TagLang.Binding

def payloadType (owner : Option String) (name : String) (arity : Nat) (span : Span) : Binder Ty := do
  match owner with
  | none => return .unknown
  | some owner =>
    match (← registry).sumTypes.get? owner with
    | none => return .unknown
    | some variants =>
      match variants.find? (·.name = name) with
      | some v => return if arity = 1 then v.payload.getD .unknown else .unknown
      | none =>
        report (.undefinedName s!"{owner}.{name}" (similarName? name (variants.map (·.name)))) span
        return .unknown

mutual

def pattern : Pattern → Ty → Binder Bound.Pattern
  | .wildcard span, _ => return .wildcard span
  | .binding name span, expected => do
    match (← registry).ownerFor? name expected with
    | some owner => return .variant (some owner) name [] span
    | none => return .binding (← declareVar name expected span) span
  | .literal value span, _ => return .literal value span
  | .someOf inner span, expected => return .someOf (← pattern inner expected.someType) span
  | .noneOf span, _ => return .noneOf span
  | .okOf inner span, expected => return .okOf (← pattern inner expected.okType) span
  | .errOf inner span, expected => return .errOf (← pattern inner expected.errType) span
  | .variant typeName name args span, expected => do
    let owner := typeName <|> (← registry).ownerFor? name expected
    let argType ← payloadType owner name args.length span
    return .variant owner name (← patterns args argType) span

def patterns : List Pattern → Ty → Binder (List Bound.Pattern)
  | [], _ => return []
  | p :: ps, expected => return (← pattern p expected) :: (← patterns ps expected)

end

end TagLang.Binding
