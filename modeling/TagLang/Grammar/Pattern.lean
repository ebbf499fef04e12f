import TagLang.Grammar.Stream
import TagLang.Tree

/-! # Patterns -/

namespace TagLang.Grammar

variable [Fallback]

def singleArg (name : String) (args : Option (List Pattern)) (span : Span) :
    Except ParseError Pattern :=
  match args with
  | none => .ok (.wildcard span)
  | some [p] => .ok p
  | some ps =>
    .error ⟨.unexpected s!"{ps.length} sub-patterns" s!"exactly one sub-pattern for '{name}'", span⟩

def namedPattern (owner : Option String) (name : String) (args : Option (List Pattern))
    (span : Span) : Except ParseError Pattern :=
  match owner, name, args with
  | none, "Some", args => (singleArg name args span).map (.someOf · span)
  | none, "Ok", args => (singleArg name args span).map (.okOf · span)
  | none, "Err", args => (singleArg name args span).map (.errOf · span)
  | none, "None", none => .ok (.noneOf span)
  | none, name, none => .ok (.binding name span)
  | owner, name, args => .ok (.variant owner name (args.getD []) span)

def pathTail : TryParser (List (String × Span)) :=
  tryMany do
    if (← peek) = .dot then
      let _ ← take
      return .found (← expectIdent)
    else return .done

def patternArgs (pattern : TryParser Pattern) : TryParser (List Pattern × Span) := do
  let opened ← expect .lParen "'('"
  let first ← match ← peek with
    | .rParen => pure []
    | .eof => pure []
    | _ => pure [← pattern]
  let others ← if first.isEmpty then pure [] else tryMany do
    match ← peek with
    | .rParen => return .done
    | .eof => return .done
    | _ =>
      let _ ← expect .comma "',' between patterns"
      return .found (← pattern)
  let closed ← expect .rParen "')'"
  return (first ++ others, opened.span.merge closed.span)

def pattern : Nat → TryParser Pattern
  | 0 => Fallback.pattern
  | fuel + 1 => do
    let t := (← get).current
    match t.kind with
    | .ident "_" =>
      let _ ← take
      return .wildcard t.span
    | .ident name =>
      let _ ← take
      let segments := (name, t.span) :: (← pathTail)
      let span := segments.foldl (fun s (_, s') => s.merge s') t.span
      let (args, span) ← match ← peek with
        | .lParen => do
          let (args, argSpan) ← patternArgs (pattern fuel)
          pure (some args, span.merge argSpan)
        | _ => pure (none, span)
      let names := segments.map (·.1)
      let owner := if names.length ≤ 1 then none else some (".".intercalate names.dropLast)
      ExceptT.mk (pure (namedPattern owner (names.getLastD name) args span))
    | .int n =>
      let _ ← take
      return .literal (.int n) t.span
    | .minus =>
      match ← peekNext with
      | .int n =>
        let _ ← take
        let number ← take
        return .literal (.int (negateSigned 64 n)) (t.span.merge number.span)
      | _ => giveUp "pattern"
    | .str s =>
      let _ ← take
      return .literal (.str s) t.span
    | .bool b =>
      let _ ← take
      return .literal (.bool b) t.span
    | .null =>
      let _ ← take
      return .literal .null t.span
    | .tag "SM" =>
      let _ ← take
      let inner ← pattern fuel
      return .someOf inner (t.span.merge inner.span)
    | .tag "OK" =>
      let _ ← take
      let inner ← pattern fuel
      return .okOf inner (t.span.merge inner.span)
    | .tag "ERR" =>
      let _ ← take
      let inner ← pattern fuel
      return .errOf inner (t.span.merge inner.span)
    | .tag "NN" =>
      let _ ← take
      return .noneOf t.span
    | _ => giveUp "pattern"

end TagLang.Grammar
