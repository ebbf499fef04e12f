import TagLang.Grammar.Statement

/-! # Items and modules

`parse` goes on behind an error, so a partial tree comes with every list of errors.
-/

namespace TagLang.Grammar

variable [Fallback]

structure Head where
  params : List Param := []
  returnType : Option TypeRef := none
  effects : Option EffectDecl := none
  preconditions : List Expr := []
  postconditions : List Expr := []
  breaking : Option BreakingMarker := none

def effectDecl : Parser EffectDecl := do
  let t ← take
  match ← takeAttrs with
  | some (fields, attrs) =>
    return ⟨codeSpans attrs 0 (effectCodes fields), t.span.merge attrs.span⟩
  | none => return ⟨[], t.span⟩

def headParts (r : Rules) : Parser (List (Head → Head)) :=
  many do
    match ← peek with
    | .tag "I" =>
      match ← param with
      | some p => return .found fun h => { h with params := h.params ++ [p] }
      | none => return .skip
    | .tag "O" =>
      let t ← take
      match ← takeAttrs with
      | some (type :: _, attrs) =>
        let ty ← typeRef type attrs.span
        return .found fun h => { h with returnType := some ty }
      | _ =>
        missingAttr "O" "type" t.span
        return .skip
    | .tag "E" =>
      let effects ← effectDecl
      return .found fun h => { h with effects := some effects }
    | .tag "Q" =>
      let _ ← take
      let e ← r.exprOrError
      return .found fun h => { h with preconditions := h.preconditions ++ [e] }
    | .tag "S" =>
      let _ ← take
      let e ← r.exprOrError
      return .found fun h => { h with postconditions := h.postconditions ++ [e] }
    | .tag "BREAKING" =>
      let t ← take
      let reason := ((← takeAttrs).map fun (fields, _) => ":".intercalate fields).filter (!·.isEmpty)
      return .found fun h => { h with breaking := some ⟨reason, t.span⟩ }
    | _ => return .done

structure Announced where
  id : String
  name : String
  visibility : Visibility
  isAsync : Bool
  span : Span

def announced (tag : String) : Parser Announced := do
  let start := (← take).span
  let (fields, head) ← structuralAttrs tag start
  let name ← requiredField fields 1 tag "name" head
  let (visibility, isAsync) ← modifiers fields tag head
  return ⟨fields.headD "", name, visibility, isAsync, head⟩

def function (tag : String) : Parser FunctionDef := do
  let a ← announced tag
  withOpen tag do
    let parts ← headParts (← currentRules)
    let h := parts.foldl (fun h part => part h) {}
    let body ← (← currentRules).block
    let stop ← expectClose tag (if tag = "F" then "function" else "method") a.id a.span
    return {
      id := a.id
      name := a.name
      visibility := a.visibility
      isAsync := a.isAsync
      params := h.params
      returnType := h.returnType
      effects := h.effects
      preconditions := h.preconditions
      postconditions := h.postconditions
      breaking := h.breaking
      body
      span := a.span.merge stop }

/-- Members of a structure, up to the closing tag of a structure that is open. `member` looks at the
current token and says nothing if it begins no member. -/
def members (member : TokenKind → Option (Parser (Round α))) (expected : String) :
    Parser (List α) :=
  many do
    let s ← get
    let other : Parser (Round α) := match member s.kind with
      | some p => p
      | none => do
        reportUnexpected expected
        recover
        return .skip
    match s.kind with
    | .eof => return .done
    | .closeTag name =>
      if s.isOpen name then return .done
      else
        skipStrayClose
        return .skip
    | _ => other

def method : Parser FunctionDef := function "MT"

inductive ClassMember
  | field (m : MemberDef)
  | property (m : MemberDef)
  | method (f : FunctionDef)

def memberDef (tag : String) : Parser (Option MemberDef) := do
  let t ← take
  match ← takeAttrs with
  | some (fields, attrs) =>
    if (fields.getD 1 "").isEmpty then
      missingAttr tag "type:name" t.span
      return none
    else
      let ty ← typeRef (fields.headD "") attrs.span
      let visibility := (fields[2]?.bind Visibility.ofKeyword?).getD .isPrivate
      return some ⟨fields.getD 1 "", ty, visibility, t.span.merge attrs.span⟩
  | none =>
    missingAttr tag "type:name" t.span
    return none

def Round.ofOption : Option α → Round α
  | some a => .found a
  | none => .skip

def classMember : TokenKind → Option (Parser (Round ClassMember))
  | .tag "FLD" => some do return .ofOption ((← memberDef "FLD").map .field)
  | .tag "PROP" => some do return .ofOption ((← memberDef "PROP").map .property)
  | .tag "MT" => some do return .found (.method (← method))
  | _ => none

def classDef : Parser ClassDef := do
  let a ← announced "CL"
  withOpen "CL" do
    let ms ← members classMember "class member (§FLD, §PROP or §MT)"
    let stop ← expectClose "CL" "class" a.id a.span
    return {
      id := a.id
      name := a.name
      visibility := a.visibility
      fields := ms.filterMap fun
        | .field m => some m
        | _ => none
      properties := ms.filterMap fun
        | .property m => some m
        | _ => none
      methods := ms.filterMap fun
        | .method f => some f
        | _ => none
      span := a.span.merge stop }

def interfaceMember : TokenKind → Option (Parser (Round FunctionDef))
  | .tag "MT" => some do return .found (← method)
  | _ => none

def interfaceDef : Parser InterfaceDef := do
  let a ← announced "IFACE"
  withOpen "IFACE" do
    let methods ← members interfaceMember "interface method (§MT)"
    let stop ← expectClose "IFACE" "interface" a.id a.span
    return { id := a.id, name := a.name, visibility := a.visibility, methods, span := a.span.merge stop }

def variantDef : Parser (Round VariantDef) := do
  let t ← take
  match ← takeAttrs with
  | some (fields, attrs) =>
    if (fields.headD "").isEmpty then
      missingAttr "V" "name" t.span
      return .skip
    else
      let type := fields.getD 1 ""
      let payload ← if type.isEmpty then pure none else some <$> typeRef type attrs.span
      return .found ⟨fields.headD "", payload, t.span.merge attrs.span⟩
  | none =>
    missingAttr "V" "name" t.span
    return .skip

def enumMember : TokenKind → Option (Parser (Round VariantDef))
  | .comma => some do
    let _ ← take
    return .skip
  | .ident name => some do
    return .found ⟨name, none, (← take).span⟩
  | .tag "V" => some variantDef
  | _ => none

def unionMember : TokenKind → Option (Parser (Round VariantDef))
  | .tag "V" => some variantDef
  | _ => none

def sumDef (tag construct expected : String)
    (member : TokenKind → Option (Parser (Round VariantDef))) : Parser SumDef := do
  let a ← announced tag
  withOpen tag do
    let variants ← members member expected
    let stop ← expectClose tag construct a.id a.span
    return { id := a.id, name := a.name, visibility := a.visibility, variants, span := a.span.merge stop }

inductive TopLevel
  | using (path : String)
  | item (i : Item)

def topLevelRound : Parser (Round TopLevel) := do
  match ← peek with
  | .eof => return .done
  | .closeTag "M" => return .done
  | .closeTag _ =>
    skipStrayClose
    return .skip
  | .tag "U" =>
    let t ← take
    match ← takeAttrs with
    | some (field :: fields, _) => return .found (.using (":".intercalate (field :: fields)))
    | _ =>
      missingAttr "U" "namespace" t.span
      return .skip
  | .tag "F" => return .found (.item (.function (← function "F")))
  | .tag "CL" => return .found (.item (.classDef (← classDef)))
  | .tag "IFACE" => return .found (.item (.interface (← interfaceDef)))
  | .tag "EN" =>
    return .found (.item (.enumeration (← sumDef "EN" "enum" "enum variant name" enumMember)))
  | .tag "UN" =>
    return .found (.item (.union (← sumDef "UN" "union" "union variant (§V)" unionMember)))
  | .tag _ =>
    reportUnexpected "module item (§F, §CL, §IFACE, §EN, §UN or §U)"
    recover
    return .skip
  | _ =>
    reportUnexpected "module item"
    recover
    return .skip

def topLevel : Parser (List TopLevel) := many topLevelRound

def TopLevel.path? : TopLevel → Option String
  | .using path => some path
  | _ => none

def TopLevel.item? : TopLevel → Option Item
  | .item i => some i
  | _ => none

def moduleHeader : Parser (String × String × Span) := do
  let start := (← take).span
  let (fields, head) ← structuralAttrs "M" start
  let name ← requiredField fields 1 "M" "name" head
  return (fields.headD "", name, head)

def moduleContents (id name : String) (head : Span) : Parser Module := do
  let m ← withOpen "M" do
    let parts ← topLevel
    let stop ← expectClose "M" "module" id head
    return {
      id
      name
      usings := parts.filterMap TopLevel.path?
      items := parts.filterMap TopLevel.item?
      span := head.merge stop : Module }
  if (← peek) ≠ .eof then reportUnexpected "end of input after module"
  return m

def moduleBody : Parser Module := do
  let (id, name, head) ← moduleHeader
  moduleContents id name head

def module : Parser (Option Module) := do
  if (← peek) = .tag "M" then return some (← moduleBody)
  else
    reportUnexpected "§M module header"
    modify (·.skipUntil fun kind => kind = .eof || kind = .tag "M")
    if (← peek) = .eof then return none else return some (← moduleBody)

end Grammar

structure ParseOutput where
  module : Option Module
  lexErrors : List LexError
  errors : List ParseError

def ParseOutput.hasErrors (p : ParseOutput) : Bool := !p.lexErrors.isEmpty || !p.errors.isEmpty

def parse (source : String) : ParseOutput :=
  let lexed := lex source
  let (module, s) := Grammar.module.run (.ofTokens lexed.tokens)
  { module, lexErrors := lexed.errors, errors := s.errors.reverse }

end TagLang
