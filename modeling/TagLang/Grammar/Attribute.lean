import TagLang.Grammar.Stream
import TagLang.Text.Split
import TagLang.Tree
import TagLang.Ty.Read

/-! # Attributes and closing tags

The attribute block of a structural tag begins with the stable ID of the structure, and the closing
tag repeats it.
-/

namespace TagLang.Grammar
open Text

def takeAttrs : Parser (Option (List String × Token)) := do
  match ← peek with
  | .attrs fields => return some (fields, ← take)
  | _ => return none

def missingAttr (tag field : String) (span : Span) : Parser Unit :=
  reportAt span (.missingAttribute tag field)

/-- The attributes of a structural tag and the span of its head. Its ID must not be empty. -/
def structuralAttrs (tag : String) (start : Span) : Parser (List String × Span) := do
  match ← takeAttrs with
  | some (fields, t) =>
    if (fields.headD "").isEmpty then missingAttr tag "id" t.span
    return (fields, start.merge t.span)
  | none =>
    missingAttr tag "id" start
    return ([], start)

def requiredField (fields : List String) (i : Nat) (tag name : String) (span : Span) :
    Parser String := do
  let field := fields.getD i ""
  if field.isEmpty && !fields.isEmpty then missingAttr tag name span
  return field

def typeRef (text : String) (span : Span) : Parser TypeRef := do
  match Ty.read? text with
  | some ty => return ⟨text, ty, span⟩
  | none =>
    reportAt span (.invalidType text)
    return ⟨text, .error, span⟩

/-- Reads the modifiers behind ID and name: visibility and `async`, the last one of a kind winning. -/
def modifiers (fields : List String) (tag : String) (span : Span) : Parser (Visibility × Bool) :=
  ((fields.drop 2).filter (!·.isEmpty)).foldlM (fun (visibility, isAsync) field => do
    if field = "async" then return (visibility, true)
    match Visibility.ofKeyword? field with
    | some v => return (v, isAsync)
    | none =>
      reportAt span (.invalidAttribute tag "visibility" field)
      return (visibility, isAsync)) (.isPrivate, false)

/-! ## Places inside an attribute block -/

def occursAt? (needle : List Char) : List Char → Option Nat
  | [] => if needle.isEmpty then some 0 else none
  | c :: cs => if needle.isPrefixOf (c :: cs) then some 0 else (occursAt? needle cs).map (· + 1)

def byteCount (cs : List Char) : Nat := cs.foldr (·.utf8Size + ·) 0

def spanInside (t : Token) (i : Nat) (text : String) : Span :=
  let before := t.raw.toList.take i
  let start := t.span.start + byteCount before
  ⟨start, start + text.utf8ByteSize, t.span.line, t.span.col + before.length⟩

def idSpan (attrs : Token) (id : String) : Span :=
  let i := if id.isEmpty then 1 else (occursAt? id.toList attrs.raw.toList).getD 1
  spanInside attrs i id

/-- The codes of an effect declaration: each is found behind the one before it. -/
def codeSpans (attrs : Token) : Nat → List String → List (String × Span)
  | _, [] => []
  | start, code :: codes =>
    let i := match occursAt? code.toList (attrs.raw.toList.drop start) with
      | some k => start + k
      | none => 1
    (code, spanInside attrs i code) :: codeSpans attrs (i + code.length) codes

def effectCodes (fields : List String) : List String :=
  ((fields.flatMap (split ',')).map trim).filter (!·.isEmpty)

/-! ## Closing tags -/

/-- Takes the closing tag of a structure and compares its ID. The result is the span of the closing
tag, or of the opening one if the structure is not closed. -/
def expectClose (tag construct openId : String) (openSpan : Span) : Parser Span := do
  if (← peek) = .closeTag tag then
    let close ← take
    match ← takeAttrs with
    | some (fields, attrs) =>
      let closeId := fields.headD ""
      if closeId ≠ openId then
        let span := idSpan attrs closeId
        reportAt span (.mismatchedId tag openId closeId (.closingId openId closeId span))
      return close.span.merge attrs.span
    | none =>
      if !openId.isEmpty then
        let s := close.span
        let span : Span := ⟨s.stop, s.stop, s.line, s.col + close.raw.length⟩
        let fix := Edit.insert s!"add the closing ID '{openId}'" span ("\x7b" ++ openId ++ "\x7d")
        reportAt span (.mismatchedId tag openId "" fix)
      return close.span
  else
    reportAt openSpan (.unclosed construct ("§/" ++ tag ++ "\x7b" ++ openId ++ "\x7d"))
    return openSpan

def expectSimpleClose (tag construct : String) (openSpan : Span) : Parser Span := do
  if (← peek) = .closeTag tag then
    let close ← take
    let _ ← takeAttrs
    return close.span
  else
    reportAt openSpan (.unclosed construct ("§/" ++ tag))
    return openSpan

end TagLang.Grammar
