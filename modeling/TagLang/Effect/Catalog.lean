import TagLang.Effect
import TagLang.Effect.Signature
import TagLang.Json

/-! # The catalog of effects

A project overlays the catalog with a document of its own; a malformed entry of the document is
reported and leaves the catalog as it is.
-/

namespace TagLang

inductive CatalogError
  | invalidDocument (reason : String)
  | malformedSignature (signature : String)
  | invalidCodes (signature : String)
  | unknownCode (signature code : String)
deriving DecidableEq, Repr, Inhabited

def CatalogError.message : CatalogError → String
  | .invalidDocument reason => s!"invalid effect stub document: {reason}"
  | .malformedSignature signature => s!"malformed stub signature '{signature}'"
  | .invalidCodes signature => s!"effects for '{signature}' must be an array of strings"
  | .unknownCode signature code => s!"unknown effect code '{code}' in stub '{signature}'"

/-- How documents are read: a text as JSON, or why it is none, and which names are signatures. -/
structure DocumentReader where
  read : String → Except String Json.Value
  isSignature : String → Bool

def DocumentReader.standard : DocumentReader where
  read text := match Json.read? text with
    | some doc => .ok doc
    | none => .error "<json error>"
  isSignature := Signature.isValid

abbrev Catalog := Table EffectSet

namespace Catalog

def lookup (c : Catalog) (signature : String) : Option EffectSet :=
  match c.get? signature with
  | some found => some found
  | none => do c.get? (← Signature.anyOverload? signature)

def lookupCall (c : Catalog) (receiver method : String) (args : List Ty) : Option EffectSet :=
  c.lookup (Signature.ofCall receiver method args)

/-! ## Documents -/

/-- The errors in a list of codes; nothing behind the first item that is no text is looked at. -/
def codeErrors (signature : String) : List Json.Value → List CatalogError
  | [] => []
  | .str code :: rest =>
    let errors := codeErrors signature rest
    if (Effect.ofCode? code).isSome then errors else .unknownCode signature code :: errors
  | _ :: _ => [.invalidCodes signature]

def entryErrors (reader : DocumentReader) (signature : String) (v : Json.Value) : List CatalogError :=
  if reader.isSignature signature then
    match v with
    | .array items => codeErrors signature items
    | _ => [.invalidCodes signature]
  else [.malformedSignature signature]

def entryCodes : Json.Value → List String
  | .array items => items.filterMap fun
    | .str code => some code
    | _ => none
  | _ => []

def addEntry (reader : DocumentReader) (c : Catalog) (entry : String × Json.Value) : Catalog :=
  if (entryErrors reader entry.1 entry.2).isEmpty
    then c.insert entry.1 (.ofCodes (entryCodes entry.2)) else c

def documentEntries (reader : DocumentReader) (text : String) :
    Except CatalogError (List (String × Json.Value)) :=
  match reader.read text with
  | .error reason => .error (.invalidDocument reason)
  | .ok doc =>
    match doc.get? "stubs" with
    | some (.object entries) => .ok entries
    | _ => .error (.invalidDocument "missing 'stubs' object")

def load (c : Catalog) (text : String) (reader : DocumentReader := .standard) :
    Catalog × List CatalogError :=
  match documentEntries reader text with
  | .error e => (c, [e])
  | .ok entries =>
    (entries.foldl (addEntry reader) c, entries.flatMap fun (s, v) => entryErrors reader s v)

end Catalog

end TagLang
