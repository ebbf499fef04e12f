import TagLang.Api
import TagLang.Contract.Verify
import TagLang.Coverage
import TagLang.Diagnostic
import TagLang.Effect.Inference
import TagLang.Grammar.Item

/-! # Diagnostics of the stages -/

namespace TagLang

namespace LexError

def code (e : LexError) : String :=
  match e.fault with
  | .unexpectedChar _ => "E0001"
  | .unterminatedString => "E0002"
  | .invalidEscape _ => "E0003"
  | .malformedLiteral _ => "E0004"
  | .unterminatedAttributes => "E0005"

def diagnostic (e : LexError) : Diagnostic := .ofSpan e.code .error e.message e.span

end LexError

namespace ParseError

def code (e : ParseError) : String :=
  match e.fault with
  | .unexpected _ _ => "E0010"
  | .unexpectedEof _ => "E0011"
  | .mismatchedId _ _ _ _ => "E0012"
  | .unclosed _ _ => "E0013"
  | .missingAttribute _ _ => "E0014"
  | .invalidType _ => "E0015"
  | .invalidAttribute _ _ _ => "E0016"

def diagnostic (e : ParseError) : Diagnostic :=
  let d := Diagnostic.ofSpan e.code .error e.message e.span
  match e.fault with
  | .mismatchedId _ _ _ fix => d.withFix fix
  | .unclosed _ expected => d.suggest s!"add {expected}"
  | _ => d

end ParseError

namespace BindError

def code (e : BindError) : String :=
  match e.fault with
  | .undefinedName _ _ => "E0100"
  | .duplicate _ _ => "E0101"
  | .mismatch _ _ _ => "E0102"
  | .immutable _ => "E0103"
  | .undefinedFunction _ _ => "E0104"

def diagnostic (e : BindError) : Diagnostic :=
  let d := Diagnostic.ofSpan e.code .error e.message e.span
  let d := match e.suggestion? with
    | some name => d.suggest s!"did you mean '{name}'?"
    | none => d
  match e.fault with
  | .duplicate _ previous => d.suggest s!"first defined at line {previous.line}"
  | _ => d

end BindError

namespace EffectError

def code (e : EffectError) : String :=
  match e.fault with
  | .undeclared _ _ => "E0300"
  | .unused _ _ => "E0301"
  | .unknownEffects _ _ => "E0302"
  | .unknownCode _ _ => "E0303"
  | .catalog _ => "E0304"

def severity (e : EffectError) : Severity :=
  match e.fault with
  | .unused _ _ => .info
  | _ => .warning

def diagnostic (e : EffectError) : Diagnostic :=
  let d := Diagnostic.ofSpan e.code e.severity e.message e.span
  match e.fault with
  | .undeclared _ code => d.suggest s!"add '{code}' to the function's §E list"
  | .unknownEffects _ _ => d.suggest "add the signatures to the effect stub file"
  | _ => d

end EffectError

namespace PatternError

def code (e : PatternError) : String :=
  match e.fault with
  | .nonExhaustive _ _ => "E0400"
  | .unreachable _ => "E0401"
  | .duplicate _ _ => "E0402"

def severity (e : PatternError) : Severity :=
  match e.fault with
  | .nonExhaustive _ true => .error
  | _ => .warning

def diagnostic (e : PatternError) : Diagnostic :=
  let d := Diagnostic.ofSpan e.code e.severity e.message e.span
  match e.fault with
  | .unreachable coveredBy => d.suggest s!"the arm at line {coveredBy.line} matches every value"
  | .duplicate _ first => d.suggest s!"first tested at line {first.line}"
  | .nonExhaustive _ _ => d

end PatternError

namespace Contract.Error

def code (e : Error) : String :=
  match e.fault with
  | .refuted _ _ _ => "E0200"
  | .contradictory _ => "E0201"
  | .undecided _ _ _ => "E0202"
  | .unencodable _ _ => "E0203"

def severity (e : Error) : Severity :=
  match e.fault with
  | .refuted _ _ _ => .error
  | .contradictory _ => .warning
  | _ => .info

def diagnostic (e : Error) : Diagnostic := Diagnostic.ofSpan e.code e.severity e.message e.span

end Contract.Error

namespace ApiError

def code (e : ApiError) : String :=
  match e.fault with
  | .undeclaredBreaking _ _ _ => "E0500"
  | .removed _ _ => "E0501"
  | .declaredBreaking _ _ _ => "E0502"

def severity (e : ApiError) : Severity :=
  match e.fault with
  | .declaredBreaking _ _ _ => .info
  | _ => .error

def diagnostic (e : ApiError) : Diagnostic :=
  let d := Diagnostic.ofSpan e.code e.severity e.message e.span
  match e.fault with
  | .undeclaredBreaking _ _ _ => d.suggest "add a §BREAKING marker or revert the change"
  | _ => d

end ApiError

end TagLang
