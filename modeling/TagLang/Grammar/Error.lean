import TagLang.Edit

/-! # Errors in the grammar -/

namespace TagLang

inductive ParseFault
  | unexpected (found expected : String)
  | unexpectedEof (expected : String)
  | mismatchedId (tag openId closeId : String) (fix : Edit)
  | unclosed (construct expected : String)
  | missingAttribute (tag field : String)
  | invalidType (text : String)
  | invalidAttribute (tag what value : String)
deriving DecidableEq, Repr

structure ParseError where
  fault : ParseFault
  span : Span
deriving DecidableEq, Repr

def ParseFault.message : ParseFault → String
  | .unexpected found expected => s!"unexpected {found}; expected {expected}"
  | .unexpectedEof expected => s!"unexpected end of input; expected {expected}"
  | .mismatchedId tag openId closeId _ =>
    s!"closing tag §/{tag} has ID '{closeId}' but the opening tag has '{openId}'"
  | .unclosed construct expected => s!"unclosed {construct}; expected {expected}"
  | .missingAttribute tag field => s!"§{tag} is missing its {field} attribute"
  | .invalidType text => s!"invalid type '{text}'"
  | .invalidAttribute tag what value => s!"invalid {what} '{value}' on §{tag}"

def ParseError.message (e : ParseError) : String := e.fault.message

def ParseError.fix? (e : ParseError) : Option Edit :=
  match e.fault with
  | .mismatchedId _ _ _ fix => some fix
  | _ => none

end TagLang
