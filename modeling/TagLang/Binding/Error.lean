import TagLang.Source.Span

/-! # Errors of binding -/

namespace TagLang

inductive BindFault
  | undefinedName (name : String) (suggestion : Option String)
  | duplicate (name : String) (previous : Span)
  | mismatch (context expected found : String)
  | immutable (name : String)
  | undefinedFunction (name : String) (suggestion : Option String)
deriving DecidableEq, Repr, Inhabited

structure BindError where
  fault : BindFault
  span : Span
deriving DecidableEq, Repr, Inhabited

namespace BindError

def message (e : BindError) : String :=
  match e.fault with
  | .undefinedName name _ => s!"undefined name '{name}'"
  | .duplicate name _ => s!"duplicate definition of '{name}'"
  | .mismatch context expected found =>
    s!"type mismatch in {context}: expected {expected}, found {found}"
  | .immutable name => s!"cannot assign to immutable variable '{name}'"
  | .undefinedFunction name _ => s!"undefined function '{name}'"

def suggestion? (e : BindError) : Option String :=
  match e.fault with
  | .undefinedName _ suggestion => suggestion
  | .undefinedFunction _ suggestion => suggestion
  | _ => none

end BindError

end TagLang
