import TagLang.Source.Span
import TagLang.Ty

/-! # Symbols

All symbols of a module are in one table, and a symbol is known by its place there.
-/

namespace TagLang

abbrev SymbolId := Nat

inductive SymbolKind
  | var (ty : Ty) (isMutable isParameter : Bool)
  | function (id : String) (params : List (String × Ty)) (returnType : Ty)
  | type (ty : Ty)
  | error
deriving DecidableEq, Repr, Inhabited

structure Symbol where
  name : String
  kind : SymbolKind
  span : Span
deriving DecidableEq, Repr, Inhabited

namespace Symbol

def ty (s : Symbol) : Ty :=
  match s.kind with
  | .var ty _ _ => ty
  | .function _ params returnType => .function (params.map (·.2)) returnType
  | .type ty => ty
  | .error => .error

def isError (s : Symbol) : Bool := s.kind = .error

def isFunction (s : Symbol) : Bool :=
  match s.kind with
  | .function _ _ _ => true
  | _ => false

def isMutable (s : Symbol) : Bool :=
  match s.kind with
  | .var _ isMutable _ => isMutable
  | _ => false

def isConstant (s : Symbol) : Bool :=
  match s.kind with
  | .var _ isMutable _ => !isMutable
  | _ => false

end Symbol

structure SymbolTable where
  symbols : Array Symbol := #[]
deriving Repr, Inhabited

namespace SymbolTable

def add (t : SymbolTable) (s : Symbol) : SymbolTable := ⟨t.symbols.push s⟩

def size (t : SymbolTable) : Nat := t.symbols.size

def get? (t : SymbolTable) (id : SymbolId) : Option Symbol := t.symbols[id]?

def name (t : SymbolTable) (id : SymbolId) : String := ((t.get? id).map (·.name)).getD "<unknown>"

def ty (t : SymbolTable) (id : SymbolId) : Ty := ((t.get? id).map (·.ty)).getD .error

def functionNames (t : SymbolTable) : List String :=
  (t.symbols.toList.filter (·.isFunction)).map (·.name)

end SymbolTable

end TagLang
