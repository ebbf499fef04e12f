import TagLang.Symbol
import TagLang.Table

/-! # Scopes

A name means what the innermost scope that declares it says; within one scope the first declaration
of a name wins.
-/

namespace TagLang

abbrev ScopeId := Nat

abbrev Frame := List (String × SymbolId)

inductive ScopeError
  | underflow
  | outOfOrder (scope : ScopeId)
deriving DecidableEq, Repr, Inhabited

def ScopeError.message : ScopeError → String
  | .underflow => "scope stack underflow: exit without a matching enter"
  | .outOfOrder scope => s!"scope ScopeId({scope}) exited out of order"

structure Scopes where
  inner : Frame := []
  outer : List Frame := []
deriving Repr, Inhabited

namespace Scopes

def root : ScopeId := 0

def current (s : Scopes) : ScopeId := s.outer.length

def depth (s : Scopes) : Nat := s.outer.length + 1

def enter (s : Scopes) : Scopes := ⟨[], s.inner :: s.outer⟩

def exit (s : Scopes) (scope : ScopeId) : Except ScopeError Scopes :=
  match s.outer with
  | [] => .error .underflow
  | frame :: outer => if scope = s.current then .ok ⟨frame, outer⟩ else .error (.outOfOrder scope)

def lookupLocal (s : Scopes) (name : String) : Option SymbolId := s.inner.lookup name

def lookup (s : Scopes) (name : String) : Option SymbolId :=
  (s.inner :: s.outer).findSome? (·.lookup name)

def declare (s : Scopes) (name : String) (id : SymbolId) : Except SymbolId Scopes :=
  match s.lookupLocal name with
  | some previous => .error previous
  | none => .ok { s with inner := (name, id) :: s.inner }

def visibleNames (s : Scopes) : List String :=
  distinctNames ((s.inner :: s.outer).flatMap (·.map (·.1)))

end Scopes

end TagLang
