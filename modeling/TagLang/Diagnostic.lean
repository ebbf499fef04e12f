import TagLang.Edit

/-! # Diagnostics -/

namespace TagLang

inductive Severity
  | error
  | warning
  | info
deriving DecidableEq, Repr, Inhabited

namespace Severity

def label : Severity → String
  | .error => "error"
  | .warning => "warning"
  | .info => "info"

def ofLabel? (s : String) : Option Severity := [error, warning, info].find? (·.label = s)

end Severity

structure Diagnostic where
  code : String
  message : String
  line : Nat
  column : Nat
  length : Nat
  severity : Severity
  file : Option String := none
  suggestions : List String := []
  fix : Option Edit := none
deriving DecidableEq, Repr

namespace Diagnostic

def ofSpan (code : String) (severity : Severity) (message : String) (span : Span) : Diagnostic :=
  { code, message, line := span.line, column := span.col, length := span.size, severity }

def suggest (d : Diagnostic) (suggestion : String) : Diagnostic :=
  { d with suggestions := d.suggestions ++ [suggestion] }

def withFix (d : Diagnostic) (fix : Edit) : Diagnostic := { d.suggest fix.message with fix := some fix }

def isError (d : Diagnostic) : Bool := d.severity = .error

def placedBy (d e : Diagnostic) : Bool := d.line < e.line || (d.line == e.line && d.column ≤ e.column)

end Diagnostic

structure Bag where
  file : Option String := none
  list : List Diagnostic := []
deriving DecidableEq, Repr

namespace Bag

def push (b : Bag) (d : Diagnostic) : Bag :=
  { b with list := b.list ++ [{ d with file := d.file <|> b.file }] }

def extend (b : Bag) (ds : List Diagnostic) : Bag := ds.foldl push b

def hasErrors (b : Bag) : Bool := b.list.any (·.isError)

def count (b : Bag) (severity : Severity) : Nat := b.list.countP (·.severity = severity)

def withCode (b : Bag) (code : String) : List Diagnostic := b.list.filter (·.code = code)

/-- Orders the diagnostics by place; those at one place keep their order. -/
def sort (b : Bag) : Bag := { b with list := b.list.mergeSort Diagnostic.placedBy }

end Bag

end TagLang
