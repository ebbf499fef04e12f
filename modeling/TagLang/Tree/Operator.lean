/-! # Operators -/

namespace TagLang

inductive BinOp
  | add
  | sub
  | mul
  | div
  | mod
  | eq
  | notEq
  | lt
  | ltEq
  | gt
  | gtEq
  | and
  | or
  | bitAnd
  | bitOr
  | bitXor
  | shl
  | shr
  | coalesce
  | implies
deriving DecidableEq, Repr, Inhabited

namespace BinOp

def all : List BinOp :=
  [.add, .sub, .mul, .div, .mod, .eq, .notEq, .lt, .ltEq, .gt, .gtEq, .and, .or, .bitAnd, .bitOr, .bitXor,
    .shl, .shr, .coalesce, .implies]

/-- How tightly the operator binds; a higher level binds tighter. -/
def precedence : BinOp → Nat
  | .implies => 1
  | .coalesce => 2
  | .or => 3
  | .and => 4
  | .bitOr => 5
  | .bitXor => 6
  | .bitAnd => 7
  | .eq => 8
  | .notEq => 8
  | .lt => 9
  | .ltEq => 9
  | .gt => 9
  | .gtEq => 9
  | .shl => 10
  | .shr => 10
  | .add => 11
  | .sub => 11
  | .mul => 12
  | .div => 12
  | .mod => 12

def isRightAssoc (op : BinOp) : Bool := op = .implies

def isComparison (op : BinOp) : Bool := [.eq, .notEq, .lt, .ltEq, .gt, .gtEq].contains op

def isLogical (op : BinOp) : Bool := [.and, .or, .implies].contains op

def isArithmetic (op : BinOp) : Bool := [.add, .sub, .mul, .div, .mod].contains op

def isBitwise (op : BinOp) : Bool := [.bitAnd, .bitOr, .bitXor, .shl, .shr].contains op

def sign : BinOp → String
  | .add => "+"
  | .sub => "-"
  | .mul => "*"
  | .div => "/"
  | .mod => "%"
  | .eq => "=="
  | .notEq => "!="
  | .lt => "<"
  | .ltEq => "<="
  | .gt => ">"
  | .gtEq => ">="
  | .and => "&&"
  | .or => "||"
  | .bitAnd => "&"
  | .bitOr => "|"
  | .bitXor => "^"
  | .shl => "<<"
  | .shr => ">>"
  | .coalesce => "??"
  | .implies => "=>"

end BinOp

inductive UnaryOp
  | neg
  | not
  | bitNot
deriving DecidableEq, Repr, Inhabited

def UnaryOp.sign : UnaryOp → String
  | .neg => "-"
  | .not => "!"
  | .bitNot => "~"

inductive QuantifierKind
  | universal
  | existential
deriving DecidableEq, Repr, Inhabited

end TagLang
