import TagLang.Bound
import TagLang.Number.Width

/-! # Types of operations -/

namespace TagLang

/-- The type of a binary operation. Comparisons and logical operators give a truth value; arithmetic
gives the wider float if an operand is a float, and otherwise the type of the left operand, as bit
operations do; `??` gives the type of its right operand if the left one is an option. -/
def BinOp.resultType (op : BinOp) (left right : Ty) : Ty :=
  if op.isComparison || op.isLogical then .bool
  else if op = .coalesce then
    match left with
    | .option _ => right
    | _ => left
  else if op.isArithmetic then
    match left, right with
    | .float a, .float b => .float (max a b)
    | .float a, _ => .float a
    | _, .float b => .float b
    | _, _ => left
  else left

def intRange (bits : Nat) (signed : Bool) : Int × Int :=
  let bits := min bits 64
  if signed then (leastSigned bits, twoPow (bits - 1) - 1)
  else (0, twoPow bits - 1)

namespace Ty

def ofLiteral (n : Int) : Ty := if fitsSigned 32 n then i32 else .int 64 true

def element : Ty → Ty
  | .array t => t
  | .named name [t] => if name = "List" || name = "IEnumerable" || name = "HashSet" then t else .unknown
  | .str => .char
  | .error => .error
  | _ => .unknown

def someType : Ty → Ty
  | .option t => t
  | _ => .unknown

def okType : Ty → Ty
  | .result ok _ => ok
  | _ => .unknown

def errType : Ty → Ty
  | .result _ err => err
  | _ => .unknown

end Ty

namespace Bound.Expr

/-- The value of an integer literal with or without a minus. The least integer of 64 bits has no
negation among them. -/
def literal? (e : Expr) : Option Int :=
  match e.kind with
  | .int n => some n
  | .unary .neg (.mk (.int n) _ _) => if n = leastSigned 64 then none else some (-n)
  | _ => none

def fitsLiteral (expected : Ty) (e : Expr) : Bool :=
  match expected, e.literal?, e.kind with
  | .int bits signed, some n, _ => (intRange bits signed).1 ≤ n && n ≤ (intRange bits signed).2
  | .float _, _, .float _ => true
  | _, _, _ => false

def fits (expected : Ty) (e : Expr) : Bool := expected.accepts e.ty || e.fitsLiteral expected

end Bound.Expr

end TagLang
