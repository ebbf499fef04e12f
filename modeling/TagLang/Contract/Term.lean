import TagLang.Logic.Formula
import TagLang.Number.Width
import TagLang.Source.Span
import TagLang.Ty

/-! # Terms of contracts

A formula with the type that it carries. An integer literal also keeps its value, so that it can
take another type.
-/

namespace TagLang

inductive TermType
  | bool
  | int (width : Nat) (signed : Bool)
deriving DecidableEq, Repr, Inhabited

namespace TermType

def ofTy? : Ty → Option TermType
  | .bool => some .bool
  | .int bits signed => if [8, 16, 32, 64].contains bits then some (.int bits signed) else none
  | _ => none

def sort : TermType → VarSort
  | .bool => .bool
  | .int width _ => .bitVec width

end TermType

structure Term where
  formula : Formula
  ty : TermType
  literal : Option Int := none
deriving Repr, Inhabited

inductive EncodeFault
  | unsupported (construct : String)
  | unsupportedType (name type : String)
  | unknownVariable (name : String)
  | sortMismatch (op : String)
deriving DecidableEq, Repr, Inhabited

structure EncodeError where
  fault : EncodeFault
  span : Span
deriving DecidableEq, Repr, Inhabited

def EncodeError.message (e : EncodeError) : String :=
  match e.fault with
  | .unsupported construct => s!"{construct} cannot be verified"
  | .unsupportedType name type => s!"'{name}' has type {type}, which cannot be verified"
  | .unknownVariable name => s!"'{name}' is not available to the verifier"
  | .sortMismatch op => s!"operands of '{op}' have incompatible types"

namespace Term

def var (name : String) (ty : TermType) : Term := { formula := .var name ty.sort, ty }

def ofLiteral (value : Int) : Term :=
  let width := if fitsSigned 32 value then 32 else 64
  { formula := .constant value width, ty := .int width true, literal := some value }

def isSigned (t : Term) : Bool :=
  match t.ty with
  | .int _ signed => signed
  | .bool => false

def width? (t : Term) : Option Nat :=
  match t.ty with
  | .int width _ => some width
  | .bool => none

def isNonnegativeLiteral (t : Term) : Bool := t.literal.any (0 ≤ ·)

def extendTo (t : Term) (width : Nat) : Formula :=
  match t.ty with
  | .int w signed =>
    if w < width then
      if signed then .signExtend (width - w) t.formula else .zeroExtend (width - w) t.formula
    else t.formula
  | .bool => t.formula

/-- Whether an operation on two terms is signed. If the terms differ, it is unsigned only if the
signed one is a literal that is not negative. -/
def signedWith (a b : Term) : Bool :=
  match a.isSigned, b.isSigned with
  | true, true => true
  | false, false => false
  | true, false => !a.isNonnegativeLiteral
  | false, true => !b.isNonnegativeLiteral

def unify (a b : Term) : Formula × Formula × Nat :=
  let width := max (a.width?.getD 0) (b.width?.getD 0)
  (a.extendTo width, b.extendTo width, width)

/-- The negated term. The least integer of 64 bits has no negation among them. -/
def negated (t : Term) : Term where
  formula := .neg t.formula
  ty := t.ty
  literal := t.literal.bind fun v => if v = leastSigned 64 then none else some (-v)

/-- The term at another type: literals are written anew, narrower integers are extended, and wider
ones are cut to their low bits. -/
def coerce (t : Term) (target : TermType) (span : Span) : Except EncodeError Term :=
  match t.ty, target with
  | .bool, .bool => .ok t
  | .int width _, .int wanted _ =>
    match t.literal with
    | some v => .ok { formula := .constant v wanted, ty := target, literal := some v }
    | none =>
      if wanted < width then .ok { formula := .extract wanted t.formula, ty := target }
      else .ok { formula := t.extendTo wanted, ty := target }
  | _, _ => .error ⟨.sortMismatch "return", span⟩

/-! ## Operators -/

def logical? (op : BinOp) (a b : Formula) : Option Formula :=
  match op with
  | .and => some (.and [a, b])
  | .bitAnd => some (.and [a, b])
  | .or => some (.or [a, b])
  | .bitOr => some (.or [a, b])
  | .bitXor => some (.xor a b)
  | .implies => some (.implies a b)
  | .eq => some (.eq a b)
  | .notEq => some (.negation (.eq a b))
  | _ => none

/-- An operation on two integers. A shift has the sign of what is shifted. -/
def arithmetic? (op : BinOp) (left right : Term) : Option Term :=
  let signed := left.signedWith right
  let (a, b, width) := left.unify right
  let compare (s u : BitCmp) : Term := { formula := .compare (if signed then s else u) a b, ty := .bool }
  let compute (f : BitOp) : Term := { formula := .binary f a b, ty := .int width signed }
  let shift (f : BitOp) : Term := { formula := .binary f a b, ty := .int width left.isSigned }
  match op with
  | .eq => some { formula := .eq a b, ty := .bool }
  | .notEq => some { formula := .negation (.eq a b), ty := .bool }
  | .lt => some (compare .slt .ult)
  | .ltEq => some (compare .sle .ule)
  | .gt => some (compare .sgt .ugt)
  | .gtEq => some (compare .sge .uge)
  | .add => some (compute .add)
  | .sub => some (compute .sub)
  | .mul => some (compute .mul)
  | .div => some (compute (if signed then .sDiv else .uDiv))
  | .mod => some (compute (if signed then .sRem else .uRem))
  | .bitAnd => some (compute .and)
  | .bitOr => some (compute .or)
  | .bitXor => some (compute .xor)
  | .shl => some (shift .shl)
  | .shr => some (shift (if left.isSigned then .aShr else .lShr))
  | _ => none

def binary? (op : BinOp) (left right : Term) : Option Term :=
  match left.ty, right.ty with
  | .bool, .bool => (logical? op left.formula right.formula).map fun f => { formula := f, ty := .bool }
  | .int _ _, .int _ _ => arithmetic? op left right
  | _, _ => none

def unary? (op : UnaryOp) (t : Term) : Option Term :=
  match op, t.ty with
  | .not, .bool => some { formula := .negation t.formula, ty := .bool }
  | .neg, .int _ _ => some t.negated
  | .bitNot, .int _ _ => some { formula := .bitNot t.formula, ty := t.ty }
  | _, _ => none

def choose? (test : Formula) (a b : Term) : Option Term :=
  match a.ty, b.ty with
  | .bool, .bool => some { formula := .ite test a.formula b.formula, ty := .bool }
  | .int _ _, .int _ _ =>
    let (x, y, width) := a.unify b
    some { formula := .ite test x y, ty := .int width (a.signedWith b) }
  | _, _ => none

end Term

end TagLang
