/-! # Types

The types that source texts can name, and three that only the analyses produce: the type of `null`,
the type of what cannot be inferred, and the type of what was already reported.
-/

namespace TagLang

inductive Ty
  | int (bits : Nat) (signed : Bool)
  | float (bits : Nat)
  | bool
  | str
  | char
  | void
  | object
  | null
  | option (inner : Ty)
  | result (ok err : Ty)
  | array (element : Ty)
  | named (name : String) (args : List Ty)
  | function (params : List Ty) (result : Ty)
  | unknown
  | error
deriving Repr, Inhabited

namespace Ty

mutual

def same : Ty → Ty → Bool
  | .int a s, .int b t => a == b && s == t
  | .float a, .float b => a == b
  | .bool, .bool => true
  | .str, .str => true
  | .char, .char => true
  | .void, .void => true
  | .object, .object => true
  | .null, .null => true
  | .option a, .option b => a.same b
  | .result a e, .result b f => a.same b && e.same f
  | .array a, .array b => a.same b
  | .named m as, .named n bs => m == n && sameAll as bs
  | .function as r, .function bs s => sameAll as bs && r.same s
  | .unknown, .unknown => true
  | .error, .error => true
  | _, _ => false

def sameAll : List Ty → List Ty → Bool
  | [], [] => true
  | a :: as, b :: bs => a.same b && sameAll as bs
  | _, _ => false

end

mutual

theorem same_iff : ∀ a b : Ty, a.same b = true ↔ a = b
  | .int _ _, b => by cases b <;> simp [same]
  | .float _, b => by cases b <;> simp [same]
  | .bool, b => by cases b <;> simp [same]
  | .str, b => by cases b <;> simp [same]
  | .char, b => by cases b <;> simp [same]
  | .void, b => by cases b <;> simp [same]
  | .object, b => by cases b <;> simp [same]
  | .null, b => by cases b <;> simp [same]
  | .option a, b => by cases b <;> simp [same, same_iff a]
  | .result a e, b => by cases b <;> simp [same, same_iff a, same_iff e]
  | .array a, b => by cases b <;> simp [same, same_iff a]
  | .named _ as, b => by cases b <;> simp [same, sameAll_iff as]
  | .function as r, b => by cases b <;> simp [same, sameAll_iff as, same_iff r]
  | .unknown, b => by cases b <;> simp [same]
  | .error, b => by cases b <;> simp [same]

theorem sameAll_iff : ∀ as bs : List Ty, sameAll as bs = true ↔ as = bs
  | [], bs => by cases bs <;> simp [sameAll]
  | a :: as, bs => by cases bs <;> simp [sameAll, same_iff a, sameAll_iff as]

end

instance : DecidableEq Ty := fun a b => decidable_of_iff _ (same_iff a b)

def i32 : Ty := .int 32 true

def isInteger : Ty → Bool
  | .int _ _ => true
  | _ => false

def isFloat : Ty → Bool
  | .float _ => true
  | _ => false

def isNumeric (t : Ty) : Bool := t.isInteger || t.isFloat

def isIndeterminate : Ty → Bool
  | .unknown => true
  | .error => true
  | _ => false

def bitWidth? : Ty → Option Nat
  | .int bits _ => some bits
  | .float bits => some bits
  | .bool => some 1
  | _ => none

def isSigned : Ty → Bool
  | .int _ signed => signed
  | .float _ => true
  | _ => false

/-- Whether a value of the second type may stand where the first is required: the types are the
same, one is indeterminate, a number widens, `null` enters a reference, or a plain value enters an
option. -/
def accepts (want given : Ty) : Bool :=
  if want = given || want.isIndeterminate || given.isIndeterminate then true
  else match want, given with
    | .int a _, .int b _ => b ≤ a
    | .float _, .int _ _ => true
    | .float a, .float b => b ≤ a
    | .str, .null => true
    | .named _ _, .null => true
    | .array _, .null => true
    | .option _, .null => true
    | .option a, .option b => a.accepts b
    | .option a, b => a.accepts b
    | .result a e, .result b f => a.accepts b && e.accepts f
    | .array a, .array b => a.accepts b
    | .object, _ => true
    | _, _ => false

def targetName : Ty → String
  | .int 8 true => "System.SByte"
  | .int 8 false => "System.Byte"
  | .int 16 true => "System.Int16"
  | .int 16 false => "System.UInt16"
  | .int 32 false => "System.UInt32"
  | .int 64 true => "System.Int64"
  | .int 64 false => "System.UInt64"
  | .int _ _ => "System.Int32"
  | .float 32 => "System.Single"
  | .float _ => "System.Double"
  | .bool => "System.Boolean"
  | .str => "System.String"
  | .char => "System.Char"
  | .void => "System.Void"
  | .option inner => inner.targetName ++ "?"
  | .array element => element.targetName ++ "[]"
  | .named name _ => name
  | _ => "System.Object"

def receiverName : Ty → String
  | .named name _ => name
  | .array _ => "List"
  | t => t.targetName

mutual

def render : Ty → String
  | .int bits signed => (if signed then "i" else "u") ++ toString bits
  | .float bits => "f" ++ toString bits
  | .bool => "bool"
  | .str => "str"
  | .char => "char"
  | .void => "void"
  | .object => "object"
  | .null => "null"
  | .option inner => "?" ++ inner.render
  | .result ok err => "Result<" ++ ok.render ++ "," ++ err.render ++ ">"
  | .array element => element.render ++ "[]"
  | .named name [] => name
  | .named name (a :: as) => name ++ "<" ++ ",".intercalate (a.render :: renderAll as) ++ ">"
  | .function params ret => "fn(" ++ ",".intercalate (renderAll params) ++ ") -> " ++ ret.render
  | .unknown => "?unknown"
  | .error => "<error>"

def renderAll : List Ty → List String
  | [] => []
  | t :: ts => t.render :: renderAll ts

end

end Ty

end TagLang
