import TagLang.Logic.Bits
import TagLang.Tree.Operator

/-! # Formulas over bit-vectors

Terms and formulas of one kind: truth values, bit-vectors, and arrays that only appear as variables.
-/

namespace TagLang

inductive VarSort
  | bool
  | bitVec (width : Nat)
  | array (index element : Nat)
deriving DecidableEq, Repr, Inhabited

namespace VarSort

def width? : VarSort → Option Nat
  | .bitVec width => some width
  | _ => none

def isArray : VarSort → Bool
  | .array _ _ => true
  | _ => false

def render : VarSort → String
  | .bool => "Bool"
  | .bitVec width => s!"(_ BitVec {width})"
  | .array index element => s!"(Array (_ BitVec {index}) (_ BitVec {element}))"

end VarSort

inductive Formula
  | bool (value : Bool)
  | const (bits : UInt64) (width : Nat)
  | var (name : String) (sort : VarSort)
  | not (a : Formula)
  | and (parts : List Formula)
  | or (parts : List Formula)
  | xor (a b : Formula)
  | implies (a b : Formula)
  | eq (a b : Formula)
  | ite (test yes no : Formula)
  | binary (op : BitOp) (a b : Formula)
  | compare (cmp : BitCmp) (a b : Formula)
  | neg (a : Formula)
  | bitNot (a : Formula)
  | signExtend (more : Nat) (a : Formula)
  | zeroExtend (more : Nat) (a : Formula)
  | extract (count : Nat) (a : Formula)
  | select (array index : Formula)
  | quantifier (kind : QuantifierKind) (vars : List (String × VarSort)) (body : Formula)
deriving Repr, Inhabited

namespace Formula

def constant (value : Int) (width : Nat) : Formula := .const (Bits.ofInt value &&& Bits.mask width) width

def negation : Formula → Formula
  | .not a => a
  | a => .not a

def conjunction : List Formula → Formula
  | [] => .bool true
  | [a] => a
  | parts => .and parts

def sort : Formula → VarSort
  | .bool _ => .bool
  | .const _ width => .bitVec width
  | .var _ sort => sort
  | .not _ => .bool
  | .and _ => .bool
  | .or _ => .bool
  | .xor _ _ => .bool
  | .implies _ _ => .bool
  | .eq _ _ => .bool
  | .ite _ yes _ => yes.sort
  | .binary _ a _ => a.sort
  | .compare _ _ _ => .bool
  | .neg a => a.sort
  | .bitNot a => a.sort
  | .signExtend more a => .bitVec (a.sort.width?.getD 0 + more)
  | .zeroExtend more a => .bitVec (a.sort.width?.getD 0 + more)
  | .extract count _ => .bitVec count
  | .select array _ =>
    match array.sort with
    | .array _ element => .bitVec element
    | other => other
  | .quantifier _ _ _ => .bool

def width? (f : Formula) : Option Nat := f.sort.width?

mutual

def parts : Formula → List Formula
  | .not a => .not a :: parts a
  | .and ps => .and ps :: partsOf ps
  | .or ps => .or ps :: partsOf ps
  | .xor a b => .xor a b :: (parts a ++ parts b)
  | .implies a b => .implies a b :: (parts a ++ parts b)
  | .eq a b => .eq a b :: (parts a ++ parts b)
  | .ite c a b => .ite c a b :: (parts c ++ parts a ++ parts b)
  | .binary op a b => .binary op a b :: (parts a ++ parts b)
  | .compare cmp a b => .compare cmp a b :: (parts a ++ parts b)
  | .neg a => .neg a :: parts a
  | .bitNot a => .bitNot a :: parts a
  | .signExtend k a => .signExtend k a :: parts a
  | .zeroExtend k a => .zeroExtend k a :: parts a
  | .extract n a => .extract n a :: parts a
  | .select a i => .select a i :: (parts a ++ parts i)
  | .quantifier kind vars body => .quantifier kind vars body :: parts body
  | .bool value => [.bool value]
  | .const bits width => [.const bits width]
  | .var name sort => [.var name sort]

def partsOf : List Formula → List Formula
  | [] => []
  | f :: fs => parts f ++ partsOf fs

end

def hasQuantifier (f : Formula) : Bool := f.parts.any fun
  | .quantifier _ _ _ => true
  | _ => false

def hasArray (f : Formula) : Bool := f.parts.any fun
  | .select _ _ => true
  | _ => false

def constants (f : Formula) : List Int :=
  let all := f.parts.filterMap fun
    | .const bits width => some (Bits.toSigned bits width)
    | _ => none
  (all.mergeSort (· ≤ ·)).eraseReps

mutual

def freeIn (bound : List String) : Formula → List (String × VarSort)
  | .var name sort => if bound.contains name then [] else [(name, sort)]
  | .not a => freeIn bound a
  | .and ps => freeInAll bound ps
  | .or ps => freeInAll bound ps
  | .xor a b => freeIn bound a ++ freeIn bound b
  | .implies a b => freeIn bound a ++ freeIn bound b
  | .eq a b => freeIn bound a ++ freeIn bound b
  | .ite c a b => freeIn bound c ++ freeIn bound a ++ freeIn bound b
  | .binary _ a b => freeIn bound a ++ freeIn bound b
  | .compare _ a b => freeIn bound a ++ freeIn bound b
  | .neg a => freeIn bound a
  | .bitNot a => freeIn bound a
  | .signExtend _ a => freeIn bound a
  | .zeroExtend _ a => freeIn bound a
  | .extract _ a => freeIn bound a
  | .select a i => freeIn bound a ++ freeIn bound i
  | .quantifier _ vars body => freeIn (vars.map (·.1) ++ bound) body
  | .bool _ => []
  | .const _ _ => []

def freeInAll (bound : List String) : List Formula → List (String × VarSort)
  | [] => []
  | f :: fs => freeIn bound f ++ freeInAll bound fs

end

def firstOfName (seen : List String) : List (String × VarSort) → List (String × VarSort)
  | [] => []
  | (name, sort) :: rest =>
    if seen.contains name then firstOfName seen rest
    else (name, sort) :: firstOfName (name :: seen) rest

def freeVars (f : Formula) : List (String × VarSort) := firstOfName [] (f.freeIn [])

end Formula

end TagLang
