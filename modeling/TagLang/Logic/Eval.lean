import TagLang.Logic.Formula

/-! # Values of formulas

Evaluation is exact. A quantifier over a large domain tries boundary values, which decide it only if
one of them is a witness.
-/

namespace TagLang

inductive BitValue
  | bool (value : Bool)
  | bits (word : UInt64) (width : Nat)
deriving DecidableEq, Repr, Inhabited

inductive EvalError
  | unbound (name : String)
  | sortMismatch (expected : String)
  | array
  | undecided
deriving DecidableEq, Repr, Inhabited

def EvalError.message : EvalError → String
  | .unbound name => s!"unbound variable '{name}'"
  | .sortMismatch expected => s!"sort mismatch: expected {expected}"
  | .array => "arrays cannot be evaluated"
  | .undecided => "quantifier could not be decided by sampling"

namespace BitValue

def ofBits (word : UInt64) (width : Nat) : BitValue := .bits (word &&& Bits.mask width) width

def asBool : BitValue → Except EvalError Bool
  | .bool value => .ok value
  | .bits _ _ => .error (.sortMismatch "a boolean")

def asBits : BitValue → Except EvalError (UInt64 × Nat)
  | .bits word width => .ok (word, width)
  | .bool _ => .error (.sortMismatch "a bit-vector")

def toInt? (signed : Bool) : BitValue → Option Int
  | .bits word width => some (if signed then Bits.toSigned word width else word.toNat)
  | .bool _ => none

end BitValue

namespace Bits

def smallNumbers : List Int :=
  [0, 0, 1, -1, 2, -2, 3, -3, 4, -4, 7, 8, 10, 16, 100, 127, 128, 255, 256, -100, -128, -129]

def boundary (width : Nat) : List UInt64 :=
  let m := mask width
  let largest := m >>> 1
  let smallest := (largest + 1) &&& m
  let ends := [largest, (largest - 1) &&& m, smallest, (smallest + 1) &&& m, m]
  (smallNumbers.map (ofInt · &&& m) ++ ends).eraseDups

end Bits

namespace VarSort

def enumerableWidth : Nat := 8

def domain? : VarSort → Option (List BitValue)
  | .bool => some [.bool false, .bool true]
  | .bitVec width =>
    if width ≤ enumerableWidth then
      some ((List.range (twoPow width)).map fun n => .ofBits (.ofNat n) width)
    else none
  | .array _ _ => none

def samples : VarSort → Except EvalError (List BitValue × Bool)
  | .bitVec width =>
    match (VarSort.bitVec width).domain? with
    | some values => .ok (values, true)
    | none => .ok ((Bits.boundary width).map (BitValue.ofBits · width), false)
  | .bool => .ok ([.bool false, .bool true], true)
  | .array _ _ => .error .array

end VarSort

abbrev Assignment := List (String × BitValue)

namespace Formula

/-- Tries values one after the other for one that makes `body` differ from what a quantifier needs
everywhere. A body that cannot be decided leaves the quantifier undecided, unless a witness follows. -/
def tryValues (universal : Bool) (body : BitValue → Except EvalError BitValue) (undecided : Bool) :
    List BitValue → Except EvalError (Option Bool)
  | [] => .ok (some undecided)
  | v :: vs =>
    match body v with
    | .ok r =>
      match r.asBool with
      | .ok b => if b = universal then tryValues universal body undecided vs else .ok none
      | .error e => .error e
    | .error .undecided => tryValues universal body true vs
    | .error e => .error e

def quantify (universal : Bool) (body : Assignment → Except EvalError BitValue) :
    List (String × VarSort) → Assignment → Except EvalError BitValue
  | [], env => body env
  | (name, sort) :: vars, env => do
    let (values, complete) ← sort.samples
    match ← tryValues universal (fun v => quantify universal body vars ((name, v) :: env))
      false values with
    | none => return .bool (!universal)
    | some undecided => if complete && !undecided then return .bool universal else throw .undecided

mutual

def eval (env : Assignment) : Formula → Except EvalError BitValue
  | .bool value => .ok (.bool value)
  | .const bits width => .ok (.ofBits bits width)
  | .var name sort =>
    if sort.isArray then .error .array
    else match env.lookup name with
      | some v => .ok v
      | none => .error (.unbound name)
  | .not a => do return .bool (!(← (← eval env a).asBool))
  | .and parts => do return .bool (← allHold env parts)
  | .or parts => do return .bool (← anyHolds env parts)
  | .xor a b => do
    let x ← (← eval env a).asBool
    let y ← (← eval env b).asBool
    return .bool (x != y)
  | .implies a b => do
    if ← (← eval env a).asBool then return .bool (← (← eval env b).asBool)
    else return .bool true
  | .eq a b => do
    let x ← eval env a
    let y ← eval env b
    return .bool (x == y)
  | .ite c a b => do
    if ← (← eval env c).asBool then eval env a else eval env b
  | .binary op a b => do
    let (x, width) ← (← eval env a).asBits
    let (y, _) ← (← eval env b).asBits
    return .ofBits (op.apply x y width) width
  | .compare cmp a b => do
    let (x, width) ← (← eval env a).asBits
    let (y, _) ← (← eval env b).asBits
    return .bool (cmp.holds x y width)
  | .neg a => do
    let (x, width) ← (← eval env a).asBits
    return .ofBits (-x) width
  | .bitNot a => do
    let (x, width) ← (← eval env a).asBits
    return .ofBits (~~~x) width
  | .signExtend more a => do
    let (x, width) ← (← eval env a).asBits
    return .ofBits (Bits.ofInt (Bits.toSigned x width)) (width + more)
  | .zeroExtend more a => do
    let (x, width) ← (← eval env a).asBits
    return .ofBits x (width + more)
  | .extract count a => do
    let (x, _) ← (← eval env a).asBits
    return .ofBits x count
  | .select _ _ => .error .array
  | .quantifier kind vars body =>
    quantify (kind = .universal) (fun env => eval env body) vars env

def allHold (env : Assignment) : List Formula → Except EvalError Bool
  | [] => .ok true
  | f :: fs => do
    if ← (← eval env f).asBool then allHold env fs else return false

def anyHolds (env : Assignment) : List Formula → Except EvalError Bool
  | [] => .ok false
  | f :: fs => do
    if ← (← eval env f).asBool then return true else anyHolds env fs

end

end Formula

end TagLang
