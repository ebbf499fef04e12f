import TagLang.Number.Width

/-! # Machine words

A bit-vector of at most 64 bits is a word whose bits beyond the width are zero. The operations are
those of two's complement, with division by zero defined as in the theory of fixed-size bit-vectors.
-/

namespace TagLang

namespace Bits

def mask (width : Nat) : UInt64 :=
  if 64 ≤ width then 0xFFFFFFFFFFFFFFFF else (1 <<< UInt64.ofNat width) - 1

def ofInt (n : Int) : UInt64 := UInt64.ofNat (n % twoPow 64).toNat

def isNegative (bits : UInt64) (width : Nat) : Bool := bits >>> UInt64.ofNat (width - 1) &&& 1 = 1

def toSigned (bits : UInt64) (width : Nat) : Int :=
  let width := min width 64
  let bits := bits &&& mask width
  if isNegative bits width then (bits.toNat : Int) - twoPow width else bits.toNat

def negate (bits : UInt64) (width : Nat) : UInt64 := -bits &&& mask width

def divide (x y : UInt64) (width : Nat) : UInt64 := if y = 0 then mask width else x / y

def remainder (x y : UInt64) : UInt64 := if y = 0 then x else x % y

end Bits

inductive BitOp
  | add
  | sub
  | mul
  | sDiv
  | uDiv
  | sRem
  | uRem
  | and
  | or
  | xor
  | shl
  | lShr
  | aShr
deriving DecidableEq, Repr, Inhabited

namespace BitOp

def all : List BitOp := [add, sub, mul, sDiv, uDiv, sRem, uRem, and, or, xor, shl, lShr, aShr]

def text : BitOp → String
  | .add => "bvadd"
  | .sub => "bvsub"
  | .mul => "bvmul"
  | .sDiv => "bvsdiv"
  | .uDiv => "bvudiv"
  | .sRem => "bvsrem"
  | .uRem => "bvurem"
  | .and => "bvand"
  | .or => "bvor"
  | .xor => "bvxor"
  | .shl => "bvshl"
  | .lShr => "bvlshr"
  | .aShr => "bvashr"

open Bits

def signedDivide (x y : UInt64) (width : Nat) : UInt64 :=
  match isNegative x width, isNegative y width with
  | false, false => divide x y width
  | true, false => negate (divide (negate x width) y width) width
  | false, true => negate (divide x (negate y width) width) width
  | true, true => divide (negate x width) (negate y width) width

def signedRemainder (x y : UInt64) (width : Nat) : UInt64 :=
  match isNegative x width, isNegative y width with
  | false, false => remainder x y
  | true, false => negate (remainder (negate x width) y) width
  | false, true => remainder x (negate y width)
  | true, true => negate (remainder (negate x width) (negate y width)) width

def apply (op : BitOp) (x y : UInt64) (width : Nat) : UInt64 :=
  match op with
  | .add => x + y
  | .sub => x - y
  | .mul => x * y
  | .sDiv => signedDivide x y width
  | .uDiv => divide x y width
  | .sRem => signedRemainder x y width
  | .uRem => remainder x y
  | .and => x &&& y
  | .or => x ||| y
  | .xor => x ^^^ y
  | .shl => if width ≤ y.toNat then 0 else x <<< y
  | .lShr => if width ≤ y.toNat then 0 else x >>> y
  | .aShr => ofInt (toSigned x width >>> min y.toNat (width - 1))

end BitOp

inductive BitCmp
  | slt
  | sle
  | sgt
  | sge
  | ult
  | ule
  | ugt
  | uge
deriving DecidableEq, Repr, Inhabited

namespace BitCmp

def all : List BitCmp := [slt, sle, sgt, sge, ult, ule, ugt, uge]

def text : BitCmp → String
  | .slt => "bvslt"
  | .sle => "bvsle"
  | .sgt => "bvsgt"
  | .sge => "bvsge"
  | .ult => "bvult"
  | .ule => "bvule"
  | .ugt => "bvugt"
  | .uge => "bvuge"

open Bits

def holds (cmp : BitCmp) (x y : UInt64) (width : Nat) : Bool :=
  match cmp with
  | .slt => toSigned x width < toSigned y width
  | .sle => toSigned x width ≤ toSigned y width
  | .sgt => toSigned y width < toSigned x width
  | .sge => toSigned y width ≤ toSigned x width
  | .ult => x < y
  | .ule => x ≤ y
  | .ugt => y < x
  | .uge => y ≤ x

end BitCmp

end TagLang
