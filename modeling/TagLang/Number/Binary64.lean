import TagLang.Number.Width

/-! # Double-precision numbers

Reading a decimal is exact arithmetic on natural numbers with one rounding at the end.
-/

namespace TagLang

structure Binary64 where
  bits : UInt64
deriving DecidableEq, Repr, Inhabited

namespace Binary64

def roundDiv (num den : Nat) : Nat :=
  let q := num / den
  let r := num % den
  if den < 2 * r ∨ (2 * r = den ∧ q % 2 = 1) then q + 1 else q

def exponent (num den : Nat) : Int :=
  let k : Int := (num.log2 : Int) - (den.log2 : Int)
  let fits := if 0 ≤ k then den * twoPow k.toNat ≤ num else den ≤ num * twoPow (-k).toNat
  if fits then k else k - 1

def infinityBits : Nat := 0x7ff0000000000000

/-- The bits of the number nearest to `num / den`, without a sign. A mantissa that rounds up to the
next power of two carries into the exponent. -/
def magnitude (num den : Nat) : Nat :=
  if num = 0 then 0
  else
    let unit : Int := max (exponent num den - 52) (-1074)
    let mantissa :=
      if 0 ≤ unit then roundDiv num (den * twoPow unit.toNat)
        else roundDiv (num * twoPow (-unit).toNat) den
    min ((unit + 1074).toNat * twoPow 52 + mantissa) infinityBits

/-- Whether the number nearest to `mantissa * 10 ^ power` is finite. What is far outside the range,
or far inside it, is decided by the number of digits. -/
def inRange (mantissa : Nat) (power : Int) : Bool :=
  let order := (Nat.toDigits 10 mantissa).length + power
  if mantissa = 0 || order ≤ 308 then true
  else if 310 < order then false
  else magnitude (mantissa * Nat.pow 10 power.toNat) (Nat.pow 10 (-power).toNat) < infinityBits

def nearestWhole (n : Nat) : Nat :=
  let unit := twoPow (n.log2 - 52)
  roundDiv n unit * unit

/-- Whether `mantissa * 10 ^ power` is finite if it is computed as a product of doubles, each of
which is rounded before the product is. No power above 308 is finite. -/
def productInRange (mantissa power : Nat) : Bool :=
  mantissa = 0 ||
    (power ≤ 308 && nearestWhole (nearestWhole mantissa * nearestWhole (Nat.pow 10 power)) < twoPow 1024)

def signBit : UInt64 := 0x8000000000000000

def ofDecimal (negative : Bool) (digits places : Nat) : Binary64 :=
  let bits := (magnitude digits (Nat.pow 10 places)).toUInt64
  ⟨if negative then bits ||| signBit else bits⟩

def neg (x : Binary64) : Binary64 := ⟨x.bits ^^^ signBit⟩

def isFinite (x : Binary64) : Bool := (x.bits >>> 52) &&& 0x7ff != 0x7ff

end Binary64

end TagLang
